import TLiveOmni.LoopInv
import TLiveOmni.RopeIndex

/-! The scanning loop of `get_rope_index` reads a well-formed sequence span by span. -/
set_option autoImplicit false

namespace TLiveOmni
namespace RopeIndex
open PySeq

section Locate
variable (env : MediaArgs) {tokens : List Token} {s : State} {q n : Nat} {x : Token}

theorem locate_vision (h : VisionAhead tokens s.st q x n)
    (hrem : 0 < s.remainVideos ∨ 0 < s.remainImages) :
    ∃ loc, locate env tokens s = .ok loc ∧ loc.edVisionStart = q ∧
      loc.edVisionEnd = some (q+1+n) ∧ q+1+n < loc.edAudioStart := by
  refine ⟨⟨q,some (q+1+n),if 0 < s.remainAudios then
    (indexFrom .audioStart s.st tokens).getD (tokens.length+1) else tokens.length+1⟩,?_,rfl,rfl,?_⟩
  · have hnot : ¬ (indexFrom .audioStart s.st tokens).getD (tokens.length+1) < q+1+n := by
      have := h.audio
      omega
    simp only [locate,h.remains _ _ hrem,if_true,h.vs,h.ve,ok_bind,pure_eq_ok,hnot,decide_false]
    split <;> simp
  · have hl := h.len
    have ha := h.audio
    dsimp only
    split <;> omega

theorem locate_audio {images grids : Nat} (h : AudioAhead tokens s.st q n images grids)
    (hi : s.remainImages = images) (hv : s.remainVideos = grids) (ha : 0 < s.remainAudios) :
    ∃ loc, locate env tokens s = .ok loc ∧ loc.edAudioStart = q ∧ q < loc.edVisionStart := by
  have hl := h.len
  by_cases hr : visionRemains tokens s.remainVideos s.remainImages = true
  · have hpos : 0 < images ∨ 0 < grids := by
      simp only [visionRemains,Bool.and_eq_true,Bool.or_eq_true,decide_eq_true_eq] at hr
      omega
    obtain ⟨a,b,hvs,hve,hlt⟩ := h.vision hpos
    refine ⟨⟨a,some b,q⟩,?_,rfl,hlt⟩
    simp [locate,hr,hvs,hve,h.audio,ha]
  · refine ⟨⟨tokens.length+1,s.edVisionEnd,q⟩,?_,rfl,by dsimp only; omega⟩
    have hnot : ¬ tokens.length+1 < q := by omega
    simp [locate,hr,h.audio,hnot,ha]

theorem locate_av {j : Nat} (h : AvAhead tokens s.st q n j) (hu : env.useAudioInVideo = true)
    (hrem : 0 < s.remainVideos) :
    locate env tokens s = .ok ⟨q,some (q+3+n+j),q+1⟩ := by
  have hlt : q+1 < q+3+n+j := by omega
  simp [locate,h.remains _ _ (.inl hrem),h.vs,h.ve,h.audio,hu,hlt]

theorem openSpan_eq (loc : Located) (b : Int) (text : List Nat)
    (hmin : loc.minEd = s.st+text.length) :
    openSpan s loc b = .ok (s.blocks ++ Item.textBlocks text b ++ [arange3 1 (b+text.length)],
      b+text.length+1,text.length) := by
  have hlen : (loc.minEd : Int) - s.st = text.length := by rw [hmin]; push_cast; omega
  have hnn : ¬ (text.length : Int) < 0 := by omega
  by_cases ht : text = [] <;> simp [openSpan,hlen,Item.textBlocks,ht,raiseIf_of_not]

end Locate

section Branches
variable (cfg : Config) (vis : LlmPosIdsForVision) (env : MediaArgs) {tokens : List Token}

theorem audioOnly_eq {s : State} {a : AudioClip} {auds : List Nat}
    (h : Remaining env.audioSeqlens s.audioIdx (a.featureLen :: auds))
    (bs : List Block) (b : Int) (textLen : Nat) :
    audioOnly env s bs b textLen = .ok ({ s with
      blocks := bs ++ [arange3 a.tokens b]
      st := s.st+textLen+a.tokens+2
      audioIdx := s.audioIdx+1
      remainAudios := s.remainAudios-1 },1) := by
  obtain ⟨all,ho,-,hget⟩ := h.getItem
  have hst : (s.st+((textLen : Int)+1+(a.tokens : Int)+1)).toNat = s.st+textLen+a.tokens+2 := by
    omega
  simp only [audioOnly,ho,hget,pure_eq_ok,ok_bind,← a.tokens_cast,Int.toNat_natCast,hst]

theorem imageOnly_eq {s : State} {g : Grid cfg.spatialMergeSize}
    {imgs : List (Grid cfg.spatialMergeSize)}
    (h : Remaining env.imageGridThw s.imageIdx ((g :: imgs).map Grid.thw))
    (bs : List Block) (b : Int) (textLen : Nat) :
    imageOnly cfg vis env s bs b textLen = .ok ({ s with
      blocks := bs ++ Media.contentBlocks cfg.positionIdPerSeconds b (.image g)
      st := s.st+textLen+g.t*g.toFrame.tokens+2
      imageIdx := s.imageIdx+1
      remainImages := s.remainImages-1 },1) := by
  obtain ⟨all,ho,hx,hget⟩ := h.getItem
  have hlen := g.prod_div_sq
  have hrun := vis.layout b s.imageIdx cfg.spatialMergeSize
    ((List.range g.t).map fun i : Nat => ((i*cfg.positionIdPerSeconds : Nat) : Int))
    (all.map Thw.h) (all.map Thw.w) g.h g.w (by simp [hx,Grid.thw]) (by simp [hx,Grid.thw])
  have hst : (s.st+((textLen : Int)+1+((g.t*g.toFrame.tokens : Nat) : Int)+1)).toNat =
      s.st+textLen+g.t*g.toFrame.tokens+2 := by omega
  simp only [imageOnly,ho,hget,pure_eq_ok,ok_bind,hlen,hst]
  simp only [Grid.thw,hrun]
  rfl

theorem videoOnly_eq {s : State} {f : Frame cfg.spatialMergeSize} {last : Bool}
    {gs : List (Frame cfg.spatialMergeSize × Bool)}
    (h : Remaining env.videoGridThw s.videoIdx (((f,last) :: gs).map fun g => ⟨1,g.1.h,g.1.w⟩))
    (hsec : s.videoIdx < env.secondPerGrids.length) (bs : List Block) (b : Int) (textLen : Nat) :
    videoOnly cfg env s bs b textLen = .ok ({ s with
      blocks := bs ++ [rowMajor b [0] f.rows f.cols]
      st := s.st+textLen+f.tokens+2
      videoIdx := s.videoIdx+1
      remainVideos := s.remainVideos-1 },1) := by
  obtain ⟨all,ho,-,hget⟩ := h.getItem
  have hs : getItem env.secondPerGrids s.videoIdx = .ok env.secondPerGrids[s.videoIdx] := by
    simp [getItem,List.getElem?_eq_getElem hsec]
  have hst : (s.st+((textLen : Int)+1+(f.tokens : Int)+1)).toNat = s.st+textLen+f.tokens+2 := by
    omega
  simp only [videoOnly,ho,hget,hs,pure_eq_ok,ok_bind,temporalIndex_one,visionGrid_eq_rowMajor,
    Nat.one_mul,f.mul_div_sq,hst]
  rfl

theorem findAudioEnd_eq {n j a : Nat} {rest : List Token} (ha : a < tokens.length)
    (hbody : tokens.drop (a+1) = List.replicate n .videoPad ++ (List.replicate j .audioPad ++
      .audioEnd :: .visionEnd :: rest)) :
    findAudioEndTokenIndice (indicesOf .audioEnd tokens) a = .ok (a+1+(n+j)) := by
  have hmin : ((indicesOf .audioEnd tokens).filter fun i => decide (a < i)).min? =
      some (a+1+(n+j)) := by
    rw [filter_indicesOf _ _ ha,indicesOf_avBody hbody,List.min?_eq_some_iff]
    refine ⟨by simp,?_⟩
    intro i hi
    simp only [List.map_cons,List.mem_cons,List.map_map,List.mem_map,Function.comp] at hi
    rcases hi with rfl | ⟨k,-,rfl⟩ <;> omega
  simp [findAudioEndTokenIndice,hmin]

theorem audioInVideo_eq {s : State} {f : Frame cfg.spatialMergeSize} {track : Option Nat}
    {gs : List (Frame cfg.spatialMergeSize × Bool)} {q j : Nat}
    (hav : AvAhead tokens s.st q f.tokens j)
    (h : Remaining env.videoGridThw s.videoIdx
      (((f,track.isSome) :: gs).map fun g => ⟨1,g.1.h,g.1.w⟩))
    (hsec : s.videoIdx < env.secondPerGrids.length)
    (hend : s.videoIdx+1 ∈ env.videoChunkEndIndices ↔ track.isSome = true)
    (bs : List Block) (b : Int) (textLen : Nat) :
    audioInVideo cfg env tokens s ⟨q,some (q+3+f.tokens+j),q+1⟩ (q+3+f.tokens+j) bs b textLen =
      .ok ({ s with
        blocks := bs ++ (arange3 1 b :: Media.contentBlocks cfg.positionIdPerSeconds
          (b+1) (.avGrid f j track))
        st := s.st+textLen+f.tokens+j+4
        videoIdx := s.videoIdx+1
        audioIdx := if track.isSome then s.audioIdx+1 else s.audioIdx
        remainVideos := s.remainVideos-1 },2) := by
  obtain ⟨all,ho,-,hget⟩ := h.getItem
  obtain ⟨rest,hbody⟩ := hav.body
  have hlen := hav.len
  have hs : getItem env.secondPerGrids s.videoIdx = .ok env.secondPerGrids[s.videoIdx] := by
    simp [getItem,List.getElem?_eq_getElem hsec]
  have hfind := findAudioEnd_eq (show q+1 < tokens.length by omega) hbody
  have hn := f.tokens_pos
  have hrun := takeWhile_avBody hbody
  rw [show f.tokens+j = q+1+1+(f.tokens+j)-(q+1+1) by omega] at hrun
  have hj : q+1+1+(f.tokens+j)-(q+1+1+f.tokens) = j := by omega
  have hst : (s.st+((textLen : Int)+1+1+(j : Int)+(f.tokens : Int)+2)).toNat =
      s.st+textLen+f.tokens+j+4 := by omega
  have hdiv : f.tokens/f.tokens = 1 := Nat.div_self hn
  have hbad := audio_avBody hbody
  have hne : ¬ q+1+1+(f.tokens+j)+1 ≠ q+3+f.tokens+j := by omega
  simp only [audioInVideo,ho,hget,hs,hfind,pure_eq_ok,ok_bind,f.mul_div_sq,hrun,hdiv,hj,
    raiseIf_of_not hbad,raiseIf_of_not hne,raiseIf_of_not (not_not.mpr (rfl : q+1 = q+1)),
    raiseIf_of_not (show ¬ f.tokens = 0 by omega),
    raiseIf_of_not (not_not.mpr (Nat.mod_self f.tokens)),
    raiseIf_of_not (not_not.mpr (rfl : 1 = 1)),
    temporalIndex_one,visionGrid_eq_rowMajor,Nat.one_mul,hst,hend]
  rcases Nat.eq_zero_or_pos j with rfl | hpos
  · simp [Media.contentBlocks,Frame.rows,Frame.cols]
  · have hj0 : j ≠ 0 := by omega
    simp [Media.contentBlocks,Frame.rows,Frame.cols,hpos,hj0]

section Select
variable {s : State} {loc : Located} {bs : List Block} {b textLen : Int}

theorem readSpan_audio (h : loc.minEd = loc.edAudioStart) :
    readSpan cfg vis env tokens s loc bs b textLen = audioOnly env s bs b textLen := if_pos h

theorem readSpan_image (h : ¬ loc.minEd = loc.edAudioStart)
    (hf : getItem tokens (loc.edVisionStart+1) = .ok .imagePad) :
    readSpan cfg vis env tokens s loc bs b textLen = imageOnly cfg vis env s bs b textLen := by
  simp [readSpan,h,hf]

theorem readSpan_video {e : Nat} (h : ¬ loc.minEd = loc.edAudioStart)
    (hf : getItem tokens (loc.edVisionStart+1) = .ok .videoPad) (he : loc.edVisionEnd = some e)
    (hlt : e < loc.edAudioStart) :
    readSpan cfg vis env tokens s loc bs b textLen = videoOnly cfg env s bs b textLen := by
  simp [readSpan,h,hf,he,hlt]

theorem readSpan_av {e : Nat} (h : ¬ loc.minEd = loc.edAudioStart)
    (hf : getItem tokens (loc.edVisionStart+1) = .ok .audioStart) (he : loc.edVisionEnd = some e)
    (hlt : loc.edAudioStart < e) :
    readSpan cfg vis env tokens s loc bs b textLen =
      audioInVideo cfg env tokens s loc e bs b textLen := by
  have hnot : ¬ e < loc.edAudioStart := by omega
  simp [readSpan,h,hf,he,hlt,hnot]

end Select
end Branches
section Loop
variable (cfg : Config) (vis : LlmPosIdsForVision) (env : MediaArgs)
variable {tokens pre : List Token} {it : Item cfg.spatialMergeSize}
variable {items : List (Item cfg.spatialMergeSize)} {back : Rest}
variable {imgs : List (Grid cfg.spatialMergeSize)}
variable {grids : List (Frame cfg.spatialMergeSize × Bool)} {auds : List Nat}
variable {s s' : State} {b : Int}

/-- Text run, opening delimiters, content and closing delimiters make up one iteration. -/
theorem step_eq {loc : Located} (hnext : nextPosition s.blocks = .ok b)
    (hloc : locate env tokens s = .ok loc) (hmin : loc.minEd = s.st+it.text.length)
    (hread : readSpan cfg vis env tokens { s with edVisionEnd := loc.edVisionEnd } loc
      (s.blocks ++ Item.textBlocks it.text b ++ [arange3 1 (b+it.text.length)])
      (b+it.text.length+1) it.text.length = .ok (s',it.media.delims))
    (hblocks : s'.blocks = s.blocks ++ Item.textBlocks it.text b ++
      ((List.range it.media.delims).map (fun i : Nat => arange3 1 (b+it.text.length+i)) ++
        it.media.contentBlocks cfg.positionIdPerSeconds (b+it.text.length+it.media.delims))) :
    step cfg vis env tokens s =
      .ok { s' with blocks := s.blocks ++ it.blocks cfg.positionIdPerSeconds b } := by
  have hlast : nextPosition s'.blocks = .ok (b+it.text.length+it.media.delims+
      it.media.content cfg.positionIdPerSeconds) := by
    rw [hblocks,← List.append_assoc,Media.nextPosition_contentBlocks]
  simp only [step,hnext,hloc,openSpan_eq loc b it.text hmin,hread,hlast,ok_bind,pure_eq_ok]
  simp [hblocks,Item.blocks,Media.blocks]

/-- One iteration reads the span `it` and leaves the spans `items`. -/
def Reads (tokens : List Token) (s s' : State) (b : Int) (pre : List Token)
    (it : Item cfg.spatialMergeSize) (items : List (Item cfg.spatialMergeSize)) (back : Rest)
    (imgs : List (Grid cfg.spatialMergeSize))
    (grids : List (Frame cfg.spatialMergeSize × Bool)) (auds : List Nat) : Prop :=
  step cfg vis env tokens s = .ok s' ∧
    s'.blocks = s.blocks ++ it.blocks cfg.positionIdPerSeconds b ∧
    Inv cfg env tokens (pre ++ it.wire) items back imgs grids auds s'.toLoopState
      (b+it.advance cfg.positionIdPerSeconds)

theorem reads_of {loc : Located} (h : Inv cfg env tokens pre (it :: items) back imgs grids auds s.toLoopState b)
    (hloc : locate env tokens s = .ok loc) (hmin : loc.minEd = s.st+it.text.length)
    (hread : readSpan cfg vis env tokens { s with edVisionEnd := loc.edVisionEnd } loc
      (s.blocks ++ Item.textBlocks it.text b ++ [arange3 1 (b+it.text.length)])
      (b+it.text.length+1) it.text.length = .ok (s',it.media.delims))
    (hblocks : s'.blocks = s.blocks ++ Item.textBlocks it.text b ++
      ((List.range it.media.delims).map (fun i : Nat => arange3 1 (b+it.text.length+i)) ++
        it.media.contentBlocks cfg.positionIdPerSeconds (b+it.text.length+it.media.delims)))
    (hst : s'.st = s.st+it.wire.length)
    (hi : s'.remainImages = s.remainImages-it.media.images.length)
    (hv : s'.remainVideos = s.remainVideos-it.media.grids.length)
    (ha : s'.remainAudios = s.remainAudios-it.media.clips.length)
    (hc : At env s'.toCursors (items.flatMap (·.media.images) ++ imgs)
      (items.flatMap (·.media.grids) ++ grids) (items.flatMap (·.media.audios) ++ auds)) :
    ∃ s', Reads cfg vis env tokens s s' b pre it items back imgs grids auds := by
  have hstep := step_eq cfg vis env h.next hloc hmin hread hblocks
  exact ⟨_,hstep,rfl,Inv.advance cfg env h rfl hst hi hv ha hc⟩

theorem step_image {text : List Nat} {g : Grid cfg.spatialMergeSize}
    (h : Inv cfg env tokens pre (⟨text,.image g⟩ :: items) back imgs grids auds s.toLoopState b) :
    ∃ s', Reads cfg vis env tokens s s' b pre ⟨text,.image g⟩ items back imgs grids auds := by
  obtain ⟨hahead,hrem,hcur⟩ := h.image_ahead
  obtain ⟨loc,hloc,hvs,hve,hlt⟩ := locate_vision env hahead (.inr hrem)
  have hmin : loc.minEd = s.st+text.length := by rw [Located.minEd,hvs]; omega
  have hne : ¬ loc.minEd = loc.edAudioStart := by omega
  have hfirst : getItem tokens (loc.edVisionStart+1) = .ok .imagePad := by
    rw [hvs]; exact hahead.first
  have hread := imageOnly_eq cfg vis env (s := { s with edVisionEnd := loc.edVisionEnd })
    hcur.images (s.blocks ++ Item.textBlocks text b ++ [arange3 1 (b+text.length)])
    (b+text.length+1) text.length
  rw [← readSpan_image cfg vis env hne hfirst] at hread
  refine reads_of cfg vis env h hloc hmin hread ?_ ?_ ?_ ?_ ?_ ?_
  · simp [Media.delims]
  · simp [Item.wire,Media.wire]; omega
  · simp [Media.images]
  · simp [Media.grids]
  · simp [Media.clips]
  · exact hcur.pop_image

theorem step_grid {text : List Nat} {f : Frame cfg.spatialMergeSize} {last : Bool}
    (h : Inv cfg env tokens pre (⟨text,.grid f last⟩ :: items) back imgs grids auds s.toLoopState b) :
    ∃ s', Reads cfg vis env tokens s s' b pre ⟨text,.grid f last⟩ items back imgs grids auds := by
  obtain ⟨hahead,hrem,hsec,hcur⟩ := h.grid_ahead
  obtain ⟨loc,hloc,hvs,hve,hlt⟩ := locate_vision env hahead (.inl hrem)
  have hmin : loc.minEd = s.st+text.length := by rw [Located.minEd,hvs]; omega
  have hne : ¬ loc.minEd = loc.edAudioStart := by omega
  have hfirst : getItem tokens (loc.edVisionStart+1) = .ok .videoPad := by
    rw [hvs]; exact hahead.first
  have hread := videoOnly_eq cfg env (s := { s with edVisionEnd := loc.edVisionEnd })
    hcur.videos hsec (s.blocks ++ Item.textBlocks text b ++ [arange3 1 (b+text.length)])
    (b+text.length+1) text.length
  rw [← readSpan_video cfg vis env hne hfirst hve hlt] at hread
  refine reads_of cfg vis env h hloc hmin hread ?_ ?_ ?_ ?_ ?_ ?_
  · simp [Media.delims,Media.contentBlocks]
  · simp [Item.wire,Media.wire]; omega
  · simp [Media.images]
  · simp [Media.grids]
  · simp [Media.clips]
  · exact hcur.pop_grid

theorem step_audio {text : List Nat} {a : AudioClip}
    (h : Inv cfg env tokens pre (⟨text,.audio a⟩ :: items) back imgs grids auds s.toLoopState b) :
    ∃ s', Reads cfg vis env tokens s s' b pre ⟨text,.audio a⟩ items back imgs grids auds := by
  obtain ⟨hahead,hi,hv,ha,hcur⟩ := h.audio_ahead
  obtain ⟨loc,hloc,has,hlt⟩ := locate_audio env hahead hi hv ha
  have hmin : loc.minEd = s.st+text.length := by rw [Located.minEd,has]; omega
  have heq : loc.minEd = loc.edAudioStart := hmin.trans has.symm
  have hread := audioOnly_eq env (s := { s with edVisionEnd := loc.edVisionEnd })
    hcur.audios (s.blocks ++ Item.textBlocks text b ++ [arange3 1 (b+text.length)])
    (b+text.length+1) text.length
  rw [← readSpan_audio cfg vis env heq] at hread
  refine reads_of cfg vis env h hloc hmin hread ?_ ?_ ?_ ?_ ?_ ?_
  · simp [Media.delims,Media.contentBlocks]
  · simp [Item.wire,Media.wire]; omega
  · simp [Media.images]
  · simp [Media.grids]
  · simp [Media.clips]
  · exact hcur.pop_audio

theorem step_av {text : List Nat} {f : Frame cfg.spatialMergeSize} {j : Nat} {track : Option Nat}
    (h : Inv cfg env tokens pre (⟨text,.avGrid f j track⟩ :: items) back imgs grids auds s.toLoopState b) :
    ∃ s', Reads cfg vis env tokens s s' b pre ⟨text,.avGrid f j track⟩ items back imgs grids
      auds := by
  obtain ⟨hahead,hu,hrem,hsec,hend,hcur⟩ := h.av_ahead
  have hloc := locate_av env hahead hu hrem
  set loc : Located := ⟨s.st+text.length,some (s.st+text.length+3+f.tokens+j),s.st+text.length+1⟩
  have hmin : loc.minEd = s.st+text.length := by simp [loc,Located.minEd]
  have hne : ¬ loc.minEd = loc.edAudioStart := by simp [loc,Located.minEd]
  have hlt : loc.edAudioStart < s.st+text.length+3+f.tokens+j := by simp only [loc]; omega
  have hread := audioInVideo_eq cfg env
    (s := { s with edVisionEnd := some (s.st+text.length+3+f.tokens+j) }) hahead
    hcur.videos hsec hend (s.blocks ++ Item.textBlocks text b ++ [arange3 1 (b+text.length)])
    (b+text.length+1) text.length
  rw [← readSpan_av cfg vis env hne hahead.first rfl hlt] at hread
  refine reads_of cfg vis env h hloc hmin hread ?_ ?_ ?_ ?_ ?_ ?_
  · simp [Media.delims,List.range_succ,Int.add_assoc]
  · simp [Item.wire,Media.wire]; omega
  · simp [Media.images]
  · simp [Media.grids]
  · simp [Media.clips]
  · have hpop := hcur.pop_grid
    cases track with
    | none => exact hpop
    | some n => exact hpop.pop_audio

/-- Every span kind is read by one iteration. -/
theorem step_reads (h : Inv cfg env tokens pre (it :: items) back imgs grids auds s.toLoopState b) :
    ∃ s', Reads cfg vis env tokens s s' b pre it items back imgs grids auds := by
  obtain ⟨text,media⟩ := it
  cases media with
  | image g => exact step_image cfg vis env h
  | grid f last => exact step_grid cfg vis env h
  | audio a => exact step_audio cfg vis env h
  | avGrid f j track => exact step_av cfg vis env h

theorem iterate_reads (h : Inv cfg env tokens pre items back imgs grids auds s.toLoopState b) :
    ∃ s', iterate (step cfg vis env tokens) items.length s = .ok s' ∧
      s'.blocks = s.blocks ++ itemBlocks cfg.positionIdPerSeconds b items ∧
      Inv cfg env tokens (pre ++ wireItems items) [] back imgs grids auds s'.toLoopState
        (b+itemsAdvance cfg.positionIdPerSeconds items) := by
  induction items generalizing s b pre with
  | nil =>
    refine ⟨s,rfl,by simp [itemBlocks],?_⟩
    simpa [wireItems,itemsAdvance] using h
  | cons it items ih =>
    obtain ⟨s₁,hstep,hblocks,hinv⟩ := step_reads cfg vis env h
    obtain ⟨s₂,hrun,hblocks₂,hinv₂⟩ := ih hinv
    refine ⟨s₂,?_,?_,?_⟩
    · rw [List.length_cons,iterate_succ_of_ok hstep,hrun]
    · rw [hblocks₂,hblocks,itemBlocks,List.append_assoc]
    · have hpre : pre ++ wireItems (it :: items) = pre ++ it.wire ++ wireItems items := by
        simp [wireItems]
      have hadv : b+(itemsAdvance cfg.positionIdPerSeconds (it :: items) : Int) =
          b+it.advance cfg.positionIdPerSeconds+
            itemsAdvance cfg.positionIdPerSeconds items := by
        simp only [itemsAdvance,List.map_cons,List.sum_cons]
        push_cast
        omega
      rw [hpre,hadv]
      exact hinv₂

end Loop
end RopeIndex
end TLiveOmni
