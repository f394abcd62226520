import TLiveOmni.LoopInv
import TLiveOmni.MropePositions

/-! The scanning loop of `get_mrope_input_positions` reads a well-formed sequence span by
span, into the blocks of its sample. -/
set_option autoImplicit false

namespace TLiveOmni
namespace Mrope
open PySeq

theorem nextStart_of_ok {bs : List Block} {b : Int} (h : nextPosition bs = .ok b) :
    nextStart bs = .ok b := by
  rw [nextStart,h]; rfl

theorem append1d_nat {n : Nat} (hn : 0 < n) (bs : List Block) (b : Int) :
    append1d bs n b = bs ++ [arange3 n b] := by
  have hn0 : n ≠ 0 := by omega
  simp [append1d,hn0]

section Locate
variable (env : MediaArgs) {tokens : List Token} {s : LoopState} {q n : Nat} {x : Token}

theorem locate_vision (h : VisionAhead tokens s.st q x n)
    (hrem : 0 < s.remainVideos ∨ 0 < s.remainImages) :
    ∃ loc, locate env tokens s = .ok loc ∧ loc.edVisionStart = q ∧
      loc.edVisionEnd = q+1+n ∧ q+1+n < loc.edAudioStart := by
  refine ⟨⟨q,q+1+n,if 0 < s.remainAudios then
    (indexFrom .audioStart s.st tokens).getD (tokens.length+1) else tokens.length+1⟩,?_,rfl,rfl,?_⟩
  · have hnot : ¬ (indexFrom .audioStart s.st tokens).getD (tokens.length+1) < q+1+n := by
      have := h.audio
      omega
    simp [locate,h.remains _ _ hrem,h.vs,h.ve,hnot]
  · have hl := h.len
    have ha := h.audio
    dsimp only
    split <;> omega

theorem locate_audio {images grids : Nat} (h : AudioAhead tokens s.st q n images grids)
    (hi : s.remainImages = images) (hv : s.remainVideos = grids) (ha : 0 < s.remainAudios) :
    ∃ loc, locate env tokens s = .ok loc ∧ loc.edAudioStart = q ∧ q < loc.edVisionStart := by
  have hl := h.len
  by_cases hr : visionRemains tokens s.remainVideos s.remainImages = true
  · have hpos : 0 < images ∨ 0 < grids := by
      simp only [visionRemains,Bool.and_eq_true,Bool.or_eq_true,decide_eq_true_eq] at hr
      omega
    obtain ⟨a,b,hvs,hve,hlt⟩ := h.vision hpos
    refine ⟨⟨a,b,q⟩,?_,rfl,hlt⟩
    simp [locate,hr,hvs,hve,h.audio,ha]
  · refine ⟨⟨tokens.length+1,tokens.length+1,q⟩,?_,rfl,by dsimp only; omega⟩
    simp [locate,hr,h.audio,ha]

theorem locate_av {j : Nat} (h : AvAhead tokens s.st q n j) (hu : env.useAudioInVideo = true)
    (hrem : 0 < s.remainVideos) :
    locate env tokens s = .ok ⟨q,q+3+n+j,q+1⟩ := by
  have hlt : q+1 < q+3+n+j := by omega
  simp [locate,h.remains _ _ (.inl hrem),h.vs,h.ve,h.audio,hu,hlt]

theorem openSpan_eq (loc : Located) (b : Int) (text : List Nat)
    (hmin : loc.minEd = s.st+text.length) :
    openSpan s loc b = (s.blocks ++ Item.textBlocks text b ++ [arange3 1 (b+text.length)],
      b+text.length+1,(text.length : Int)) := by
  have hlen : (loc.minEd : Int) - s.st = text.length := by rw [hmin]; push_cast; omega
  have hone : ∀ bs : List Block, append1d bs 1 (b+text.length) = bs ++ [arange3 1 (b+text.length)] :=
    fun bs => append1d_nat Nat.one_pos bs _
  by_cases ht : text = []
  · simp [openSpan,hlen,Item.textBlocks,ht,append1d]
  · have hpos : 0 < text.length := List.length_pos_iff.mpr ht
    simp only [openSpan,hlen,append1d_nat hpos,hone]
    simp [Item.textBlocks,ht]

end Locate

section Branches
variable (cfg : Config) (env : MediaArgs) {tokens : List Token}

theorem indexFrom_audioEnd {q n : Nat} {rest : List Token} (hbody : tokens.drop q =
    .audioStart :: (List.replicate n .audioPad ++ .audioEnd :: rest)) :
    indexFrom .audioEnd q tokens = some (q+1+n) := by
  have hno : .audioEnd ∉ Token.audioStart :: List.replicate n .audioPad := by simp
  have := findIdx?_append_of_notMem .audioEnd (.audioEnd :: rest) hno
  rw [indexFrom,hbody,← List.cons_append,this]
  simp [List.findIdx?_cons]
  omega

/-- The length is scanned, not computed from the audio's feature length. -/
theorem audioOnly_eq {s : LoopState} {loc : Located} {n : Nat} {rest : List Token}
    (haud : env.audioSeqlens ≠ none) (hn : 0 < n)
    (hbody : tokens.drop loc.edAudioStart =
      .audioStart :: (List.replicate n .audioPad ++ .audioEnd :: rest))
    (bs : List Block) (b : Int) (textLen : Nat) :
    audioOnly env tokens s loc bs b textLen = .ok ({ s with
      blocks := bs ++ [arange3 n b]
      st := s.st+textLen+n+2
      audioIdx := s.audioIdx+1
      remainAudios := s.remainAudios-1 },1) := by
  have hlen : ((loc.edAudioStart+1+n : Nat) : Int)-loc.edAudioStart-1 = n := by omega
  have hslice : (tokens.drop (loc.edAudioStart+1)).take
      (loc.edAudioStart+1+n-(loc.edAudioStart+1)) = List.replicate n .audioPad := by
    rw [← List.drop_drop,hbody,Nat.add_sub_cancel_left]
    simp
  have hst : (s.st+((textLen : Int)+1+n+1)).toNat = s.st+textLen+n+2 := by omega
  have hnn : ¬ (n : Int) < 0 := by omega
  have hany : ¬ ((List.replicate n Token.audioPad).any fun x => decide (x ≠ .audioPad)) = true := by
    simp
  simp only [audioOnly,indexFrom_audioEnd hbody,hlen,hslice,hst,raiseIf_of_not haud,
    raiseIf_of_not hnn,raiseIf_of_not hany,ok_bind,pure_eq_ok,append1d_nat hn]

theorem imageOnly_eq {s : LoopState} {g : Grid cfg.spatialMergeSize}
    {imgs : List (Grid cfg.spatialMergeSize)}
    (h : Remaining env.imageGridThw s.imageIdx ((g :: imgs).map Grid.thw))
    (bs : List Block) (b : Int) (textLen : Nat) :
    imageOnly cfg env s bs b textLen = .ok ({ s with
      blocks := bs ++ Media.contentBlocks cfg.positionIdPerSeconds b (.image g)
      st := s.st+textLen+g.t*g.toFrame.tokens+2
      imageIdx := s.imageIdx+1
      remainImages := s.remainImages-1 },1) := by
  obtain ⟨all,ho,-,hget⟩ := h.getItem
  have hlen : g.t*g.h*g.w/cfg.spatialMergeSize^2 = g.t*g.toFrame.tokens := g.prod_div_sq
  have hst : (s.st+((textLen : Int)+1+((g.t*g.toFrame.tokens : Nat) : Int)+1)).toNat =
      s.st+textLen+g.t*g.toFrame.tokens+2 := by omega
  simp only [imageOnly,ho,hget,pure_eq_ok,ok_bind,appendVisionGrid,Grid.thw,hlen,hst,
    visionGrid_eq_rowMajor,temporalIndex_nat]
  rfl

theorem videoOnly_eq {s : LoopState} {f : Frame cfg.spatialMergeSize} {last : Bool}
    {gs : List (Frame cfg.spatialMergeSize × Bool)}
    (h : Remaining env.videoGridThw s.videoIdx (((f,last) :: gs).map fun g => ⟨1,g.1.h,g.1.w⟩))
    (hsec : s.videoIdx < env.secondPerGrids.length) (bs : List Block) (b : Int) (textLen : Nat) :
    videoOnly cfg env s bs b textLen = .ok ({ s with
      blocks := bs ++ [rowMajor b [0] f.rows f.cols]
      st := s.st+textLen+f.tokens+2
      videoIdx := s.videoIdx+1
      remainVideos := s.remainVideos-1 },1) := by
  obtain ⟨all,ho,-,hget⟩ := h.getItem
  have hs : getItem env.secondPerGrids s.videoIdx = .ok env.secondPerGrids[s.videoIdx] := by
    simp [getItem,List.getElem?_eq_getElem hsec]
  have hst : (s.st+((textLen : Int)+1+(f.tokens : Int)+1)).toNat = s.st+textLen+f.tokens+2 := by
    omega
  simp only [videoOnly,ho,hget,hs,pure_eq_ok,ok_bind,appendVisionGrid,temporalIndex_one,
    visionGrid_eq_rowMajor,Nat.one_mul,f.mul_div_sq,hst]
  rfl

theorem find_audioEnd {n j a : Nat} {rest : List Token} (ha : a < tokens.length)
    (hbody : tokens.drop (a+1) = List.replicate n .videoPad ++ (List.replicate j .audioPad ++
      .audioEnd :: .visionEnd :: rest)) :
    ((indicesOf .audioEnd tokens).find? fun i => decide (a < i)) = some (a+1+(n+j)) := by
  rw [← List.head?_filter,filter_indicesOf _ _ ha,indicesOf_avBody hbody]
  rfl

theorem audioInVideo_eq {s : LoopState} {f : Frame cfg.spatialMergeSize} {track : Option Nat}
    {gs : List (Frame cfg.spatialMergeSize × Bool)} {q j : Nat}
    (hav : AvAhead tokens s.st q f.tokens j)
    (h : Remaining env.videoGridThw s.videoIdx
      (((f,track.isSome) :: gs).map fun g => ⟨1,g.1.h,g.1.w⟩))
    (hsec : s.videoIdx < env.secondPerGrids.length)
    (hend : s.videoIdx+1 ∈ env.videoChunkEndIndices ↔ track.isSome = true)
    (bs : List Block) (b : Int) (textLen : Nat) :
    audioInVideo cfg env tokens s ⟨q,q+3+f.tokens+j,q+1⟩ bs b textLen =
      .ok ({ s with
        blocks := bs ++ (arange3 1 b :: Media.contentBlocks cfg.positionIdPerSeconds
          (b+1) (.avGrid f j track))
        st := s.st+textLen+f.tokens+j+4
        videoIdx := s.videoIdx+1
        audioIdx := if track.isSome then s.audioIdx+1 else s.audioIdx
        remainVideos := s.remainVideos-1 },2) := by
  obtain ⟨all,ho,-,hget⟩ := h.getItem
  obtain ⟨rest,hbody⟩ := hav.body
  have hlen := hav.len
  have hs : getItem env.secondPerGrids s.videoIdx = .ok env.secondPerGrids[s.videoIdx] := by
    simp [getItem,List.getElem?_eq_getElem hsec]
  have hfind := find_audioEnd (show q+1 < tokens.length by omega) hbody
  have hn := f.tokens_pos
  have hrun := takeWhile_avBody hbody
  rw [show f.tokens+j = q+1+1+(f.tokens+j)-(q+1+1) by omega] at hrun
  have hj : q+1+1+(f.tokens+j)-(q+1+1+f.tokens) = j := by omega
  have hst : (s.st+((textLen : Int)+1+1+(j : Int)+(f.tokens : Int)+2)).toNat =
      s.st+textLen+f.tokens+j+4 := by omega
  have hdiv : f.tokens/f.tokens = 1 := Nat.div_self hn
  have hbad := audio_avBody hbody
  have hne : ¬ q+1+1+(f.tokens+j)+1 ≠ q+3+f.tokens+j := by omega
  have hone : ∀ bs : List Block, append1d bs 1 b = bs ++ [arange3 1 b] :=
    fun bs => append1d_nat Nat.one_pos bs _
  simp only [audioInVideo,ho,hget,hs,hfind,pure_eq_ok,ok_bind,f.mul_div_sq,hrun,hdiv,hj,
    raiseIf_of_not hbad,raiseIf_of_not hne,raiseIf_of_not (not_not.mpr (rfl : q+1 = q+1)),
    raiseIf_of_not (show ¬ f.tokens = 0 by omega),
    raiseIf_of_not (not_not.mpr (Nat.mod_self f.tokens)),
    raiseIf_of_not (not_not.mpr (rfl : 1 = 1)),hone,appendVisionGrid,
    temporalIndex_one,visionGrid_eq_rowMajor,Nat.one_mul,hst,hend]
  rcases Nat.eq_zero_or_pos j with rfl | hpos
  · simp [Media.contentBlocks,Frame.rows,Frame.cols]
  · have hj0 : j ≠ 0 := by omega
    simp [Media.contentBlocks,Frame.rows,Frame.cols,hpos,hj0,append1d_nat hpos]

section Select
variable {s : LoopState} {loc : Located} {bs : List Block} {b textLen : Int}

theorem readSpan_audio (h : loc.minEd = loc.edAudioStart) :
    readSpan cfg env tokens s loc bs b textLen = audioOnly env tokens s loc bs b textLen := if_pos h

theorem readSpan_image (h : ¬ loc.minEd = loc.edAudioStart)
    (hf : getItem tokens (loc.edVisionStart+1) = .ok .imagePad) :
    readSpan cfg env tokens s loc bs b textLen = imageOnly cfg env s bs b textLen := by
  simp [readSpan,h,hf]

theorem readSpan_video (h : ¬ loc.minEd = loc.edAudioStart)
    (hf : getItem tokens (loc.edVisionStart+1) = .ok .videoPad)
    (hlt : loc.edVisionEnd < loc.edAudioStart) :
    readSpan cfg env tokens s loc bs b textLen = videoOnly cfg env s bs b textLen := by
  simp [readSpan,h,hf,hlt]

theorem readSpan_av (h : ¬ loc.minEd = loc.edAudioStart)
    (hf : getItem tokens (loc.edVisionStart+1) = .ok .audioStart)
    (hlt : loc.edAudioStart < loc.edVisionEnd) :
    readSpan cfg env tokens s loc bs b textLen =
      audioInVideo cfg env tokens s loc bs b textLen := by
  have hnot : ¬ loc.edVisionEnd < loc.edAudioStart := by omega
  simp [readSpan,h,hf,hlt,hnot]

end Select
end Branches

section Loop
variable (cfg : Config) (env : MediaArgs)
variable {tokens pre : List Token} {it : Item cfg.spatialMergeSize}
variable {items : List (Item cfg.spatialMergeSize)} {back : Rest}
variable {imgs : List (Grid cfg.spatialMergeSize)}
variable {grids : List (Frame cfg.spatialMergeSize × Bool)} {auds : List Nat}
variable {s s' : LoopState} {b : Int}

def Reads (tokens : List Token) (s s' : LoopState) (b : Int) (pre : List Token)
    (it : Item cfg.spatialMergeSize) (items : List (Item cfg.spatialMergeSize)) (back : Rest)
    (imgs : List (Grid cfg.spatialMergeSize))
    (grids : List (Frame cfg.spatialMergeSize × Bool)) (auds : List Nat) : Prop :=
  step cfg env tokens s = .ok s' ∧
    s'.blocks = s.blocks ++ it.blocks cfg.positionIdPerSeconds b ∧
    Inv cfg env tokens (pre ++ it.wire) items back imgs grids auds s'
      (b+it.advance cfg.positionIdPerSeconds)

theorem reads_of {loc : Located} (h : Inv cfg env tokens pre (it :: items) back imgs grids auds s b)
    (hloc : locate env tokens s = .ok loc) (hmin : loc.minEd = s.st+it.text.length)
    (hread : readSpan cfg env tokens s loc
      (s.blocks ++ Item.textBlocks it.text b ++ [arange3 1 (b+it.text.length)])
      (b+it.text.length+1) it.text.length = .ok (s',it.media.delims))
    (hblocks : s'.blocks = s.blocks ++ Item.textBlocks it.text b ++
      ((List.range it.media.delims).map (fun i : Nat => arange3 1 (b+it.text.length+i)) ++
        it.media.contentBlocks cfg.positionIdPerSeconds (b+it.text.length+it.media.delims)))
    (hst : s'.st = s.st+it.wire.length)
    (hi : s'.remainImages = s.remainImages-it.media.images.length)
    (hv : s'.remainVideos = s.remainVideos-it.media.grids.length)
    (ha : s'.remainAudios = s.remainAudios-it.media.clips.length)
    (hc : At env s'.toCursors (items.flatMap (·.media.images) ++ imgs)
      (items.flatMap (·.media.grids) ++ grids) (items.flatMap (·.media.audios) ++ auds)) :
    ∃ s', Reads cfg env tokens s s' b pre it items back imgs grids auds := by
  have hlast : nextPosition s'.blocks = .ok (b+it.text.length+it.media.delims+
      it.media.content cfg.positionIdPerSeconds) := by
    rw [hblocks,← List.append_assoc,Media.nextPosition_contentBlocks]
  have hstep : step cfg env tokens s =
      .ok { s' with blocks := s.blocks ++ it.blocks cfg.positionIdPerSeconds b } := by
    simp only [step,nextStart_of_ok h.next,hloc,openSpan_eq loc b it.text hmin,hread,
      nextStart_of_ok hlast,ok_bind,pure_eq_ok,append1d_nat it.media.delims_pos]
    simp [hblocks,Item.blocks,Media.blocks]
  exact ⟨_,hstep,rfl,h.advance cfg env rfl hst hi hv ha hc⟩

theorem step_image {text : List Nat} {g : Grid cfg.spatialMergeSize}
    (h : Inv cfg env tokens pre (⟨text,.image g⟩ :: items) back imgs grids auds s b) :
    ∃ s', Reads cfg env tokens s s' b pre ⟨text,.image g⟩ items back imgs grids auds := by
  obtain ⟨hahead,hrem,hcur⟩ := h.image_ahead
  obtain ⟨loc,hloc,hvs,hve,hlt⟩ := locate_vision env hahead (.inr hrem)
  have hmin : loc.minEd = s.st+text.length := by rw [Located.minEd,hvs]; omega
  have hne : ¬ loc.minEd = loc.edAudioStart := by omega
  have hfirst : getItem tokens (loc.edVisionStart+1) = .ok .imagePad := by
    rw [hvs]; exact hahead.first
  have hread := imageOnly_eq cfg env hcur.images
    (s.blocks ++ Item.textBlocks text b ++ [arange3 1 (b+text.length)])
    (b+text.length+1) text.length
  rw [← readSpan_image cfg env hne hfirst] at hread
  refine reads_of cfg env h hloc hmin hread ?_ ?_ ?_ ?_ ?_ ?_
  · simp [Media.delims]
  · simp [Item.wire,Media.wire]; omega
  · simp [Media.images]
  · simp [Media.grids]
  · simp [Media.clips]
  · exact hcur.pop_image

theorem step_grid {text : List Nat} {f : Frame cfg.spatialMergeSize} {last : Bool}
    (h : Inv cfg env tokens pre (⟨text,.grid f last⟩ :: items) back imgs grids auds s b) :
    ∃ s', Reads cfg env tokens s s' b pre ⟨text,.grid f last⟩ items back imgs grids auds := by
  obtain ⟨hahead,hrem,hsec,hcur⟩ := h.grid_ahead
  obtain ⟨loc,hloc,hvs,hve,hlt⟩ := locate_vision env hahead (.inl hrem)
  have hmin : loc.minEd = s.st+text.length := by rw [Located.minEd,hvs]; omega
  have hne : ¬ loc.minEd = loc.edAudioStart := by omega
  have hfirst : getItem tokens (loc.edVisionStart+1) = .ok .videoPad := by
    rw [hvs]; exact hahead.first
  have hread := videoOnly_eq cfg env hcur.videos hsec
    (s.blocks ++ Item.textBlocks text b ++ [arange3 1 (b+text.length)])
    (b+text.length+1) text.length
  rw [← readSpan_video cfg env hne hfirst (hve ▸ hlt)] at hread
  refine reads_of cfg env h hloc hmin hread ?_ ?_ ?_ ?_ ?_ ?_
  · simp [Media.delims,Media.contentBlocks]
  · simp [Item.wire,Media.wire]; omega
  · simp [Media.images]
  · simp [Media.grids]
  · simp [Media.clips]
  · exact hcur.pop_grid

theorem step_audio {text : List Nat} {a : AudioClip}
    (h : Inv cfg env tokens pre (⟨text,.audio a⟩ :: items) back imgs grids auds s b) :
    ∃ s', Reads cfg env tokens s s' b pre ⟨text,.audio a⟩ items back imgs grids auds := by
  obtain ⟨hahead,hi,hv,ha,hcur⟩ := h.audio_ahead
  obtain ⟨loc,hloc,has,hlt⟩ := locate_audio env hahead hi hv ha
  have hmin : loc.minEd = s.st+text.length := by rw [Located.minEd,has]; omega
  obtain ⟨all,hsome,-⟩ := hcur.audios.getItem
  have heq : loc.minEd = loc.edAudioStart := hmin.trans has.symm
  obtain ⟨rest,hbody⟩ := hahead.body
  rw [← has] at hbody
  have hread := @audioOnly_eq env tokens s loc a.tokens rest (by simp [hsome]) a.tokens_pos hbody
    (s.blocks ++ Item.textBlocks text b ++ [arange3 1 (b+text.length)])
    (b+text.length+1) text.length
  rw [← readSpan_audio cfg env heq] at hread
  refine reads_of cfg env h hloc hmin hread ?_ ?_ ?_ ?_ ?_ ?_
  · simp [Media.delims,Media.contentBlocks]
  · simp [Item.wire,Media.wire]; omega
  · simp [Media.images]
  · simp [Media.grids]
  · simp [Media.clips]
  · exact hcur.pop_audio

theorem step_av {text : List Nat} {f : Frame cfg.spatialMergeSize} {j : Nat} {track : Option Nat}
    (h : Inv cfg env tokens pre (⟨text,.avGrid f j track⟩ :: items) back imgs grids auds s b) :
    ∃ s', Reads cfg env tokens s s' b pre ⟨text,.avGrid f j track⟩ items back imgs grids auds := by
  obtain ⟨hahead,hu,hrem,hsec,hend,hcur⟩ := h.av_ahead
  have hloc := locate_av env hahead hu hrem
  set loc : Located := ⟨s.st+text.length,s.st+text.length+3+f.tokens+j,s.st+text.length+1⟩
  have hmin : loc.minEd = s.st+text.length := by simp [loc,Located.minEd]
  have hne : ¬ loc.minEd = loc.edAudioStart := by simp [loc,Located.minEd]
  have hlt : loc.edAudioStart < loc.edVisionEnd := by simp only [loc]; omega
  have hread := audioInVideo_eq cfg env hahead hcur.videos hsec hend
    (s.blocks ++ Item.textBlocks text b ++ [arange3 1 (b+text.length)])
    (b+text.length+1) text.length
  rw [← readSpan_av cfg env hne hahead.first hlt] at hread
  refine reads_of cfg env h hloc hmin hread ?_ ?_ ?_ ?_ ?_ ?_
  · simp [Media.delims,List.range_succ,Int.add_assoc]
  · simp [Item.wire,Media.wire]; omega
  · simp [Media.images]
  · simp [Media.grids]
  · simp [Media.clips]
  · have hpop := hcur.pop_grid
    cases track with
    | none => exact hpop
    | some n => exact hpop.pop_audio

theorem step_reads (h : Inv cfg env tokens pre (it :: items) back imgs grids auds s b) :
    ∃ s', Reads cfg env tokens s s' b pre it items back imgs grids auds := by
  obtain ⟨text,media⟩ := it
  cases media with
  | image g => exact step_image cfg env h
  | grid f last => exact step_grid cfg env h
  | audio a => exact step_audio cfg env h
  | avGrid f j track => exact step_av cfg env h

theorem iterate_reads (h : Inv cfg env tokens pre items back imgs grids auds s b) :
    ∃ s', iterate (step cfg env tokens) items.length s = .ok s' ∧
      s'.blocks = s.blocks ++ itemBlocks cfg.positionIdPerSeconds b items ∧
      Inv cfg env tokens (pre ++ wireItems items) [] back imgs grids auds s'
        (b+itemsAdvance cfg.positionIdPerSeconds items) := by
  induction items generalizing s b pre with
  | nil =>
    refine ⟨s,rfl,by simp [itemBlocks],?_⟩
    simpa [wireItems,itemsAdvance] using h
  | cons it items ih =>
    obtain ⟨s₁,hstep,hblocks,hinv⟩ := step_reads cfg env h
    obtain ⟨s₂,hrun,hblocks₂,hinv₂⟩ := ih hinv
    refine ⟨s₂,?_,?_,?_⟩
    · rw [List.length_cons,iterate_succ_of_ok hstep,hrun]
    · rw [hblocks₂,hblocks,itemBlocks,List.append_assoc]
    · have hpre : pre ++ wireItems (it :: items) = pre ++ it.wire ++ wireItems items := by
        simp [wireItems]
      have hadv : b+(itemsAdvance cfg.positionIdPerSeconds (it :: items) : Int) =
          b+it.advance cfg.positionIdPerSeconds+
            itemsAdvance cfg.positionIdPerSeconds items := by
        simp only [itemsAdvance,List.map_cons,List.sum_cons]
        push_cast
        omega
      rw [hpre,hadv]
      exact hinv₂

theorem iterate_inv (h : Inv cfg env tokens pre items back imgs grids auds s b) {k : Nat}
    (hk : k ≤ items.length) :
    ∃ s' pre' b', iterate (step cfg env tokens) k s = .ok s' ∧
      Inv cfg env tokens pre' (items.drop k) back imgs grids auds s' b' := by
  induction k generalizing items s b pre with
  | zero => exact ⟨s,pre,b,rfl,h⟩
  | succ k ih =>
    obtain ⟨it,items',rfl⟩ := List.exists_cons_of_length_pos (l := items) (by omega)
    obtain ⟨s₁,hstep,-,hinv⟩ := step_reads cfg env h
    obtain ⟨s₂,pre₂,b₂,hrun,hinv₂⟩ := ih hinv (by simpa using hk)
    exact ⟨s₂,pre₂,b₂,by rw [iterate_succ_of_ok hstep,hrun],hinv₂⟩

theorem scan_wire {s : Sample cfg.spatialMergeSize} (hu : s.Uniform env.useAudioInVideo)
    (h : At env .zero s.images (expandVideos s.videos) s.audios) :
    scan cfg env s.wire = .ok (s.blocks cfg.positionIdPerSeconds) := by
  have hstart : At env .zero (s.images ++ []) (expandVideos s.videos ++ []) (s.audios ++ []) := by
    simpa using h
  have hinit := initial_inv cfg env hu hstart
  obtain ⟨st,hrun,hblocks,hinv⟩ := iterate_reads cfg env hinit
  have hlen : s.wire.length = (wireItems s.items).length+s.tail.length := by
    simp [Sample.wire]
  have hst : st.st = (wireItems s.items).length := by simpa using hinv.st
  have hb : st.blocks = itemBlocks cfg.positionIdPerSeconds 0 s.items := by
    simpa [initialState] using hblocks
  have hnext : nextPosition st.blocks =
      .ok (itemsAdvance cfg.positionIdPerSeconds s.items) := by simpa using hinv.next
  have hnums := multimodalNums_eq cfg env hinit
  simp only [Rest.ofText,Nat.add_zero] at hnums
  simp only [scan,hnums,hrun,ok_bind,pure_eq_ok]
  by_cases ht : s.tail = []
  · have hnot : ¬ st.st < s.wire.length := by simp [hst,hlen,ht]
    simp [hnot,hb,Sample.blocks,Item.textBlocks,ht]
  · have hpos : 0 < s.tail.length := List.length_pos_iff.mpr ht
    have hlt : st.st < s.wire.length := by omega
    have hdiff : (s.wire.length : Int)-st.st = s.tail.length := by omega
    rw [if_pos hlt,nextStart_of_ok hnext]
    simp [hb,Sample.blocks,Item.textBlocks,ht,hdiff,append1d_nat hpos]

end Loop
end Mrope
end TLiveOmni
