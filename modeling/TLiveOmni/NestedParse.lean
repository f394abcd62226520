import TLiveOmni.Agreement
import TLiveOmni.Nested

/-! The position parser on updated prompts. Images and audios come out as the parser expects them;
a video does not, because its spans stand inside another pair of vision delimiters. -/
set_option autoImplicit false

namespace TLiveOmni
open PySeq Words Expand

namespace Mrope
variable (cfg : Config) (env : MediaArgs) (tokens : List Token)

/-- The tokens the branches for images and silent grids lay a vision grid over. The columns
before it cover the tokens up to the opening delimiter at `minEd`. (The branch for a grid with
audio compares the tokens under its grid itself.) -/
def gridTokensUnder (s : LoopState) (loc : Located) : List Token :=
  if loc.minEd = loc.edAudioStart then []
  else match tokens[loc.edVisionStart+1]? with
    | none => []
    | some first =>
        let grid : Option Thw :=
          if first = .imagePad then (env.imageGridThw.getD [])[s.imageIdx]?
          else if loc.edVisionEnd < loc.edAudioStart then
            (env.videoGridThw.getD [])[s.videoIdx]?.map fun g => ⟨1,g.h,g.w⟩
          else none
        (tokens.drop (loc.minEd+1)).take ((grid.map fun g => g.prod/cfg.spatialMergeSize^2).getD 0)

/-- No iteration of the loop lays a vision grid over text or delimiters. -/
def Apart : Prop :=
  ∀ k s loc, k < (initialState env tokens .zero).multimodalNums.toNat →
    iterate (step cfg env tokens) k (initialState env tokens .zero) = .ok s →
    locate env tokens s = .ok loc → ∀ t ∈ gridTokensUnder cfg env tokens s loc, t.isPad = true

/-- Consecutive positions are the row-major offsets of the frames over a base each. -/
def GridBlocks {m : Nat} : List (Frame m) → List Pos → Prop
  | [], ps => ps = []
  | f :: frames, ps => (∃ b, ps.take f.tokens = rowMajor b [0] f.rows f.cols) ∧
      GridBlocks frames (ps.drop f.tokens)

/-- The positions of the `video_pad` tokens. -/
def videoPositions (positions : List Pos) : List Pos :=
  ((tokens.zip positions).filter fun x => decide (x.1 = .videoPad)).map (·.2)

/-- The parser accepts the tokens, gives each a column and each temporal grid its own block. -/
structure Parses {m : Nat} (mmFeatures : List Feature) (videos : List (Grid m)) : Prop where
  accepts : ∃ positions delta,
    getMropeInputPositions cfg tokens mmFeatures = .ok (positions,delta) ∧
    positions.length = tokens.length ∧
    GridBlocks ((expandVideos videos).map (·.1)) (videoPositions tokens positions)
  apart : ∀ env, mediaArgs mmFeatures = .ok env → Apart cfg env tokens

end Mrope

namespace Vllm
variable {m : Nat}

/-- The span of an image or an audio. -/
def AskPart.item? (p : AskPart m) : Option (Item m) :=
  match p.ask with
  | .image g => some ⟨p.text,.image g⟩
  | .audio a => some ⟨p.text,.audio a⟩
  | .video _ => none

def plainItems (parts : List (AskPart m)) : List (Item m) := parts.filterMap AskPart.item?

def plainNest (items : List (Item m)) : List (List Nat × Nest m) :=
  items.map fun it => (it.text,.plain it.media)

theorem nest_plain {before : List (AskPart m)} (h : before.filterMap (·.ask.video?) = [])
    (rest : List (AskPart m)) (videos : List (List (Item m))) :
    nest (before ++ rest) videos = plainNest (plainItems before) ++ nest rest videos := by
  induction before with
  | nil => rfl
  | cons p before ih =>
    obtain ⟨text,ask⟩ := p
    cases ask with
    | video g => simp [Ask.video?] at h
    | image g => simp [nest,plainItems,plainNest,AskPart.item?,ih h]
    | audio a => simp [nest,plainItems,plainNest,AskPart.item?,ih h]

theorem nestWire_append (l l' : List (List Nat × Nest m)) :
    nestWire (l ++ l') = nestWire l ++ nestWire l' := List.flatMap_append

@[simp] theorem nestWire_plain (items : List (Item m)) :
    nestWire (plainNest items) = wireItems items := by
  rw [nestWire,plainNest,List.flatMap_map]
  rfl

@[simp] theorem closing_plain (items : List (Item m)) :
    (plainNest items).flatMap (·.2.closing) = items.flatMap (·.media.closing) := by
  simp [plainNest,Nest.closing,List.flatMap_map]

@[simp] theorem clips_plain (items : List (Item m)) :
    (plainNest items).flatMap (·.2.clips) = items.flatMap (·.media.clips) := by
  simp [plainNest,Nest.clips,List.flatMap_map]

theorem plain_visual (items : List (Item m)) : ∀ y ∈ plainNest items, y.2.Visual := by
  intro y hy
  obtain ⟨it,-,rfl⟩ := List.mem_map.mp hy
  exact trivial

theorem plainItems_media (parts : List (AskPart m)) :
    (plainItems parts).flatMap (·.media.images) = parts.filterMap (·.ask.image?) ∧
      (plainItems parts).flatMap (·.media.grids) = [] ∧
      (plainItems parts).flatMap (·.media.audios) =
        (parts.filterMap (·.ask.audio?)).map AudioClip.featureLen ∧
      (plainItems parts).any (·.media.isAv) = false := by
  induction parts with
  | nil => exact ⟨rfl,rfl,rfl,rfl⟩
  | cons p parts ih =>
    obtain ⟨text,ask⟩ := p
    obtain ⟨hi,hg,ha,hav⟩ := ih
    cases ask with
    | video g => exact ⟨hi,hg,ha,hav⟩
    | image g => exact ⟨congrArg (g :: ·) hi,hg,ha,hav⟩
    | audio a => exact ⟨hi,hg,congrArg (a.featureLen :: ·) ha,hav⟩

theorem exists_first_video {parts : List (AskPart m)} (h : parts.filterMap (·.ask.video?) ≠ []) :
    ∃ before text g after, parts = before ++ ⟨text,.video g⟩ :: after ∧
      before.filterMap (·.ask.video?) = [] := by
  induction parts with
  | nil => cases h rfl
  | cons p parts ih =>
    obtain ⟨text,ask⟩ := p
    cases ask with
    | video g => exact ⟨[],text,g,parts,rfl,rfl⟩
    | image g =>
      obtain ⟨before,text',g',after,rfl,hb⟩ := ih h
      exact ⟨⟨text,.image g⟩ :: before,text',g',after,rfl,hb⟩
    | audio a =>
      obtain ⟨before,text',g',after,rfl,hb⟩ := ih h
      exact ⟨⟨text,.audio a⟩ :: before,text',g',after,rfl,hb⟩

/-- A video with its spans and what is behind it, with the spans the loop counts there. -/
def behind (useAudioInVideo : Bool) (text : List Nat) (spans : List (Item m))
    (l : List (List Nat × Nest m)) (tail : List Nat) : Rest where
  wire := nestWire ((text,.wrapped spans) :: l) ++ wireText tail
  images := (((text,.wrapped spans) :: l).flatMap (·.2.closing)).count .imagePad
  grids := (((text,.wrapped spans) :: l).flatMap (·.2.closing)).count
    (if useAudioInVideo then .audioEnd else .videoPad)
  clips := (((text,.wrapped spans) :: l).flatMap (·.2.clips)).length
  ahead := fun _ => by simp [nestWire,Nest.wire]

section Reach
variable (cfg : Config) (env : MediaArgs) {items : List (Item cfg.spatialMergeSize)}
  {text tail : List Nat} {spans : List (Item cfg.spatialMergeSize)}
  {l : List (List Nat × Nest cfg.spatialMergeSize)} {imgs : List (Grid cfg.spatialMergeSize)}
  {grids : List (Frame cfg.spatialMergeSize × Bool)} {auds : List Nat}

/-- The loop starts with the counts of the whole prompt. -/
theorem nested_inv (hgrids : items.flatMap (·.media.grids) = [])
    (hav : items.any (·.media.isAv) = false)
    (hl : ∀ y ∈ (text,.wrapped spans) :: l, y.2.Visual)
    (hcount : (0 < (((text,.wrapped spans) :: l).flatMap (·.2.closing)).count .audioEnd) ↔
      env.useAudioInVideo = true)
    (hat : At env .zero (items.flatMap (·.media.images) ++ imgs) grids
      (items.flatMap (·.media.audios) ++ auds)) :
    Inv cfg env (wireItems items ++ (behind env.useAudioInVideo text spans l tail).wire) [] items
      (behind env.useAudioInVideo text spans l tail) imgs grids auds
      (initialState env (wireItems items ++ (behind env.useAudioInVideo text spans l tail).wire)
        .zero) 0 := by
  set rest := (text,.wrapped spans) :: l with hrest
  have hwire : wireItems items ++ (behind env.useAudioInVideo text spans l tail).wire =
      nestWire (plainNest items ++ rest) ++ wireText tail := by
    rw [behind,nestWire_append,nestWire_plain,List.append_assoc]
  have hvisual : ∀ y ∈ plainNest items ++ rest, y.2.Visual := by
    intro y hy
    rcases List.mem_append.mp hy with hy | hy
    · exact plain_visual items y hy
    · exact hl y hy
  obtain ⟨hv,he⟩ := count_closing_video hav
  rw [gridTotal,hgrids,List.length_nil] at hv
  have hcounts {x : Token} (hs : x ≠ .visionStart) (hx : x ≠ .visionEnd) :
      (visionTokens (wireItems items ++ (behind env.useAudioInVideo text spans l tail).wire)).count
        x = (items.flatMap (·.media.closing)).count x + (rest.flatMap (·.2.closing)).count x := by
    rw [hwire,count_visionTokens hs hx hvisual,List.flatMap_append,List.count_append,
      closing_plain]
  have himg := hcounts (show Token.imagePad ≠ .visionStart by simp) (by simp)
  have hend := hcounts (show Token.audioEnd ≠ .visionStart by simp) (by simp)
  have hpad := hcounts (show Token.videoPad ≠ .visionStart by simp) (by simp)
  have hsplit : ((plainNest items ++ rest).flatMap (·.2.closing)).count .audioEnd =
      (rest.flatMap (·.2.closing)).count .audioEnd := by
    rw [List.flatMap_append,List.count_append,closing_plain,he,Nat.zero_add]
  have haud := count_audioStart_nest (plainNest items ++ rest) tail
  rw [← hwire,hsplit,List.flatMap_append,List.length_append,clips_plain] at haud
  rw [count_closing_image] at himg
  rw [he,Nat.zero_add] at hend
  rw [hv,Nat.zero_add] at hpad
  refine ⟨rfl,rfl,rfl,?_,?_,?_,?_,?_⟩
  · simp only [initialState,himg]
    rw [behind]
    push_cast
    rfl
  · simp only [initialState,hend,hpad,gridTotal,hgrids,List.length_nil]
    have hcountGrids : (behind env.useAudioInVideo text spans l tail).grids =
        (rest.flatMap (·.2.closing)).count
          (if env.useAudioInVideo then .audioEnd else .videoPad) := rfl
    rw [hcountGrids]
    cases hu : env.useAudioInVideo with
    | true =>
      have hpos := hcount.mpr hu
      simp [hpos]
    | false => simp
  · have hcountClips : (behind env.useAudioInVideo text spans l tail).clips =
        (rest.flatMap (·.2.clips)).length := rfl
    simp only [initialState,hend,haud,hcountClips,clipTotal]
    push_cast
    omega
  · rw [hgrids]
    exact hat
  · intro h
    rw [hav] at h
    cases h

section Meets
variable {tokens pre content more : List Token} {back : Rest} {s : LoopState} {b : Int}
  {f : Frame cfg.spatialMergeSize} {last : Bool}

theorem index_visionStart (h : Inv cfg env tokens pre [] back imgs grids auds s b)
    (hwire : back.wire = wireText text ++ .visionStart :: more) :
    index .visionStart s.st tokens = .ok (s.st+text.length) := by
  have htok : tokens = pre ++ (wireText text ++ .visionStart :: more) := by
    rw [h.split,hwire]
    rfl
  rw [htok,h.st,index_skip pre _ (notMem_wireText rfl text),length_wireText]

/-- In front of a silent video its delimiters are found before the next `audio_start`. -/
theorem locate_silent (h : Inv cfg env tokens pre [] back imgs grids auds s b)
    (hwire : back.wire = wireText text ++ .visionStart :: (content ++ .visionEnd :: more))
    (hu : env.useAudioInVideo = false) (haudio : .audioStart ∉ content) (hpad : .videoPad ∈ tokens)
    (hrem : 0 < s.remainVideos) : ∃ loc, Mrope.locate env tokens s = .ok loc ∧
      loc.edVisionStart = s.st+text.length ∧ loc.edVisionStart < loc.edVisionEnd ∧
      loc.edVisionEnd < loc.edAudioStart := by
  obtain ⟨inner,outer,hinner,hfree⟩ := List.eq_append_cons_of_mem
    (show Token.visionEnd ∈ content ++ [Token.visionEnd] by simp)
  have htok : tokens = pre ++ (wireText text ++ .visionStart :: (content ++ .visionEnd :: more)) := by
    rw [h.split,hwire]
    rfl
  have hframe : content ++ .visionEnd :: more = inner ++ .visionEnd :: (outer ++ more) := by
    have : content ++ .visionEnd :: more = (content ++ [.visionEnd]) ++ more := by simp
    rw [this,hinner]
    simp
  have hlen : inner.length+1+outer.length = content.length+1 := by
    have := congrArg List.length hinner
    simp at this
    omega
  have hvs := index_visionStart cfg env h hwire
  have hve : index .visionEnd s.st tokens = .ok (s.st+text.length+1+inner.length) := by
    have hno : .visionEnd ∉ wireText text ++ .visionStart :: inner := by
      simp [notMem_wireText (x := .visionEnd) rfl text,hfree]
    have := index_skip pre (outer ++ more) hno
    rw [htok,hframe,h.st]
    simp only [List.append_assoc,List.cons_append] at this
    rw [this]
    simp; omega
  have has : s.st+text.length+content.length+2 ≤
      (indexFrom .audioStart s.st tokens).getD (tokens.length+1) := by
    have hno : .audioStart ∉ wireText text ++ .visionStart :: (content ++ [.visionEnd]) := by
      simp [notMem_wireText (x := .audioStart) rfl text,haudio]
    have := indexFrom_getD_lower pre more hno
    rw [htok,h.st]
    simp only [List.append_assoc,List.cons_append,List.nil_append,List.length_append,
      List.length_cons,length_wireText,List.length_nil] at this ⊢
    omega
  have hbound : s.st+text.length+content.length+2 ≤ tokens.length := by
    rw [htok,h.st]
    simp
    omega
  have hremains : visionRemains tokens s.remainVideos s.remainImages = true :=
    visionRemains_of_mem (.inr hpad) (.inl hrem)
  set as := if 0 < s.remainAudios then
    (indexFrom .audioStart s.st tokens).getD (tokens.length+1) else tokens.length+1 with hasdef
  have hlt : s.st+text.length+1+inner.length < as := by
    rw [hasdef]
    split <;> omega
  refine ⟨⟨s.st+text.length,s.st+text.length+1+inner.length,as⟩,?_,rfl,?_,hlt⟩
  · simp [Mrope.locate,hremains,hvs,hve,hu,hasdef]
  · dsimp only
    omega

/-- In front of a silent video the branch for a grid is taken, and its block starts with the
timestamp. -/
theorem lays_over_text (h : Inv cfg env tokens pre [] back imgs ((f,last) :: grids) auds s b)
    (hwire : back.wire = wireText text ++ .visionStart :: (content ++ .visionEnd :: more))
    (hu : env.useAudioInVideo = false) {t : Token}
    (hhead : (content ++ [Token.visionEnd]).head? = some t) (ht : t.isPad = false)
    (haudio : .audioStart ∉ content) (hpad : .videoPad ∈ tokens) (hrem : 0 < s.remainVideos) :
    ∃ loc, Mrope.locate env tokens s = .ok loc ∧
      t ∈ Mrope.gridTokensUnder cfg env tokens s loc := by
  obtain ⟨loc,hloc,hstart,hle,hlt⟩ := locate_silent cfg env h hwire hu haudio hpad hrem
  refine ⟨loc,hloc,?_⟩
  have hdrop : tokens.drop (loc.edVisionStart+1) = content ++ .visionEnd :: more := by
    have htok : tokens = pre ++ (wireText text ++ .visionStart ::
        (content ++ .visionEnd :: more)) := by
      rw [h.split,hwire]
      rfl
    rw [hstart,htok,h.st,← List.drop_drop,drop_after]
    rfl
  have hfirst : tokens[loc.edVisionStart+1]? = some t := by
    rw [← List.head?_drop,hdrop,show content ++ .visionEnd :: more =
      (content ++ [.visionEnd]) ++ more by simp,List.head?_append,hhead]
    rfl
  obtain ⟨all,ho,hget,-⟩ := h.cursors.videos.getItem
  have himage : t ≠ .imagePad := fun e => by rw [e] at ht; cases ht
  have hmin : min loc.edVisionStart loc.edAudioStart = loc.edVisionStart := by omega
  have hne : loc.edVisionStart ≠ loc.edAudioStart := by omega
  have hsize : (⟨1,f.h,f.w⟩ : Thw).prod/cfg.spatialMergeSize^2 = f.tokens := by
    rw [Thw.prod,Nat.one_mul,f.mul_div_sq]
  simp only [Mrope.gridTokensUnder,Mrope.Located.minEd,hmin,hne,if_false,hfirst,himage,hlt,
    if_true,ho,Option.getD_some,hget,Option.map_some,hsize]
  have hzero : ((tokens.drop (loc.edVisionStart+1)).take f.tokens)[0]? = some t := by
    rw [List.getElem?_take_of_lt f.tokens_pos,List.getElem?_drop,Nat.add_zero,hfirst]
  exact List.mem_of_getElem? hzero

/-- In front of a video with audio the next `audio_start` belongs to an inner span. -/
theorem locate_nested {ts : List Nat} {rest : List Token}
    (h : Inv cfg env tokens pre [] back imgs grids auds s b)
    (hwire : back.wire = wireText text ++ .visionStart :: (wireText ts ++
      .visionStart :: .audioStart :: rest))
    (hclosed : .visionEnd ∈ rest) (hu : env.useAudioInVideo = true) (hpad : .videoPad ∈ tokens)
    (hrem : 0 < s.remainVideos) : ∃ e, s.st+text.length+ts.length+2 < e ∧
      Mrope.locate env tokens s = .ok ⟨s.st+text.length,e,s.st+text.length+ts.length+2⟩ := by
  have htok : tokens = pre ++ (wireText text ++ .visionStart :: (wireText ts ++
      .visionStart :: .audioStart :: rest)) := by
    rw [h.split,hwire]
    rfl
  have hvs := index_visionStart cfg env h hwire
  have has : indexFrom .audioStart s.st tokens = some (s.st+text.length+ts.length+2) := by
    have hno : .audioStart ∉ wireText text ++ .visionStart :: (wireText ts ++ [.visionStart]) := by
      simp [notMem_wireText (x := .audioStart) rfl]
    have := indexFrom_skip .audioStart pre rest hno
    rw [htok,h.st]
    simp only [List.append_assoc,List.cons_append,List.nil_append] at this
    rw [this]
    simp
    omega
  have hno : .visionEnd ∉ wireText text ++ .visionStart :: (wireText ts ++
      [.visionStart,.audioStart]) := by
    simp [notMem_wireText (x := .visionEnd) rfl]
  obtain ⟨e,he,hle⟩ := index_of_mem pre hno hclosed
  simp only [List.append_assoc,List.cons_append,List.nil_append] at he
  have hve : index .visionEnd s.st tokens = .ok e := by
    rw [htok,h.st]
    exact he
  have hlt : s.st+text.length+ts.length+2 < e := by
    rw [h.st]
    simp at hle
    omega
  have hremains : visionRemains tokens s.remainVideos s.remainImages = true :=
    visionRemains_of_mem (.inr hpad) (.inl hrem)
  have hbefore : s.st+text.length < s.st+text.length+ts.length+2 := by omega
  exact ⟨e,hlt,by simp [Mrope.locate,hremains,hvs,hve,has,hu,hbefore,hlt]⟩

/-- Behind the outer delimiter stands the timestamp or the inner delimiter, so the branch for a
video with audio is taken, and it refuses the span. -/
theorem refuses_nested {ts : List Nat} {rest : List Token}
    (h : Inv cfg env tokens pre [] back imgs ((f,last) :: grids) auds s b)
    (hwire : back.wire = wireText text ++ .visionStart :: (wireText ts ++
      .visionStart :: .audioStart :: rest))
    (hclosed : .visionEnd ∈ rest) (hu : env.useAudioInVideo = true) (hpad : .videoPad ∈ tokens)
    (hrem : 0 < s.remainVideos) :
    Mrope.step cfg env tokens s = .error (.raised .valueError
      "Audio-in-video span expected audio_start immediately after vision_start.") := by
  obtain ⟨e,hlt,hloc⟩ := locate_nested cfg env h hwire hclosed hu hpad hrem
  set loc : Mrope.Located := ⟨s.st+text.length,e,s.st+text.length+ts.length+2⟩ with hlocdef
  obtain ⟨first,hfirst,himage⟩ : ∃ first, getItem tokens (loc.edVisionStart+1) = .ok first ∧
      first ≠ .imagePad := by
    have htok : tokens = pre ++ (wireText text ++ .visionStart :: (wireText ts ++
        .visionStart :: .audioStart :: rest)) := by
      rw [h.split,hwire]
      rfl
    rw [htok,hlocdef,h.st]
    cases ts with
    | nil => exact ⟨.visionStart,getItem_after pre text _ _ _,by simp⟩
    | cons i ts => exact ⟨.text i,getItem_after pre text _ _ _,by simp⟩
  have hmin : loc.minEd ≠ loc.edAudioStart := by
    simp only [hlocdef,Mrope.Located.minEd]
    omega
  obtain ⟨all,ho,-,-⟩ := h.cursors.videos.getItem
  have hne : loc.edAudioStart ≠ loc.edVisionStart+1 := by
    simp only [hlocdef]
    omega
  have hread (blocks : List Block) (stIdx textLen : Int) :
      Mrope.readSpan cfg env tokens s loc blocks stIdx textLen = .error (.raised .valueError
        "Audio-in-video span expected audio_start immediately after vision_start.") := by
    have hbranch : ¬ loc.edVisionEnd < loc.edAudioStart := by simp only [hlocdef]; omega
    have hgt : loc.edVisionEnd > loc.edAudioStart := hlt
    simp only [Mrope.readSpan,hmin,if_false,hfirst,ok_bind,himage,hbranch,hgt,if_true,
      Mrope.audioInVideo,ho,pure_eq_ok,raiseIf,hne,ne_eq,not_false_eq_true,error_bind]
  simp only [Mrope.step,Mrope.nextStart_of_ok h.next,hloc,ok_bind,hread,error_bind]

end Meets
end Reach
section Spans

/-- The spans of a video: silent grids, or grids with audio and at least one of them. -/
def SpansOf (useAudioInVideo : Bool) (spans : List (Item m)) : Prop :=
  if useAudioInVideo then spans ≠ [] ∧ ∀ it ∈ spans, it.media.isAv = true
  else ∀ it ∈ spans, it.media.isGrid = true

variable {useAudioInVideo : Bool} {spans : List (Item m)}

theorem SpansOf.visual (h : SpansOf useAudioInVideo spans) :
    ∀ it ∈ spans, it.media.clips = [] := by
  intro it hit
  unfold SpansOf at h
  split at h
  · have := h.2 it hit
    cases hm : it.media <;> simp_all [Media.isAv,Media.clips]
  · have := h it hit
    cases hm : it.media <;> simp_all [Media.isGrid,Media.clips]

/-- The nests of an updated prompt: images, audios and the spans of videos. -/
def NestOf (useAudioInVideo : Bool) : Nest m → Prop
  | .plain a => a.grids = []
  | .wrapped spans => SpansOf useAudioInVideo spans

theorem nest_of {parts : List (AskPart m)} {videos : List (List (Item m))}
    (hv : ∀ spans ∈ videos, SpansOf useAudioInVideo spans)
    (hlen : videos.length = (parts.filterMap (·.ask.video?)).length) :
    ∀ y ∈ nest parts videos, NestOf useAudioInVideo y.2 := by
  induction parts generalizing videos with
  | nil => simp [nest]
  | cons p parts ih =>
    obtain ⟨text,ask⟩ := p
    cases ask with
    | image g => exact List.forall_mem_cons.mpr ⟨rfl,ih hv hlen⟩
    | audio a => exact List.forall_mem_cons.mpr ⟨rfl,ih hv hlen⟩
    | video g =>
      cases videos with
      | nil => simp [Ask.video?] at hlen
      | cons spans videos =>
        obtain ⟨hspans,hv⟩ := List.forall_mem_cons.mp hv
        exact List.forall_mem_cons.mpr ⟨hspans,ih hv (by simpa [Ask.video?] using hlen)⟩

theorem NestOf.visual {n : Nest m} (h : NestOf useAudioInVideo n) : n.Visual := by
  cases n with
  | plain a => exact trivial
  | wrapped spans => exact SpansOf.visual h

theorem videoPad_notMem {l : List (List Nat × Nest m)} (hl : ∀ y ∈ l, NestOf false y.2)
    (hno : .videoPad ∉ l.flatMap (·.2.closing)) (tail : List Nat) :
    .videoPad ∉ nestWire l ++ wireText tail := by
  intro hmem
  rcases List.mem_append.mp hmem with hmem | hmem
  · obtain ⟨y,hy,hmem⟩ := List.mem_flatMap.mp hmem
    rcases List.mem_append.mp hmem with hmem | hmem
    · exact notMem_wireText rfl _ hmem
    · refine hno (List.mem_flatMap.mpr ⟨y,hy,?_⟩)
      have hof := hl y hy
      cases hn : y.2 with
      | plain a =>
        rw [hn] at hmem hof
        cases a <;> simp_all [Nest.wire,Media.wire,NestOf,Media.grids]
      | wrapped spans =>
        rw [hn] at hmem hof
        cases hs : spans with
        | nil => simp [hs,Nest.wire,wireItems] at hmem
        | cons it spans' =>
          have hgrid : it.media.isGrid = true := hof it (by simp [hs])
          cases hm : it.media <;> simp_all [Media.isGrid,Nest.closing,Media.closing]
  · exact notMem_wireText rfl _ hmem

/-- The loop counts grids with audio exactly if the videos carry their audio. -/
theorem count_audioEnd {text : List Nat} {l : List (List Nat × Nest m)}
    (hspans : SpansOf useAudioInVideo spans) (hl : ∀ y ∈ l, NestOf useAudioInVideo y.2) :
    (0 < (((text,.wrapped spans) :: l).flatMap (·.2.closing)).count .audioEnd) ↔
      useAudioInVideo = true := by
  rw [List.count_pos_iff]
  cases hu : useAudioInVideo with
  | true =>
    rw [hu] at hspans
    obtain ⟨hne,hall⟩ := hspans
    obtain ⟨it,hit⟩ := List.exists_mem_of_ne_nil spans hne
    refine ⟨fun _ => rfl,fun _ => List.mem_flatMap.mpr ⟨_,List.mem_cons_self,?_⟩⟩
    refine List.mem_flatMap.mpr ⟨it,hit,?_⟩
    have := hall it hit
    cases hm : it.media <;> simp_all [Media.isAv,Media.closing]
  | false =>
    rw [hu] at hspans hl
    refine ⟨fun hmem => ?_,fun h => by cases h⟩
    obtain ⟨y,hy,hmem⟩ := List.mem_flatMap.mp hmem
    have hof : NestOf false y.2 := by
      rcases List.mem_cons.mp hy with rfl | hy
      · exact hspans
      · exact hl y hy
    cases hn : y.2 with
    | plain a =>
      rw [hn] at hmem hof
      cases a <;> simp_all [Nest.closing,Media.closing,NestOf,Media.grids]
    | wrapped inner =>
      rw [hn] at hmem hof
      obtain ⟨it,hit,hmem⟩ := List.mem_flatMap.mp hmem
      have : it.media.isGrid = true := hof it hit
      cases hm : it.media <;> simp_all [Media.isGrid,Media.closing]

/-- What stands first behind the outer delimiter of a silent video is no pad. -/
theorem head_silent (h : SpansOf false spans) :
    .audioStart ∉ wireItems spans ∧
      ∃ t, (wireItems spans ++ [Token.visionEnd]).head? = some t ∧ t.isPad = false := by
  refine ⟨fun hmem => ?_,?_⟩
  · obtain ⟨it,hit,hmem⟩ := List.mem_flatMap.mp hmem
    have : it.media.isGrid = true := h it hit
    rcases List.mem_append.mp hmem with hmem | hmem
    · exact notMem_wireText rfl _ hmem
    · cases hm : it.media <;> simp_all [Media.isGrid,Media.wire]
  · cases spans with
    | nil => exact ⟨.visionEnd,rfl,rfl⟩
    | cons it spans =>
      have : it.media.isGrid = true := h it (by simp)
      obtain ⟨text,media⟩ := it
      cases text with
      | cons i text => exact ⟨.text i,rfl,rfl⟩
      | nil =>
        cases media with
        | grid f last => exact ⟨.visionStart,rfl,rfl⟩
        | image g => cases this
        | audio a => cases this
        | avGrid f j track => cases this

theorem head_sounding (h : SpansOf true spans) : ∃ ts rest, wireItems spans =
    wireText ts ++ .visionStart :: .audioStart :: rest ∧ .videoPad ∈ rest ∧ .visionEnd ∈ rest := by
  obtain ⟨hne,hall⟩ := h
  cases spans with
  | nil => cases hne rfl
  | cons it spans =>
    have : it.media.isAv = true := hall it (by simp)
    obtain ⟨text,media⟩ := it
    cases media with
    | avGrid f j track =>
      exact ⟨text,List.replicate f.tokens .videoPad ++ (List.replicate j .audioPad ++
        [.audioEnd,.visionEnd]) ++ wireItems spans,by simp [wireItems,Item.wire,Media.wire],
        by simp [f.tokens_pos.ne'],by simp⟩
    | image g => cases this
    | audio a => cases this
    | grid f last => cases this

end Spans

section Parse
variable (cfg : Config) {env : MediaArgs} {mmFeatures : List Mrope.Feature}
  {pr : TokenPrompt cfg.spatialMergeSize} {videos : List (List (Item cfg.spatialMergeSize))}
  {audios : List Nat}

/-- The updated prompt. -/
def TokenPrompt.updated {m : Nat} (pr : TokenPrompt m) (videos : List (List (Item m))) :
    List Token :=
  nestWire (nest pr.parts videos) ++ wireText pr.tail

theorem expandVideos_cons {m : Nat} (g : Grid m) (videos : List (Grid m)) :
    ∃ last grids, expandVideos (g :: videos) = (g.toFrame,last) :: grids := by
  obtain ⟨n,hn⟩ : ∃ n, g.t = n+1 := ⟨g.t-1,by have := g.tPos; omega⟩
  have hcons : expandVideos (g :: videos) =
      ((List.range g.t).map fun i : Nat => (g.toFrame,decide (i+1 = g.t))) ++
        expandVideos videos := rfl
  rw [hcons,hn,List.range_succ_eq_map]
  exact ⟨_,_,rfl⟩

/-- After `k` iterations the loop stands in front of a video. -/
structure AtVideo (tokens : List Token) (tail : List Nat) (env : MediaArgs) (text : List Nat)
    (spans : List (Item cfg.spatialMergeSize)) (l : List (List Nat × Nest cfg.spatialMergeSize))
    (k : Nat) (s : LoopState) : Prop where
  own : SpansOf env.useAudioInVideo spans
  nests : ∀ y ∈ l, NestOf env.useAudioInVideo y.2
  run : iterate (Mrope.step cfg env tokens) k (initialState env tokens .zero) = .ok s
  nums : (initialState env tokens .zero).multimodalNums.toNat =
    k+((behind env.useAudioInVideo text spans l tail).images+
      (behind env.useAudioInVideo text spans l tail).grids+
      (behind env.useAudioInVideo text spans l tail).clips)
  remain : (initialState env tokens .zero).remainVideos =
    (behind env.useAudioInVideo text spans l tail).grids
  inv : ∃ pre imgs f last grids auds b, Inv cfg env tokens pre []
    (behind env.useAudioInVideo text spans l tail) imgs ((f,last) :: grids) auds s b

/-- The loop reaches the first video, with the spans from there on still counted. -/
theorem reaches_video (hat : At env .zero pr.images (expandVideos pr.videos) audios)
    (hspans : ∀ spans ∈ videos, SpansOf env.useAudioInVideo spans)
    (hlen : videos.length = pr.videos.length)
    (haud : if env.useAudioInVideo then pr.clips = [] else audios = pr.clips.map AudioClip.featureLen)
    (hne : pr.videos ≠ []) :
    ∃ text spans l k s, AtVideo cfg (pr.updated videos) pr.tail env text spans l k s := by
  obtain ⟨before,text,g,after,hparts,hbefore⟩ := exists_first_video hne
  have hvideos : pr.videos = g :: after.filterMap (·.ask.video?) := by
    rw [TokenPrompt.videos,hparts,List.filterMap_append,hbefore]
    rfl
  obtain ⟨spans,videos',rfl⟩ := List.exists_cons_of_length_pos (l := videos) (by
    rw [hlen,hvideos]
    simp)
  obtain ⟨hfirst,hrest⟩ := List.forall_mem_cons.mp hspans
  have hl : ∀ y ∈ nest after videos', NestOf env.useAudioInVideo y.2 := by
    refine nest_of hrest ?_
    rw [hvideos] at hlen
    simpa using hlen
  obtain ⟨last,grids,hgrids⟩ := expandVideos_cons g (after.filterMap (·.ask.video?))
  obtain ⟨himages,hnone,haudios,hav⟩ := plainItems_media before
  have hwire : pr.updated (spans :: videos') = wireItems (plainItems before) ++
      (behind env.useAudioInVideo text spans (nest after videos') pr.tail).wire := by
    rw [TokenPrompt.updated,hparts,nest_plain hbefore,nestWire_append,nestWire_plain,
      List.append_assoc]
    rfl
  obtain ⟨auds,hauds⟩ : ∃ auds, audios = (plainItems before).flatMap (·.media.audios) ++ auds := by
    rw [haudios]
    split at haud
    · have hclips : before.filterMap (·.ask.audio?) = [] := by
        have : pr.clips = before.filterMap (·.ask.audio?) ++ after.filterMap (·.ask.audio?) := by
          simp [TokenPrompt.clips,hparts,Ask.audio?]
        rw [haud] at this
        exact (List.append_eq_nil_iff.mp this.symm).1
      exact ⟨audios,by rw [hclips]; rfl⟩
    · refine ⟨(after.filterMap (·.ask.audio?)).map AudioClip.featureLen,?_⟩
      rw [haud,← List.map_append]
      simp [TokenPrompt.clips,hparts,Ask.audio?]
  have himgs : pr.images = (plainItems before).flatMap (·.media.images) ++
      after.filterMap (·.ask.image?) := by
    rw [himages]
    simp [TokenPrompt.images,hparts,Ask.image?]
  rw [himgs,hvideos,hgrids,hauds] at hat
  have hinv := @nested_inv cfg env _ text pr.tail spans (nest after videos') _ _ _ hnone hav
    (List.forall_mem_cons.mpr ⟨SpansOf.visual hfirst,fun y hy => (hl y hy).visual⟩)
    (count_audioEnd hfirst hl) hat
  rw [← hwire] at hinv
  obtain ⟨s,hrun,-,hs⟩ := Mrope.iterate_reads cfg env hinv
  refine ⟨text,spans,nest after videos',_,s,hfirst,hl,hrun,multimodalNums_eq cfg env hinv,?_,
    _,_,_,last,grids,auds,_,hs⟩
  rw [hinv.remainVideos,gridTotal,hnone]
  simp

theorem rowMajor_ne_nil {m : Nat} (b : Int) (f : Frame m) : rowMajor b [0] f.rows f.cols ≠ [] := by
  intro h
  have := congrArg List.length h
  simp only [length_rowMajor,List.length_singleton,List.length_nil,Nat.one_mul] at this
  exact f.tokens_pos.ne' this

theorem videoPositions_eq_nil {tokens : List Token} (h : .videoPad ∉ tokens)
    (positions : List Pos) : Mrope.videoPositions tokens positions = [] := by
  rw [Mrope.videoPositions,List.map_eq_nil_iff,List.filter_eq_nil_iff]
  intro x hx
  have hmem := (List.of_mem_zip hx).1
  simp only [decide_eq_true_eq]
  intro hpad
  exact h (hpad ▸ hmem)

theorem not_gridBlocks {m : Nat} {videos : List (Grid m)} (hne : videos ≠ [])
    {tokens : List Token} (h : .videoPad ∉ tokens) (positions : List Pos) :
    ¬ Mrope.GridBlocks ((expandVideos videos).map (·.1))
      (Mrope.videoPositions tokens positions) := by
  obtain ⟨g,rest,rfl⟩ := List.exists_cons_of_ne_nil hne
  obtain ⟨last,grids,hgrids⟩ := expandVideos_cons g rest
  rw [hgrids,videoPositions_eq_nil h]
  rintro ⟨⟨b,hb⟩,-⟩
  rw [List.take_nil] at hb
  exact rowMajor_ne_nil b g.toFrame hb.symm

section AtVideo
variable {cfg} {tokens : List Token} {text tail : List Nat} {k : Nat} {s : LoopState}
  {spans : List (Item cfg.spatialMergeSize)} {l : List (List Nat × Nest cfg.spatialMergeSize)}

theorem behind_wire {m : Nat} (u : Bool) (text tail : List Nat) (spans : List (Item m))
    (l : List (List Nat × Nest m)) : (behind u text spans l tail).wire = wireText text ++
      .visionStart :: (wireItems spans ++ .visionEnd :: (nestWire l ++ wireText tail)) := by
  simp [behind,nestWire,Nest.wire]

theorem AtVideo.refuses (h : AtVideo cfg tokens tail env text spans l k s)
    (hu : env.useAudioInVideo = true) :
    Mrope.scan cfg env tokens = .error (.raised .valueError
      "Audio-in-video span expected audio_start immediately after vision_start.") := by
  obtain ⟨pre,imgs,f,last,grids,auds,b,hinv⟩ := h.inv
  obtain ⟨ts,rest,hspan,hpad,hclosed⟩ := head_sounding (hu ▸ h.own)
  have hback : (behind env.useAudioInVideo text spans l tail).wire = wireText text ++
      .visionStart :: (wireText ts ++ .visionStart :: .audioStart ::
        (rest ++ .visionEnd :: (nestWire l ++ wireText tail))) := by
    rw [behind_wire,hspan]
    simp
  have hpos : 0 < (behind env.useAudioInVideo text spans l tail).grids := by
    have := (@count_audioEnd _ _ _ text l h.own h.nests).mpr hu
    rw [behind,hu]
    exact this
  have hrem : 0 < s.remainVideos := by
    rw [hinv.remainVideos]
    omega
  have hmem : .videoPad ∈ tokens := by
    rw [hinv.split,hback]
    simp [hpad]
  have herr := refuses_nested cfg env hinv hback (by simp) hu hmem hrem
  obtain ⟨n,hn⟩ : ∃ n, (initialState env tokens .zero).multimodalNums.toNat = k+(n+1) :=
    ⟨(initialState env tokens .zero).multimodalNums.toNat-k-1,by rw [h.nums]; omega⟩
  simp only [Mrope.scan,hn,iterate_add,h.run,ok_bind,iterate,herr,error_bind]

theorem AtVideo.not_apart (h : AtVideo cfg tokens tail env text spans l k s)
    (hu : env.useAudioInVideo = false) (hpad : .videoPad ∈ tokens)
    (hpos : 0 < (initialState env tokens .zero).remainVideos) : ¬ Mrope.Apart cfg env tokens := by
  intro hapart
  obtain ⟨pre,imgs,f,last,grids,auds,b,hinv⟩ := h.inv
  obtain ⟨haudio,t,hhead,ht⟩ := head_silent (hu ▸ h.own)
  rw [h.remain] at hpos
  have hrem : 0 < s.remainVideos := by
    rw [hinv.remainVideos]
    omega
  obtain ⟨loc,hloc,hmem⟩ := lays_over_text cfg env hinv (behind_wire _ _ _ _ _) hu hhead ht haudio
    hpad hrem
  have hbad := hapart k s loc (by rw [h.nums]; omega) h.run hloc t hmem
  rw [ht] at hbad
  cases hbad

end AtVideo

/-- A prompt with a video is refused, or a grid is laid over what is no pad. -/
theorem not_parses (hmedia : Mrope.mediaArgs mmFeatures = .ok env)
    (hat : At env .zero pr.images (expandVideos pr.videos) audios)
    (hspans : ∀ spans ∈ videos, SpansOf env.useAudioInVideo spans)
    (hlen : videos.length = pr.videos.length)
    (haud : if env.useAudioInVideo then pr.clips = [] else audios = pr.clips.map AudioClip.featureLen)
    (hne : pr.videos ≠ []) :
    ¬ Mrope.Parses cfg (pr.updated videos) mmFeatures pr.videos := by
  intro hparses
  obtain ⟨positions,delta,hok,-,hblocks⟩ := hparses.accepts
  obtain ⟨text,spans,l,k,s,h⟩ := reaches_video cfg hat hspans hlen haud hne
  cases hu : env.useAudioInVideo with
  | true =>
    have hscan := h.refuses hu
    obtain ⟨pre,imgs,f,last,grids,auds,b,hinv⟩ := h.inv
    obtain ⟨all,ho,-,-⟩ := hinv.cursors.videos.getItem
    rw [Mrope.getMropeInputPositions,hmedia] at hok
    simp [ho,hscan] at hok
  | false =>
    by_cases hpad : .videoPad ∈ pr.updated videos
    · have hof := nest_of hspans hlen
      rw [hu] at hof
      have hclosing : .videoPad ∈ (nest pr.parts videos).flatMap (·.2.closing) := by
        by_contra hno
        exact videoPad_notMem hof hno pr.tail hpad
      have hpos : 0 < (initialState env (pr.updated videos) .zero).remainVideos := by
        have hcount := @count_visionTokens _ .videoPad (by simp) (by simp) _
          (fun y hy => (hof y hy).visual) pr.tail
        have := List.count_pos_iff.mpr hclosing
        rw [← hcount] at this
        simp only [initialState,hu]
        exact_mod_cast this
      exact h.not_apart hu hpad hpos (hparses.apart env hmedia)
    · exact not_gridBlocks hne hpad positions hblocks

section Plain
variable {items : List (Item cfg.spatialMergeSize)} {it : Item cfg.spatialMergeSize}
  {tokens pre : List Token} {back : Rest} {imgs : List (Grid cfg.spatialMergeSize)}
  {grids : List (Frame cfg.spatialMergeSize × Bool)} {auds : List Nat} {s : LoopState} {b : Int}

theorem pads_under (h : Inv cfg env tokens pre (it :: items) back imgs grids auds s b)
    (hg : it.media.grids = []) {loc : Mrope.Located} (hloc : Mrope.locate env tokens s = .ok loc) :
    ∀ t ∈ Mrope.gridTokensUnder cfg env tokens s loc, t.isPad = true := by
  obtain ⟨text,media⟩ := it
  cases media with
  | grid f last => cases hg
  | avGrid f j track => cases hg
  | audio a =>
    obtain ⟨hahead,hi,hv,ha,-⟩ := h.audio_ahead
    obtain ⟨loc',hloc',has,hlt⟩ := Mrope.locate_audio env hahead hi hv ha
    obtain rfl : loc' = loc := Except.ok.inj (hloc'.symm.trans hloc)
    have hmin : loc'.minEd = loc'.edAudioStart := by
      rw [Mrope.Located.minEd]
      omega
    simp [Mrope.gridTokensUnder,hmin]
  | image g =>
    obtain ⟨hahead,hrem,hcur⟩ := h.image_ahead
    obtain ⟨loc',hloc',hvs,hve,hlt⟩ := Mrope.locate_vision env hahead (.inr hrem)
    obtain rfl : loc' = loc := Except.ok.inj (hloc'.symm.trans hloc)
    have hmin : loc'.minEd = s.st+text.length := by rw [Mrope.Located.minEd,hvs]; omega
    have hne : s.st+text.length ≠ loc'.edAudioStart := by omega
    obtain ⟨all,ho,hget,-⟩ := hcur.images.getItem
    obtain ⟨rest,hbody⟩ := hahead.body
    have hfirst := getItem_eq_ok.mp hahead.first
    have hsize := g.prod_div_sq
    intro t ht
    simp only [Mrope.gridTokensUnder,hmin,hne,if_false,hvs,hfirst,if_true,ho,Option.getD_some,
      hget,Option.map_some,hsize,hbody] at ht
    rw [List.take_append_of_le_length (by simp),List.take_of_length_le (by simp)] at ht
    rw [List.eq_of_mem_replicate ht]
    rfl

theorem apart_plain {s : Sample cfg.spatialMergeSize} (hgrids : s.videos = [])
    (hav : s.hasAv = false) (hat : At env .zero s.images (expandVideos s.videos) s.audios) :
    Mrope.Apart cfg env s.wire := by
  have hstart : At env .zero (s.images ++ []) (expandVideos s.videos ++ []) (s.audios ++ []) := by
    simpa using hat
  have hinit := initial_inv cfg env (s := s) (fun h => by rw [hav] at h; cases h) hstart
  have hnums := multimodalNums_eq cfg env hinit
  simp only [Rest.ofText,Nat.add_zero] at hnums
  intro k st loc hk hrun hloc
  rw [hnums] at hk
  obtain ⟨st',pre,b,hrun',hinv⟩ := Mrope.iterate_inv cfg env hinit hk.le
  obtain rfl : st' = st := Except.ok.inj (hrun'.symm.trans hrun)
  obtain ⟨it,items,hdrop⟩ := List.exists_cons_of_length_pos (l := s.items.drop k) (by simp; omega)
  rw [hdrop] at hinv
  refine pads_under cfg hinv ?_ hloc
  have hnone : s.items.flatMap (·.media.grids) = [] := by rw [s.gridsEq,hgrids]; rfl
  refine List.flatMap_eq_nil_iff.mp hnone it (List.mem_of_mem_drop (i := k) ?_)
  rw [hdrop]
  exact List.mem_cons_self

end Plain
end Parse
end Vllm
end TLiveOmni
