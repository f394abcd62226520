import TLiveOmni.Loop
import TLiveOmni.Navigate

/-! The invariant of the scanning loops. It ties the scan offset, the remaining counters and
the cursors to the spans still to be read. -/
set_option autoImplicit false

namespace TLiveOmni
open PySeq

section Cursor
variable {m : Nat}

/-- The cursors stand at the given remaining images, temporal grids and audios. -/
structure At (env : MediaArgs) (c : Cursors) (imgs : List (Grid m)) (grids : List (Frame m × Bool))
    (auds : List Nat) : Prop where
  images : Remaining env.imageGridThw c.imageIdx (imgs.map Grid.thw)
  videos : Remaining env.videoGridThw c.videoIdx (grids.map fun g => ⟨1,g.1.h,g.1.w⟩)
  seconds : c.videoIdx + grids.length ≤ env.secondPerGrids.length
  ends : ∀ i g, grids[i]? = some g →
    (c.videoIdx+i+1 ∈ env.videoChunkEndIndices ↔ g.2 = true)
  audios : Remaining env.audioSeqlens c.audioIdx auds

theorem At.pop_image {env : MediaArgs} {c : Cursors} {g : Grid m} {imgs : List (Grid m)}
    {grids : List (Frame m × Bool)} {auds : List Nat} (h : At env c (g :: imgs) grids auds) :
    At env { c with imageIdx := c.imageIdx+1 } imgs grids auds :=
  ⟨h.images.next,h.videos,h.seconds,h.ends,h.audios⟩

theorem At.pop_grid {env : MediaArgs} {c : Cursors} {g : Frame m × Bool} {imgs : List (Grid m)}
    {grids : List (Frame m × Bool)} {auds : List Nat} (h : At env c imgs (g :: grids) auds) :
    At env { c with videoIdx := c.videoIdx+1 } imgs grids auds := by
  refine ⟨h.images,h.videos.next,?_,?_,h.audios⟩
  · have := h.seconds
    simp only [List.length_cons] at this
    change c.videoIdx+1+grids.length ≤ _
    omega
  · intro i g' hg
    have := h.ends (i+1) g' (by simpa using hg)
    rw [← this]
    change c.videoIdx+1+i+1 ∈ _ ↔ _
    rw [show c.videoIdx+1+i+1 = c.videoIdx+(i+1)+1 by omega]

theorem At.pop_audio {env : MediaArgs} {c : Cursors} {a : Nat} {imgs : List (Grid m)}
    {grids : List (Frame m × Bool)} {auds : List Nat} (h : At env c imgs grids (a :: auds)) :
    At env { c with audioIdx := c.audioIdx+1 } imgs grids auds :=
  ⟨h.images,h.videos,h.seconds,h.ends,h.audios.next⟩

end Cursor

section Invariant
variable (cfg : Config) (env : MediaArgs)
variable {tokens pre : List Token} {it : Item cfg.spatialMergeSize}
variable {items : List (Item cfg.spatialMergeSize)} {back : Rest}
variable {imgs : List (Grid cfg.spatialMergeSize)}
variable {grids : List (Frame cfg.spatialMergeSize × Bool)} {auds : List Nat}
variable {s s' : LoopState} {b : Int}

/-- What holds before each iteration: the spans `items` and what is behind them are unread, and
the media lists end with what the rest or later rows use. -/
structure Inv (tokens pre : List Token) (items : List (Item cfg.spatialMergeSize))
    (back : Rest) (imgs : List (Grid cfg.spatialMergeSize))
    (grids : List (Frame cfg.spatialMergeSize × Bool)) (auds : List Nat) (s : LoopState) (b : Int) :
    Prop where
  split : tokens = pre ++ (wireItems items ++ back.wire)
  st : s.st = pre.length
  next : nextPosition s.blocks = .ok b
  remainImages : s.remainImages = imageTotal items+back.images
  remainVideos : s.remainVideos = gridTotal items+back.grids
  remainAudios : s.remainAudios = clipTotal items+back.clips
  cursors : At env s.toCursors (items.flatMap (·.media.images) ++ imgs)
    (items.flatMap (·.media.grids) ++ grids) (items.flatMap (·.media.audios) ++ auds)
  flag : items.any (·.media.isAv) = true → env.useAudioInVideo = true

theorem Inv.advance (h : Inv cfg env tokens pre (it :: items) back imgs grids auds s b)
    (hblocks : s'.blocks = s.blocks ++ it.blocks cfg.positionIdPerSeconds b)
    (hst : s'.st = s.st+it.wire.length)
    (hi : s'.remainImages = s.remainImages-it.media.images.length)
    (hv : s'.remainVideos = s.remainVideos-it.media.grids.length)
    (ha : s'.remainAudios = s.remainAudios-it.media.clips.length)
    (hc : At env s'.toCursors (items.flatMap (·.media.images) ++ imgs)
      (items.flatMap (·.media.grids) ++ grids) (items.flatMap (·.media.audios) ++ auds)) :
    Inv cfg env tokens (pre ++ it.wire) items back imgs grids auds s'
      (b+it.advance cfg.positionIdPerSeconds) where
  split := by simp [h.split,wireItems]
  st := by rw [hst,h.st,List.length_append]
  next := by rw [hblocks,Item.nextPosition_blocks]
  remainImages := by
    rw [hi,h.remainImages,imageTotal,imageTotal,List.flatMap_cons,List.length_append]
    push_cast; omega
  remainVideos := by
    rw [hv,h.remainVideos,gridTotal,gridTotal,List.flatMap_cons,List.length_append]
    push_cast; omega
  remainAudios := by
    rw [ha,h.remainAudios,clipTotal,clipTotal,List.flatMap_cons,List.length_append]
    push_cast; omega
  cursors := hc
  flag := fun hav => h.flag (by simp [hav])

/-- What an iteration finds in front of an image. -/
theorem Inv.image_ahead {text : List Nat} {g : Grid cfg.spatialMergeSize}
    (h : Inv cfg env tokens pre (⟨text,.image g⟩ :: items) back imgs grids auds s b) :
    VisionAhead tokens s.st (s.st+text.length) .imagePad (g.t*g.toFrame.tokens) ∧
      0 < s.remainImages ∧ At env s.toCursors (g :: (items.flatMap (·.media.images) ++ imgs))
        (items.flatMap (·.media.grids) ++ grids) (items.flatMap (·.media.audios) ++ auds) := by
  have hn : 0 < g.t*g.toFrame.tokens := Nat.mul_pos g.tPos g.toFrame.tokens_pos
  have hahead := visionAhead pre text (wireItems items ++ back.wire) (.inl rfl) hn
  have htok : tokens = pre ++ (wireText text ++ .visionStart ::
      (List.replicate (g.t*g.toFrame.tokens) .imagePad ++ .visionEnd ::
        (wireItems items ++ back.wire))) := by
    rw [h.split]; simp [wireItems,Item.wire,Media.wire]
  rw [← htok,← h.st] at hahead
  refine ⟨hahead,?_,h.cursors⟩
  rw [h.remainImages]
  simp only [imageTotal,List.flatMap_cons,Media.images,List.length_append,List.length_singleton]
  omega

theorem Inv.grid_ahead {text : List Nat} {f : Frame cfg.spatialMergeSize} {last : Bool}
    (h : Inv cfg env tokens pre (⟨text,.grid f last⟩ :: items) back imgs grids auds s b) :
    VisionAhead tokens s.st (s.st+text.length) .videoPad f.tokens ∧ 0 < s.remainVideos ∧
      s.videoIdx < env.secondPerGrids.length ∧
      At env s.toCursors (items.flatMap (·.media.images) ++ imgs)
        ((f,last) :: (items.flatMap (·.media.grids) ++ grids))
        (items.flatMap (·.media.audios) ++ auds) := by
  have hahead := visionAhead pre text (wireItems items ++ back.wire) (.inr rfl) f.tokens_pos
  have htok : tokens = pre ++ (wireText text ++ .visionStart ::
      (List.replicate f.tokens .videoPad ++ .visionEnd :: (wireItems items ++ back.wire))) := by
    rw [h.split]; simp [wireItems,Item.wire,Media.wire]
  rw [← htok,← h.st] at hahead
  have hcur := h.cursors
  have hsec := hcur.seconds
  simp only [List.flatMap_cons,Media.grids,List.length_append,List.length_singleton] at hsec
  refine ⟨hahead,?_,by omega,hcur⟩
  rw [h.remainVideos]
  simp only [gridTotal,List.flatMap_cons,Media.grids,List.length_append,List.length_singleton]
  omega

theorem Inv.audio_ahead {text : List Nat} {a : AudioClip}
    (h : Inv cfg env tokens pre (⟨text,.audio a⟩ :: items) back imgs grids auds s b) :
    AudioAhead tokens s.st (s.st+text.length) a.tokens (imageTotal items+back.images)
        (gridTotal items+back.grids) ∧
      s.remainImages = (imageTotal items+back.images : Nat) ∧
      s.remainVideos = (gridTotal items+back.grids : Nat) ∧ 0 < s.remainAudios ∧
      At env s.toCursors (items.flatMap (·.media.images) ++ imgs)
        (items.flatMap (·.media.grids) ++ grids)
        (a.featureLen :: (items.flatMap (·.media.audios) ++ auds)) := by
  have hahead := audioAhead pre text a.tokens items back
  have htok : tokens = pre ++ (wireText text ++ .audioStart :: (List.replicate a.tokens .audioPad ++
      .audioEnd :: (wireItems items ++ back.wire))) := by
    rw [h.split]; simp [wireItems,Item.wire,Media.wire]
  rw [← htok,← h.st] at hahead
  refine ⟨hahead,?_,?_,?_,h.cursors⟩
  · rw [h.remainImages]; simp [imageTotal,Media.images]
  · rw [h.remainVideos]; simp [gridTotal,Media.grids]
  · rw [h.remainAudios]
    simp only [clipTotal,List.flatMap_cons,Media.clips,List.length_append,List.length_singleton]
    omega

theorem Inv.av_ahead {text : List Nat} {f : Frame cfg.spatialMergeSize} {j : Nat}
    {track : Option Nat}
    (h : Inv cfg env tokens pre (⟨text,.avGrid f j track⟩ :: items) back imgs grids auds s b) :
    AvAhead tokens s.st (s.st+text.length) f.tokens j ∧ env.useAudioInVideo = true ∧
      0 < s.remainVideos ∧ s.videoIdx < env.secondPerGrids.length ∧
      (s.videoIdx+1 ∈ env.videoChunkEndIndices ↔ track.isSome = true) ∧
      At env s.toCursors (items.flatMap (·.media.images) ++ imgs)
        ((f,track.isSome) :: (items.flatMap (·.media.grids) ++ grids))
        (track.toList ++ items.flatMap (·.media.audios) ++ auds) := by
  have hahead := avAhead pre text f.tokens_pos j (wireItems items ++ back.wire)
  have htok : tokens = pre ++ (wireText text ++ .visionStart :: .audioStart ::
      (List.replicate f.tokens .videoPad ++ (List.replicate j .audioPad ++
        .audioEnd :: .visionEnd :: (wireItems items ++ back.wire)))) := by
    rw [h.split]; simp [wireItems,Item.wire,Media.wire]
  rw [← htok,← h.st] at hahead
  have hcur := h.cursors
  have hsec := hcur.seconds
  simp only [List.flatMap_cons,Media.grids,List.length_append,List.length_singleton] at hsec
  have hend := hcur.ends 0 (f,track.isSome) rfl
  refine ⟨hahead,h.flag (by simp [Media.isAv]),?_,by omega,by simpa using hend,hcur⟩
  rw [h.remainVideos]
  simp only [gridTotal,List.flatMap_cons,Media.grids,List.length_append,List.length_singleton]
  omega

end Invariant

section Start
variable (cfg : Config) (env : MediaArgs)
variable {s : Sample cfg.spatialMergeSize} {c : Cursors}
variable {imgs : List (Grid cfg.spatialMergeSize)}
variable {grids : List (Frame cfg.spatialMergeSize × Bool)} {auds : List Nat}

theorem initial_inv (hu : s.Uniform env.useAudioInVideo)
    (h : At env c (s.images ++ imgs) (expandVideos s.videos ++ grids) (s.audios ++ auds)) :
    Inv cfg env s.wire [] s.items (.ofText s.tail) imgs grids auds (initialState env s.wire c) 0 := by
  have himg : (s.items.flatMap (·.media.closing)).count .imagePad = imageTotal s.items :=
    count_closing_image s.items
  have haud : s.wire.count .audioStart =
      clipTotal s.items+(s.items.flatMap (·.media.closing)).count .audioEnd :=
    count_audioStart s.items s.tail
  have hcur : At env c (s.images ++ imgs) (s.items.flatMap (·.media.grids) ++ grids)
      (s.audios ++ auds) := s.gridsEq ▸ h
  -- the closing tokens tell the two grid kinds apart, and only one of them occurs
  cases hav : s.hasAv with
  | false =>
    obtain ⟨hv,he⟩ := count_closing_video hav
    refine ⟨rfl,rfl,rfl,?_,?_,?_,hcur,?_⟩
    · simp [initialState,s.visionTokens_wire,himg]
    · simp [initialState,s.visionTokens_wire,he,hv]
    · rw [he] at haud
      simp [initialState,s.visionTokens_wire,he,haud]
    · intro hany
      rw [show s.items.any (·.media.isAv) = false from hav] at hany
      cases hany
  | true =>
    obtain ⟨huse,hgrid⟩ := hu hav
    obtain ⟨he,-⟩ := count_closing_av hgrid
    have hpos : 0 < gridTotal s.items := by
      obtain ⟨it,hit,hi⟩ := List.any_eq_true.mp hav
      have hmem : it.media.grids ≠ [] := by
        cases hm : it.media <;> simp_all [Media.isAv,Media.grids]
      refine List.length_pos_iff.mpr fun hnil => hmem ?_
      exact List.flatMap_eq_nil_iff.mp hnil it hit
    refine ⟨rfl,rfl,rfl,?_,?_,?_,hcur,fun _ => huse⟩
    · simp [initialState,s.visionTokens_wire,himg]
    · simp [initialState,s.visionTokens_wire,he,huse,hpos]
    · rw [he] at haud
      simp [initialState,s.visionTokens_wire,he,haud]

theorem multimodalNums_eq {b : Int} {pre tokens : List Token}
    {items : List (Item cfg.spatialMergeSize)} {back : Rest} {st : LoopState}
    (h : Inv cfg env tokens pre items back imgs grids auds st b) :
    st.multimodalNums.toNat = items.length+(back.images+back.grids+back.clips) := by
  rw [LoopState.multimodalNums,h.remainImages,h.remainVideos,h.remainAudios,items_length]
  omega

end Start

/-- The media arguments hold the media of the samples in order; `None` is as good as an
empty list, and `second_per_grids` has one entry per video. -/
structure Supplies {m : Nat} (samples : List (Sample m)) (imageGridThw videoGridThw :
    Option (List Thw)) (audioSeqlens : Option (List Nat)) (secondPerGrids : Option (List ℚ)) :
    Prop where
  images : imageGridThw.getD [] = (samples.flatMap Sample.images).map Grid.thw
  videos : videoGridThw.getD [] = (samples.flatMap Sample.videos).map Grid.thw
  audios : audioSeqlens.getD [] = samples.flatMap Sample.audios
  seconds : ∀ l, secondPerGrids = some l → l.length = (samples.flatMap Sample.videos).length

theorem Supplies.plain {m : Nat} {samples : List (Sample m)} {image video : Option (List Thw)}
    {audio : Option (List Nat)} {seconds : Option (List ℚ)}
    (h : Supplies samples image video audio seconds) (hv : (image.isSome || video.isSome) = false)
    {s : Sample m} (hs : s ∈ samples) : s.images = [] ∧ s.videos = [] := by
  obtain ⟨rfl,rfl⟩ : image = none ∧ video = none := by
    cases image <;> cases video <;> simp_all
  have himg : samples.flatMap Sample.images = [] := by simpa using h.images.symm
  have hvid : samples.flatMap Sample.videos = [] := by simpa using h.videos.symm
  exact ⟨List.flatMap_eq_nil_iff.mp himg s hs,List.flatMap_eq_nil_iff.mp hvid s hs⟩

section Prepare
variable {m : Nat}

theorem cumsum_lower (acc : Nat) (videos : List (Grid m)) {x : Nat}
    (h : x ∈ cumsum acc (videos.map (·.t))) : acc < x := by
  induction videos generalizing acc with
  | nil => simp [cumsum] at h
  | cons v videos ih =>
    have hv := v.tPos
    simp only [List.map_cons,cumsum,List.mem_cons] at h
    rcases h with rfl | h
    · omega
    · have := ih (acc+v.t) h
      omega

theorem cumsum_ends (acc : Nat) (videos : List (Grid m)) {i : Nat} {g : Frame m × Bool}
    (h : (expandVideos videos)[i]? = some g) :
    acc+i+1 ∈ cumsum acc (videos.map (·.t)) ↔ g.2 = true := by
  induction videos generalizing acc i with
  | nil => simp [expandVideos] at h
  | cons v videos ih =>
    have hcons : expandVideos (v :: videos) =
        ((List.range v.t).map fun k : Nat => (v.toFrame,decide (k+1 = v.t))) ++
          expandVideos videos := rfl
    have hlen : ((List.range v.t).map fun k : Nat =>
        (v.toFrame,decide (k+1 = v.t))).length = v.t := by simp
    rw [hcons] at h
    simp only [List.map_cons,cumsum,List.mem_cons]
    rcases Nat.lt_or_ge i v.t with hi | hi
    · rw [List.getElem?_append_left (by omega)] at h
      obtain rfl : (v.toFrame,decide (i+1 = v.t)) = g := by simpa [hi] using h
      constructor
      · rintro (he | he)
        · simp only [decide_eq_true_eq]; omega
        · have := cumsum_lower (acc+v.t) videos he
          omega
      · intro he
        left
        simp only [decide_eq_true_eq] at he
        omega
    · rw [List.getElem?_append_right (by omega),hlen] at h
      have := ih (acc+v.t) h
      rw [show acc+v.t+(i-v.t)+1 = acc+i+1 by omega] at this
      rw [← this]
      constructor
      · rintro (he | he)
        · omega
        · exact he
      · exact Or.inr

theorem splitVideos_thw (videos : List (Grid m)) :
    splitVideos (videos.map Grid.thw) =
      (expandVideos videos).map fun g => (⟨1,g.1.h,g.1.w⟩ : Thw) := by
  simp only [splitVideos,expandVideos,List.flatMap_map,List.map_flatMap,List.map_map]
  congr 1
  funext v
  simp [Grid.thw,Function.comp_def,List.map_const']

theorem length_expandVideos (videos : List (Grid m)) :
    (expandVideos videos).length = (videos.map (·.t)).sum := by
  simp [expandVideos,List.length_flatMap]

theorem repeatInterleave_ok {α : Type} {xs : List α} {repeats : List Nat}
    (h : xs.length = repeats.length) :
    ∃ l, repeatInterleave xs repeats = .ok l ∧ l.length = repeats.sum := by
  have hlen : ((xs.zip repeats).flatMap fun y => List.replicate y.2 y.1).length =
      repeats.sum := by
    induction xs generalizing repeats with
    | nil => cases repeats <;> simp_all
    | cons x xs ih =>
      cases repeats with
      | nil => simp at h
      | cons n repeats =>
        have hrest : xs.length = repeats.length := by simpa using h
        simp only [List.zip_cons_cons,List.flatMap_cons,List.length_append,
          List.length_replicate,List.sum_cons,ih hrest]
  cases repeats with
  | nil => exact ⟨_,by simp [repeatInterleave,h],hlen⟩
  | cons n repeats =>
    cases repeats with
    | nil =>
      obtain ⟨x,rfl⟩ := List.length_eq_one_iff.mp h
      exact ⟨List.replicate n x,by simp [repeatInterleave],by simp⟩
    | cons b l => exact ⟨_,by simp [repeatInterleave,h],hlen⟩

theorem prepare_lists {images videos : List (Grid m)} {audios : List Nat}
    {image video : Option (List Thw)} {audio : Option (List Nat)} {seconds : Option (List ℚ)}
    (u : Bool) (hi : image.getD [] = images.map Grid.thw) (hv : video.getD [] = videos.map Grid.thw)
    (ha : audio.getD [] = audios) (hs : ∀ l, seconds = some l → l.length = videos.length) :
    ∃ env, prepare image video u audio seconds = .ok env ∧ env.useAudioInVideo = u ∧
      env.imageGridThw = image ∧ env.videoGridThw = video.map splitVideos ∧
      env.audioSeqlens = audio ∧ At env .zero images (expandVideos videos) audios := by
  have himg := hi ▸ Remaining.start image
  have haud := ha ▸ Remaining.start audio
  cases hvideo : video with
  | none =>
    obtain rfl : videos = [] := by
      rw [hvideo] at hv
      simpa using hv.symm
    refine ⟨_,rfl,rfl,rfl,rfl,rfl,himg,?_,?_,?_,haud⟩
    · exact ⟨[],by simp [expandVideos],rfl⟩
    · simp [Cursors.zero,expandVideos]
    · intro i g hg
      simp [expandVideos] at hg
  | some thws =>
    obtain rfl : thws = videos.map Grid.thw := by
      rw [hvideo] at hv
      exact hv
    have hsec : (seconds.getD (List.replicate (videos.map Grid.thw).length 1)).length =
        ((videos.map Grid.thw).map Thw.t).length := by
      cases hl : seconds with
      | none => simp
      | some l => simp [hs l hl]
    obtain ⟨l,hrep,hl⟩ := repeatInterleave_ok hsec
    have ht : (videos.map Grid.thw).map Thw.t = videos.map (·.t) := by rw [List.map_map]; rfl
    refine ⟨_,by simp only [prepare,hrep]; rfl,rfl,rfl,rfl,rfl,himg,?_,?_,?_,haud⟩
    · exact ⟨[],by simp [splitVideos_thw],rfl⟩
    · simp [Cursors.zero,hl,length_expandVideos,ht]
    · intro i g hg
      have := cumsum_ends 0 videos hg
      simpa [Cursors.zero,ht] using this

theorem prepare_ok {samples : List (Sample m)} {image video : Option (List Thw)}
    {audio : Option (List Nat)} {seconds : Option (List ℚ)} (u : Bool)
    (h : Supplies samples image video audio seconds) :
    ∃ env, prepare image video u audio seconds = .ok env ∧ env.useAudioInVideo = u ∧
      env.imageGridThw = image ∧ env.videoGridThw = video.map splitVideos ∧
      env.audioSeqlens = audio ∧
      At env .zero (samples.flatMap Sample.images)
        (expandVideos (samples.flatMap Sample.videos)) (samples.flatMap Sample.audios) :=
  prepare_lists u h.images h.videos h.audios h.seconds

end Prepare

end TLiveOmni
