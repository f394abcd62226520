import TLiveOmni.AudioPartition
import TLiveOmni.AudioTower
import TLiveOmni.Mismatch

/-! The spans of a video are built twice: `_generate_video_placeholder` writes them into the text,
and the prompt updates of the vLLM processor write them as tokens. -/
set_option autoImplicit false

namespace TLiveOmni
open PySeq Words

/-- `_generate_video_placeholder`; the audio length and the seconds per grid are read under
`use_audio_in_video` only. -/
def generateVideoPlaceholder (args : WriterArgs) (thw : Thw) (md : Option VideoMetadata)
    (audioLength : Nat) (secondPerGrid : ℚ) : Py (List Char) := do
  let timestamps ← gridTimestamps args thw.t md
  pure (if args.useAudioInVideo then voicedPlaceholder args thw timestamps audioLength secondPerGrid
    else silentPlaceholder args thw timestamps)

/-- The frames behind `_calculate_timestamps`, which extends a list in place. -/
def padIndices (indices : List Nat) (mergeSize : Nat) : List Nat :=
  if indices.length % mergeSize ≠ 0 then indices ++
    List.replicate (mergeSize-indices.length % mergeSize) (indices.getLast?.getD 0) else indices

/-- The timestamps of `_call_hf_processor` for the metadata of one video. -/
def Vllm.callHfTimestamps (temporalPatchSize gridT : Nat) (md : Vllm.KwMetadata) : Py (List ℚ) :=
  match md.framesIndices with
  | none => pure ((List.range gridT).map fun i : Nat => (i : ℚ))
  | some indices => calculateTimestamps indices (md.fps.getD 1) temporalPatchSize

section Timestamps
variable {indices : List Nat} {fps : ℚ} {size : Nat}

theorem length_padIndices (hsize : 0 < size) :
    (padIndices indices size).length = ⌈(indices.length : ℚ)/size⌉.toNat*size := by
  by_cases hzero : indices.length = 0
  · simp [padIndices,hzero]
  have hpos : 0 < indices.length := by omega
  have hlt := Nat.mod_lt (indices.length-1) hsize
  have hdiv := Nat.div_add_mod (indices.length-1) size
  have htail := patch_tail hsize hpos
  rw [ceil_div hsize hpos,Nat.succ_mul,Nat.mul_comm]
  unfold padIndices
  by_cases hfull : indices.length % size = 0
  · rw [if_pos hfull] at htail
    rw [if_neg (not_not.mpr hfull)]
    omega
  · rw [if_neg hfull] at htail
    rw [if_pos hfull,List.length_append,List.length_replicate]
    omega

theorem padIndices_padIndices (hsize : 0 < size) :
    padIndices (padIndices indices size) size = padIndices indices size := by
  have hmod : (padIndices indices size).length % size = 0 := by
    rw [length_padIndices hsize]
    exact Nat.mul_mod_left _ _
  conv_lhs => rw [padIndices,if_neg (not_not.mpr hmod)]

/-- The midpoint of each patch. -/
def midpoints (fps : ℚ) (size : Nat) (indices : List Nat) : List ℚ :=
  let timestamps := indices.map fun i : Nat => (i : ℚ)/fps
  (List.range (timestamps.length/size)).map fun i : Nat =>
    (timestamps.getD (i*size) 0+timestamps.getD (i*size+size-1) 0)/2

theorem calculateTimestamps_eq (hfps : fps ≠ 0) :
    calculateTimestamps indices fps size = .ok (midpoints fps size (padIndices indices size)) := by
  unfold calculateTimestamps
  dsimp only
  rw [raiseIf_of_not (fun h => hfps h.1),ok_bind]
  rfl

theorem length_midpoints (hsize : 0 < size) :
    (midpoints fps size (padIndices indices size)).length =
      ⌈(indices.length : ℚ)/size⌉.toNat := by
  simp only [midpoints,List.length_map,List.length_range]
  rw [length_padIndices hsize,Nat.mul_div_cancel _ hsize]

end Timestamps

section Encode
variable (tk : Tokenizer)

/-- A timestamp before special tokens. -/
def spanSyms (time : ℚ) (ts : List Token) : List (Sym Char Word) :=
  (timestampText time).map .ch ++ (ts.map Token.word).map .word

/-- Every timestamp stands between special tokens, so the spans are encoded one by one. -/
theorem encodeSyms_spans {β : Type} (l : List β) (time : β → ℚ) (ts : β → List Token)
    (hne : ∀ b, ts b ≠ []) (hs : ∀ b, ∀ t ∈ ts b, t.isText = false) (rest : List (Sym Char Word)) :
    tk.encodeSyms [] ((l.flatMap fun b => spanSyms (time b) (ts b)) ++ rest) =
      (l.flatMap fun b => tk.encode (timestampText (time b)) ++ ts b) ++ tk.encodeSyms [] rest := by
  induction l with
  | nil => rfl
  | cons b l ih =>
    rw [List.flatMap_cons,List.flatMap_cons,spanSyms,List.append_assoc,List.append_assoc,
      encodeSyms_run_words tk (hne b) (hs b),ih,Vllm.encode_timestamp,List.append_assoc,
      List.append_assoc]

theorem encode_finished {l : List (Sym Char Word)} (hc : Clean Word.spell l) :
    tk.encode (finishText (flat Word.spell l)) = tk.encodeSyms [] (l.map settle) := by
  rw [finishText_flat hc,Tokenizer.encode,
    lex_flat_of_mem spell_bracketed (clean_settle hc) (settled_specials l)]

theorem encode_flatMap {β : Type} {l : List β} {f : β → List (Sym Char Word)}
    (hf : ∀ b, Sealed Word.spell '<' (f b)) {time : β → ℚ} {ts : β → List Token}
    (hne : ∀ b, ts b ≠ []) (hs : ∀ b, ∀ t ∈ ts b, t.isText = false)
    (hspan : ∀ b, (f b).map settle = spanSyms (time b) (ts b)) :
    tk.encode (finishText (flat Word.spell (l.flatMap f))) =
      l.flatMap fun b => tk.encode (timestampText (time b)) ++ ts b := by
  have hc : Clean Word.spell (l.flatMap f) := by
    by_cases hl : l = []
    · rw [hl]
      exact clean_chars.mpr plain_nil
    · exact (sealed_flatMap hf hl).clean
  have hnil : tk.encodeSyms [] [] = [] := by simp [Tokenizer.encodeSyms,tk.encodePlain_nil]
  have hspans := encodeSyms_spans tk l time ts hne hs []
  rw [List.append_nil,hnil,List.append_nil] at hspans
  rw [encode_finished tk hc,List.map_flatMap,← hspans]
  congr 2
  funext b
  exact hspan b

theorem settle_silentSpan (time : ℚ) (v : Nat) : (silentSpan time v).map settle =
    spanSyms time (.visionStart :: (List.replicate v .videoPad ++ [.visionEnd])) := by
  simp [silentSpan,spanSyms,settle,settleWord,Token.word,Function.comp_def]

theorem settle_voicedSpan (time : ℚ) (v a : Nat) : (voicedSpan time v a).map settle =
    spanSyms time (.visionStart :: .audioStart :: (List.replicate v .videoPad ++
      (List.replicate a .audioPad ++ [.audioEnd,.visionEnd]))) := by
  simp [voicedSpan,spanSyms,settle,settleWord,Token.word,Function.comp_def]

variable (args : WriterArgs) (thw : Thw) (timestamps : List ℚ)

theorem encode_silent : tk.encode (finishText (silentPlaceholder args thw timestamps)) =
    (List.range thw.t).flatMap fun i : Nat => tk.encode (timestampText (timestamps.getD i i)) ++
      .visionStart :: (List.replicate (thw.h*thw.w/args.mergeSize^2) .videoPad ++ [.visionEnd]) := by
  have hflat : silentPlaceholder args thw timestamps = flat Word.spell ((List.range thw.t).flatMap
      fun i : Nat => silentSpan (timestamps.getD i i) (thw.h*thw.w/args.mergeSize^2)) := by
    rw [flat_flatMap]
    simp [silentPlaceholder,silentSpan,flat_replicate]
  rw [hflat]
  refine encode_flatMap tk (fun i => sealed_silentSpan _ _) (fun i => by simp) (fun i t ht => ?_)
    (fun i => settle_silentSpan _ _)
  simp only [List.mem_cons,List.mem_append,List.mem_replicate,List.not_mem_nil,or_false] at ht
  rcases ht with rfl | ⟨-,rfl⟩ | rfl <;> rfl

theorem encode_voiced (audioLen : Nat) (second : ℚ) :
    tk.encode (finishText (voicedPlaceholder args thw timestamps audioLen second)) =
    (List.range thw.t).flatMap fun i : Nat => tk.encode (timestampText (timeAt timestamps i)) ++
      .visionStart :: .audioStart ::
        (List.replicate (thw.h/args.mergeSize*(thw.w/args.mergeSize)) .videoPad ++
          (List.replicate (segment audioLen thw.t (second*args.positionIdPerSeconds) i) .audioPad ++
            [.audioEnd,.visionEnd])) := by
  have hflat : voicedPlaceholder args thw timestamps audioLen second =
      flat Word.spell ((List.range thw.t).flatMap fun i : Nat => voicedSpan (timeAt timestamps i)
        (thw.h/args.mergeSize*(thw.w/args.mergeSize))
        (segment audioLen thw.t (second*args.positionIdPerSeconds) i)) := by
    rw [flat_flatMap]
    simp [voicedPlaceholder,voicedSpan,flat_replicate,timeAt,segment]
  rw [hflat]
  refine encode_flatMap tk (fun i => sealed_voicedSpan _ _ _) (fun i => by simp) (fun i t ht => ?_)
    (fun i => settle_voicedSpan _ _ _)
  simp only [List.mem_cons,List.mem_append,List.mem_replicate,List.not_mem_nil,or_false] at ht
  rcases ht with rfl | rfl | ⟨-,rfl⟩ | ⟨-,rfl⟩ | rfl | rfl <;> rfl

end Encode

section Agree
variable (tk : Vllm.TokenizerLike)

/-- An entry of the metadata on the vLLM side is that of the HF side, before or behind the
padding in place. -/
def Vllm.KwMetadata.Shows (entry : Vllm.KwMetadata) (md : VideoMetadata) (size : Nat) : Prop :=
  (entry.framesIndices = some md.framesIndices ∨
    entry.framesIndices = some (padIndices md.framesIndices size)) ∧ entry.fps = some md.fps

/-- Both sides see the same video, with the metadata `md`: on the vLLM side as timestamps of
`_call_hf_processor`, in the keyword arguments or both. -/
structure SameVideo (args : WriterArgs) (d : Vllm.UpdateArgs) (itemIdx audioIdx : Nat) (thw : Thw)
    (md : VideoMetadata) (audioLen : Nat) (second : ℚ) : Prop where
  mergeSize : args.mergeSize = d.mergeSize
  temporalPatchSize : args.temporalPatchSize = d.temporalPatchSize
  positionIdPerSeconds : args.positionIdPerSeconds = d.positionIdPerSeconds
  layout : args.useAudioInVideo = d.useAudioInVideo
  patchPos : 0 < d.temporalPatchSize
  fpsPos : 0 < md.fps
  grids : thw.t = ⌈(md.framesIndices.length : ℚ)/d.temporalPatchSize⌉.toNat
  grid : d.videoGridThw[itemIdx]? = some thw
  audio : d.useAudioInVideo = true → ∃ n, d.audioFeatureLengths[audioIdx]? = some n ∧
    audioLen = (getFeatExtractOutputLengths n).toNat
  seconds : d.useAudioInVideo = true → Vllm.avSecondPerGrid d itemIdx = .ok second
  data : ∀ all, d.timestamps = some all → ∃ entry ts, entry.Shows md d.temporalPatchSize ∧
    Vllm.callHfTimestamps d.temporalPatchSize thw.t entry = .ok ts ∧ all[itemIdx]? = some ts
  kwargs : ∀ entry, (d.kwVideoMetadata.bind fun l => l[itemIdx]?) = some entry →
    entry.Shows md d.temporalPatchSize
  available : d.timestamps ≠ none ∨ (d.kwVideoMetadata.bind fun l => l[itemIdx]?) ≠ none

/-- The timestamps of a video. -/
def VideoMetadata.times (md : VideoMetadata) (size : Nat) : List ℚ :=
  midpoints md.fps size (padIndices md.framesIndices size)

theorem calculateTimestamps_shown {entry : Vllm.KwMetadata} {md : VideoMetadata} {size : Nat}
    {indices : List Nat} (h : entry.Shows md size) (hsize : 0 < size) (hfps : 0 < md.fps)
    (hi : entry.framesIndices = some indices) :
    calculateTimestamps indices (entry.fps.getD 1) size = .ok (md.times size) := by
  obtain ⟨hframes,hrate⟩ := h
  rw [hrate,Option.getD_some,calculateTimestamps_eq hfps.ne',VideoMetadata.times]
  rcases hframes with hf | hf
  · rw [hi,Option.some.injEq] at hf
    rw [hf]
  · rw [hi,Option.some.injEq] at hf
    rw [hf,padIndices_padIndices hsize]

theorem Vllm.KwMetadata.Shows.frames {entry : Vllm.KwMetadata} {md : VideoMetadata} {size : Nat}
    (h : entry.Shows md size) : ∃ indices, entry.framesIndices = some indices := by
  rcases h.1 with hf | hf
  · exact ⟨_,hf⟩
  · exact ⟨_,hf⟩

namespace SameVideo
variable {args : WriterArgs} {d : Vllm.UpdateArgs} {itemIdx audioIdx : Nat} {thw : Thw}
  {md : VideoMetadata} {audioLen : Nat} {second : ℚ}

theorem kwTimestamps (h : SameVideo args d itemIdx audioIdx thw md audioLen second) :
    Vllm.kwTimestamps d itemIdx = .ok ((d.kwVideoMetadata.bind fun l => l[itemIdx]?).map
      fun _ => md.times d.temporalPatchSize) := by
  unfold Vllm.kwTimestamps
  cases he : d.kwVideoMetadata.bind fun l => l[itemIdx]? with
  | none => rfl
  | some entry =>
    have hshows := h.kwargs entry he
    obtain ⟨indices,hi⟩ := hshows.frames
    have hcalc := calculateTimestamps_shown hshows h.patchPos h.fpsPos hi
    obtain ⟨frames,fps⟩ := entry
    obtain rfl : frames = some indices := hi
    dsimp only at hcalc ⊢
    rw [hcalc]
    rfl

theorem dataTimestamps (h : SameVideo args d itemIdx audioIdx thw md audioLen second)
    {all : List (List ℚ)} (ha : d.timestamps = some all) :
    getItem all itemIdx = .ok (md.times d.temporalPatchSize) := by
  obtain ⟨entry,ts,hshows,hts,hget⟩ := h.data all ha
  obtain ⟨indices,hi⟩ := hshows.frames
  rw [Vllm.callHfTimestamps,hi] at hts
  dsimp only at hts
  rw [calculateTimestamps_shown hshows h.patchPos h.fpsPos hi,Except.ok.injEq] at hts
  rw [getItem_eq_ok,hget,hts]

theorem silentTimestamps (h : SameVideo args d itemIdx audioIdx thw md audioLen second) :
    Vllm.silentTimestamps d itemIdx thw.t = .ok (md.times d.temporalPatchSize) := by
  unfold Vllm.silentTimestamps
  cases ha : d.timestamps with
  | some all => exact h.dataTimestamps ha
  | none =>
    dsimp only
    rw [h.kwTimestamps,ok_bind]
    rcases h.available with hav | hav
    · exact absurd ha hav
    · obtain ⟨entry,he⟩ := Option.ne_none_iff_exists'.mp hav
      rw [he]
      rfl

theorem avTimestamps (h : SameVideo args d itemIdx audioIdx thw md audioLen second) :
    Vllm.avTimestamps d itemIdx = .ok (some (md.times d.temporalPatchSize)) := by
  unfold Vllm.avTimestamps
  rw [h.kwTimestamps,ok_bind]
  cases he : d.kwVideoMetadata.bind fun l => l[itemIdx]? with
  | some entry => rfl
  | none =>
    rcases h.available with hav | hav
    · obtain ⟨all,ha⟩ := Option.ne_none_iff_exists'.mp hav
      simp only [Option.map_none,ha]
      rw [h.dataTimestamps ha]
      rfl
    · exact absurd he hav

theorem length_times (h : SameVideo args d itemIdx audioIdx thw md audioLen second) :
    (md.times d.temporalPatchSize).length = thw.t := by
  rw [h.grids]
  exact length_midpoints h.patchPos

end SameVideo

/-- One span for each timestamp, or one for each grid: as many timestamps as grids make no
difference. -/
theorem flatMap_getD {β : Type} (l : List ℚ) (f : ℚ → List β) :
    (List.range l.length).flatMap (fun i : Nat => f (l.getD i i)) = l.flatMap f := by
  have hmap : (List.range l.length).map (fun i : Nat => l.getD i i) = l := by
    refine List.ext_getElem (by simp) fun i h₁ h₂ => ?_
    simp [h₂]
  rw [← List.flatMap_map,hmap]

variable {args : WriterArgs} {d : Vllm.UpdateArgs} {itemIdx audioIdx : Nat} {thw : Thw}
  {md : VideoMetadata} {audioLen : Nat} {second : ℚ}

theorem silent_agree (h : SameVideo args d itemIdx audioIdx thw md audioLen second) :
    Vllm.getReplacementVideo tk d itemIdx = .ok (tk.encode (finishText
      (silentPlaceholder args thw (md.times d.temporalPatchSize)))) := by
  have hflat := flatMap_getD (md.times d.temporalPatchSize) fun ts =>
    tk.encode (timestampText ts) ++ .visionStart ::
      (List.replicate (thw.h*thw.w/d.mergeSize^2) .videoPad ++ [.visionEnd])
  rw [h.length_times] at hflat
  unfold Vllm.getReplacementVideo
  rw [getItem_eq_ok.mpr h.grid,ok_bind,h.silentTimestamps,ok_bind,encode_silent,h.mergeSize,hflat]
  rfl

theorem voiced_agree (h : SameVideo args d itemIdx audioIdx thw md audioLen second)
    (hu : d.useAudioInVideo = true) :
    Vllm.getReplacementUseAudioInVideo tk d itemIdx audioIdx = .ok (tk.encode (finishText
      (voicedPlaceholder args thw (md.times d.temporalPatchSize) audioLen second))) := by
  obtain ⟨n,hn,hlen⟩ := h.audio hu
  unfold Vllm.getReplacementUseAudioInVideo
  rw [getItem_eq_ok.mpr hn,ok_bind,getItem_eq_ok.mpr h.grid,ok_bind,h.seconds hu,ok_bind,
    h.avTimestamps,ok_bind,encode_voiced,h.mergeSize,h.positionIdPerSeconds,hlen]
  rfl

/-- The text and the tokens of a video have the same layout. -/
theorem videoLayouts_agree (h : SameVideo args d itemIdx audioIdx thw md audioLen second) :
    ∃ text ids, generateVideoPlaceholder args thw (some md) audioLen second = .ok text ∧
      Vllm.videoReplacementFn tk d itemIdx audioIdx = .ok ids ∧ tk.encode (finishText text) = ids := by
  have htimes : gridTimestamps args thw.t (some md) = .ok (md.times d.temporalPatchSize) := by
    unfold gridTimestamps
    dsimp only
    rw [calculateTimestamps_eq h.fpsPos.ne',h.temporalPatchSize]
    rfl
  unfold generateVideoPlaceholder Vllm.videoReplacementFn
  rw [htimes,ok_bind,h.layout]
  cases hu : d.useAudioInVideo with
  | false => exact ⟨_,_,rfl,silent_agree tk h,rfl⟩
  | true => exact ⟨_,_,rfl,voiced_agree tk h hu,rfl⟩

/-- Three frames in patches of two. -/
def oddMetadata : VideoMetadata := ⟨[0,1,2],2⟩

def oddWriter (useAudioInVideo : Bool) : WriterArgs where
  mergeSize := 2
  temporalPatchSize := 2
  audioLengths := [26]
  imageGridThw := []
  videoGridThw := [⟨2,4,4⟩]
  videoSecondPerGrid := [1]
  useAudioInVideo := useAudioInVideo
  positionIdPerSeconds := 13
  videoMetadatas := some [oddMetadata]

def oddUpdates (useAudioInVideo : Bool) : Vllm.UpdateArgs where
  audioFeatureLengths := [200]
  imageGridThw := []
  videoGridThw := [⟨2,4,4⟩]
  secondPerGridTs := some [1]
  timestamps := some [[1/4,1]]
  useAudioInVideo := useAudioInVideo
  kwSecondPerGridTs := none
  kwVideoMetadata := some [⟨some [0,1,2,2],some 2⟩]
  mergeSize := 2
  temporalPatchSize := 2
  positionIdPerSeconds := 13
  audioText := fun _ => ""

theorem oddEntry_shows :
    (⟨some [0,1,2,2],some 2⟩ : Vllm.KwMetadata).Shows oddMetadata 2 := ⟨.inr (by decide),rfl⟩

theorem oddEntry_timestamps :
    Vllm.callHfTimestamps 2 2 ⟨some [0,1,2,2],some 2⟩ = .ok [1/4,1] := by decide +kernel

theorem oddVideo_same (useAudioInVideo : Bool) :
    SameVideo (oddWriter useAudioInVideo) (oddUpdates useAudioInVideo) 0 0 ⟨2,4,4⟩ oddMetadata 26 1 where
  mergeSize := rfl
  temporalPatchSize := rfl
  positionIdPerSeconds := rfl
  layout := rfl
  patchPos := Nat.two_pos
  fpsPos := by norm_num [oddMetadata]
  grids := show 2 = ⌈((3 : Nat) : ℚ)/((2 : Nat) : ℚ)⌉.toNat by decide +kernel
  grid := rfl
  audio _ := ⟨200,rfl,by decide⟩
  seconds _ := rfl
  data := by
    intro all ha
    obtain rfl : [[1/4,1]] = all := Option.some.inj ha
    exact ⟨_,_,oddEntry_shows,oddEntry_timestamps,rfl⟩
  kwargs := by
    intro entry he
    obtain rfl : (⟨some [0,1,2,2],some 2⟩ : Vllm.KwMetadata) = entry := Option.some.inj he
    exact oddEntry_shows
  available := .inl (by simp [oddUpdates])

theorem oddVideo_agrees :
    (∃ text ids, generateVideoPlaceholder (oddWriter false) ⟨2,4,4⟩ (some oddMetadata) 26 1 =
      .ok text ∧ Vllm.videoReplacementFn Vllm.charTokenizerLike (oddUpdates false) 0 0 = .ok ids ∧
        Vllm.charTokenizerLike.encode (finishText text) = ids) ∧
    ∃ text ids, generateVideoPlaceholder (oddWriter true) ⟨2,4,4⟩ (some oddMetadata) 26 1 =
      .ok text ∧ Vllm.videoReplacementFn Vllm.charTokenizerLike (oddUpdates true) 0 0 = .ok ids ∧
        Vllm.charTokenizerLike.encode (finishText text) = ids :=
  ⟨videoLayouts_agree Vllm.charTokenizerLike (oddVideo_same false),
    videoLayouts_agree Vllm.charTokenizerLike (oddVideo_same true)⟩

/-- The writer puts this placeholder in for the video at the cursor. -/
theorem generateVideoPlaceholder_at {idx : Indices} {times : List ℚ}
    (h : gridTimestamps args (videoThw args idx).t ((metadataAt args idx.videoIdx).toOption.join) =
      .ok times) :
    generateVideoPlaceholder args (videoThw args idx) ((metadataAt args idx.videoIdx).toOption.join)
      (audioRun args idx) (args.videoSecondPerGrid.getD idx.videoIdx 0) =
        .ok (videoPlaceholder args idx) := by
  unfold generateVideoPlaceholder videoPlaceholder videoTimes
  rw [timesOf_eq h,h,ok_bind]
  rfl

end Agree
end TLiveOmni
