import TLiveOmni.ProcessorBatch

/-! The loop of `replace_multimodal_special_tokens` on the symbols of an arbitrary text: which
symbols a step exchanges, and that the strings follow. -/
set_option autoImplicit false

namespace TLiveOmni
open PySeq Words

def Word.all : List Word :=
  [.audioPad,.imagePad,.videoPad,.visionStart,.visionEnd,.audioStart,.audioEnd,
    .audioPlaceholder,.imagePlaceholder,.videoPlaceholder]

theorem Word.mem_all (w : Word) : w ∈ Word.all := by cases w <;> decide

/-- The tokens the loop looks for. -/
def Word.media : List Word := [.audioPad,.imagePad,.videoPad]

theorem mem_media {w : Word} :
    w ∈ Word.media ↔ w = .audioPad ∨ w = .imagePad ∨ w = .videoPad := by simp [Word.media]

/-- A text as characters, special tokens and internal placeholders. -/
def syms (sample : List Char) : List (Sym Char Word) := lex Word.spell Word.all sample

theorem flat_syms (sample : List Char) : flat Word.spell (syms sample) = sample :=
  flat_lex spell_bracketed Word.all sample

theorem clean_syms (sample : List Char) : Clean Word.spell (syms sample) :=
  clean_lex spell_bracketed Word.mem_all sample

/-- The media tokens of a text in reading order. -/
def found (sample : List Char) : List Word := findWords Word.spell Word.media sample

theorem found_eq (sample : List Char) :
    found sample = ((syms sample).filterMap Sym.word?).filter fun w => decide (w ∈ Word.media) := by
  conv_lhs => rw [found,← flat_syms sample]
  exact findWords_flat spell_bracketed _ (clean_syms sample)

theorem found_media {sample : List Char} : ∀ w ∈ found sample, w ∈ Word.media := by
  intro w hw
  rw [found_eq] at hw
  simpa using (List.mem_filter.mp hw).2

theorem count_filterMap_word (w : Word) (l : List (Sym Char Word)) :
    (l.filterMap Sym.word?).count w = l.count (.word w) := by
  induction l with
  | nil => rfl
  | cons x l ih =>
    cases x with
    | ch c => simpa [List.filterMap_cons,Sym.word?] using ih
    | word v => simp [Sym.word?,List.count_cons,ih]

theorem count_found {w : Word} (hw : w ∈ Word.media) (sample : List Char) :
    (found sample).count w = (syms sample).count (.word w) := by
  rw [found_eq,List.count_filter (by simpa using hw),count_filterMap_word]

section Drafts
variable (args : WriterArgs)

/-- The cursors behind a media token. -/
def Indices.next (idx : Indices) : Word → Indices
  | .audioPad => { idx with audioIdx := idx.audioIdx+1 }
  | .imagePad => { idx with imageIdx := idx.imageIdx+1 }
  | .videoPad => { idx with
      audioIdx := if args.useAudioInVideo then idx.audioIdx+1 else idx.audioIdx
      videoIdx := idx.videoIdx+1 }
  | _ => idx

def Indices.past (idx : Indices) (ws : List Word) : Indices := ws.foldl (Indices.next args) idx

def audioRun (idx : Indices) : Nat := args.audioLengths.getD idx.audioIdx 1

def imageRun (idx : Indices) : Nat :=
  (args.imageGridThw[idx.imageIdx]?.map fun thw => thw.prod/args.mergeSize^2).getD 1

def videoThw (idx : Indices) : Thw := args.videoGridThw.getD idx.videoIdx ⟨1,1,1⟩

def videoTimes (idx : Indices) : List ℚ :=
  timesOf args (videoThw args idx).t ((metadataAt args idx.videoIdx).toOption.join)

/-- The placeholder of the video at the cursor. -/
def videoPlaceholder (idx : Indices) : List Char :=
  if args.useAudioInVideo then voicedPlaceholder args (videoThw args idx) (videoTimes args idx)
    (audioRun args idx) (args.videoSecondPerGrid.getD idx.videoIdx 0)
  else silentPlaceholder args (videoThw args idx) (videoTimes args idx)

/-- A span of a silent video. -/
def silentSpan (time : ℚ) (v : Nat) : List (Sym Char Word) :=
  (timestampText time).map .ch ++ (.word .visionStart :: (List.replicate v (.word .videoPlaceholder) ++
    [.word .visionEnd]))

/-- A span of a video with audio. -/
def voicedSpan (time : ℚ) (v a : Nat) : List (Sym Char Word) :=
  (timestampText time).map .ch ++ (.word .visionStart :: .word .audioStart ::
    (List.replicate v (.word .videoPlaceholder) ++ (List.replicate a (.word .audioPlaceholder) ++
      [.word .audioEnd,.word .visionEnd])))

def videoSyms (idx : Indices) : List (Sym Char Word) :=
  let thw := videoThw args idx
  let times := videoTimes args idx
  let boundaries := audioBoundaries thw.t (audioRun args idx)
    (args.videoSecondPerGrid.getD idx.videoIdx 0*args.positionIdPerSeconds)
  (List.range thw.t).flatMap fun i : Nat =>
    if args.useAudioInVideo then
      voicedSpan (if times = [] then (i : ℚ) else times.getD (min i (times.length-1)) 0)
        (thw.h/args.mergeSize*(thw.w/args.mergeSize))
        (boundaries.getD (i+1) 0-boundaries.getD i 0).toNat
    else silentSpan (times.getD i i) (thw.h*thw.w/args.mergeSize^2)

theorem flat_videoSyms (idx : Indices) :
    flat Word.spell (videoSyms args idx) = videoPlaceholder args idx := by
  rw [videoSyms,flat_flatMap,videoPlaceholder]
  cases hu : args.useAudioInVideo with
  | false => simp [silentPlaceholder,silentSpan,flat_replicate]
  | true => simp [voicedPlaceholder,voicedSpan,flat_replicate]

/-- What a media token is exchanged for while the loop runs. -/
def draft (idx : Indices) : Word → List (Sym Char Word)
  | .audioPad => List.replicate (audioRun args idx) (.word .audioPlaceholder)
  | .imagePad => List.replicate (imageRun args idx) (.word .imagePlaceholder)
  | .videoPad => videoSyms args idx
  | w => [.word w]

/-- A wrapped video token. -/
def wrapped : List (Sym Char Word) := [.word .visionStart,.word .videoPad,.word .visionEnd]

/-- One round of the loop. -/
def stepSyms (idx : Indices) (w : Word) (cur : List (Sym Char Word)) : List (Sym Char Word) :=
  if w = .videoPad ∧ wrapped <:+: cur then replaceFirst wrapped (draft args idx w) cur
  else replaceFirst [.word w] (draft args idx w) cur

/-- The loop over the media tokens `ws`. -/
def runSyms (idx : Indices) : List Word → List (Sym Char Word) → List (Sym Char Word)
  | [], cur => cur
  | w :: ws, cur => runSyms (idx.next args w) ws (stepSyms args idx w cur)

end Drafts

section Strings
variable {args : WriterArgs} {s s' : Progress} {cur : List (Sym Char Word)}

theorem flat_one (w : Word) : flat Word.spell [(.word w : Sym Char Word)] = Word.spell w := by simp

theorem replaceFirst_one_flat (w : Word) (new : List (Sym Char Word)) (hc : Clean Word.spell cur) :
    replaceFirst (Word.spell w) (flat Word.spell new) (flat Word.spell cur) =
      flat Word.spell (replaceFirst [.word w] new cur) := by
  have := @replaceFirst_flat _ _ _ _ _ _ _ spell_bracketed w [] new _ hc
  rwa [List.map_cons,List.map_nil,flat_one] at this

theorem replaceFirst_wrapped_flat (new : List (Sym Char Word)) (hc : Clean Word.spell cur) :
    replaceFirst wrappedVideoToken (flat Word.spell new) (flat Word.spell cur) =
      flat Word.spell (replaceFirst wrapped new cur) :=
  @replaceFirst_flat _ _ _ _ _ _ _ spell_bracketed .visionStart [.videoPad,.visionEnd] new _ hc

theorem isIn_wrapped (hc : Clean Word.spell cur) :
    isIn wrappedVideoToken (flat Word.spell cur) = decide (wrapped <:+: cur) :=
  decide_eq_decide.mpr
    (@words_infix_iff _ _ _ _ _ _ spell_bracketed .visionStart [.videoPad,.visionEnd] hc)

theorem replaceAudio_ok (h : replaceAudio args s = .ok s') : s' = { s with
    sample := replaceFirst (Word.spell .audioPad) (flat Word.spell (draft args s.toIndices .audioPad))
      s.sample
    toIndices := s.toIndices.next args .audioPad } := by
  unfold replaceAudio at h
  split at h
  · cases h
  · next n hn =>
    obtain rfl := Except.ok.inj h
    have hrun : audioRun args s.toIndices = n := by simp [audioRun,hn]
    simp only [draft,flat_replicate,hrun,Indices.next]

theorem replaceImage_ok (h : replaceImage args s = .ok s') : s' = { s with
    sample := replaceFirst (Word.spell .imagePad) (flat Word.spell (draft args s.toIndices .imagePad))
      s.sample
    toIndices := s.toIndices.next args .imagePad } := by
  unfold replaceImage at h
  split at h
  · cases h
  · next thw hthw =>
    obtain rfl := Except.ok.inj h
    have hrun : imageRun args s.toIndices = thw.prod/args.mergeSize^2 := by simp [imageRun,hthw]
    simp only [draft,flat_replicate,hrun,Indices.next]

theorem timesOf_eq {gridT : Nat} {md : Option VideoMetadata} {times : List ℚ}
    (h : gridTimestamps args gridT md = .ok times) : timesOf args gridT md = times := by
  rw [timesOf,h]
  rfl

theorem replaceVideo_ok (h : replaceVideo args s = .ok s') : s' = { s with
    sample := if isIn wrappedVideoToken s.sample
      then replaceFirst wrappedVideoToken (videoPlaceholder args s.toIndices) s.sample
      else replaceFirst (Word.spell .videoPad) (videoPlaceholder args s.toIndices) s.sample
    toIndices := s.toIndices.next args .videoPad
    sampleVideoCount := s.sampleVideoCount+1 } := by
  cases hthw : args.videoGridThw[s.videoIdx]? with
  | none =>
    simp only [replaceVideo,hthw] at h
    cases h
  | some thw =>
    simp only [replaceVideo,hthw,pure_eq_ok,ok_bind] at h
    obtain ⟨_,-,h⟩ := bind_eq_ok.mp h
    obtain ⟨md,hmd,h⟩ := bind_eq_ok.mp h
    have hv : videoThw args s.toIndices = thw := by simp [videoThw,hthw]
    have hjoin : (metadataAt args s.videoIdx).toOption.join = md := by rw [hmd]; rfl
    cases hu : args.useAudioInVideo with
    | true =>
      rw [if_pos hu] at h
      obtain ⟨n,hn,h⟩ := bind_eq_ok.mp h
      obtain ⟨second,hsecond,h⟩ := bind_eq_ok.mp h
      obtain ⟨times,htimes,h⟩ := bind_eq_ok.mp h
      obtain rfl := Except.ok.inj h
      have hrun : audioRun args s.toIndices = n := by simp [audioRun,getItem_eq_ok.mp hn]
      have hsec : args.videoSecondPerGrid.getD s.videoIdx 0 = second := by
        simp [getItem_eq_ok.mp hsecond]
      rw [videoPlaceholder,videoTimes,hv,hjoin,if_pos hu,timesOf_eq htimes,hrun,hsec]
      simp [Indices.next,hu]
    | false =>
      rw [if_neg (by simp [hu])] at h
      obtain ⟨times,htimes,h⟩ := bind_eq_ok.mp h
      obtain rfl := Except.ok.inj h
      rw [videoPlaceholder,videoTimes,hv,hjoin,if_neg (by simp [hu]),timesOf_eq htimes]
      simp [Indices.next,hu]

/-- A round of the loop on strings is a round on symbols. -/
theorem replaceOne_ok {w : Word} (hw : w ∈ Word.media) (h : replaceOne args s w = .ok s')
    (hs : s.sample = flat Word.spell cur) (hc : Clean Word.spell cur) :
    s'.sample = flat Word.spell (stepSyms args s.toIndices w cur) ∧
      s'.toIndices = s.toIndices.next args w ∧
      s'.sampleVideoCount = s.sampleVideoCount+[w].count .videoPad := by
  rcases mem_media.mp hw with rfl | rfl | rfl
  · rw [replaceAudio_ok h,hs,replaceFirst_one_flat _ _ hc,stepSyms,if_neg (by simp)]
    exact ⟨rfl,rfl,rfl⟩
  · rw [replaceImage_ok h,hs,replaceFirst_one_flat _ _ hc,stepSyms,if_neg (by simp)]
    exact ⟨rfl,rfl,rfl⟩
  · rw [replaceVideo_ok h,hs,isIn_wrapped hc,← flat_videoSyms,replaceFirst_wrapped_flat _ hc,
      replaceFirst_one_flat _ _ hc,stepSyms]
    refine ⟨?_,rfl,rfl⟩
    by_cases hin : wrapped <:+: cur
    · simp [hin,draft]
    · simp [hin,draft]

end Strings

section Emptied
variable {args : WriterArgs} {idx : Indices}

/-- The text without the audio and image tokens whose run is empty; the runs are those of the
tokens in reading order. -/
def withoutEmpty : (audio image : List Nat) → List (Sym Char Word) → List (Sym Char Word)
  | _, _, [] => []
  | audio, image, .word .audioPad :: l =>
      (if audio.head? = some 0 then [] else [.word .audioPad]) ++ withoutEmpty audio.tail image l
  | audio, image, .word .imagePad :: l =>
      (if image.head? = some 0 then [] else [.word .imagePad]) ++ withoutEmpty audio image.tail l
  | audio, image, x :: l => x :: withoutEmpty audio image l

/-- The runs of the audio tokens among `ws`. -/
def audioRuns (args : WriterArgs) (idx : Indices) : List Word → List Nat
  | [] => []
  | w :: ws => (if w = .audioPad then [audioRun args idx] else []) ++
      audioRuns args (idx.next args w) ws

def imageRuns (args : WriterArgs) (idx : Indices) : List Word → List Nat
  | [] => []
  | w :: ws => (if w = .imagePad then [imageRun args idx] else []) ++
      imageRuns args (idx.next args w) ws

theorem withoutEmpty_cons {x : Sym Char Word} (ha : x ≠ .word .audioPad) (hi : x ≠ .word .imagePad)
    (audio image : List Nat) (l : List (Sym Char Word)) :
    withoutEmpty audio image (x :: l) = x :: withoutEmpty audio image l := by
  cases x with
  | ch c => rfl
  | word w => cases w <;> first | rfl | exact absurd rfl ha | exact absurd rfl hi

theorem withoutEmpty_append (audio image : List Nat) (a b : List (Sym Char Word)) :
    withoutEmpty audio image (a ++ b) = withoutEmpty audio image a ++
      withoutEmpty (audio.drop (a.count (.word .audioPad))) (image.drop (a.count (.word .imagePad)))
        b := by
  induction a generalizing audio image with
  | nil => rfl
  | cons x a ih =>
    by_cases ha : x = .word .audioPad
    · subst ha
      simp [withoutEmpty,ih,List.drop_tail]
    · by_cases hi : x = .word .imagePad
      · subst hi
        simp [withoutEmpty,ih,List.drop_tail]
      · rw [List.cons_append,withoutEmpty_cons ha hi,withoutEmpty_cons ha hi,ih,
          List.count_cons_of_ne ha,List.count_cons_of_ne hi]
        rfl

theorem withoutEmpty_congr {a : List (Sym Char Word)} {audio audio' image image' : List Nat}
    (ha : (.word .audioPad) ∈ a → audio = audio') (hi : (.word .imagePad) ∈ a → image = image') :
    withoutEmpty audio image a = withoutEmpty audio' image' a := by
  induction a generalizing audio audio' image image' with
  | nil => rfl
  | cons x a ih =>
    by_cases hxa : x = .word .audioPad
    · subst hxa
      obtain rfl := ha (by simp)
      have hrest := @ih audio.tail audio.tail image image' (fun _ => rfl) fun h => hi (by simp [h])
      simp [withoutEmpty,hrest]
    · by_cases hxi : x = .word .imagePad
      · subst hxi
        obtain rfl := hi (by simp)
        have hrest := @ih audio audio' image.tail image.tail (fun h => ha (by simp [h])) fun _ => rfl
        simp [withoutEmpty,hrest]
      · rw [withoutEmpty_cons hxa hxi,withoutEmpty_cons hxa hxi,
          ih (fun h => ha (by simp [h])) fun h => hi (by simp [h])]

theorem withoutEmpty_none {a : List (Sym Char Word)} (ha : (.word .audioPad) ∉ a)
    (hi : (.word .imagePad) ∉ a) (audio image : List Nat) : withoutEmpty audio image a = a := by
  induction a with
  | nil => rfl
  | cons x a ih =>
    rw [withoutEmpty_cons (fun e => ha (by simp [e])) (fun e => hi (by simp [e])),
      ih (fun e => ha (by simp [e])) fun e => hi (by simp [e])]

/-- A text is clean if it is clean without the tokens of empty runs. -/
theorem clean_of_withoutEmpty {audio image : List Nat} {a l : List (Sym Char Word)}
    (h : Clean Word.spell (a ++ withoutEmpty audio image l)) : Clean Word.spell (a ++ l) := by
  induction l generalizing audio image a with
  | nil => exact h
  | cons x l ih =>
    have hpad : ∀ (w : Word) (runs : List Nat) {audio image : List Nat},
        Clean Word.spell (a ++ ((if runs.head? = some 0 then [] else [.word w]) ++
          withoutEmpty audio image l)) → Clean Word.spell (a ++ .word w :: l) := by
      intro w runs audio image h
      split at h
      · exact (ih h).insert [w]
      · have := @ih audio image (a ++ [.word w]) (by simpa using h)
        simpa using this
    by_cases ha : x = .word .audioPad
    · subst ha
      exact hpad .audioPad audio h
    · by_cases hi : x = .word .imagePad
      · subst hi
        exact hpad .imagePad image h
      · rw [withoutEmpty_cons ha hi] at h
        have := @ih audio image (a ++ [x]) (by simpa using h)
        simpa using this

end Emptied
end TLiveOmni
