import TLiveOmni.Mismatch
import TLiveOmni.PromptContents

/-! The media tokens in the returned texts, counted against the media. -/
set_option autoImplicit false

namespace TLiveOmni
open PySeq Words

def Modality.placeholder : Modality → Word
  | .image => .imagePlaceholder
  | .video => .videoPlaceholder
  | .audio => .audioPlaceholder

section Totals
variable {args : WriterArgs} {idx : Indices} {w : Word} {ws : List Word}
variable {cur : List (Sym Char Word)}

/-- The numbers of tokens of the media of one kind. -/
def totals (args : WriterArgs) : Modality → List Nat
  | .audio => args.audioLengths
  | .image => args.imageGridThw.map fun thw => thw.prod/args.mergeSize^2
  | .video => args.videoGridThw.map fun thw =>
      thw.t*(thw.h/args.mergeSize)*(thw.w/args.mergeSize)

/-- The tokens of the media in front of the cursor. -/
def consumed (args : WriterArgs) (idx : Indices) (m : Modality) : Nat :=
  ((totals args m).take (idx.of m)).sum

/-- The sides of the videos are multiples of the merge size. -/
def Divisible (args : WriterArgs) : Prop :=
  ∀ thw ∈ args.videoGridThw, args.mergeSize ∣ thw.h ∧ args.mergeSize ∣ thw.w

theorem sum_take_succ (l : List Nat) (i : Nat) : (l.take (i+1)).sum = (l.take i).sum+l.getD i 0 := by
  rw [List.take_add_one,List.sum_append,List.getD_eq_getElem?_getD]
  cases l[i]? <;> simp

theorem count_silentSpan (time : ℚ) (v : Nat) (m : Modality) :
    (silentSpan time v).count (.word m.placeholder) = if m = .video then v else 0 := by
  cases m <;>
    simp [silentSpan,Modality.placeholder,List.count_append,count_chars,List.count_replicate]

theorem count_voicedSpan (time : ℚ) (v a : Nat) (m : Modality) :
    (voicedSpan time v a).count (.word m.placeholder) =
      if m = .video then v else if m = .audio then a else 0 := by
  cases m <;>
    simp [voicedSpan,Modality.placeholder,List.count_append,count_chars,List.count_replicate]

theorem count_silentSyms (hu : args.useAudioInVideo = false) (m : Modality) :
    (videoSyms args idx).count (.word m.placeholder) = if m = .video then (videoThw args idx).t*
      ((videoThw args idx).h*(videoThw args idx).w/args.mergeSize^2) else 0 := by
  rw [videoSyms,List.count_flatMap]
  simp only [Function.comp_def,hu,Bool.false_eq_true,if_false,count_silentSpan]
  by_cases hm : m = .video <;> simp [hm,List.map_const']

/-- A video with audio has its own tokens and all tokens of its audio. -/
theorem count_voicedSyms (hu : args.useAudioInVideo = true) (ht : Timed args) (m : Modality) :
    (videoSyms args idx).count (.word m.placeholder) = match m with
      | .video => (videoThw args idx).t*
          ((videoThw args idx).h/args.mergeSize*((videoThw args idx).w/args.mergeSize))
      | .audio => audioRun args idx
      | .image => 0 := by
  rw [videoSyms,List.count_flatMap]
  simp only [Function.comp_def,hu,if_true,count_voicedSpan]
  cases m with
  | video => simp [List.map_const']
  | image => simp
  | audio => exact Vllm.sum_audioBoundaries (ht.pos idx) _ _

theorem mul_div_sq_of_dvd {m h w : Nat} (hh : m ∣ h) (hw : m ∣ w) :
    h*w/m^2 = h/m*(w/m) := by
  rw [Nat.pow_two,Nat.div_mul_div_comm hh hw]

theorem audioRun_of_lt (h : idx.audioIdx < args.audioLengths.length) :
    audioRun args idx = (totals args .audio).getD idx.audioIdx 0 := by
  simp [audioRun,totals,h]

theorem imageRun_of_lt (h : idx.imageIdx < args.imageGridThw.length) :
    imageRun args idx = (totals args .image).getD idx.imageIdx 0 := by
  simp [imageRun,totals,h]

theorem count_videoSyms_video (ht : Timed args) (hd : Divisible args)
    (h : idx.videoIdx < args.videoGridThw.length) :
    (videoSyms args idx).count (.word .videoPlaceholder) =
      (totals args .video).getD idx.videoIdx 0 := by
  have hthw : videoThw args idx = args.videoGridThw[idx.videoIdx] := by simp [videoThw,h]
  obtain ⟨hh,hw⟩ := hd (videoThw args idx) (hthw ▸ List.getElem_mem h)
  have htotal : (totals args .video).getD idx.videoIdx 0 = (videoThw args idx).t*
      ((videoThw args idx).h/args.mergeSize*((videoThw args idx).w/args.mergeSize)) := by
    simp [totals,h,hthw,Nat.mul_assoc]
  rw [htotal]
  cases hu : args.useAudioInVideo with
  | false =>
    have := @count_silentSyms args idx hu .video
    rwa [if_pos rfl,mul_div_sq_of_dvd hh hw] at this
  | true => exact @count_voicedSyms args idx hu ht .video

/-- Each round adds to the placeholders what its media have, and the cursors pass these media. -/
theorem count_draft (ht : Timed args) (hd : Divisible args) (hw : w ∈ Word.media)
    (h : Has args idx w) (m : Modality) :
    (draft args idx w).count (.word m.placeholder)+consumed args idx m =
      consumed args (idx.next args w) m := by
  rcases mem_media.mp hw with rfl | rfl | rfl
  · cases m with
    | audio =>
      simp only [draft,Modality.placeholder,List.count_replicate_self,consumed,Indices.next,
        Indices.of,sum_take_succ,audioRun_of_lt h]
      exact Nat.add_comm _ _
    | image => simp [draft,Modality.placeholder,List.count_replicate,consumed,Indices.next,Indices.of]
    | video => simp [draft,Modality.placeholder,List.count_replicate,consumed,Indices.next,Indices.of]
  · cases m with
    | image =>
      simp only [draft,Modality.placeholder,List.count_replicate_self,consumed,Indices.next,
        Indices.of,sum_take_succ,imageRun_of_lt h]
      exact Nat.add_comm _ _
    | audio => simp [draft,Modality.placeholder,List.count_replicate,consumed,Indices.next,Indices.of]
    | video => simp [draft,Modality.placeholder,List.count_replicate,consumed,Indices.next,Indices.of]
  · obtain ⟨hv,ha⟩ := h
    cases m with
    | video =>
      simp only [draft,Modality.placeholder,count_videoSyms_video ht hd hv,consumed,Indices.next,
        Indices.of,sum_take_succ]
      exact Nat.add_comm _ _
    | image =>
      have hzero : (videoSyms args idx).count (.word Modality.image.placeholder) = 0 := by
        cases hu : args.useAudioInVideo with
        | false => exact @count_silentSyms args idx hu .image
        | true => exact @count_voicedSyms args idx hu ht .image
      rw [draft,hzero,Nat.zero_add]
      rfl
    | audio =>
      cases hu : args.useAudioInVideo with
      | false =>
        rw [draft,@count_silentSyms args idx hu .audio,if_neg (by decide),Nat.zero_add]
        simp [consumed,Indices.next,Indices.of,hu]
      | true =>
        rw [draft,@count_voicedSyms args idx hu ht .audio]
        simp only [consumed,Indices.next,Indices.of,hu,if_true,sum_take_succ,
          audioRun_of_lt (ha hu)]
        exact Nat.add_comm _ _

theorem placeholder_ne (m : Modality) : (.word m.placeholder : Sym Char Word) ≠ .word .visionStart ∧
    (.word m.placeholder : Sym Char Word) ≠ .word .visionEnd ∧ m.placeholder ∉ Word.media := by
  cases m <;> decide

/-- What a round adds to the placeholders it takes from the media in front. -/
theorem count_step (ht : Timed args) (hd : Divisible args) (ha : Afoot args idx (w :: ws) cur)
    (hw : w ∈ Word.media) (h : Has args idx w) (m : Modality) :
    (stepSyms args idx w cur).count (.word m.placeholder)+consumed args idx m =
      cur.count (.word m.placeholder)+consumed args (idx.next args w) m := by
  obtain ⟨hs,he,hm⟩ := placeholder_ne m
  have hstep := @count_stepSyms args idx w cur (ha.mem hw) _ hs he
  have hne : [(.word w : Sym Char Word)].count (.word m.placeholder) = 0 := by
    rw [List.count_eq_zero,List.mem_singleton]
    intro h
    exact hm (Sym.word.inj h ▸ hw)
  have hdraft := count_draft ht hd hw h m
  omega

theorem count_run (ht : Timed args) (hd : Divisible args) (ha : Afoot args idx ws cur)
    (hws : ∀ w ∈ ws, w ∈ Word.media) (h : Within args (idx.past args ws)) (m : Modality) :
    (runSyms args idx ws cur).count (.word m.placeholder)+consumed args idx m =
      cur.count (.word m.placeholder)+consumed args (idx.past args ws) m := by
  induction ws generalizing idx cur with
  | nil => rfl
  | cons w ws ih =>
    have hw := hws w (by simp)
    have hcons : idx.past args (w :: ws) = (idx.next args w).past args ws := rfl
    rw [hcons] at h ⊢
    have hhas := (has_iff (@within_of_past args idx (w :: ws) h) hw).mpr (within_of_past h)
    have hone := count_step ht hd ha hw hhas m
    have hrest := ih (ha.step hw ht) (fun v hv => hws v (by simp [hv])) h
    rw [runSyms]
    omega

end Totals

section Texts
variable {args : WriterArgs} {idx : Indices} {tk : Tokenizer} {text out : List (List Char)}

theorem count_settle_word (m : Modality) (l : List (Sym Char Word)) :
    (l.map settle).count (.word m.word) = l.count (.word m.word)+l.count (.word m.placeholder) := by
  induction l with
  | nil => rfl
  | cons x l ih =>
    have hx : (if settle x = .word m.word then 1 else 0) =
        (if x = .word m.word then 1 else 0)+(if x = .word m.placeholder then 1 else 0) := by
      cases x with
      | ch c => simp [settle]
      | word u => cases u <;> cases m <;> decide
    simp only [List.map_cons,List.count_cons,beq_iff_eq,ih,hx]
    omega

theorem word_mem_media (m : Modality) : m.word ∈ Word.media := by cases m <;> decide

/-- A sample gains the tokens of the media its own tokens stand for, and those that its text
spells as placeholders. -/
theorem count_rewritten (ht : Timed args) (hd : Divisible args) {sample : List Char}
    (hseam : SeamlessAt args idx sample) (h : Within args (idx.past args (found sample)))
    (m : Modality) :
    occurrences m.word (flat Word.spell (rewritten args idx sample))+consumed args idx m =
      occurrences m.placeholder sample+consumed args (idx.past args (found sample)) m := by
  have hend := hseam.afoot.run found_media ht
  have hnone : (runSyms args idx (found sample) (syms sample)).count (.word m.word) = 0 :=
    hend.pads m.word (word_mem_media m)
  rw [occurrences_flat _ (hseam.clean_rewritten ht),rewritten,count_settle_word,hnone,Nat.zero_add,
    occurrences_eq]
  exact count_run ht hd hseam.afoot found_media h m

theorem count_rewrittenTexts (ht : Timed args) (hd : Divisible args)
    (hseam : Seamless args idx text) (h : Within args (idx.past args (text.flatMap found)))
    (m : Modality) :
    ((rewrittenTexts args idx text).map (occurrences m.word)).sum+consumed args idx m =
      (text.map (occurrences m.placeholder)).sum+
        consumed args (idx.past args (text.flatMap found)) m := by
  induction text generalizing idx with
  | nil => rfl
  | cons sample text ih =>
    rw [List.flatMap_cons,past_append] at h ⊢
    have hone := count_rewritten ht hd hseam.1 (within_of_past h) m
    have hrest := ih hseam.2 h
    simp only [rewrittenTexts,List.map_cons,List.sum_cons]
    omega

/-- In the returned texts every kind of medium has as many tokens as its consumed media exactly
when no text holds an internal placeholder. A call with some text consumes all media. -/
theorem conserved_iff (ht : Timed args) (hd : Divisible args)
    (hseam : Seamless args ⟨0,0,0⟩ text)
    (hok : replaceMultimodalSpecialTokens args tk text = .ok out) :
    ((∀ m : Modality, (out.map (occurrences m.word)).sum =
        consumed args ((⟨0,0,0⟩ : Indices).past args (text.flatMap found)) m) ↔
      ∀ sample ∈ text, ∀ m : Modality, occurrences m.placeholder sample = 0) ∧
    ((∃ sample ∈ text, sample ≠ []) → ∀ m : Modality,
      consumed args ((⟨0,0,0⟩ : Indices).past args (text.flatMap found)) m = (totals args m).sum) := by
  obtain ⟨rfl,hin⟩ := replaceMultimodalSpecialTokens_eq ht hseam hok
  constructor
  · have hcount : ∀ m : Modality,
        ((rewrittenTexts args ⟨0,0,0⟩ text).map (occurrences m.word)).sum =
          consumed args ((⟨0,0,0⟩ : Indices).past args (text.flatMap found)) m ↔
        ∀ sample ∈ text, occurrences m.placeholder sample = 0 := by
      intro m
      have hsum := count_rewrittenTexts ht hd hseam hin m
      have hzero : consumed args ⟨0,0,0⟩ m = 0 := by cases m <;> rfl
      have hall : (text.map (occurrences m.placeholder)).sum = 0 ↔
          ∀ sample ∈ text, occurrences m.placeholder sample = 0 := by simp [List.sum_eq_zero_iff]
      rw [← hall]
      omega
    simp only [hcount]
    exact ⟨fun h sample hs m => h m sample hs,fun h m sample hs => h sample hs m⟩
  · intro hne m
    have hused : unconsumed args ((⟨0,0,0⟩ : Indices).past args (text.flatMap found)) = [] := by
      obtain ⟨⟨processed,idx⟩,hrun,hok⟩ := bind_eq_ok.mp hok
      obtain ⟨_,hraise,-⟩ := bind_eq_ok.mp hok
      obtain ⟨-,rfl,-⟩ := replaceSamples_eq ht hseam
        ⟨Nat.zero_le _,Nat.zero_le _,Nat.zero_le _⟩ hrun
      by_contra hsome
      exact raiseIf_eq_ok.mp hraise ⟨hsome,hne⟩
    have hend := (unconsumed_eq_nil _).mp hused m
    rw [consumed,hend,List.take_of_length_le]
    cases m <;> simp [totals,supply]

end Texts

section Instances

theorem oneVideo_divisible (audioLengths : List Nat) : Divisible (oneVideo audioLengths) := by
  simp [Divisible,oneVideo]

theorem wrappedText_conserved : ∃ out,
    replaceMultimodalSpecialTokens (oneVideo [5]) charTokenizer [wrappedText] = .ok out ∧
    ((∀ m : Modality, (out.map (occurrences m.word)).sum =
        consumed (oneVideo [5]) ((⟨0,0,0⟩ : Indices).past (oneVideo [5])
          ([wrappedText].flatMap found)) m) ↔
      ∀ sample ∈ [wrappedText], ∀ m : Modality, occurrences m.placeholder sample = 0) ∧
    ((∃ sample ∈ [wrappedText], sample ≠ []) → ∀ m : Modality,
      consumed (oneVideo [5]) ((⟨0,0,0⟩ : Indices).past (oneVideo [5])
        ([wrappedText].flatMap found)) m = (totals (oneVideo [5]) m).sum) := by
  have hrun : (replaceMultimodalSpecialTokens (oneVideo [5]) charTokenizer
      [wrappedText]).toOption.isSome = true := by decide +kernel
  cases hok : replaceMultimodalSpecialTokens (oneVideo [5]) charTokenizer [wrappedText] with
  | error e =>
    rw [hok] at hrun
    cases hrun
  | ok out =>
    exact ⟨out,rfl,conserved_iff (oneVideo_supplied [5]).timed (oneVideo_divisible [5])
      ((oneVideo_noEmptyRun (by decide)).seamless _ _) hok⟩

def noMedia : WriterArgs where
  mergeSize := 2
  temporalPatchSize := 2
  audioLengths := []
  imageGridThw := []
  videoGridThw := []
  videoSecondPerGrid := []
  useAudioInVideo := false
  positionIdPerSeconds := 13
  videoMetadatas := none

/-- A text that spells the placeholder gets an audio token without any audio. -/
theorem placeholderText_token :
    replaceMultimodalSpecialTokens noMedia charTokenizer ["<|audio_placeholder|>".toList] =
      .ok ["<|audio_pad|>".toList] ∧
    (["<|audio_pad|>".toList].map (occurrences .audioPad)).sum = 1 ∧
    (totals noMedia .audio).sum = 0 := by
  refine ⟨?_,?_,?_⟩ <;> decide +kernel

end Instances
end TLiveOmni
