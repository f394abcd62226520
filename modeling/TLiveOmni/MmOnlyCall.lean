import TLiveOmni.ProcessorCache

/-! When `_apply_hf_processor_mm_only` gets through: its made-up text loses the audio tokens as
soon as there is a video, and then each video takes one audio. -/
set_option autoImplicit false

namespace TLiveOmni.Vllm
open PySeq Words

section Spelled
variable {ws : List Word}

/-- A text of words only. -/
def spelled (ws : List Word) : List Char := flat Word.spell (ws.map .word)

theorem clean_words (ws : List Word) :
    Clean Word.spell (ws.map .word : List (Sym Char Word)) := by
  have hnil : Clean Word.spell ([] : List (Sym Char Word)) := clean_syms []
  simpa using hnil.words_append ws

theorem syms_spelled (ws : List Word) : syms (spelled ws) = ws.map .word :=
  lex_flat_all spell_bracketed Word.mem_all (clean_words ws)

theorem spelled_append (vs ws : List Word) : spelled (vs ++ ws) = spelled vs ++ spelled ws := by
  rw [spelled,List.map_append,flat_append]
  rfl

theorem spelled_replicate (w : Word) (n : Nat) : spelled (List.replicate n w) = repeated w n := by
  rw [spelled,List.map_replicate,flat_replicate]

theorem spelled_eq_nil : spelled ws = [] ↔ ws = [] := by
  constructor
  · intro h
    have := syms_spelled ws
    rw [h] at this
    simpa [syms,lex,lexFrom] using this.symm
  · rintro rfl
    rfl

theorem replaceAll_spelled (w : Word) (ws : List Word) :
    replaceAll (Word.spell w) [] (spelled ws) = spelled (ws.filter fun v => decide (v ≠ w)) := by
  have hnil : flat Word.spell ([] : List (Sym Char Word)) = [] := rfl
  have hdel : (ws.map .word).flatMap (fun x : Sym Char Word => if x = .word w then [] else [x]) =
      (ws.filter fun v => decide (v ≠ w)).map .word := by
    induction ws with
    | nil => rfl
    | cons v ws ih =>
      rw [List.map_cons,List.flatMap_cons,ih]
      by_cases hv : v = w
      · simp [hv]
      · simp [hv]
  rw [spelled,← hnil,replaceAll_flat spell_bracketed w [] (clean_words ws),hdel]
  rfl

theorem foldl_replaceAll_spelled (del ws : List Word) :
    del.foldl (fun tmp w => replaceAll (Word.spell w) [] tmp) (spelled ws) =
      spelled (ws.filter fun v => decide (v ∉ del)) := by
  induction del generalizing ws with
  | nil => simp
  | cons w del ih =>
    rw [List.foldl_cons,replaceAll_spelled,ih,List.filter_filter]
    congr 1
    refine List.filter_congr fun v _ => ?_
    simp [Bool.and_comm]

/-- A sequence of words that is not among the words of the text is not replaced. -/
theorem replaceAll_absent {w : Word} {vs : List Word} (h : w ∉ ws) :
    replaceAll (spelled (w :: vs)) [] (spelled ws) = spelled ws := by
  have hnot : ¬ spelled (w :: vs) <:+: spelled ws := by
    intro hin
    have := (words_infix_iff spell_bracketed (clean_words ws)).mp hin
    exact h (by simpa using this.subset (List.mem_cons_self ..))
  rw [replaceAll]
  generalize spelled ws = s at hnot
  induction s with
  | nil => rfl
  | cons c s ih =>
    have hpre : ¬ spelled (w :: vs) <+: c :: s := fun hp => hnot hp.isInfix
    have hrest := ih fun hin => hnot (hin.trans (List.suffix_cons c s).isInfix)
    simp [replaceFrom,hpre,hrest]

theorem isIn_spelled (w : Word) (ws : List Word) :
    isIn (Word.spell w) (spelled ws) = decide (w ∈ ws) := by
  rw [spelled,isIn_word spell_bracketed w (clean_words ws)]
  simp

theorem isSpace_spell (w : Word) : (Word.spell w).all (fun c => !isSpace c) = true := by
  cases w <;> decide

theorem strip_spelled (ws : List Word) : strip (spelled ws) = spelled ws := by
  have hnone : ∀ c ∈ spelled ws, isSpace c = false := by
    intro c hc
    rw [spelled,flat,List.mem_flatMap] at hc
    obtain ⟨x,hx,hc⟩ := hc
    obtain ⟨w,-,rfl⟩ := List.mem_map.mp hx
    simpa using List.all_eq_true.mp (isSpace_spell w) c hc
  have hkeep : ∀ s : List Char, (∀ c ∈ s, isSpace c = false) → s.dropWhile isSpace = s := by
    intro s hs
    cases s with
    | nil => rfl
    | cons c s => simp [hs c (by simp)]
  rw [strip,hkeep _ hnone,hkeep _ fun c hc => hnone c (List.mem_reverse.mp hc),List.reverse_reverse]

theorem isMmOnlyPrompt_spelled (hne : ws ≠ []) (hws : ∀ w ∈ ws, w ∈ Word.specials) :
    isMmOnlyPrompt (spelled ws) = true := by
  have hall : ws.filter (fun v => decide (v ∉ [Word.audioStart,.audioPad,.audioEnd,.visionStart,
      .imagePad,.videoPad,.visionEnd])) = [] := by
    rw [List.filter_eq_nil_iff]
    intro w hw
    have := hws w hw
    cases w <;> simp_all [Word.specials]
  have hfull : spelled ws ≠ [] := fun h => hne (spelled_eq_nil.mp h)
  rw [isMmOnlyPrompt,strip_spelled,foldl_replaceAll_spelled,hall]
  simpa [spelled,flat] using hfull

theorem withoutAudio_spelled (hws : ∀ w ∈ ws, w ∈ Word.media) :
    withoutAudio (spelled ws) =
      spelled (if .videoPad ∈ ws then ws.filter fun v => decide (v ≠ .audioPad) else ws) := by
  rw [withoutAudio,isIn_spelled]
  by_cases hv : .videoPad ∈ ws
  · have hmm : isMmOnlyPrompt (spelled ws) = true := by
      refine isMmOnlyPrompt_spelled (List.ne_nil_of_mem hv) fun w hw => ?_
      have := hws w hw
      cases w <;> simp_all [Word.media,Word.specials]
    have htriple : Word.spell .audioStart ++ (Word.spell .audioPad ++ Word.spell .audioEnd) =
        spelled [.audioStart,.audioPad,.audioEnd] := by simp [spelled]
    have hstart : Word.audioStart ∉ ws := fun h => by
      have := hws _ h
      simp [Word.media] at this
    rw [hmm,htriple,replaceAll_absent hstart,replaceAll_spelled,if_pos hv]
    simp [hv]
  · simp [hv]

/-- Empty runs leave words behind, so a text of words is seamless. -/
theorem withoutEmpty_words (audio image : List Nat) (ws : List Word) :
    ∃ vs : List Word, withoutEmpty audio image (ws.map .word) = vs.map .word := by
  induction ws generalizing audio image with
  | nil => exact ⟨[],rfl⟩
  | cons w ws ih =>
    have hword : ∀ (b : Bool) {vs : List Word} {l : List (Sym Char Word)}, l = vs.map .word →
        ∃ us : List Word, (if b then [] else [.word w]) ++ l = us.map .word := by
      rintro b vs l rfl
      cases b with
      | true => exact ⟨vs,rfl⟩
      | false => exact ⟨w :: vs,rfl⟩
    cases w with
    | audioPad =>
      obtain ⟨vs,hvs⟩ := ih audio.tail image
      simpa [withoutEmpty] using hword (decide (audio.head? = some 0)) hvs
    | imagePad =>
      obtain ⟨vs,hvs⟩ := ih audio image.tail
      simpa [withoutEmpty] using hword (decide (image.head? = some 0)) hvs
    | _ =>
      obtain ⟨vs,hvs⟩ := ih audio image
      exact ⟨_ :: vs,by rw [List.map_cons,withoutEmpty,hvs,List.map_cons] <;> simp⟩

theorem seamlessAt_spelled (args : WriterArgs) (idx : Indices) (ws : List Word) :
    SeamlessAt args idx (spelled ws) := by
  rw [SeamlessAt,syms_spelled]
  obtain ⟨vs,hvs⟩ := withoutEmpty_words (audioRuns args idx (found (spelled ws)))
    (imageRuns args idx (found (spelled ws))) ws
  rw [hvs]
  exact clean_words vs

theorem occurrences_spelled (w : Word) (ws : List Word) : occurrences w (spelled ws) = ws.count w := by
  rw [spelled,occurrences_flat w (clean_words ws)]
  induction ws with
  | nil => rfl
  | cons v ws ih => simp [List.count_cons,ih]

end Spelled

section Call
variable {κ ι : Type} (F : Front κ ι) (kw : κ) (x : Items ι)

/-- The words of the made-up text. -/
def dummyWords (mmCounts : Modality → Nat) : List Word :=
  List.replicate (mmCounts .audio) .audioPad ++ (List.replicate (mmCounts .image) .imagePad ++
    List.replicate (mmCounts .video) .videoPad)

theorem getDummyText_eq (mmCounts : Modality → Nat) :
    getDummyText mmCounts = spelled (dummyWords mmCounts) := by
  rw [dummyWords,spelled_append,spelled_append,spelled_replicate,spelled_replicate,
    spelled_replicate,getDummyText]

/-- The words that reach the HF processor. -/
def sentWords : List Word :=
  if x.videos = [] then dummyWords x.counts
  else List.replicate x.images.length .imagePad ++ List.replicate x.videos.length .videoPad

theorem withoutAudio_dummy : withoutAudio (getDummyText x.counts) = spelled (sentWords x) := by
  have hmedia : ∀ w ∈ dummyWords x.counts, w ∈ Word.media := by
    intro w hw
    simp only [dummyWords,List.mem_append,List.mem_replicate] at hw
    rcases hw with ⟨-,rfl⟩ | ⟨-,rfl⟩ | ⟨-,rfl⟩ <;> decide
  have hvideo : .videoPad ∈ dummyWords x.counts ↔ x.videos ≠ [] := by
    simp [dummyWords,Items.counts,Items.of]
  rw [getDummyText_eq,withoutAudio_spelled hmedia,sentWords]
  by_cases hv : x.videos = []
  · rw [if_neg (by rw [hvideo]; simpa using hv),if_pos hv]
  · rw [if_pos (hvideo.mpr hv),if_neg hv]
    congr 1
    simp [dummyWords,Items.counts,Items.of]

theorem writerArgs_supplied : Supplied (F.writerArgs kw x) where
  timed := by
    intro thw hthw
    obtain ⟨v,-,rfl⟩ := List.mem_map.mp hthw
    exact (F.video kw v).timed
  seconds := by simp [Front.writerArgs]
  metadata := by
    rintro l hl -
    obtain rfl := Option.some.inj hl
    simp [Front.writerArgs]
  rated := by
    rintro l hl md hmd
    obtain rfl := Option.some.inj hl
    obtain ⟨v,-,rfl⟩ := List.mem_map.mp hmd
    exact (F.video kw v).rated

theorem matches_sentWords : Matches (F.writerArgs kw x) [spelled (sentWords x)] ↔
    x.videos = [] ∨ x.videos.length = x.audios.length := by
  have hcount (w : Word) : (([spelled (sentWords x)] : List (List Char)).map (occurrences w)).sum =
      (sentWords x).count w := by simp [occurrences_spelled]
  have hiff : Matches (F.writerArgs kw x) [spelled (sentWords x)] ↔
      x.images.length = (sentWords x).count .imagePad ∧
      x.videos.length = (sentWords x).count .videoPad ∧
      x.audios.length = (sentWords x).count .audioPad+(sentWords x).count .videoPad := by
    rw [← hcount,← hcount,← hcount]
    constructor
    · rintro ⟨hi,hv,ha⟩
      exact ⟨by simpa [supply,Front.writerArgs] using hi,by simpa [supply,Front.writerArgs] using hv,
        by simpa [supply,Front.writerArgs] using ha⟩
    · rintro ⟨hi,hv,ha⟩
      exact ⟨by simpa [supply,Front.writerArgs] using hi,by simpa [supply,Front.writerArgs] using hv,
        by simpa [supply,Front.writerArgs] using ha⟩
  rw [hiff,sentWords]
  by_cases hv : x.videos = []
  · simp [hv,dummyWords,Items.counts,Items.of,List.count_append,List.count_replicate]
  · have hcounts : x.audios.length = x.videos.length ↔ x.videos.length = x.audios.length := eq_comm
    simp [hv,List.count_append,List.count_replicate,hcounts]

/-- The call gets through exactly when no video is among the items, or as many as audios. -/
theorem applyHfProcessorMmOnly_isOk : F.applyHfProcessorMmOnly kw x = .ok () ↔
    x.videos = [] ∨ x.videos.length = x.audios.length := by
  have hbal : Balanced (spelled (sentWords x)) := by
    have hnone : ∀ w ∈ [Word.visionStart,.visionEnd,.audioStart,.audioEnd],
        (sentWords x).count w = 0 := by
      intro w hw
      rw [List.count_eq_zero,sentWords,dummyWords]
      cases w <;> simp at hw <;> split <;> simp
    simp [Balanced,occurrences_spelled,hnone]
  have hseam : Seamless (F.writerArgs kw x) ⟨0,0,0⟩ [spelled (sentWords x)] :=
    ⟨seamlessAt_spelled _ _ _,trivial⟩
  obtain ⟨hgood,hbad⟩ := @replaceMultimodalSpecialTokens_matches _ F.tk.toTokenizer _
    (writerArgs_supplied F kw x) (fun _ s hs => by rwa [List.mem_singleton.mp hs]) hseam
  rw [matches_sentWords] at hgood hbad
  rw [Front.applyHfProcessorMmOnly,Front.callHf,withoutAudio_dummy]
  by_cases h : x.videos = [] ∨ x.videos.length = x.audios.length
  · have hneed : ¬ (x.videos ≠ [] ∧ x.audios = []) := by
      rintro ⟨hv,ha⟩
      rcases h with h | h
      · exact hv h
      · exact hv (List.length_eq_zero_iff.mp (by rw [h,ha]; rfl))
    rw [raiseIf_of_not hneed,ok_bind,hgood (.inl h)]
    simp [h]
  · have hne : ¬ ∀ sample ∈ [spelled (sentWords x)], sample = [] := by
      intro hall
      have hnil := spelled_eq_nil.mp (hall _ (List.mem_singleton_self _))
      rw [sentWords,if_neg fun hv => h (.inl hv)] at hnil
      exact h (.inl (by simpa using (List.append_eq_nil_iff.mp hnil).2))
    obtain ⟨msg,herr⟩ := hbad (not_or.mpr ⟨h,hne⟩)
    rw [herr]
    refine ⟨fun hok => ?_,fun hok => absurd hok h⟩
    obtain ⟨_,hcall,-⟩ := bind_eq_ok.mp hok
    obtain ⟨_,-,hcall⟩ := bind_eq_ok.mp hcall
    cases hcall

end Call
end TLiveOmni.Vllm
