import TLiveOmni.Rewriting

/-! The whole loop on the symbols of a text, and the text it returns. -/
set_option autoImplicit false

namespace TLiveOmni
open PySeq Words

section Drafts
variable {args : WriterArgs} {idx : Indices}

theorem word_notMem_silentSpan {w : Word} (hw : w ∈ Word.media) (time : ℚ) (v : Nat) :
    (.word w : Sym Char Word) ∉ silentSpan time v := by
  rcases mem_media.mp hw with rfl | rfl | rfl <;> simp [silentSpan,List.mem_replicate]

theorem word_notMem_voicedSpan {w : Word} (hw : w ∈ Word.media) (time : ℚ) (v a : Nat) :
    (.word w : Sym Char Word) ∉ voicedSpan time v a := by
  rcases mem_media.mp hw with rfl | rfl | rfl <;> simp [voicedSpan,List.mem_replicate]

theorem word_notMem_draft_media {v w : Word} (hv : v ∈ Word.media) (hw : w ∈ Word.media) :
    (.word w : Sym Char Word) ∉ draft args idx v := by
  rcases mem_media.mp hv with rfl | rfl | rfl
  · rcases mem_media.mp hw with rfl | rfl | rfl <;> simp [draft,List.mem_replicate]
  · rcases mem_media.mp hw with rfl | rfl | rfl <;> simp [draft,List.mem_replicate]
  · intro h
    obtain ⟨i,-,hi⟩ := List.mem_flatMap.mp h
    split at hi
    · exact word_notMem_voicedSpan hw _ _ _ hi
    · exact word_notMem_silentSpan hw _ _ hi

theorem timestamp_open (q : ℚ) (l : List (Sym Char Word)) :
    ∃ r, (timestampText q).map .ch ++ l = .ch '<' :: r := ⟨_,rfl⟩

theorem sealed_of_words {q : ℚ} {ws : List Word} (w : Word) :
    Sealed Word.spell '<' ((timestampText q).map .ch ++ ((ws ++ [w]).map .word)) where
  clean := by
    have hnil : Clean Word.spell ([] : List (Sym Char Word)) := clean_chars.mpr plain_nil
    have := clean_run_words (plain_timestampText q) (show ws ++ [w] ≠ [] by simp) hnil
    simpa using this
  start := by
    obtain ⟨r,hr⟩ := timestamp_open q ((ws ++ [w]).map .word)
    exact ⟨_,r,hr,.inl rfl⟩
  stop := ⟨(timestampText q).map .ch ++ ws.map .word,w,by simp⟩

theorem sealed_silentSpan (time : ℚ) (v : Nat) : Sealed Word.spell '<' (silentSpan time v) := by
  have := @sealed_of_words time (.visionStart :: List.replicate v .videoPlaceholder) .visionEnd
  simpa [silentSpan] using this

theorem sealed_voicedSpan (time : ℚ) (v a : Nat) : Sealed Word.spell '<' (voicedSpan time v a) := by
  have := @sealed_of_words time (.visionStart :: .audioStart ::
    (List.replicate v .videoPlaceholder ++ (List.replicate a .audioPlaceholder ++ [.audioEnd])))
    .visionEnd
  simpa [voicedSpan] using this

theorem sealed_flatMap {β : Type} {f : β → List (Sym Char Word)}
    (hf : ∀ b, Sealed Word.spell '<' (f b)) {l : List β} (hl : l ≠ []) :
    Sealed Word.spell '<' (l.flatMap f) := by
  induction l with
  | nil => exact absurd rfl hl
  | cons b l ih =>
    rw [List.flatMap_cons]
    by_cases hnil : l = []
    · subst hnil
      simpa using hf b
    · exact (hf b).append (ih hnil)

/-- Every video has a temporal grid. -/
def Timed (args : WriterArgs) : Prop := ∀ thw ∈ args.videoGridThw, 0 < thw.t

theorem Timed.pos (h : Timed args) (idx : Indices) : 0 < (videoThw args idx).t := by
  rw [videoThw,List.getD_eq_getElem?_getD]
  cases hget : args.videoGridThw[idx.videoIdx]? with
  | none => exact Nat.one_pos
  | some thw => exact h thw (List.mem_of_getElem? hget)

theorem sealed_videoSyms (h : Timed args) : Sealed Word.spell '<' (videoSyms args idx) := by
  refine sealed_flatMap (fun i => ?_) (by simpa using (h.pos idx).ne')
  cases args.useAudioInVideo with
  | true => exact sealed_voicedSpan _ _ _
  | false => exact sealed_silentSpan _ _

end Drafts

section Step
variable {args : WriterArgs} {idx : Indices} {w : Word} {ws : List Word}
variable {cur : List (Sym Char Word)}

/-- A round exchanges the first wrapped video token, or else the first token of its kind. -/
theorem stepSyms_cases (hmem : (.word w) ∈ cur) :
    ∃ a b, stepSyms args idx w cur = a ++ (draft args idx w ++ b) ∧
      ((cur = a ++ .word w :: b ∧ (.word w) ∉ a) ∨
        (w = .videoPad ∧ cur = a ++ (wrapped ++ b))) := by
  by_cases h : w = .videoPad ∧ wrapped <:+: cur
  · obtain ⟨a,b,hcur,hrep⟩ := replaceFirst_of_infix (draft args idx w) (by decide) h.2
    exact ⟨a,b,by rw [stepSyms,if_pos h,hrep],.inr ⟨h.1,hcur⟩⟩
  · obtain ⟨a,b,rfl,ha⟩ := List.eq_append_cons_of_mem hmem
    exact ⟨a,b,by rw [stepSyms,if_neg h,replaceFirst_one _ _ ha],.inl ⟨rfl,ha⟩⟩

theorem count_wrapped (x : Sym Char Word) : wrapped.count x =
    [(.word .visionStart : Sym Char Word)].count x+[(.word .videoPad : Sym Char Word)].count x+
      [(.word .visionEnd : Sym Char Word)].count x := by
  simp only [wrapped,List.count_cons,List.count_nil]
  omega

/-- Apart from the delimiters of a wrapped token, a round takes one token and puts its draft. -/
theorem count_stepSyms (hmem : (.word w) ∈ cur) {x : Sym Char Word} (hs : x ≠ .word .visionStart)
    (he : x ≠ .word .visionEnd) :
    (stepSyms args idx w cur).count x+[(.word w : Sym Char Word)].count x =
      cur.count x+(draft args idx w).count x := by
  obtain ⟨a,b,hstep,⟨rfl,-⟩ | ⟨rfl,rfl⟩⟩ := @stepSyms_cases args idx w cur hmem
  · rw [hstep]
    simp only [List.count_append,List.count_cons,List.count_nil]
    omega
  · have hvs : [(.word .visionStart : Sym Char Word)].count x = 0 := by simp [Ne.symm hs]
    have hve : [(.word .visionEnd : Sym Char Word)].count x = 0 := by simp [Ne.symm he]
    rw [hstep]
    simp only [List.count_append,count_wrapped,hvs,hve]
    omega

/-- The loop is at the media tokens `ws`: these are the media tokens of the text, and the text
has no word in characters even when tokens of empty runs are taken out. -/
structure Afoot (args : WriterArgs) (idx : Indices) (ws : List Word) (cur : List (Sym Char Word)) :
    Prop where
  clean : Clean Word.spell (withoutEmpty (audioRuns args idx ws) (imageRuns args idx ws) cur)
  pads : ∀ w ∈ Word.media, cur.count (.word w) = ws.count w

theorem Afoot.cleanText (h : Afoot args idx ws cur) : Clean Word.spell cur :=
  @clean_of_withoutEmpty _ _ [] cur h.clean

theorem Afoot.mem (h : Afoot args idx (w :: ws) cur) (hw : w ∈ Word.media) : (.word w) ∈ cur := by
  have hcount := h.pads w hw
  rw [List.count_cons_self] at hcount
  exact List.count_pos_iff.mp (by omega)

theorem Afoot.pads_step (h : Afoot args idx (w :: ws) cur) (hw : w ∈ Word.media) :
    ∀ v ∈ Word.media, (stepSyms args idx w cur).count (.word v) = ws.count v := by
  intro v hv
  have hcount := @count_stepSyms args idx w cur (h.mem hw) (.word v)
    (by rcases mem_media.mp hv with rfl | rfl | rfl <;> decide)
    (by rcases mem_media.mp hv with rfl | rfl | rfl <;> decide)
  have hdraft : (draft args idx w).count (.word v) = 0 :=
    List.count_eq_zero.mpr (word_notMem_draft_media hw hv)
  have hpads := h.pads v hv
  rw [List.count_cons] at hpads
  simp only [List.count_cons,List.count_nil,hdraft,beq_iff_eq,Sym.word.injEq] at hcount hpads
  omega

theorem clean_replicate_between {a b : List (Sym Char Word)} {n : Nat} {v w : Word}
    (h : Clean Word.spell (a ++ ((if some n = some 0 then [] else [.word w]) ++ b))) :
    Clean Word.spell (a ++ (List.replicate n (.word v) ++ b)) := by
  cases n with
  | zero => simpa using h
  | succ n =>
    rw [if_neg (by simp)] at h
    have := (h.left.append_word v (h.suffix.suffix.words_append (List.replicate n v)))
    simpa [List.replicate_succ] using this

theorem Afoot.clean_step (h : Afoot args idx (w :: ws) cur) (hw : w ∈ Word.media)
    (ht : Timed args) :
    Clean Word.spell (withoutEmpty (audioRuns args (idx.next args w) ws)
      (imageRuns args (idx.next args w) ws) (stepSyms args idx w cur)) := by
  obtain ⟨a,b,hstep,hcur⟩ := @stepSyms_cases args idx w cur (h.mem hw)
  have hclean := h.clean
  have hdraft : ∀ audio image, withoutEmpty audio image (draft args idx w) = draft args idx w :=
    withoutEmpty_none (word_notMem_draft_media hw (by decide)) (word_notMem_draft_media hw (by decide))
  have hda : (draft args idx w).count (.word .audioPad) = 0 :=
    List.count_eq_zero.mpr (word_notMem_draft_media hw (by decide))
  have hdi : (draft args idx w).count (.word .imagePad) = 0 :=
    List.count_eq_zero.mpr (word_notMem_draft_media hw (by decide))
  rw [hstep,withoutEmpty_append,withoutEmpty_append,hdraft,hda,hdi,List.drop_zero,List.drop_zero]
  rcases mem_media.mp hw with rfl | rfl | rfl
  · obtain ⟨rfl,ha⟩ := hcur.resolve_right fun e => by cases e.1
    have hzero := List.count_eq_zero.mpr ha
    rw [audioRuns,imageRuns,withoutEmpty_append,hzero] at hclean
    rw [hzero]
    simp only [if_true,reduceCtorEq,if_false,List.nil_append,List.drop_zero,withoutEmpty,
      List.singleton_append,List.head?_cons,List.tail_cons] at hclean ⊢
    rw [withoutEmpty_congr (fun h => absurd h ha) fun _ => rfl] at hclean
    exact clean_replicate_between hclean
  · obtain ⟨rfl,ha⟩ := hcur.resolve_right fun e => by cases e.1
    have hzero := List.count_eq_zero.mpr ha
    rw [audioRuns,imageRuns,withoutEmpty_append,hzero] at hclean
    rw [hzero]
    simp only [if_true,reduceCtorEq,if_false,List.nil_append,List.drop_zero,withoutEmpty,
      List.singleton_append,List.head?_cons,List.tail_cons] at hclean ⊢
    rw [withoutEmpty_congr (fun _ => rfl) fun h => absurd h ha] at hclean
    exact clean_replicate_between hclean
  · rw [audioRuns,imageRuns] at hclean
    simp only [reduceCtorEq,if_false,List.nil_append] at hclean
    rcases hcur with ⟨rfl,-⟩ | ⟨-,rfl⟩
    · rw [withoutEmpty_append] at hclean
      exact (sealed_videoSyms ht).between spell_bracketed hclean.left hclean.suffix.tail
    · rw [withoutEmpty_append] at hclean
      exact (sealed_videoSyms ht).between spell_bracketed hclean.left hclean.suffix.tail.tail.tail

theorem Afoot.step (h : Afoot args idx (w :: ws) cur) (hw : w ∈ Word.media) (ht : Timed args) :
    Afoot args (idx.next args w) ws (stepSyms args idx w cur) :=
  ⟨h.clean_step hw ht,h.pads_step hw⟩

end Step

section Run
variable {args : WriterArgs} {idx : Indices} {ws : List Word} {cur : List (Sym Char Word)}

theorem Afoot.run (h : Afoot args idx ws cur) (hws : ∀ w ∈ ws, w ∈ Word.media)
    (ht : Timed args) : Afoot args (idx.past args ws) [] (runSyms args idx ws cur) := by
  induction ws generalizing idx cur with
  | nil => exact h
  | cons w ws ih =>
    exact ih (h.step (hws w (by simp)) ht) fun v hv => hws v (by simp [hv])

/-- The loop on strings is the loop on symbols. -/
theorem fold_ok {s s' : Progress} (h : Afoot args s.toIndices ws cur)
    (hws : ∀ w ∈ ws, w ∈ Word.media) (ht : Timed args) (hs : s.sample = flat Word.spell cur)
    (hok : ws.foldlM (replaceOne args) s = .ok s') :
    s'.sample = flat Word.spell (runSyms args s.toIndices ws cur) ∧
      s'.toIndices = s.toIndices.past args ws ∧
      s'.sampleVideoCount = s.sampleVideoCount+ws.count .videoPad := by
  induction ws generalizing s cur with
  | nil =>
    obtain rfl := Except.ok.inj hok
    exact ⟨hs,rfl,rfl⟩
  | cons w ws ih =>
    have hw := hws w (by simp)
    rw [List.foldlM_cons] at hok
    obtain ⟨s₁,hone,hok⟩ := bind_eq_ok.mp hok
    obtain ⟨hs₁,hidx,hcount⟩ := replaceOne_ok hw hone hs h.cleanText
    have hstep := h.step hw ht
    rw [← hidx] at hstep
    obtain ⟨hsample,hpast,hvideos⟩ := ih hstep (fun v hv => hws v (by simp [hv])) hs₁ hok
    refine ⟨?_,?_,?_⟩
    · rw [hsample,hidx]
      rfl
    · rw [hpast,hidx]
      rfl
    · rw [hvideos,hcount,Nat.add_assoc,← List.count_append]
      rfl

end Run

section Finish
variable {cur : List (Sym Char Word)}

/-- The final word of an internal placeholder. -/
def settleWord : Word → Word
  | .audioPlaceholder => .audioPad
  | .imagePlaceholder => .imagePad
  | .videoPlaceholder => .videoPad
  | w => w

def settle : Sym Char Word → Sym Char Word
  | .ch c => .ch c
  | .word w => .word (settleWord w)

/-- The three replacements behind the loop. -/
def finishText (sample : List Char) : List Char :=
  replaceAll (Word.spell .videoPlaceholder) (Word.spell .videoPad)
    (replaceAll (Word.spell .imagePlaceholder) (Word.spell .imagePad)
      (replaceAll (Word.spell .audioPlaceholder) (Word.spell .audioPad) sample))

def renameSym (old new : Word) : Sym Char Word → Sym Char Word
  | .ch c => .ch c
  | .word w => .word (rename old new w)

theorem clean_renameSym (old new : Word) (hc : Clean Word.spell cur) :
    Clean Word.spell (cur.map (renameSym old new)) :=
  hc.map_words (fun _ => rfl) fun w => ⟨rename old new w,rfl⟩

theorem replaceAll_rename (old new : Word) (hc : Clean Word.spell cur) :
    replaceAll (Word.spell old) (Word.spell new) (flat Word.spell cur) =
      flat Word.spell (cur.map (renameSym old new)) := by
  have hall := replaceAll_flat spell_bracketed old [.word new] hc
  rw [flat_one] at hall
  rw [hall]
  congr 1
  clear hc hall
  induction cur with
  | nil => rfl
  | cons x l ih =>
    rw [List.flatMap_cons,ih,List.map_cons]
    cases x with
    | ch c => rfl
    | word w => by_cases hw : w = old <;> simp [renameSym,rename,hw]

theorem finishText_flat (hc : Clean Word.spell cur) :
    finishText (flat Word.spell cur) = flat Word.spell (cur.map settle) := by
  have hone := clean_renameSym .audioPlaceholder .audioPad hc
  have htwo := clean_renameSym .imagePlaceholder .imagePad hone
  rw [finishText,replaceAll_rename _ _ hc,replaceAll_rename _ _ hone,replaceAll_rename _ _ htwo,
    List.map_map,List.map_map]
  congr 2
  funext x
  cases x with
  | ch c => rfl
  | word w => cases w <;> rfl

theorem clean_settle (hc : Clean Word.spell cur) : Clean Word.spell (cur.map settle) :=
  hc.map_words (fun _ => rfl) fun w => ⟨settleWord w,rfl⟩

end Finish

section Texts
variable (args : WriterArgs)

/-- Taking out the tokens of empty runs spells no special token or placeholder anew. -/
def SeamlessAt (idx : Indices) (sample : List Char) : Prop :=
  Clean Word.spell (withoutEmpty (audioRuns args idx (found sample))
    (imageRuns args idx (found sample)) (syms sample))

def Seamless : Indices → List (List Char) → Prop
  | _, [] => True
  | idx, sample :: text => SeamlessAt args idx sample ∧ Seamless (idx.past args (found sample)) text

/-- The symbols of the text that is returned for a sample. -/
def rewritten (idx : Indices) (sample : List Char) : List (Sym Char Word) :=
  (runSyms args idx (found sample) (syms sample)).map settle

def rewrittenTexts : Indices → List (List Char) → List (List Char)
  | _, [] => []
  | idx, sample :: text => flat Word.spell (rewritten args idx sample) ::
      rewrittenTexts (idx.past args (found sample)) text

variable {args} {idx idx' : Indices} {sample out : List Char} {tk : Tokenizer}

theorem SeamlessAt.afoot (h : SeamlessAt args idx sample) :
    Afoot args idx (found sample) (syms sample) :=
  ⟨h,fun _ hw => (count_found hw sample).symm⟩

theorem SeamlessAt.clean_rewritten (h : SeamlessAt args idx sample) (ht : Timed args) :
    Clean Word.spell (rewritten args idx sample) :=
  clean_settle (h.afoot.run found_media ht).cleanText

/-- The text behind the loop, if all media tokens find their media. -/
theorem replaceSample_fold (h : SeamlessAt args idx sample) (ht : Timed args) {s : Progress}
    (hok : (found sample).foldlM (replaceOne args) ⟨idx,sample,0⟩ = .ok s) :
    replaceSample args tk idx sample = (do
      if args.useAudioInVideo = true ∧ 0 < (found sample).count .videoPad then
        validateVideoAudioTokens (tk.encode (flat Word.spell (rewritten args idx sample)))
      pure (flat Word.spell (rewritten args idx sample),idx.past args (found sample))) := by
  obtain ⟨hs,hidx,hcount⟩ := fold_ok h.afoot found_media ht (flat_syms sample).symm hok
  have hfinish := finishText_flat (h.afoot.run found_media ht).cleanText
  rw [← hs] at hfinish
  simp only [replaceSample]
  change (do
    let s ← (found sample).foldlM (replaceOne args) ⟨idx,sample,0⟩
    if args.useAudioInVideo = true ∧ 0 < s.sampleVideoCount then
      validateVideoAudioTokens (tk.encode (finishText s.sample))
    pure (finishText s.sample,s.toIndices)) = _
  rw [hok,ok_bind,hfinish,hidx,hcount,Nat.zero_add]
  rfl

/-- No supplied audio or image has an empty run. -/
structure NoEmptyRun (args : WriterArgs) : Prop where
  audio : ∀ n ∈ args.audioLengths, 0 < n
  image : ∀ thw ∈ args.imageGridThw, 0 < thw.prod/args.mergeSize^2

theorem NoEmptyRun.audioRun_pos (h : NoEmptyRun args) (idx : Indices) : 0 < audioRun args idx := by
  rw [audioRun,List.getD_eq_getElem?_getD]
  cases hget : args.audioLengths[idx.audioIdx]? with
  | none => exact Nat.one_pos
  | some n => exact h.audio n (List.mem_of_getElem? hget)

theorem NoEmptyRun.imageRun_pos (h : NoEmptyRun args) (idx : Indices) : 0 < imageRun args idx := by
  rw [imageRun]
  cases hget : args.imageGridThw[idx.imageIdx]? with
  | none => exact Nat.one_pos
  | some thw => exact h.image thw (List.mem_of_getElem? hget)

theorem NoEmptyRun.audioRuns_pos (h : NoEmptyRun args) (idx : Indices) (ws : List Word) :
    ∀ n ∈ audioRuns args idx ws, 0 < n := by
  induction ws generalizing idx with
  | nil => simp [audioRuns]
  | cons w ws ih =>
    intro n hn
    rcases List.mem_append.mp hn with hn | hn
    · split at hn
      · rw [List.mem_singleton.mp hn]
        exact h.audioRun_pos idx
      · cases hn
    · exact ih _ n hn

theorem NoEmptyRun.imageRuns_pos (h : NoEmptyRun args) (idx : Indices) (ws : List Word) :
    ∀ n ∈ imageRuns args idx ws, 0 < n := by
  induction ws generalizing idx with
  | nil => simp [imageRuns]
  | cons w ws ih =>
    intro n hn
    rcases List.mem_append.mp hn with hn | hn
    · split at hn
      · rw [List.mem_singleton.mp hn]
        exact h.imageRun_pos idx
      · cases hn
    · exact ih _ n hn

theorem withoutEmpty_of_pos {audio image : List Nat} (ha : ∀ n ∈ audio, 0 < n)
    (hi : ∀ n ∈ image, 0 < n) (l : List (Sym Char Word)) : withoutEmpty audio image l = l := by
  have hhead : ∀ runs : List Nat, (∀ n ∈ runs, 0 < n) → runs.head? ≠ some 0 :=
    fun runs hr h => absurd (hr 0 (List.mem_of_head? h)) (by simp)
  induction l generalizing audio image with
  | nil => rfl
  | cons x l ih =>
    by_cases hxa : x = .word .audioPad
    · subst hxa
      rw [withoutEmpty,if_neg (hhead audio ha),ih (fun n hn => ha n (List.mem_of_mem_tail hn)) hi]
      rfl
    · by_cases hxi : x = .word .imagePad
      · subst hxi
        rw [withoutEmpty,if_neg (hhead image hi),ih ha fun n hn => hi n (List.mem_of_mem_tail hn)]
        rfl
      · rw [withoutEmpty_cons hxa hxi,ih ha hi]

theorem NoEmptyRun.seamlessAt (h : NoEmptyRun args) (idx : Indices) (sample : List Char) :
    SeamlessAt args idx sample := by
  rw [SeamlessAt,withoutEmpty_of_pos (h.audioRuns_pos idx _) (h.imageRuns_pos idx _)]
  exact clean_syms sample

theorem NoEmptyRun.seamless (h : NoEmptyRun args) (idx : Indices) (text : List (List Char)) :
    Seamless args idx text := by
  induction text generalizing idx with
  | nil => trivial
  | cons sample text ih => exact ⟨h.seamlessAt idx sample,ih _⟩

/-- `sample.count(w)`. -/
def occurrences (w : Word) (sample : List Char) : Nat := (findWords Word.spell [w] sample).length

theorem occurrences_flat (w : Word) {l : List (Sym Char Word)} (hc : Clean Word.spell l) :
    occurrences w (flat Word.spell l) = l.count (.word w) :=
  length_findWords spell_bracketed w hc

theorem occurrences_eq (w : Word) (sample : List Char) :
    occurrences w sample = (syms sample).count (.word w) := by
  have := occurrences_flat w (clean_syms sample)
  rwa [flat_syms] at this

theorem count_found_texts {w : Word} (hw : w ∈ Word.media) (text : List (List Char)) :
    (text.flatMap found).count w = (text.map (occurrences w)).sum := by
  induction text with
  | nil => rfl
  | cons sample text ih =>
    rw [List.flatMap_cons,List.count_append,ih,count_found hw,← occurrences_eq,List.map_cons,
      List.sum_cons]

end Texts
end TLiveOmni
