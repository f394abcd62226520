import TLiveOmni.PromptWalk

/-! When the two ways of a prompt through the vLLM processor lead to the same tokens and
placeholders. -/
set_option autoImplicit false

namespace TLiveOmni.Vllm
open PySeq Words Expand

namespace ProcessorInputs
variable {m : Nat} {r : ProcessorInputs m} {prompt sample : List Char}

/-- No video comes with audio. -/
def Quiet (r : ProcessorInputs m) : Prop := r.videos ≠ [] → r.useAudioInVideo = false

/-- No audio is too short for the model. -/
def Audible (r : ProcessorInputs m) : Prop :=
  ∀ a ∈ r.audios, 0 < getFeatExtractOutputLengths a.wholeFrames

/-- Videos and audios do not mix, and every item has its tokens. -/
structure Plain (r : ProcessorInputs m) : Prop where
  alone : r.videos ≠ [] → r.audios = [] ∧ r.useAudioInVideo = false
  audible : r.Audible
  framed : r.Framed

theorem Plain.quiet (h : r.Plain) : r.Quiet := fun hv => (h.alone hv).2

/-- The prompts whose two ways agree. -/
structure Agrees (r : ProcessorInputs m) (prompt : List Char) : Prop where
  free : ∀ mo : Modality, occurrences mo.placeholder prompt = 0
  runs : r.SameRuns
  alone : r.videos ≠ [] → r.audios = [] ∧ r.useAudioInVideo = false
  bare : ¬ wrapped <:+: syms prompt
  seams : r.Seams [] 0 (syms prompt)

section Text

theorem encode_syms (tk : Tokenizer) (h : Free (syms prompt)) :
    tk.encode prompt = tk.encodeSyms [] (syms prompt) := by
  have hspecial : ∀ w, (.word w) ∈ syms prompt → w ∈ Word.specials := by
    intro w hw
    have := h w hw
    cases w <;> simp_all [settleWord,Word.specials]
  have hlex := lex_flat_of_mem spell_bracketed (clean_syms prompt) hspecial
  rw [flat_syms] at hlex
  rw [Tokenizer.encode,hlex]

/-- The tokenizer knows the special tokens also where the prompt has other words. -/
theorem count_encode (tk : Tokenizer) (prompt : List Char) {v : Word} {t : Token}
    (hv : v.token? = some t) (ht : t.isText = false) :
    (tk.encode prompt).count t = occurrences v prompt := by
  have hmem : v ∈ Word.specials := by cases v <;> first | decide | cases hv
  have hlex := lex_flat spell_bracketed Word.specials (clean_syms prompt)
  rw [flat_syms] at hlex
  rw [Tokenizer.encode,count_encodeSyms tk hv ht,hlex,occurrences_eq]
  generalize syms prompt = l
  induction l with
  | nil => rfl
  | cons x l ih =>
    rw [List.flatMap_cons,List.count_append,ih]
    cases x with
    | ch c => simp
    | word w =>
      by_cases hw : w ∈ Word.specials
      · simp [hw,List.count_cons,Nat.add_comm]
      · have hne : w ≠ v := fun e => hw (e ▸ hmem)
        simp [hw,hne,count_chars]

theorem whole_le_padded (a : AudioItem) :
    getFeatExtractOutputLengths a.wholeFrames ≤ getFeatExtractOutputLengths a.paddedFrames := by
  have hle := a.padded
  unfold getFeatExtractOutputLengths
  dsimp only
  omega

theorem Audible.noEmptyRun (h : r.Audible) : NoEmptyRun r.silentArgs where
  audio := by
    intro n hn
    obtain ⟨a,ha,rfl⟩ := List.mem_map.mp hn
    have hpos := h a ha
    have hle := whole_le_padded a
    omega
  image := by
    intro thw hthw
    obtain ⟨g,-,rfl⟩ := List.mem_map.mp hthw
    have hsize : g.thw.prod/m^2 = g.t*g.toFrame.tokens := g.prod_div_sq
    have hpos := Nat.mul_pos g.tPos g.toFrame.tokens_pos
    change 0 < g.thw.prod/m^2
    rwa [hsize]

theorem silent_supplied (r : ProcessorInputs m) : Supplied r.silentArgs where
  timed := r.supplied.timed
  seconds := by simp [silentArgs,unvoiced]
  metadata := r.supplied.metadata
  rated := r.supplied.rated

theorem silent_matches (h : r.Asks sample) : Matches r.silentArgs [sample] := by
  have hi : occurrences .imagePad sample = r.images.length := h .image
  have hv : occurrences .videoPad sample = r.videos.length := h .video
  have ha : occurrences .audioPad sample = r.audios.length := h .audio
  constructor <;> simp [supply,silentArgs,unvoiced,writerArgs,hi,hv,ha]

theorem isIn_syms (w : Word) (sample : List Char) :
    isIn (Word.spell w) sample = decide ((.word w) ∈ syms sample) := by
  have hin := isIn_word spell_bracketed w (clean_syms sample)
  rwa [flat_syms] at hin

/-- Either no video has audio or there is none in the text. -/
theorem Quiet.cases (h : r.Quiet) (hasks : r.Asks sample) :
    r.useAudioInVideo = false ∨ (.word .videoPad) ∉ syms sample := by
  by_cases hv : r.videos = []
  · right
    rw [← List.count_eq_zero,← occurrences_eq]
    exact (hasks .video).trans (by rw [counts,hv]; rfl)
  · exact .inl (h hv)

theorem Quiet.callHf (h : r.Quiet) (hasks : r.Asks sample) : r.callHf sample = (do
    let text ← replaceMultimodalSpecialTokens r.silentArgs r.tk.toTokenizer [sample]
    pure text.flatten) := by
  have hraise : ¬ (r.videos ≠ [] ∧ r.useAudioInVideo = true ∧ r.audios = []) := by
    rintro ⟨hv,hu,-⟩
    rw [h hv] at hu
    cases hu
  have hsent : (if r.useAudioInVideo then withoutAudio sample else sample) = sample := by
    rcases h.cases hasks with hu | hnone
    · rw [hu]
      rfl
    · rw [withoutAudio,isIn_syms,decide_eq_false hnone,Bool.false_and]
      simp
  have hwrite : replaceMultimodalSpecialTokens r.writerArgs r.tk.toTokenizer [sample] =
      replaceMultimodalSpecialTokens r.silentArgs r.tk.toTokenizer [sample] := by
    rcases h.cases hasks with hu | hnone
    · have hsame : r.silentArgs = r.writerArgs := by
        unfold silentArgs unvoiced writerArgs
        rw [hu]
      rw [hsame]
    · refine replaceMultimodalSpecialTokens_unvoiced ?_
      rwa [← List.count_eq_zero,count_found (by decide),List.count_eq_zero]
  unfold ProcessorInputs.callHf
  rw [hsent]
  dsimp only
  rw [raiseIf_of_not hraise,ok_bind,hwrite]

/-- The HF processor gets through, and returns the text with the media written out. -/
theorem Quiet.callHf_ok (h : r.Quiet) (hasks : r.Asks sample)
    (hseam : SeamlessAt r.silentArgs ⟨0,0,0⟩ sample) :
    r.callHf sample = .ok (flat Word.spell (rewritten r.silentArgs ⟨0,0,0⟩ sample)) := by
  have hall : Seamless r.silentArgs ⟨0,0,0⟩ [sample] := ⟨hseam,trivial⟩
  have hok := (@replaceMultimodalSpecialTokens_matches _ r.tk.toTokenizer _ r.silent_supplied
    (fun hu => by cases hu) hall).1 (.inl (silent_matches hasks))
  rw [h.callHf hasks,hok]
  simp [rewrittenTexts]

theorem wrappedFirst_of_bare {l : List (Sym Char Word)} (h : ¬ wrapped <:+: l) :
    wrappedFirst l = true := by
  have hrest : ∀ {x : Sym Char Word} {l : List (Sym Char Word)}, ¬ wrapped <:+: x :: l →
      ¬ wrapped <:+: l := fun hx hl => hx (hl.trans (List.suffix_cons _ _).isInfix)
  induction l using wrappedFirst.induct with
  | case1 => rfl
  | case2 l ih => exact absurd ⟨[],l,rfl⟩ h
  | case3 l ih => rw [wrappedFirst,ih (hrest h),decide_eq_false (hrest h)]; rfl
  | case4 x l hnot hv ih =>
    rw [wrappedFirst]
    · exact ih (hrest h)
    · exact hnot
    · exact hv

/-- The tokens of the text that the HF processor returns. -/
def written (r : ProcessorInputs m) (prompt : List Char) : List Token :=
  r.tk.encode (flat Word.spell (rewritten r.silentArgs ⟨0,0,0⟩ prompt))

theorem Audible.written_eq (h : r.Audible) (hbare : ¬ wrapped <:+: syms prompt) :
    r.written prompt =
      r.tk.encodeSyms [] ((filled r.silentArgs ⟨0,0,0⟩ (syms prompt)).map settle) := by
  have hne := h.noEmptyRun
  have hseam := hne.seamlessAt ⟨0,0,0⟩ prompt
  have hrun := run_filled r.silent_supplied.timed (hseam.ahead (hne.staysBare (by simp)))
    (wrappedFirst_of_bare hbare)
  have hclean := hseam.clean_rewritten r.silent_supplied.timed
  unfold written
  rw [rewritten,run_found,hrun,List.nil_append] at hclean ⊢
  rw [Tokenizer.encode,lex_flat_of_mem spell_bracketed hclean (settled_specials _)]

end Text

section Items

theorem count_dummyWords (mmCounts : Modality → Nat) (mo : Modality) :
    (dummyWords mmCounts).count mo.word = mmCounts mo := by
  cases mo <;> simp [dummyWords,Modality.word,List.count_append,List.count_replicate]

theorem Quiet.callHf_dummy (h : r.Quiet) : ∃ text, r.callHf (getDummyText r.counts) = .ok text := by
  rw [getDummyText_eq]
  refine ⟨_,h.callHf_ok (fun mo => ?_) (seamlessAt_spelled _ _ _)⟩
  rw [occurrences_spelled,count_dummyWords]

theorem getReplacementAudio_eq (h : r.Audible) {i : Nat} {c : List Token}
    (hc : (r.contents .audio)[i]? = some c) : getReplacementAudio r.args i 0 = .ok c := by
  rw [contents,List.getElem?_map,Option.map_eq_some_iff] at hc
  obtain ⟨a,ha,rfl⟩ := hc
  have hpos := h a (List.mem_of_getElem? ha)
  have hget : getItem r.args.audioFeatureLengths i = .ok a.wholeFrames := by
    rw [getItem_eq_ok]
    simp [args,argsWith,ha]
  unfold getReplacementAudio
  dsimp only
  rw [Nat.add_zero,hget,ok_bind,raiseIf_of_not (by omega),ok_bind]
  rfl

theorem getReplacementImage_eq {i : Nat} {c : List Token}
    (hc : (r.contents .image)[i]? = some c) : getReplacementImage r.args i = .ok c := by
  rw [contents,List.getElem?_map,Option.map_eq_some_iff] at hc
  obtain ⟨g,hg,rfl⟩ := hc
  have hget : getItem r.args.imageGridThw i = .ok g.thw := by
    rw [getItem_eq_ok]
    simp [args,argsWith,hg]
  unfold getReplacementImage
  rw [hget,ok_bind]
  rfl

theorem resolveVideos_silent {tk : TokenizerLike} {d : UpdateArgs}
    (hu : d.useAudioInVideo = false) {f : Nat → List Token} {n i : Nat}
    (h : ∀ k < n, getReplacementVideo tk d (i+k) = .ok (f (i+k))) :
    resolveVideos tk d i 0 n = .ok ((List.range n).map fun k => f (i+k)) := by
  induction n generalizing i with
  | zero => rfl
  | succ n ih =>
    have hfirst : getReplacementVideo tk d i = .ok (f i) := h 0 (by omega)
    have hrest := @ih (i+1) fun k hk => by
      have := h (k+1) (by omega)
      rwa [← Nat.add_assoc,Nat.add_right_comm] at this
    unfold resolveVideos videoReplacementFn
    rw [hu]
    simp only [Bool.false_eq_true,if_false]
    rw [hfirst,ok_bind,hrest,ok_bind,List.range_succ_eq_map,List.map_cons,List.map_map]
    simp only [Function.comp_def,Nat.succ_eq_add_one,Nat.add_assoc,Nat.add_comm 1]
    rfl

theorem Framed.content (h : r.Framed) {i : Nat} (hi : i < r.videos.length) :
    ∃ c, getReplacementVideo r.tk r.args i = .ok c ∧ c ≠ [] := by
  have hv : r.videos[i]? = some r.videos[i] := List.getElem?_eq_getElem hi
  generalize r.videos[i] = v at hv
  obtain ⟨hrate,hlen⟩ := h i v hv
  refine ⟨_,video_content hv hrate,fun hnil => ?_⟩
  have hpos := v.grid.tPos
  cases hus : r.updateTimes i v with
  | nil =>
    rw [hus] at hlen
    exact hpos.ne hlen
  | cons u us =>
    rw [hus] at hnil
    simp [spanOf] at hnil

/-- The updates with the contents. -/
def updates (r : ProcessorInputs m) : Updates := [(.audio,resolved .audio none (r.contents .audio)),
  (.image,resolved .image none (r.contents .image)),
  (.video,resolved .video (some .videoPad) (r.contents .video))]

theorem Plain.promptUpdates (h : r.Plain) : r.promptUpdates = .ok r.updates := by
  have haud : (List.range r.audios.length).mapM (fun i => getReplacementAudio r.args i 0) =
      .ok (r.contents .audio) :=
    mapM_range_eq (by simp [contents]) fun i c hc => getReplacementAudio_eq h.audible hc
  have himg : (List.range r.images.length).mapM (fun i => getReplacementImage r.args i) =
      .ok (r.contents .image) :=
    mapM_range_eq (by simp [contents]) fun i c hc => getReplacementImage_eq hc
  have hvid : resolveVideos r.tk r.args 0 0 r.videos.length = .ok (r.contents .video) := by
    by_cases hv : r.videos = []
    · simp [contents,hv,resolveVideos]
    · have hall : ∀ k < r.videos.length, getReplacementVideo r.tk r.args (0+k) =
          .ok ((getReplacementVideo r.tk r.args (0+k)).toOption.getD []) := by
        intro k hk
        rw [Nat.zero_add]
        obtain ⟨c,hc,-⟩ := h.framed.content hk
        rw [hc]
        rfl
      have hu : r.args.useAudioInVideo = false := h.quiet hv
      rw [@resolveVideos_silent r.tk r.args hu
        (fun i => (getReplacementVideo r.tk r.args i).toOption.getD []) _ 0 hall]
      simp [contents]
  rw [promptUpdates_eq,args_counts]
  unfold getMmPromptUpdates counts
  dsimp only
  rw [haud,ok_bind,himg,ok_bind,hvid,ok_bind]
  rfl

theorem resolved_injective {mo : Modality} {e : Option Token} {l l' : List (List Token)}
    (h : resolved mo e l = resolved mo e l') : l = l' := by
  have hfull := congrArg (List.map fun u => id u.full) h
  rwa [map_resolved mo e l id,map_resolved mo e l' id,List.map_id,List.map_id] at hfull

theorem Plain.bound (h : r.Plain) : Bound r.tk r.args r.updates (r.contents .audio)
    (r.contents .image) (r.contents .video) := by
  have hup := h.promptUpdates
  rw [promptUpdates_eq] at hup
  obtain ⟨auds,imgs,vids,hb⟩ := getMmPromptUpdates_ok hup
  have heq := hb.eq
  unfold updates at heq
  simp only [List.cons.injEq,Prod.mk.injEq,true_and,and_true] at heq
  obtain ⟨ha,hi,hv⟩ := heq
  rwa [resolved_injective ha,resolved_injective hi,resolved_injective hv]

theorem waiting (r : ProcessorInputs m) : Waiting r.updates.items r.contents ⟨0,0,0⟩ := by
  have hsound := resolved_sound (r.contents .audio) (r.contents .image) (r.contents .video)
  unfold updates
  intro mo
  cases mo with
  | audio => exact @map_full .audio none (r.contents .audio) _ hsound (by simp)
  | image => exact @map_full .image none (r.contents .image) _ hsound (by simp)
  | video => exact @map_full .video (some .videoPad) (r.contents .video) _ hsound (by simp)

theorem Plain.contents_ne (h : r.Plain) : ∀ c ∈ r.contents .video, c ≠ [] := by
  intro c hc
  obtain ⟨i,hi,rfl⟩ := List.mem_map.mp hc
  obtain ⟨c,hc,hne⟩ := h.framed.content (List.mem_range.mp hi)
  rw [hc]
  exact hne

end Items

section Paths

theorem Asks.count (hasks : r.Asks prompt) (mo : Modality) :
    (r.tk.encode prompt).count mo.pad = r.args.counts mo := by
  have htoken : mo.word.token? = some mo.pad := by cases mo <;> rfl
  rw [count_encode _ _ htoken (by cases mo <;> rfl),args_counts]
  exact hasks mo

theorem Quiet.asked (h : r.Quiet) (hasks : r.Asks prompt) :
    Asked r.args (r.tk.encode prompt) := by
  have hcount := hasks.count
  refine ⟨hcount .image,hcount .video,(hcount .audio).trans ?_⟩
  split
  · next hu =>
    have hnone : r.videos = [] := by
      by_contra hv
      have := h hv
      rw [show r.useAudioInVideo = true from hu] at this
      cases this
    have hzero : r.args.counts .video = 0 := by rw [args_counts,counts,hnone]; rfl
    rw [hzero,Nat.sub_zero]
  · rfl

theorem Plain.apart (h : r.Plain) : r.args.counts .video = 0 ∨
    (r.args.useAudioInVideo = false ∧ r.args.counts .audio = 0) := by
  rw [args_counts]
  by_cases hv : r.videos = []
  · exact .inl (by rw [counts,hv]; rfl)
  · obtain ⟨ha,hu⟩ := h.alone hv
    exact .inr ⟨hu,by rw [counts,ha]; rfl⟩

/-- The tokens of a prompt with all updates applied. -/
def expanded (r : ProcessorInputs m) (prompt : List Char) : List Token :=
  expand Update.mark Update.full r.updates.items (r.tk.encode prompt)

theorem Plain.applied (h : r.Plain) (hasks : r.Asks prompt) :
    unused Update.mark r.updates.items (r.tk.encode prompt) = [] ∧
      applyPromptUpdates r.tk (r.tk.encode prompt) r.updates =
        .ok (r.expanded prompt,placeholdersIn r.updates (r.tk.encode prompt)) :=
  h.bound.apply_plain r.describes (h.quiet.asked hasks) h.contents_ne (h.apart.imp_right And.left)

theorem Plain.applyTokens (h : r.Plain) (hasks : r.Asks prompt) :
    r.applyTokens (r.tk.encode prompt) =
      .ok (r.expanded prompt,placeholdersIn r.updates (r.tk.encode prompt)) := by
  obtain ⟨hall,happly⟩ := h.applied hasks
  have hbranch : decide (0 < r.args.counts .video ∧
      (r.args.useAudioInVideo = true ∨ 0 < r.args.counts .audio)) = false := by
    rcases h.apart with h | ⟨hflag,h⟩
    · simp [h]
    · simp [hflag,h]
  obtain ⟨text,htext⟩ := h.quiet.callHf_dummy
  unfold ProcessorInputs.applyTokens
  rw [htext,ok_bind,h.promptUpdates,ok_bind,← args_counts,← args_kwargs]
  refine (h.bound.maybeApply_eq_ok (h.quiet.asked hasks)).mpr ⟨?_,h.bound.length_plain hall⟩
  rw [hbranch,applyToTokens,if_neg (by simp),happly]

/-- If the HF processor writes the tokens of the updates, the scan finds every item, and nothing
is expanded again. -/
theorem Plain.applyText (h : r.Plain) (hasks : r.Asks prompt)
    (heq : r.written prompt = r.expanded prompt) :
    r.applyText prompt = .ok (r.expanded prompt,placeholdersIn r.updates (r.tk.encode prompt)) := by
  obtain ⟨hall,happly⟩ := h.applied hasks
  have hlen := h.bound.length_plain hall
  have hscan := (applyPromptUpdates_found happly).symm
  have hexpanded : applyToExpanded r.args.counts r.tk (r.expanded prompt) r.updates =
      .ok (r.expanded prompt,placeholdersIn r.updates (r.tk.encode prompt)) := by
    unfold applyToExpanded
    dsimp only
    rw [hscan]
    simp [hlen]
  have hseam := h.audible.noEmptyRun.seamlessAt ⟨0,0,0⟩ prompt
  unfold written at heq
  unfold ProcessorInputs.applyText
  rw [h.quiet.callHf_ok hasks hseam,ok_bind,h.promptUpdates,ok_bind,heq,← args_counts,← args_kwargs]
  exact maybeApplyPromptUpdates_eq_ok.mpr ⟨validateMmKwargs_ok _,hexpanded,hlen⟩

/-- In a prompt of bare videos, without words of the HF processor's own, both sides write the
same exactly if the timestamps agree. -/
theorem Plain.written_iff (h : r.Plain) (hasks : r.Asks prompt) (hruns : r.SameRuns)
    (hbare : ¬ wrapped <:+: syms prompt) (hfree : Free (syms prompt)) :
    r.written prompt = r.expanded prompt ↔ r.Seams [] 0 (syms prompt) := by
  rw [h.audible.written_eq hbare,expanded,encode_syms _ hfree]
  refine encode_filled_iff hruns h.framed hbare hfree (fun mo => ?_) r.waiting
  have hcount := hasks mo
  rw [occurrences_eq] at hcount
  rw [hcount]
  cases mo <;> simp [Indices.of,contents,counts]

end Paths

section Enough

/-- Every video that has its token in the prompt reads alike on both sides. -/
theorem seams_all {run : List Char} {i : Nat} {l : List (Sym Char Word)} (h : r.Seams run i l)
    {k : Nat} (hk : k < l.count (.word .videoPad)) : ∃ run', r.Seam run' (i+k) := by
  induction l generalizing run i k with
  | nil => simp at hk
  | cons x l ih =>
    cases x with
    | ch c => exact ih h (by simpa using hk)
    | word w =>
      by_cases hw : w = .videoPad
      · subst hw
        obtain ⟨hseam,hrest⟩ := h
        cases k with
        | zero => exact ⟨run,hseam⟩
        | succ k =>
          rw [List.count_cons_self] at hk
          obtain ⟨run',hrun⟩ := ih hrest (Nat.lt_of_succ_lt_succ hk)
          exact ⟨run',by rwa [Nat.add_assoc,Nat.add_comm 1] at hrun⟩
      · rw [List.count_cons_of_ne fun e => hw (Sym.word.inj e)] at hk
        have hrest : r.Seams [] i l := by
          cases w <;> first | exact absurd rfl hw | exact h
        exact ih hrest hk

theorem length_of_sameStamps {tk : Tokenizer} {run : List Char} {ts us : List ℚ}
    (h : sameStamps tk run ts us) : ts.length = us.length := by
  cases ts with
  | nil => cases h
  | cons t ts => cases us with
    | nil => cases h
    | cons u us =>
      have := congrArg List.length h.2
      simpa using this

theorem Agrees.framed (h : r.Agrees prompt) (hasks : r.Asks prompt) : r.Framed := by
  intro i v hv
  have hcount : (syms prompt).count (.word .videoPad) = r.videos.length := by
    rw [← occurrences_eq]
    exact hasks .video
  obtain ⟨run,hseam⟩ := seams_all h.seams (hcount ▸ (List.getElem?_eq_some_iff.mp hv).1)
  rw [Nat.zero_add] at hseam
  obtain ⟨v',hv',hrate,hsame⟩ := hseam
  obtain rfl : v = v' := Option.some.inj (hv.symm.trans hv')
  exact ⟨hrate,(length_of_sameStamps hsame).symm.trans (r.length_times v)⟩

theorem Agrees.plain (h : r.Agrees prompt) (hasks : r.Asks prompt) : r.Plain :=
  ⟨h.alone,fun a ha => (h.runs a ha).2,h.framed hasks⟩

theorem Agrees.same (h : r.Agrees prompt) (hasks : r.Asks prompt) :
    ∃ reply, r.applyText prompt = .ok reply ∧ r.applyTokens (r.tk.encode prompt) = .ok reply := by
  have hplain := h.plain hasks
  have heq := (hplain.written_iff hasks h.runs h.bare (free_of_occurrences h.free)).mpr h.seams
  exact ⟨_,hplain.applyText hasks heq,hplain.applyTokens hasks⟩

end Enough
end ProcessorInputs
end TLiveOmni.Vllm
