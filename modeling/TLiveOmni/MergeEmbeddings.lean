import TLiveOmni.PromptUpdates
import TLiveOmni.Lib.Assign
import TLiveOmni.Lib.Scatter

/-! How the vLLM model puts the encoder's rows into the text embeddings. The chunks arrive
without their modality: `_tlive_merge_embeddings_by_modality` guesses it from the labels that
`embed_multimodal` has recorded, or from the numbers of rows. -/
set_option autoImplicit false

namespace TLiveOmni
open PySeq Assign Scatter

/-- `token_ids`, in the order of the dictionary. -/
def Modality.all : List Modality := [.image,.video,.audio]

/-- The order in which the dictionary lists the modalities. -/
def Modality.Before (a b : Modality) : Prop := Modality.all.idxOf a < Modality.all.idxOf b

instance (a b : Modality) : Decidable (a.Before b) := inferInstanceAs (Decidable (_ < _))

@[simp] theorem Modality.mem_all (m : Modality) : m ∈ Modality.all := by cases m <;> decide

theorem Modality.pad_inj {a b : Modality} : a.pad = b.pad ↔ a = b := by
  cases a <;> cases b <;> decide

namespace Vllm

/-- `_tlive_mm_embedding_modalities`; the attribute does not exist before the first call. -/
abbrev Labels := Option (List Modality)

/-- `embed_multimodal` on parsed inputs, each with the chunks its tower returns. -/
def embedMultimodal {E : Type} (labels : Labels) (inputs : List (Modality × List (List E))) :
    List (List E) × Labels :=
  if inputs = [] then ([],some [])
  else (inputs.flatMap (·.2),
    some (labels.getD [] ++ inputs.flatMap fun x => List.replicate x.2.length x.1))

/-- `is_valid_assignment`; a modality without tokens and without rows is not compared. -/
def isValidAssignment (tokenCounts : Modality → Nat) (sizes : List Nat)
    (candidate : List Modality) : Bool :=
  decide (candidate.length = sizes.length) && Modality.all.all fun m =>
    !(decide (0 < tokenCounts m) || decide (0 < total m candidate sizes)) ||
      decide (total m candidate sizes = tokenCounts m)

/-- The start of the first window of the labels that is a valid assignment. -/
def findWindow (tokenCounts : Modality → Nat) (sizes : List Nat) (labels : List Modality) :
    Option Nat :=
  (List.range (labels.length-sizes.length+1)).find? fun start =>
    isValidAssignment tokenCounts sizes ((labels.drop start).take sizes.length)

/-- What is left of the recorded labels: a window, all of them without a comparison of the
counts, or nothing. Labels that are too few stay as they are. -/
def recordedModalities (tokenCounts : Modality → Nat) (sizes : List Nat) (labels : Labels) :
    Option (List Modality) :=
  match labels with
  | none => none
  | some labels =>
    if labels.length < sizes.length then some labels
    else match findWindow tokenCounts sizes labels with
      | some start => some ((labels.drop start).take sizes.length)
      | none =>
        if labels.length = sizes.length ∧ ∀ m ∈ labels, 0 < tokenCounts m then some labels
        else none

/-- `present_modalities`. -/
def presentModalities (tokenCounts : Modality → Nat) : List Modality :=
  Modality.all.filter fun m => decide (0 < tokenCounts m)

/-- The inference from the numbers of rows alone. -/
def inferModalities (tokenCounts : Modality → Nat) (sizes : List Nat) : List Modality :=
  match presentModalities tokenCounts with
  | [m] => List.replicate sizes.length m
  | present => (search present tokenCounts sizes fun _ => 0).getD []

/-- The modalities the chunks are merged by. -/
def guessModalities (tokenCounts : Modality → Nat) (sizes : List Nat) (labels : Labels) :
    List Modality :=
  match recordedModalities tokenCounts sizes labels with
  | none => inferModalities tokenCounts sizes
  | some modalities =>
    if modalities.length ≠ sizes.length then inferModalities tokenCounts sizes else modalities

/-- The arguments of the merge: three tensors along the sequence, and the chunks. -/
structure MergeArgs (E : Type) where
  inputsEmbeds : List E
  inputIds : List Token
  multimodalEmbeddings : List (List E)
  isMultimodal : List Bool
  embedsLength : inputsEmbeds.length = inputIds.length
  maskLength : isMultimodal.length = inputIds.length

namespace MergeArgs
variable {E : Type} (a : MergeArgs E)

/-- `is_multimodal & (input_ids == token_ids[modality])`. -/
def positions (m : Modality) : List Bool :=
  List.zipWith (fun b t => b && decide (t = m.pad)) a.isMultimodal a.inputIds

/-- `token_counts`. -/
def tokenCounts (m : Modality) : Nat := (a.positions m).count true

def sizes : List Nat := a.multimodalEmbeddings.map List.length

/-- `embeddings_by_modality[modality]`. -/
def embeddingsByModality (modalities : List Modality) (m : Modality) : List (List E) :=
  ((modalities.zip a.multimodalEmbeddings).filter fun x => decide (x.1 = m)).map (·.2)

/-- The scatter loop, in the order in which the modalities first occur. -/
def scatterByModality (modalities : List Modality) : Py (List E) :=
  modalities.eraseDups.foldlM (fun merged m => do
    let chunks := a.embeddingsByModality modalities m
    let embeddings := chunks.flatten
    let name := m.name
    let chunkSizes := chunks.map List.length
    raiseIf (embeddings.length ≠ a.tokenCounts m) (.raised .valueError
      (s!"{name} embedding/token count mismatch: embeddings={embeddings.length}, " ++
        s!"tokens={a.tokenCounts m}, chunk_sizes={chunkSizes}"))
    pure (scatter (a.positions m) embeddings merged)) a.inputsEmbeds

/-- `_tlive_merge_embeddings_by_modality`. When it returns it has emptied the labels. -/
def mergeEmbeddingsByModality (labels : Labels) : Py (List E × Labels) := do
  let modalities := guessModalities a.tokenCounts a.sizes labels
  let names := modalities.map fun m => s!"'{m.name}'"
  raiseIf (modalities.length ≠ a.multimodalEmbeddings.length) (.raised .valueError
    ("Missing modality metadata for multimodal embeddings; " ++
      s!"got {a.multimodalEmbeddings.length} embedding chunks and modalities={names}."))
  let merged ← a.scatterByModality modalities
  pure (merged,some [])

end MergeArgs

/-- One modality for each chunk, and the rows of every modality as many as its positions. -/
structure Fits (tokenCounts : Modality → Nat) (sizes : List Nat) (modalities : List Modality) :
    Prop where
  length : modalities.length = sizes.length
  total : ∀ m, total m modalities sizes = tokenCounts m

section Guess
variable {tokenCounts : Modality → Nat} {sizes : List Nat}

theorem isValidAssignment_iff {candidate : List Modality} :
    isValidAssignment tokenCounts sizes candidate ↔ Fits tokenCounts sizes candidate := by
  simp only [isValidAssignment,Bool.and_eq_true,decide_eq_true_eq,List.all_eq_true,
    Bool.or_eq_true,Bool.not_eq_true',Bool.or_eq_false_iff,decide_eq_false_iff_not]
  constructor
  · rintro ⟨hlen,h⟩
    refine ⟨hlen,fun m => ?_⟩
    rcases h m m.mem_all with ⟨hc,ht⟩ | h
    · omega
    · exact h
  · intro h
    exact ⟨h.length,fun m _ => .inr (h.total m)⟩

/-- The labels contain a fitting run of modalities. -/
def HasWindow (tokenCounts : Modality → Nat) (sizes : List Nat) (labels : Labels) : Prop :=
  ∃ pre w post, labels = some (pre ++ w ++ post) ∧ Fits tokenCounts sizes w

/-- The labels are as many as the chunks, and each has positions: they are not compared with
the counts. -/
def Unchecked (tokenCounts : Modality → Nat) (sizes : List Nat) (labels : Labels) : Prop :=
  ∃ all, labels = some all ∧ all.length = sizes.length ∧ ∀ m ∈ all, 0 < tokenCounts m

theorem Fits.window {pre w post : List Modality} (h : Fits tokenCounts sizes w) :
    ((pre ++ w ++ post).drop pre.length).take sizes.length = w := by
  rw [List.append_assoc,List.drop_left,← h.length,List.take_left]

theorem findWindow_eq_some {all : List Modality} {start : Nat} (hle : sizes.length ≤ all.length)
    (h : findWindow tokenCounts sizes all = some start) :
    ∃ pre w post, all = pre ++ w ++ post ∧ pre.length = start ∧
      (all.drop start).take sizes.length = w ∧ Fits tokenCounts sizes w ∧
      ∀ pre' w' post', all = pre' ++ w' ++ post' → Fits tokenCounts sizes w' →
        start ≤ pre'.length := by
  obtain ⟨hvalid,hmem,hfirst⟩ := List.find?_range_eq_some.mp h
  have hlt : start < all.length-sizes.length+1 := by simpa using hmem
  refine ⟨all.take start,_,(all.drop start).drop sizes.length,?_,?_,rfl,
    isValidAssignment_iff.mp hvalid,?_⟩
  · rw [List.append_assoc,List.take_append_drop,List.take_append_drop]
  · rw [List.length_take]; omega
  · intro pre' w' post' hall hw'
    by_contra hlt'
    have hnot := hfirst pre'.length (by omega)
    rw [hall,hw'.window,isValidAssignment_iff.mpr hw'] at hnot
    simp at hnot

theorem findWindow_eq_none {all : List Modality} (h : findWindow tokenCounts sizes all = none)
    {pre w post : List Modality} (hall : all = pre ++ w ++ post) : ¬ Fits tokenCounts sizes w := by
  intro hw
  have hlen : all.length = pre.length+w.length+post.length := by simp [hall]; omega
  have hwl := hw.length
  have hnot := List.find?_eq_none.mp h pre.length (by simp; omega)
  rw [hall,hw.window,isValidAssignment_iff.mpr hw] at hnot
  simp at hnot

/-- What the guess can be: the first fitting window, the labels as they are, or the inference. -/
theorem guess_cases (tokenCounts : Modality → Nat) (sizes : List Nat) (labels : Labels) :
    (∃ pre w post, labels = some (pre ++ w ++ post) ∧ Fits tokenCounts sizes w ∧
      guessModalities tokenCounts sizes labels = w ∧
      ∀ pre' w' post', labels = some (pre' ++ w' ++ post') → Fits tokenCounts sizes w' →
        pre.length ≤ pre'.length) ∨
    (¬ HasWindow tokenCounts sizes labels ∧ Unchecked tokenCounts sizes labels ∧
      labels = some (guessModalities tokenCounts sizes labels)) ∨
    (¬ HasWindow tokenCounts sizes labels ∧ ¬ Unchecked tokenCounts sizes labels ∧
      guessModalities tokenCounts sizes labels = inferModalities tokenCounts sizes) := by
  cases labels with
  | none =>
    refine .inr (.inr ⟨?_,?_,rfl⟩)
    · rintro ⟨pre,w,post,h,-⟩
      cases h
    · rintro ⟨all,h,-⟩
      cases h
  | some all =>
    by_cases hlt : all.length < sizes.length
    · -- too few labels
      have hne : all.length ≠ sizes.length := by omega
      refine .inr (.inr ⟨?_,?_,?_⟩)
      · rintro ⟨pre,w,post,h,hw⟩
        cases h
        have := hw.length
        simp only [List.length_append] at hlt
        omega
      · rintro ⟨_,h,hlen,-⟩
        cases h
        exact hne hlen
      · simp [guessModalities,recordedModalities,hlt,hne]
    · cases hw : findWindow tokenCounts sizes all with
      | some start =>
        obtain ⟨pre,w,post,hall,hpre,hwin,hfit,hfirst⟩ := findWindow_eq_some (by omega) hw
        refine .inl ⟨pre,w,post,by rw [hall],hfit,?_,?_⟩
        · simp [guessModalities,recordedModalities,hlt,hw,hwin,hfit.length]
        · intro pre' w' post' h' hw'
          rw [hpre]
          exact hfirst pre' w' post' (Option.some.inj h') hw'
      | none =>
        have hno : ¬ HasWindow tokenCounts sizes (some all) := by
          rintro ⟨pre,w,post,h,hfit⟩
          exact findWindow_eq_none hw (Option.some.inj h) hfit
        by_cases hun : all.length = sizes.length ∧ ∀ m ∈ all, 0 < tokenCounts m
        · refine .inr (.inl ⟨hno,⟨all,rfl,hun⟩,?_⟩)
          simp only [guessModalities,recordedModalities,hlt,hw,if_false]
          rw [if_pos hun]
          simp [hun.1]
        · refine .inr (.inr ⟨hno,?_,?_⟩)
          · rintro ⟨_,h,hlen,hpos⟩
            cases h
            exact hun ⟨hlen,hpos⟩
          · simp only [guessModalities,recordedModalities,hlt,hw,if_false]
            rw [if_neg hun]

end Guess

section Infer
variable {tokenCounts : Modality → Nat} {sizes : List Nat} {modalities : List Modality}

theorem mem_presentModalities {m : Modality} :
    m ∈ presentModalities tokenCounts ↔ 0 < tokenCounts m := by
  simp [presentModalities]

theorem presentModalities_pairwise : (presentModalities tokenCounts).Pairwise Modality.Before := by
  have hall : Modality.all.Pairwise Modality.Before := by decide
  exact hall.sublist List.filter_sublist

theorem sum_total (h : modalities.length = sizes.length) :
    total .image modalities sizes + total .video modalities sizes + total .audio modalities sizes =
      sizes.sum := by
  induction modalities generalizing sizes with
  | nil =>
    have : sizes = [] := by simpa using h.symm
    simp [this]
  | cons l modalities ih =>
    cases sizes with
    | nil => simp at h
    | cons n sizes =>
      have := @ih sizes (by simpa using h)
      cases l with
      | image => simp; omega
      | video => simp; omega
      | audio => simp; omega

theorem total_replicate (m k : Modality) (sizes : List Nat) :
    total k (List.replicate sizes.length m) sizes = if m = k then sizes.sum else 0 := by
  induction sizes with
  | nil => simp
  | cons n sizes ih =>
    rw [List.length_cons,List.replicate_succ,total_cons,ih]
    by_cases h : m = k
    · simp [h]
    · simp [h]

theorem total_eq_zero {k : Modality} (h : k ∉ modalities) : total k modalities sizes = 0 := by
  have hnil : (modalities.zip sizes).filter (fun x => decide (x.1 = k)) = [] := by
    rw [List.filter_eq_nil_iff]
    intro x hx
    have hmem : x.1 ∈ modalities := (List.of_mem_zip hx).1
    simpa using fun e : x.1 = k => h (e ▸ hmem)
  simp [total,hnil]

theorem Fits.of_exact (h : Exact (presentModalities tokenCounts) tokenCounts (fun _ => 0) sizes modalities) :
    Fits tokenCounts sizes modalities := by
  refine ⟨h.length,fun m => ?_⟩
  by_cases hm : 0 < tokenCounts m
  · simpa using h.total m (mem_presentModalities.mpr hm)
  · have hnot : m ∉ modalities := fun hmem => hm (mem_presentModalities.mp (h.mem m hmem))
    rw [total_eq_zero hnot]
    omega

/-- Chunks of an absent modality are empty, so they can go to a present one. -/
theorem total_relabel {k m₀ : Modality} (hlen : modalities.length = sizes.length)
    (h : ∀ m, tokenCounts m = 0 → total m modalities sizes = 0) :
    total k (modalities.map fun m => if 0 < tokenCounts m then m else m₀) sizes =
      total k modalities sizes := by
  induction modalities generalizing sizes with
  | nil => rfl
  | cons l modalities ih =>
    cases sizes with
    | nil => simp at hlen
    | cons n sizes =>
      have htail : ∀ m, tokenCounts m = 0 → total m modalities sizes = 0 := by
        intro m hm
        have := h m hm
        rw [total_cons] at this
        omega
      rw [List.map_cons,total_cons,total_cons,ih (by simpa using hlen) htail]
      by_cases hl : 0 < tokenCounts l
      · simp [hl]
      · have hn : n = 0 := by
          have := h l (by omega)
          rw [total_cons,if_pos rfl] at this
          omega
        simp [hn]

theorem Fits.exact_relabel (h : Fits tokenCounts sizes modalities) {m₀ : Modality}
    (hm₀ : 0 < tokenCounts m₀) :
    Exact (presentModalities tokenCounts) tokenCounts (fun _ => 0) sizes
      (modalities.map fun m => if 0 < tokenCounts m then m else m₀) := by
  refine ⟨by simpa using h.length,?_,?_⟩
  · intro l hl
    obtain ⟨m,-,rfl⟩ := List.mem_map.mp hl
    rw [mem_presentModalities]
    split <;> assumption
  · intro k hk
    rw [Nat.zero_add,total_relabel h.length fun m hm => by rw [h.total,hm],h.total]

theorem Fits.replicate (h : Fits tokenCounts sizes modalities) {m : Modality}
    (hm : presentModalities tokenCounts = [m]) :
    Fits tokenCounts sizes (List.replicate sizes.length m) := by
  have hother : ∀ k, k ≠ m → tokenCounts k = 0 := by
    intro k hk
    by_contra hpos
    have hmem : k ∈ presentModalities tokenCounts := mem_presentModalities.mpr (by omega)
    exact hk (by simpa [hm] using hmem)
  have hsum := sum_total h.length
  rw [h.total,h.total,h.total] at hsum
  refine ⟨by simp,fun k => ?_⟩
  rw [total_replicate]
  by_cases hk : m = k
  · subst hk
    rw [if_pos rfl,← hsum]
    cases m with
    | image => rw [hother .video (by decide),hother .audio (by decide)]; omega
    | video => rw [hother .image (by decide),hother .audio (by decide)]; omega
    | audio => rw [hother .image (by decide),hother .video (by decide)]; omega
  · rw [if_neg hk,hother k (Ne.symm hk)]

/-- If some assignment fits, the inference finds one, unless there are chunks and no
positions at all. -/
theorem Fits.infer (h : Fits tokenCounts sizes modalities) (hpos : ∃ m, 0 < tokenCounts m) :
    Fits tokenCounts sizes (inferModalities tokenCounts sizes) := by
  obtain ⟨m₀,hm₀⟩ := hpos
  have hex := h.exact_relabel hm₀
  rw [inferModalities]
  split
  · rename_i m hm
    exact h.replicate hm
  · cases hs : search (presentModalities tokenCounts) tokenCounts sizes fun _ => 0 with
    | none => exact absurd hs hex.search_ne_none
    | some found => exact .of_exact (search_eq_some presentModalities_pairwise hs).1

/-- Chunks without any position are not inferred. -/
theorem inferModalities_starved (h : ∀ m, tokenCounts m = 0) (hne : sizes ≠ []) :
    inferModalities tokenCounts sizes = [] := by
  have hp : presentModalities tokenCounts = [] := by
    rw [presentModalities,List.filter_eq_nil_iff]
    intro m _
    simp [h m]
  cases sizes with
  | nil => exact absurd rfl hne
  | cons n sizes => simp [inferModalities,hp,search]

/-- A fitting assignment that no fitting one comes before is what the inference returns. -/
theorem Fits.infer_eq (h : Fits tokenCounts sizes modalities) (hpos : ∀ n ∈ sizes, 0 < n)
    (hfirst : ∀ c, Fits tokenCounts sizes c → ¬ List.Lex Modality.Before c modalities)
    (hne : sizes ≠ []) : inferModalities tokenCounts sizes = modalities := by
  have hpresent : ∀ m ∈ modalities, 0 < tokenCounts m := by
    intro m hm
    rw [← h.total m]
    exact total_pos hm h.length hpos
  obtain ⟨m₀,hm₀⟩ : ∃ m, m ∈ modalities := by
    apply List.exists_mem_of_ne_nil
    rintro rfl
    exact hne (by simpa using h.length.symm)
  rw [inferModalities]
  split
  · rename_i m hm
    symm
    rw [List.eq_replicate_iff]
    refine ⟨h.length,fun b hb => ?_⟩
    have := mem_presentModalities.mpr (hpresent b hb)
    simpa [hm] using this
  · have hid : (modalities.map fun m => if 0 < tokenCounts m then m else m₀) = modalities := by
      conv_rhs => rw [← List.map_id modalities]
      apply List.map_congr_left
      intro m hm
      rw [if_pos (hpresent m hm),id]
    have hex := h.exact_relabel (hpresent m₀ hm₀)
    rw [hid] at hex
    cases hs : search (presentModalities tokenCounts) tokenCounts sizes fun _ => 0 with
    | none => exact absurd hs hex.search_ne_none
    | some found =>
      obtain ⟨hfound,hmin⟩ := search_eq_some presentModalities_pairwise hs
      rcases hmin modalities hex with rfl | hlex
      · rfl
      · exact absurd hlex (hfirst found (.of_exact hfound))

end Infer

namespace MergeArgs
variable {E : Type} {a : MergeArgs E} {modalities : List Modality}

theorem length_embeddingsByModality (modalities : List Modality) (m : Modality) :
    (a.embeddingsByModality modalities m).flatten.length = total m modalities a.sizes := by
  rw [embeddingsByModality,total,sizes,List.zip_map_right,List.length_flatten,List.filter_map,
    List.map_map,List.map_map]
  rfl

/-- The scatter loop returns if the rows of each of its modalities are as many as the positions. -/
theorem scatterByModality_eq_ok {out : List E} : a.scatterByModality modalities = .ok out ↔
    (∀ m ∈ modalities, total m modalities a.sizes = a.tokenCounts m) ∧
    modalities.eraseDups.foldl (fun acc m => scatter (a.positions m)
      (a.embeddingsByModality modalities m).flatten acc) a.inputsEmbeds = out := by
  rw [scatterByModality]
  refine foldlM_raiseIf.trans (and_congr ?_ Iff.rfl)
  simp only [List.mem_eraseDups,length_embeddingsByModality,not_not]

theorem merge_eq_ok {labels : Labels} {r : List E × Labels} :
    a.mergeEmbeddingsByModality labels = .ok r ↔
      (guessModalities a.tokenCounts a.sizes labels).length = a.sizes.length ∧
      a.scatterByModality (guessModalities a.tokenCounts a.sizes labels) = .ok r.1 ∧
      r.2 = some [] := by
  obtain ⟨out,labels'⟩ := r
  rw [mergeEmbeddingsByModality]
  constructor
  · intro h
    obtain ⟨u,hlen,h⟩ := bind_eq_ok.mp h
    obtain ⟨merged,hmerged,h⟩ := bind_eq_ok.mp h
    cases h
    exact ⟨by simpa [sizes] using raiseIf_eq_ok.mp hlen,hmerged,rfl⟩
  · rintro ⟨hlen,hout,rfl⟩
    rw [raiseIf_of_not (by simpa [sizes] using hlen),ok_bind,hout]
    rfl

end MergeArgs
end Vllm
end TLiveOmni
