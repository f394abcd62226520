import TLiveOmni.EngineRun

/-! How long a label stays. A ledger follows every encoded item and the rows of it that are not
merged yet; the labels of the worker are those of the items encoded since the last merge by
modality, whether they are merged or not. -/
set_option autoImplicit false

namespace TLiveOmni.Vllm
open PySeq

variable {E : Type} {encode : String → List E}

/-- An item that was encoded, and the rows of it that no step has merged. -/
structure EncodedItem where
  item : Feature
  missing : List Nat

namespace EncodedItem

/-- Just encoded: every position of the item waits for its row. -/
def new (f : Feature) : EncodedItem := ⟨f,List.range (f.mask.count true)⟩

/-- A step merges the rows of the item that its chunks hold. -/
def merge (st : Step encode) (e : EncodedItem) : EncodedItem :=
  ⟨e.item,e.missing.filter fun k => !st.gathered.any fun x =>
    decide (x.2.identifier = e.item.identifier) &&
      decide (x.2.rank x.1.numComputedTokens ≤ k) &&
      decide (k < x.2.rank (x.1.numComputedTokens+x.1.numScheduledTokens))⟩

end EncodedItem

/-- The encoded items, apart those whose label was removed and those that are still labelled. -/
structure Ledger where
  settled : List EncodedItem
  labelled : List EncodedItem

namespace Ledger

/-- The items that are encoded and not completely merged. -/
def unmerged (l : Ledger) : List EncodedItem :=
  (l.settled ++ l.labelled).filter fun e => decide (e.missing ≠ [])

/-- The labelled items when the tokens of the step have been embedded. -/
def embedded (l : Ledger) (st : Step encode) : List EncodedItem :=
  (l.labelled ++ st.scheduledEncoderInputs.map EncodedItem.new).map (EncodedItem.merge st)

/-- A merge by modality removes all labels, every other step none. -/
def after (model : Model E) (l : Ledger) (st : Step encode) : Ledger :=
  if (st.mergeArgs model).bothPresent then
    ⟨l.settled.map (EncodedItem.merge st) ++ l.embedded st,[]⟩
  else ⟨l.settled.map (EncodedItem.merge st),l.embedded st⟩

/-- The ledger after the steps of a run. -/
def ofTrace (model : Model E) (trace : List (Taken encode)) : Ledger :=
  trace.foldl (fun l t => l.after model t.step) ⟨[],[]⟩

/-- Outside the merge by modality the step completes no item that is labelled. -/
def Keeps (model : Model E) (l : Ledger) (st : Step encode) : Prop :=
  (st.mergeArgs model).bothPresent ∨ ∀ e ∈ l.embedded st, e.missing ≠ []

/-- No label of the worker belongs to an item that is completely merged. -/
structure NoStale (l : Ledger) (w : Worker E) : Prop where
  labels : w.labels.getD [] = l.labelled.map (·.item.modality)
  missing : ∀ e ∈ l.labelled, e.missing ≠ []
  length : (w.labels.getD []).length ≤ l.unmerged.length

variable {model : Model E} {l : Ledger} {st : Step encode} {w : Worker E}

theorem ofTrace_snoc (trace : List (Taken encode)) (t : Taken encode) :
    ofTrace model (trace ++ [t]) = (ofTrace model trace).after model t.step := by
  rw [ofTrace,List.foldl_append]
  rfl

theorem modality_embedded : (l.embedded st).map (·.item.modality) =
    l.labelled.map (·.item.modality) ++ st.scheduledEncoderInputs.map Feature.modality := by
  simp [embedded,EncodedItem.merge,EncodedItem.new,Function.comp_def]

theorem labelled_after : (l.after model st).labelled =
    if (st.mergeArgs model).bothPresent then [] else l.embedded st := by
  rw [after]
  split <;> rfl

/-- Labels of unmerged items only are at most as many as the unmerged items. -/
theorem NoStale.of_missing (hlabels : w.labels.getD [] = l.labelled.map (·.item.modality))
    (hmissing : ∀ e ∈ l.labelled, e.missing ≠ []) : l.NoStale w := by
  refine ⟨hlabels,hmissing,?_⟩
  have hall : l.labelled.filter (fun e => decide (e.missing ≠ [])) = l.labelled := by
    rw [List.filter_eq_self]
    intro e he
    exact decide_eq_true (hmissing e he)
  rw [hlabels,List.length_map,unmerged,List.filter_append,hall,List.length_append]
  omega

/-- The step condition says that no labelled item is complete after it. -/
theorem keeps_iff : l.Keeps model st ↔ ∀ e ∈ (l.after model st).labelled, e.missing ≠ [] := by
  rw [Keeps,labelled_after]
  by_cases h : (st.mergeArgs model).bothPresent
  · simp [h]
  · simp [h]

end Ledger

section Runs
variable {model : Model E} {sameFields : Feature → Feature → Bool} {w w' : Worker E}
  {st : Step encode} {out : List E} {trace : List (Taken encode)}

/-- Only the merge by modality removes labels, and it removes all. -/
theorem executeStep_labels (hc : CacheOk encode w.encoderCache)
    (h : executeStep model sameFields w st = .ok (out,w')) :
    w'.labels.getD [] = if (st.mergeArgs model).bothPresent then []
      else w.labels.getD [] ++ st.scheduledEncoderInputs.map Feature.modality := by
  have hrecord : (w.labelsAt st).getD [] =
      w.labels.getD [] ++ st.scheduledEncoderInputs.map Feature.modality := by
    rw [Worker.labelsAt,recordLabels]
    split
    · rename_i hnil
      simp [hnil]
    · rfl
  rcases (executeStep_cases hc h).2 with ⟨hnil,-,hl⟩ | ⟨-,hboth,hm⟩ | ⟨-,hnot,-,hl⟩
  · have hnot : ¬ (st.mergeArgs model).bothPresent := fun hboth => st.chunks_ne_nil hboth hnil
    rw [if_neg hnot,hl,hrecord]
  · have hempty : w'.labels = some [] := (MergeArgs.merge_eq_ok.mp hm).2.2
    rw [if_pos hboth,hempty]
    rfl
  · rw [if_neg hnot,hl,hrecord]

/-- The worker's labels are those of the labelled items. -/
theorem Run.labels (h : Run encode model sameFields .init trace w) :
    w.labels.getD [] = (Ledger.ofTrace model trace).labelled.map (·.item.modality) := by
  generalize hw : (Worker.init : Worker E) = w₀ at h
  induction h with
  | nil =>
    subst hw
    rfl
  | snoc hrun hstep ih =>
    have hc := (hrun.cacheOk (hw ▸ cacheOk_init)).1
    rw [Ledger.ofTrace_snoc,Ledger.labelled_after,executeStep_labels hc hstep,ih]
    split
    · rfl
    · rw [Ledger.modality_embedded]

theorem Run.initial {pre post : List (Taken encode)}
    (h : Run encode model sameFields w (pre ++ post) w') : ∃ w₁, Run encode model sameFields w pre w₁ := by
  generalize ht : pre ++ post = trace at h
  induction h generalizing post with
  | nil =>
    obtain ⟨rfl,rfl⟩ := List.append_eq_nil_iff.mp ht
    exact ⟨_,.nil _⟩
  | snoc hrun hstep ih =>
    cases post using List.reverseRecOn with
    | nil =>
      rw [List.append_nil] at ht
      subst ht
      exact ⟨_,hrun.snoc hstep⟩
    | append_singleton post t =>
      rw [← List.append_assoc] at ht
      exact ih (List.append_inj' ht rfl).1

/-- No label is stale in any state of a run exactly if no step outside the merge by modality
completes a labelled item. -/
theorem noStaleLabels_iff (h : Run encode model sameFields .init trace w) :
    (∀ pre post w', trace = pre ++ post → Run encode model sameFields .init pre w' →
      (Ledger.ofTrace model pre).NoStale w') ↔
    ∀ pre t post, trace = pre ++ t :: post → (Ledger.ofTrace model pre).Keeps model t.step := by
  constructor
  · intro hall pre t post ht
    have ht' : trace = (pre ++ [t]) ++ post := by rw [ht,List.append_assoc]; rfl
    obtain ⟨w₁,hrun⟩ := (ht' ▸ h).initial
    have hstale := hall _ _ _ ht' hrun
    rw [Ledger.keeps_iff,← Ledger.ofTrace_snoc]
    exact hstale.missing
  · intro hall pre post w' ht hrun
    refine .of_missing hrun.labels ?_
    cases pre using List.reverseRecOn with
    | nil =>
      intro e he
      cases he
    | append_singleton pre t =>
      rw [Ledger.ofTrace_snoc,← Ledger.keeps_iff]
      exact hall pre t post (by rw [ht,List.append_assoc]; rfl)

end Runs

/-- After the film alone the labels are gone. -/
theorem film_noStale : ∃ t : Taken exampleRows,
    Run exampleRows exampleModel (fun _ _ => true) .init [t] t.after ∧
      (Ledger.ofTrace exampleModel [t]).NoStale t.after := by
  obtain ⟨w,hw⟩ := filmStep_run
  have hrun : Run exampleRows exampleModel (fun _ _ => true) .init [⟨.init,filmStep,_,w⟩] w :=
    .snoc (.nil _) hw
  have hboth : (filmStep.mergeArgs exampleModel).bothPresent := by decide +kernel
  refine ⟨_,hrun,(noStaleLabels_iff hrun).mpr ?_ _ [] w rfl hrun⟩
  intro pre t post ht
  have hstep : t.step ∈ [filmStep] := by
    have hmem : t.step ∈ (pre ++ t :: post).map (·.step) := by simp
    rwa [← ht] at hmem
  rw [List.mem_singleton.mp hstep]
  exact .inl hboth

/-- The speech is merged completely, and its label stays. -/
theorem speech_stale : ∃ t : Taken exampleRows,
    Run exampleRows exampleModel (fun _ _ => true) .init [t] t.after ∧
      ¬ (Ledger.ofTrace exampleModel [t]).NoStale t.after := by
  have h : (do
      let r ← executeStep exampleModel (fun _ _ => true) .init speechStep
      pure (r.1,r.2.labels) : Py (List Nat × Labels)) = .ok ([9],some [.audio]) := by decide +kernel
  obtain ⟨⟨out,w⟩,hr,h⟩ := bind_eq_ok.mp h
  have hout := Except.ok.inj h
  have hrun : Run exampleRows exampleModel (fun _ _ => true) .init [⟨.init,speechStep,out,w⟩] w :=
    .snoc (.nil _) hr
  refine ⟨_,hrun,fun hstale => ?_⟩
  have hmerged : ((⟨[],[]⟩ : Ledger).after exampleModel speechStep).unmerged.length = 0 := by
    decide +kernel
  have hlen := hstale.length
  rw [(Prod.mk.inj hout).2] at hlen
  exact absurd (hlen.trans hmerged.le) (by decide)

end TLiveOmni.Vllm
