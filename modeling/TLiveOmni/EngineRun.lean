import TLiveOmni.BatchPlaces
import TLiveOmni.MergeOutcome

/-! Runs of the engine. The cache only ever holds the encoder's own outputs, so each step
merges the chunks of its batch; whether by their true modalities depends on the labels. -/
set_option autoImplicit false

namespace TLiveOmni.Vllm
open PySeq Assign Scatter

variable {E : Type} {encode : String → List E}

/-- The labels after the items of a step are encoded. -/
def recordLabels (labels : Labels) (items : List Feature) : Labels :=
  if items = [] then labels else some (labels.getD [] ++ items.map Feature.modality)

section Encoder
variable {sameFields : Feature → Feature → Bool}

/-- A batch of one modality adds its label once for each item. -/
theorem embedMultimodal_batch {batch : List Feature} (hne : batch ≠ []) {m : Modality}
    (hm : ∀ f ∈ batch, f.modality = m) (labels : Labels) :
    embedMultimodal labels (batchInputs encode batch) =
      (batch.map fun f => encode f.identifier,some (labels.getD [] ++ batch.map Feature.modality)) := by
  cases batch with
  | nil => exact absurd rfl hne
  | cons f batch =>
    have hmap : (f :: batch).map Feature.modality = List.replicate (f :: batch).length f.modality := by
      rw [List.eq_replicate_iff]
      refine ⟨by simp,fun b hb => ?_⟩
      obtain ⟨g,hg,rfl⟩ := List.mem_map.mp hb
      rw [hm g hg,hm f (by simp)]
    rw [hmap]
    simp [embedMultimodal,batchInputs]

theorem encodeBatches_eq (batches : List (List Feature)) (outs : List (List E)) (labels : Labels)
    (hne : ∀ b ∈ batches, b ≠ []) (hm : ∀ b ∈ batches, ∃ m : Modality, ∀ f ∈ b, f.modality = m) :
    batches.foldl (fun acc batch =>
      let r := embedMultimodal acc.2 (batchInputs encode batch)
      (acc.1 ++ r.1,r.2)) (outs,labels) =
    (outs ++ batches.flatten.map fun f => encode f.identifier,recordLabels labels batches.flatten) := by
  induction batches generalizing outs labels with
  | nil => simp [recordLabels]
  | cons b batches ih =>
    obtain ⟨m,hb⟩ := hm b (by simp)
    have hbne := hne b (by simp)
    rw [List.foldl_cons,embedMultimodal_batch hbne hb,
      ih _ _ (fun b' hb' => hne b' (by simp [hb'])) (fun b' hb' => hm b' (by simp [hb']))]
    simp only [recordLabels,List.flatten_cons,List.map_append,List.append_assoc,List.append_eq_nil_iff,
      hbne,false_and,if_false,Option.getD_some]
    split
    · rename_i hnil
      simp [hnil]
    · rfl

theorem groupAndBatch_modality {items : List Feature} {b : List Feature}
    (hb : b ∈ groupAndBatchMmKwargs sameFields items) : ∃ m : Modality, ∀ f ∈ b, f.modality = m := by
  let Same (f g : Feature) : Prop := f.modality = g.modality
  have htrans : Trans Same Same Same := ⟨Eq.trans⟩
  have hchain : b.IsChain Same := by
    refine (List.isChain_of_mem_splitBy hb).imp ?_
    intro f g h
    exact of_decide_eq_true (Bool.and_eq_true _ _ ▸ h).1
  cases b with
  | nil => exact ⟨.image,by simp⟩
  | cons f b =>
    have hall := (List.pairwise_cons.mp (List.isChain_iff_pairwise.mp hchain)).1
    refine ⟨f.modality,fun g hg => ?_⟩
    rcases List.mem_cons.mp hg with rfl | hg
    · rfl
    · exact (hall g hg).symm

theorem encodeBatches_group (labels : Labels) (items : List Feature) :
    encodeBatches encode labels (groupAndBatchMmKwargs sameFields items) =
      (items.map fun f => encode f.identifier,recordLabels labels items) := by
  have h := @encodeBatches_eq E encode (groupAndBatchMmKwargs sameFields items) [] labels
    (fun b hb => List.ne_nil_of_mem_splitBy hb) (fun b hb => groupAndBatch_modality hb)
  rw [groupAndBatchMmKwargs,List.flatten_splitBy] at h
  exact h

end Encoder

/-- The cache holds nothing but encoder outputs. -/
def CacheOk (encode : String → List E) (cache : String → Option (List E)) : Prop :=
  ∀ h v, cache h = some v → v = encode h

namespace CacheOk
variable {cache : String → Option (List E)}

theorem getD (hc : CacheOk encode cache) {h : String} (hs : (cache h).isSome) :
    (cache h).getD [] = encode h := by
  obtain ⟨v,hv⟩ := Option.isSome_iff_exists.mp hs
  rw [hv,Option.getD_some,hc h v hv]

theorem update (hc : CacheOk encode cache) (h : String) {o : Option (List E)}
    (ho : ∀ v, o = some v → v = encode h) : CacheOk encode (Function.update cache h o) := by
  intro h' v hv
  by_cases he : h' = h
  · subst he
    rw [Function.update_self] at hv
    exact ho v hv
  · rw [Function.update_of_ne he] at hv
    exact hc h' v hv

theorem free (hc : CacheOk encode cache) (hashes : List String) :
    CacheOk encode (hashes.foldl (fun cache h => Function.update cache h none) cache) := by
  induction hashes generalizing cache with
  | nil => exact hc
  | cons h hashes ih => exact ih (hc.update h (by simp))

theorem store (hc : CacheOk encode cache) (items : List Feature) :
    CacheOk encode ((items.zip (items.map fun f => encode f.identifier)).foldl
      (fun cache x => Function.update cache x.1.identifier (some x.2)) cache) := by
  induction items generalizing cache with
  | nil => exact hc
  | cons f items ih => exact ih (hc.update f.identifier (by simp [eq_comm]))

end CacheOk

section Gathering
variable {cache : String → Option (List E)}

/-- From a cache of encoder outputs the batch gets its chunks and its mask. -/
theorem gatherMmEmbeddings_eq (hc : CacheOk encode cache) (st : Step encode)
    {r : List (List E) × List Bool} (h : gatherMmEmbeddings cache st.batch = .ok r) :
    r = (st.chunks,st.slots.map fun s => s.owner.isSome) := by
  obtain ⟨parts,hparts,h⟩ := bind_eq_ok.mp h
  cases h
  have hmap : parts = st.batch.map fun r => (r.touched.map r.chunk,
      r.window.map fun i => (r.owner i).isSome) := by
    apply mapM_eq_map hparts
    intro r _ part hpart
    have hinit : List.replicate r.numScheduledTokens false =
        (List.range' r.numComputedTokens r.numScheduledTokens).map fun _ => false := by
      simp [List.map_const']
    rw [hinit] at hpart
    have hg := gatherFeatures_gathered r.sorted hpart
    refine Prod.ext ?_ ?_
    · rw [hg.chunks,List.nil_append]
      apply List.map_congr_left
      intro f hf
      obtain ⟨hmem,htouch⟩ := List.mem_filter.mp hf
      rw [hc.getD (hg.cached f hmem htouch)]
      rfl
    · simp only [hg.mask,Request.isSome_owner,Bool.false_or]
      rfl
  subst hmap
  simp only [List.flatMap_map,Step.chunks,Step.gathered,Step.slots,List.map_flatMap,List.map_map]
  rfl

theorem embedTextInputIds_slots (model : Model E) (st : Step encode) :
    model.embedTextInputIds (st.slots.map Slot.token) (some (st.slots.map fun s => s.owner.isSome)) =
      st.slots.map (Slot.text model) := by
  rw [Model.embedTextInputIds,List.zipWith_map]
  split
  · rename_i hoov
    simp [Slot.text,hoov,Function.comp_def]
  · rename_i hoov
    simp [Slot.text,hoov,Function.comp_def]

end Gathering

theorem Step.chunks_ne_nil {model : Model E} (st : Step encode)
    (h : (st.mergeArgs model).bothPresent) : st.chunks ≠ [] := by
  intro hnil
  have hfit := st.fits_trueModalities model
  have hsizes : (st.mergeArgs model).sizes = [] := by simp [MergeArgs.sizes,mergeArgs,hnil]
  simp only [MergeArgs.bothPresent,Bool.and_eq_true,decide_eq_true_eq] at h
  rw [← hfit.total,hsizes,total,List.zip_nil_right] at h
  exact absurd h.1 (lt_irrefl 0)

/-- The labels when the tokens of a step are embedded. -/
def Worker.labelsAt (w : Worker E) (st : Step encode) : Labels :=
  recordLabels w.labels st.scheduledEncoderInputs

section Steps
variable {model : Model E} {sameFields : Feature → Feature → Bool} {w w' : Worker E}
  {st : Step encode} {out : List E}

/-- What a step does: plain text, the merge by modality, or the merge in order. Only the merge
by modality touches the labels. -/
theorem executeStep_cases (hc : CacheOk encode w.encoderCache)
    (h : executeStep model sameFields w st = .ok (out,w')) :
    CacheOk encode w'.encoderCache ∧
    ((st.chunks = [] ∧ out = st.slots.map (Slot.text model) ∧ w'.labels = w.labelsAt st) ∨
      (st.chunks ≠ [] ∧ (st.mergeArgs model).bothPresent ∧
        (st.mergeArgs model).mergeEmbeddingsByModality (w.labelsAt st) = .ok (out,w'.labels)) ∨
      (st.chunks ≠ [] ∧ ¬ (st.mergeArgs model).bothPresent ∧
        (st.mergeArgs model).mergeMultimodalEmbeddings = .ok out ∧ w'.labels = w.labelsAt st)) := by
  simp only [executeStep,executeMmEncoder,encodeBatches_group] at h
  have hcache := (hc.free st.freeEncoderMmHashes).store st.scheduledEncoderInputs
  obtain ⟨gathered,hg,h⟩ := bind_eq_ok.mp h
  rw [gatherMmEmbeddings_eq hcache st hg] at h
  obtain ⟨embedded,he,h⟩ := bind_eq_ok.mp h
  cases h
  refine ⟨hcache,?_⟩
  simp only [st.inputIds_eq] at he
  cases hch : st.chunks with
  | nil =>
    rw [hch,Model.embedInputIds,embedTextInputIds_slots] at he
    cases he
    exact .inl ⟨rfl,rfl,rfl⟩
  | cons chunk chunks =>
    rw [hch,Model.embedInputIds,dif_pos (by simp)] at he
    have hargs : model.mergeArgs (st.slots.map Slot.token) (chunk :: chunks)
        (st.slots.map fun s => s.owner.isSome) (by simp) = st.mergeArgs model := by
      simp only [Model.mergeArgs,Step.mergeArgs,embedTextInputIds_slots,hch]
    simp only [hargs] at he
    split at he
    · rename_i hboth
      exact .inr (.inl ⟨by simp,hboth,he⟩)
    · rename_i hboth
      obtain ⟨merged,hm,he⟩ := bind_eq_ok.mp he
      cases he
      exact .inr (.inr ⟨by simp,hboth,hm,rfl⟩)

end Steps
/-- A step of a run, with the worker before and after it. -/
structure Taken (encode : String → List E) where
  before : Worker E
  step : Step encode
  out : List E
  after : Worker E

/-- A run of the engine: the steps that were taken without an exception. -/
inductive Run (encode : String → List E) (model : Model E) (sameFields : Feature → Feature → Bool) :
    Worker E → List (Taken encode) → Worker E → Prop where
  | nil (w : Worker E) : Run encode model sameFields w [] w
  | snoc {w w' w'' : Worker E} {trace : List (Taken encode)} {st : Step encode} {out : List E} :
      Run encode model sameFields w trace w' →
      executeStep model sameFields w' st = .ok (out,w'') →
      Run encode model sameFields w (trace ++ [⟨w',st,out,w''⟩]) w''

section Runs
variable {model : Model E} {sameFields : Feature → Feature → Bool} {w w' : Worker E}
  {trace : List (Taken encode)}

theorem Run.cacheOk (h : Run encode model sameFields w trace w')
    (hc : CacheOk encode w.encoderCache) :
    CacheOk encode w'.encoderCache ∧ ∀ t ∈ trace, CacheOk encode t.before.encoderCache ∧
      executeStep model sameFields t.before t.step = .ok (t.out,t.after) := by
  induction h with
  | nil => exact ⟨hc,by simp⟩
  | snoc hrun hstep ih =>
    obtain ⟨hc',hall⟩ := ih
    refine ⟨(executeStep_cases hc' hstep).1,fun t ht => ?_⟩
    rcases List.mem_append.mp ht with ht | ht
    · exact hall t ht
    · rw [List.mem_singleton.mp ht]
      exact ⟨hc',hstep⟩

theorem cacheOk_init : CacheOk encode (Worker.init : Worker E).encoderCache := by
  intro h v hv
  cases hv

/-- The labels tell the chunks apart: the first window with the right totals is the true one;
or no window has them, and then the labels are as many as the chunks (the code refuses them),
or the true modalities come before all others with the same totals. -/
def Identified (labels : Labels) (sizes : List Nat) (truth : List Modality) : Prop :=
  (∃ pre post, labels = some (pre ++ truth ++ post) ∧
    ∀ pre' w post', labels = some (pre' ++ w ++ post') →
      Fits (fun m => total m truth sizes) sizes w → pre.length ≤ pre'.length) ∨
  (¬ HasWindow (fun m => total m truth sizes) sizes labels ∧
    (Unchecked (fun m => total m truth sizes) sizes labels ∨
      ∀ c, Fits (fun m => total m truth sizes) sizes c → ¬ List.Lex Modality.Before c truth))

theorem guess_of_identified {counts : Modality → Nat} {sizes : List Nat} {truth : List Modality}
    {labels : Labels} (hfit : Fits counts sizes truth) (hpos : ∀ n ∈ sizes, 0 < n)
    (hne : sizes ≠ []) (hid : Identified labels sizes truth)
    (hguess : Fits counts sizes (guessModalities counts sizes labels)) :
    guessModalities counts sizes labels = truth := by
  have hcounts : (fun m => total m truth sizes) = counts := funext hfit.total
  rw [Identified,hcounts] at hid
  rcases guess_cases counts sizes labels with
    ⟨pre,w,post,hl,hw,hg,hfirst⟩ | ⟨hno,hun,hl⟩ | ⟨hno,hun,hg⟩
  · rcases hid with ⟨pre',post',hl',hfirst'⟩ | ⟨hno,-⟩
    · have hlen : pre.length = pre'.length :=
        le_antisymm (hfirst pre' truth post' hl' hfit) (hfirst' pre w post hl hw)
      have heq : pre ++ w ++ post = pre' ++ truth ++ post' := Option.some.inj (hl.symm.trans hl')
      rw [List.append_assoc,List.append_assoc] at heq
      have hrest := (List.append_inj heq hlen).2
      rw [hg]
      exact (List.append_inj hrest (hw.length.trans hfit.length.symm)).1
    · exact absurd ⟨pre,w,post,hl,hw⟩ hno
  · -- labels taken without a comparison never fit
    refine absurd ⟨[],_,[],?_,hguess⟩ hno
    rw [List.nil_append,List.append_nil]
    exact hl
  · rw [hg]
    rcases hid with ⟨pre,post,hl,-⟩ | ⟨-,hun' | hfirst⟩
    · exact absurd ⟨pre,truth,post,hl,hfit⟩ hno
    · exact absurd hun' hun
    · exact hfit.infer_eq hpos hfirst hne

/-- Where the labels identify the chunks of every step by modality, each row of each chunk is at
a token of its own item. -/
theorem mergedRows_own (h : Run encode model sameFields .init trace w')
    (hid : ∀ t ∈ trace, (t.step.mergeArgs model).bothPresent →
      Identified (t.before.labelsAt t.step) t.step.sizes t.step.trueModalities) :
    ∀ t ∈ trace, (t.step.mergeArgs model).bothPresent →
      (t.step.mergeArgs model).scatterByModality t.step.trueModalities = .ok t.out ∧
      t.out = t.step.slots.map (Slot.placed model) := by
  intro t ht hboth
  obtain ⟨hc,hstep⟩ := (h.cacheOk cacheOk_init).2 t ht
  have hfit := t.step.fits_trueModalities model
  have hsizes : (t.step.mergeArgs model).sizes = t.step.sizes := t.step.sizes_eq.symm
  rcases (executeStep_cases hc hstep).2 with ⟨hnil,-,-⟩ | ⟨hne,-,hm⟩ | ⟨-,hnot,-,-⟩
  · exact absurd hnil (t.step.chunks_ne_nil hboth)
  · have hne' : t.step.sizes ≠ [] := by
      rw [t.step.sizes_eq]
      simpa using hne
    have hguess := MergeArgs.fits_of_merge hm hfit.sum
    obtain ⟨-,hscatter,-⟩ := MergeArgs.merge_eq_ok.mp hm
    rw [hsizes] at hfit hguess hscatter
    rw [guess_of_identified hfit (fun n hn => t.step.sizes_pos hn) hne' (hid t ht hboth) hguess]
      at hscatter
    refine ⟨hscatter,?_⟩
    rw [t.step.scatter_trueModalities model] at hscatter
    exact (Except.ok.inj hscatter).symm
  · exact absurd hboth hnot

end Runs
section Example

/-- The rows of a speech, and of a film with its sound. -/
def exampleRows (identifier : String) : List Nat :=
  if identifier = "speech" then [9] else if identifier = "film" then [1,2]
  else if identifier = "sound" then [3,4] else []

def exampleModel : Model Nat := ⟨false,fun _ => 0⟩

def speech : Feature := ⟨.audio,"speech",0,1,none,by simp⟩

def film : Feature :=
  ⟨.video,"film",0,8,some [false,false,true,true,false,false,false,false],by simp⟩

def sound : Feature :=
  ⟨.audio,"sound",0,8,some [false,false,false,false,true,true,false,false],by simp⟩

/-- A feature keeps to its tokens if it does so within its range. -/
theorem own_of_range {f : Feature} {tokens : List Token}
    (h : ∀ i < f.offset+f.length, f.embedsAt i → tokens[i]? = some f.modality.pad) (i : Nat)
    (hi : f.embedsAt i) : tokens[i]? = some f.modality.pad :=
  h i (Feature.embedsAt_range hi).2 hi

def speechRequest : Request exampleRows where
  tokens := [.audioPad]
  features := [speech]
  numComputedTokens := 0
  numScheduledTokens := 1
  within := by decide
  sorted := by simp
  apart := by simp
  own := by
    intro f hf
    rw [List.mem_singleton.mp hf]
    exact own_of_range (by decide)
  rows := by decide

def filmRequest : Request exampleRows where
  tokens := [.visionStart,.audioStart,.videoPad,.videoPad,.audioPad,.audioPad,.audioEnd,.visionEnd]
  features := [film,sound]
  numComputedTokens := 0
  numScheduledTokens := 8
  within := by decide
  sorted := by simp [film,sound]
  apart := by simp [film,sound]
  own := by
    intro f hf
    rcases List.mem_cons.mp hf with rfl | hf
    · exact own_of_range (by decide)
    · rw [List.mem_singleton.mp hf]
      exact own_of_range (by decide)
  rows := by decide

def speechStep : Step exampleRows := ⟨[],[speech],[speechRequest]⟩

def filmStep : Step exampleRows := ⟨[],[film,sound],[filmRequest]⟩

/-- The step that embeds the film before anything else. -/
theorem filmStep_run : ∃ w, executeStep exampleModel (fun _ _ => true) .init filmStep =
    .ok ([0,0,1,2,3,4,0,0],w) := by
  have h : (do
      let r ← executeStep exampleModel (fun _ _ => true) .init filmStep
      pure r.1 : Py (List Nat)) = .ok [0,0,1,2,3,4,0,0] := by decide +kernel
  obtain ⟨⟨out,w⟩,hr,h⟩ := bind_eq_ok.mp h
  cases h
  exact ⟨w,hr⟩

/-- Film and sound alone are told apart by their own labels. -/
theorem film_rows_own : ∃ t : Taken exampleRows,
    Run exampleRows exampleModel (fun _ _ => true) .init [t] t.after ∧
      (t.step.mergeArgs exampleModel).bothPresent ∧
      t.out = t.step.slots.map (Slot.placed exampleModel) := by
  obtain ⟨w,hw⟩ := filmStep_run
  have hrun : Run exampleRows exampleModel (fun _ _ => true) .init [⟨.init,filmStep,_,w⟩] w :=
    .snoc (.nil _) hw
  have hboth : (filmStep.mergeArgs exampleModel).bothPresent := by decide +kernel
  have hlabels : (Worker.init : Worker Nat).labelsAt filmStep =
      some ([] ++ filmStep.trueModalities ++ []) := by decide +kernel
  refine ⟨_,hrun,hboth,(mergedRows_own hrun ?_ _ (by simp) hboth).2⟩
  intro t ht _
  rw [List.mem_singleton.mp ht]
  exact .inl ⟨[],[],hlabels,fun _ _ _ _ _ => Nat.zero_le _⟩

/-- A speech in an earlier step has left its label: the first window that fits is shifted by
one, and the rows of film and sound change places. -/
theorem staleLabel_swaps : ∃ (trace : List (Taken exampleRows)) (w : Worker Nat),
    Run exampleRows exampleModel (fun _ _ => true) .init trace w ∧
      ∃ t ∈ trace, (t.step.mergeArgs exampleModel).bothPresent ∧
        t.out = [0,0,3,4,1,2,0,0] ∧
        t.step.slots.map (Slot.placed exampleModel) = [0,0,1,2,3,4,0,0] := by
  have h : (do
      let r ← executeStep exampleModel (fun _ _ => true) .init speechStep
      let r' ← executeStep exampleModel (fun _ _ => true) r.2 filmStep
      pure r'.1 : Py (List Nat)) = .ok [0,0,3,4,1,2,0,0] := by decide +kernel
  obtain ⟨⟨out,w⟩,hw,h⟩ := bind_eq_ok.mp h
  obtain ⟨⟨out',w'⟩,hw',h⟩ := bind_eq_ok.mp h
  cases h
  have hboth : (filmStep.mergeArgs exampleModel).bothPresent := by decide +kernel
  have hplaced : filmStep.slots.map (Slot.placed exampleModel) = [0,0,1,2,3,4,0,0] := by
    decide +kernel
  exact ⟨_,w',.snoc (.snoc (.nil _) hw) hw',⟨w,filmStep,_,w'⟩,by simp,hboth,rfl,hplaced⟩

end Example
end TLiveOmni.Vllm
