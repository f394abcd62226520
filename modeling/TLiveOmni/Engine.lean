import Mathlib.Data.List.SplitBy
import TLiveOmni.Gather

/-! An engine step: the worker encodes the items the scheduler asks for, gathers the chunks of
the batch from its cache, and embeds the scheduled tokens. -/
set_option autoImplicit false

namespace TLiveOmni.Vllm
open PySeq Assign Scatter

namespace MergeArgs
variable {E : Type} (a : MergeArgs E)

/-- `_merge_multimodal_embeddings`: rows that are left over are dropped. -/
def mergeMultimodalEmbeddings : Py (List E) := do
  let mmEmbedsFlat := a.multimodalEmbeddings.flatten
  let expr := " + ".intercalate (a.sizes.map toString)
  let expected := a.isMultimodal.count true
  raiseIf (mmEmbedsFlat.length < expected) (.raised .valueError
    (s!"Attempted to assign {expr} = {mmEmbedsFlat.length} " ++
      s!"multimodal tokens to {expected} placeholders"))
  pure (scatter a.isMultimodal mmEmbedsFlat a.inputsEmbeds)

/-- `is_video.any() and is_audio.any()`. -/
def bothPresent : Bool := decide (0 < a.tokenCounts .video) && decide (0 < a.tokenCounts .audio)

end MergeArgs

/-- The language model's token embedding, and whether a media token is outside its vocabulary. -/
structure Model (E : Type) where
  hasOovMmTokens : Bool
  embedTokens : Token → E

namespace Model
variable {E : Type} (model : Model E)

/-- `_embed_text_input_ids`: masked ids become id zero if some are out of the vocabulary. -/
def embedTextInputIds (inputIds : List Token) : Option (List Bool) → List E
  | none => inputIds.map model.embedTokens
  | some isMultimodal =>
    if model.hasOovMmTokens then
      (List.zipWith (fun t b => if b then .text 0 else t) inputIds isMultimodal).map model.embedTokens
    else inputIds.map model.embedTokens

theorem length_embedTextInputIds {inputIds : List Token} {isMultimodal : List Bool}
    (h : isMultimodal.length = inputIds.length) :
    (model.embedTextInputIds inputIds (some isMultimodal)).length = inputIds.length := by
  rw [embedTextInputIds]
  split
  · simp [h]
  · simp

/-- The arguments `embed_input_ids` passes on. -/
def mergeArgs (inputIds : List Token) (multimodalEmbeddings : List (List E))
    (isMultimodal : List Bool) (h : isMultimodal.length = inputIds.length) : MergeArgs E :=
  ⟨model.embedTextInputIds inputIds (some isMultimodal),inputIds,multimodalEmbeddings,isMultimodal,
    model.length_embedTextInputIds h,h⟩

/-- `embed_input_ids`; the labels are only read on the way by modality. -/
def embedInputIds (labels : Labels) (inputIds : List Token) (multimodalEmbeddings : List (List E))
    (isMultimodal : Option (List Bool)) : Py (List E × Labels) :=
  match multimodalEmbeddings,isMultimodal with
  | [],_ => .ok (model.embedTextInputIds inputIds isMultimodal,labels)
  | _ :: _,none => .error (.raised .valueError
      ("`embed_input_ids` now requires `is_multimodal` arg, please update your model runner " ++
        "according to https://github.com/vllm-project/vllm/pull/16229."))
  | chunk :: chunks,some isMultimodal =>
    if h : isMultimodal.length = inputIds.length then
      let a := model.mergeArgs inputIds (chunk :: chunks) isMultimodal h
      if a.bothPresent then a.mergeEmbeddingsByModality labels
      else do
        let merged ← a.mergeMultimodalEmbeddings
        pure (merged,labels)
    else .error (.builtin .runtimeError)

end Model

section Encoder
variable {E : Type} (encode : String → List E) (sameFields : Feature → Feature → Bool)

/-- `group_and_batch_mm_kwargs`: neighbours of one modality with the same fields. -/
def groupAndBatchMmKwargs (items : List Feature) : List (List Feature) :=
  items.splitBy fun f g => decide (f.modality = g.modality) && sameFields f g

/-- The parsed inputs of a batch: its modality, and the rows the tower computes for each item. -/
def batchInputs (batch : List Feature) : List (Modality × List (List E)) :=
  batch.head?.toList.map fun f => (f.modality,batch.map fun g => encode g.identifier)

/-- The encoder loop of `_execute_mm_encoder`. -/
def encodeBatches (labels : Labels) (batches : List (List Feature)) : List (List E) × Labels :=
  batches.foldl (fun acc batch =>
    let r := embedMultimodal acc.2 (batchInputs encode batch)
    (acc.1 ++ r.1,r.2)) ([],labels)

end Encoder

/-- What the worker keeps between steps. -/
structure Worker (E : Type) where
  labels : Labels
  encoderCache : String → Option (List E)

/-- Before the first step. -/
def Worker.init {E : Type} : Worker E := ⟨none,fun _ => none⟩

/-- A request of the batch with its share of the step: the features are sorted by offset, those
of one modality do not overlap, their places hold the tokens of their modality, and the encoder
has a row for each of them. -/
structure Request {E : Type} (encode : String → List E) where
  tokens : List Token
  features : List Feature
  numComputedTokens : Nat
  numScheduledTokens : Nat
  within : numComputedTokens+numScheduledTokens ≤ tokens.length
  sorted : features.Pairwise fun f g => f.offset ≤ g.offset
  apart : features.Pairwise fun f g => f.modality = g.modality → f.offset+f.length ≤ g.offset
  own : ∀ f ∈ features, ∀ i, f.embedsAt i → tokens[i]? = some f.modality.pad
  rows : ∀ f ∈ features, f.mask.count true ≤ (encode f.identifier).length

/-- What the scheduler asks of a step. -/
structure Step {E : Type} (encode : String → List E) where
  freeEncoderMmHashes : List String
  scheduledEncoderInputs : List Feature
  batch : List (Request encode)

section Execute
variable {E : Type} {encode : String → List E} (model : Model E)
  (sameFields : Feature → Feature → Bool)

/-- The ids of the tokens the request is scheduled for. -/
def Request.inputIds (r : Request encode) : List Token :=
  (r.tokens.drop r.numComputedTokens).take r.numScheduledTokens

/-- `_execute_mm_encoder`, with the outputs stored by identifier. -/
def executeMmEncoder (encode : String → List E) (w : Worker E) (items : List Feature) : Worker E :=
  let r := encodeBatches encode w.labels (groupAndBatchMmKwargs sameFields items)
  ⟨r.2,(items.zip r.1).foldl (fun cache x => Function.update cache x.1.identifier (some x.2))
    w.encoderCache⟩

/-- `_gather_mm_embeddings`. -/
def gatherMmEmbeddings (encoderCache : String → Option (List E)) (batch : List (Request encode)) :
    Py (List (List E) × List Bool) := do
  let parts ← batch.mapM fun r => gatherFeatures encoderCache r.numComputedTokens
    r.numScheduledTokens r.features ([],List.replicate r.numScheduledTokens false)
  pure (parts.flatMap (·.1),parts.flatMap (·.2))

/-- One step of the worker: its embeddings and what it keeps. -/
def executeStep (w : Worker E) (s : Step encode) : Py (List E × Worker E) := do
  let encoderCache := s.freeEncoderMmHashes.foldl (fun cache h => Function.update cache h none)
    w.encoderCache
  let w := executeMmEncoder sameFields encode ⟨w.labels,encoderCache⟩ s.scheduledEncoderInputs
  let (mmEmbeds,isMmEmbed) ← gatherMmEmbeddings w.encoderCache s.batch
  let (inputsEmbeds,labels) ← model.embedInputIds w.labels (s.batch.flatMap Request.inputIds)
    mmEmbeds (some isMmEmbed)
  pure (inputsEmbeds,⟨labels,w.encoderCache⟩)

end Execute
end TLiveOmni.Vllm
