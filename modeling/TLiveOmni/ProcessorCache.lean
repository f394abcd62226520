import TLiveOmni.Lib.Memo
import TLiveOmni.Mismatch
import TLiveOmni.PromptUpdates
import TLiveOmni.AudioFeatures

/-! The vLLM processor with and without its cache, for requests with `use_audio_in_video`: the
missing items alone go through the HF processor, and their prompt updates are merged with the
cached ones. -/
set_option autoImplicit false

namespace TLiveOmni.Vllm
open PySeq Words

/-- A video as the video processor of the HF library returns it. -/
structure VideoInput where
  gridThw : Thw
  secondPerGrid : ℚ
  metadata : VideoMetadata
  timed : 0 < gridThw.t
  rated : metadata.fps ≠ 0

/-- The processor around the cache: the sizes of its configuration, and what the processors of
the HF library return for an item of type `ι` under keyword arguments of type `κ`. -/
structure Front (κ ι : Type) where
  tk : TokenizerLike
  mergeSize : Nat
  temporalPatchSize : Nat
  positionIdPerSeconds : Nat
  audioConfig : κ → AudioConfig
  audioSamples : ι → Nat
  /-- `feature_attention_mask.sum(-1)` of the padded audio. -/
  maskSum : κ → ι → Nat
  image : κ → ι → Thw
  video : κ → ι → VideoInput
  returnMetadata : κ → Bool
  kwVideoMetadata : κ → Option (List KwMetadata)
  audioText : ι → String
  /-- `MultiModalProcessorSenderCache` instead of `MultiModalProcessorOnlyCache`. -/
  sender : Bool

inductive PromptInput where
  | text (text : List Char)
  | tokens (ids : List Token)

/-- The items of a request or a part of them. -/
structure Items (ι : Type) where
  audios : List ι
  images : List ι
  videos : List ι

def Items.of {ι : Type} (x : Items ι) : Modality → List ι
  | .audio => x.audios
  | .image => x.images
  | .video => x.videos

def Items.counts {ι : Type} (x : Items ι) (m : Modality) : Nat := (x.of m).length

/-- A request with `use_audio_in_video`: each video comes with its audio. -/
structure AvRequest (κ ι : Type) where
  prompt : PromptInput
  kwargs : κ
  images : List ι
  pairs : List (ι × ι)

def AvRequest.items {κ ι : Type} (r : AvRequest κ ι) : Items ι :=
  ⟨r.pairs.map Prod.snd,r.images,r.pairs.map Prod.fst⟩

/-- What `str.strip` removes. -/
def isSpace (c : Char) : Bool :=
  let n := c.toNat
  decide (9 ≤ n ∧ n ≤ 13 ∨ 28 ≤ n ∧ n ≤ 32 ∨ n = 133 ∨ n = 160 ∨ n = 5760 ∨
    8192 ≤ n ∧ n ≤ 8202 ∨ n = 8232 ∨ n = 8233 ∨ n = 8239 ∨ n = 8287 ∨ n = 12288)

def strip (s : List Char) : List Char :=
  ((s.dropWhile isSpace).reverse.dropWhile isSpace).reverse

/-- `is_mm_only_prompt`. -/
def isMmOnlyPrompt (text : List Char) : Bool :=
  let stripped := strip text
  let tmp := [Word.audioStart,.audioPad,.audioEnd,.visionStart,.imagePad,.videoPad,.visionEnd].foldl
    (fun tmp w => replaceAll w.spell [] tmp) stripped
  !stripped.isEmpty && tmp.isEmpty

/-- A prompt of media tokens alone loses its audio tokens, if it has a video. -/
def withoutAudio (prompt : List Char) : List Char :=
  if isIn (Word.spell .videoPad) prompt && isMmOnlyPrompt prompt then
    replaceAll (Word.spell .audioPad) [] (replaceAll
      (Word.spell .audioStart ++ (Word.spell .audioPad ++ Word.spell .audioEnd)) [] prompt)
  else prompt

/-- `get_dummy_text`. -/
def getDummyText (mmCounts : Modality → Nat) : List Char :=
  repeated .audioPad (mmCounts .audio) ++ (repeated .imagePad (mmCounts .image) ++
    repeated .videoPad (mmCounts .video))

namespace Front
variable {κ ι : Type} (F : Front κ ι) (kw : κ) (x : Items ι)

/-- `_get_feat_extract_output_lengths` of `audio_feature_lengths`. -/
def audioTokens (a : ι) : Nat :=
  (getFeatExtractOutputLengths (numFrame (F.audioConfig kw) (F.audioSamples a))).toNat

def writerArgs : WriterArgs where
  mergeSize := F.mergeSize
  temporalPatchSize := F.temporalPatchSize
  audioLengths := x.audios.map fun a => (getFeatExtractOutputLengths (F.maskSum kw a)).toNat
  imageGridThw := x.images.map (F.image kw)
  videoGridThw := x.videos.map fun v => (F.video kw v).gridThw
  videoSecondPerGrid := x.videos.map fun v => (F.video kw v).secondPerGrid
  useAudioInVideo := true
  positionIdPerSeconds := F.positionIdPerSeconds
  videoMetadatas := some (x.videos.map fun v => (F.video kw v).metadata)

/-- `TLiveOmniProcessor.__call__` behind `_call_hf_processor`: the expanded prompt. -/
def callHf (prompt : List Char) : Py (List Char) := do
  raiseIf (x.videos ≠ [] ∧ x.audios = []) (.raised .valueError
    ("use_audio_in_video=True requires an audio input for each video. " ++
      "apply_chat_template(tokenize=True, use_audio_in_video=True) loads video audio " ++
      "automatically."))
  let text ← replaceMultimodalSpecialTokens (F.writerArgs kw x) F.tk.toTokenizer
    [withoutAudio prompt]
  pure text.flatten

/-- `_apply_hf_processor_text_only`: no media and no keyword arguments. -/
def applyHfProcessorTextOnly (prompt : List Char) : Py (List Token) := do
  let text ← replaceMultimodalSpecialTokens ⟨F.mergeSize,F.temporalPatchSize,[],[],[],[],false,
    F.positionIdPerSeconds,none⟩ F.tk.toTokenizer [prompt]
  pure (F.tk.encode text.flatten)

/-- `_apply_hf_processor_mm_only`: the text is made up and its tokens are not used. -/
def applyHfProcessorMmOnly : Py Unit := do
  let _ ← F.callHf kw x (getDummyText x.counts)
  pure ()

/-- What `_get_prompt_updates` reads of the processed items. The timestamps are those of
`_call_hf_processor`, which needs the metadata for them. -/
def updateArgs : Py UpdateArgs := do
  let timestamps ← x.videos.mapM fun v => calculateTimestamps
    (F.video kw v).metadata.framesIndices (F.video kw v).metadata.fps F.temporalPatchSize
  pure {
    audioFeatureLengths := x.audios.map fun a => numFrame (F.audioConfig kw) (F.audioSamples a)
    imageGridThw := x.images.map (F.image kw)
    videoGridThw := x.videos.map fun v => (F.video kw v).gridThw
    secondPerGridTs := some (x.videos.map fun v => (F.video kw v).secondPerGrid)
    timestamps := if F.returnMetadata kw then some timestamps else none
    useAudioInVideo := true
    kwSecondPerGridTs := none
    kwVideoMetadata := F.kwVideoMetadata kw
    mergeSize := F.mergeSize
    temporalPatchSize := F.temporalPatchSize
    positionIdPerSeconds := F.positionIdPerSeconds
    audioText := fun i => (x.audios[i]?.map F.audioText).getD "" }

def mmPromptUpdates : Py Updates := do
  let d ← F.updateArgs kw x
  getMmPromptUpdates F.tk d x.counts

/-- `_apply_hf_processor_main` with `enable_hf_prompt_update=True`: the prompt, and whether it
has been expanded. -/
def applyHfProcessorMain : PromptInput → Py (List Token × Bool)
  | .text text => do
      let text ← F.callHf kw x text
      pure (F.tk.encode text,true)
  | .tokens ids => do
      F.applyHfProcessorMmOnly kw x
      pure (ids,false)

/-- `_apply_hf_processor_main` with `enable_hf_prompt_update=False`. -/
def applyHfProcessorApart : PromptInput → Py (List Token)
  | .text text => do
      let ids ← F.applyHfProcessorTextOnly text
      F.applyHfProcessorMmOnly kw x
      pure ids
  | .tokens ids => do
      F.applyHfProcessorMmOnly kw x
      pure ids

/-- `apply` without a cache. -/
def apply (r : AvRequest κ ι) : Py (List Token × Placeholders) := do
  let (promptIds,isUpdateApplied) ← F.applyHfProcessorMain r.kwargs r.items r.prompt
  let updates ← F.mmPromptUpdates r.kwargs r.items
  maybeApplyPromptUpdates r.items.counts F.tk promptIds
    ⟨r.items.audios.length,r.items.images.length,r.items.videos.map fun _ => some true⟩
    updates isUpdateApplied

end Front

/-- The hash of an item identifies its data and the keyword arguments. -/
structure Key (κ ι : Type) where
  modality : Modality
  kwargs : κ
  item : ι
  deriving DecidableEq

/-- `MultiModalProcessorCacheItem`: of the item only the flag that videos have is kept. -/
structure CacheItem where
  useAudioInVideo : Bool
  promptUpdate : Update
  deriving DecidableEq

section Cached
variable {κ ι : Type} [DecidableEq κ] [DecidableEq ι] (F : Front κ ι)

abbrev Cache (κ ι : Type) := Memo.Store (Key κ ι) CacheItem

/-- `get_and_update_item`. The sender cache does not return the item again. -/
def getAndUpdateItem (c : Cache κ ι) (mmItem : Option CacheItem) (mmHash : Key κ ι) :
    Py ((Option Bool × Update) × Cache κ ι) :=
  match c mmHash with
  | some cached =>
      .ok ((if F.sender then none else some cached.useAudioInVideo,cached.promptUpdate),c)
  | none => match mmItem with
    | none => .error (.raised .assertionError "Expected a cached item for mm_hash")
    | some item =>
        .ok ((some item.useAudioInVideo,item.promptUpdate),Memo.put c mmHash item)

/-- The loop of `_merge_mm_kwargs` over the hashes of one modality, each with its entry of
`mm_is_cached`; `missing` are the items that were processed. -/
def mergeItems : (itemIdx : Nat) → List (Key κ ι × Bool) → (missing : List CacheItem) → Cache κ ι →
    Py (List (Option Bool × Update) × Cache κ ι)
  | _, [], _, c => pure ([],c)
  | itemIdx, (mmHash,isCached) :: hashes, missing, c => do
      let item ← if isCached then pure none else some <$> getItem missing 0
      let ((kwargs,update),c) ← getAndUpdateItem F c item mmHash
      let (rest,c) ← mergeItems (itemIdx+1) hashes (if isCached then missing else missing.tail) c
      pure ((kwargs,{ update with itemIdx := itemIdx }) :: rest,c)

/-- The hashes of the items of one modality. -/
def AvRequest.hashes (r : AvRequest κ ι) (m : Modality) : List (Key κ ι) :=
  (r.items.of m).map fun item => ⟨m,r.kwargs,item⟩

/-- `_get_cache_missing_items`. -/
def getCacheMissingItems (c : Cache κ ι) (r : AvRequest κ ι) : Items ι :=
  let missing (m : Modality) := (r.items.of m).filter fun item => (c ⟨m,r.kwargs,item⟩).isNone
  ⟨missing .audio,missing .image,missing .video⟩

/-- The processed items of one modality, with their updates. -/
def processed (m : Modality) (updates : Updates) : List CacheItem :=
  ((updates.lookup m).getD []).map fun u => ⟨true,u⟩

/-- `_merge_mm_kwargs`. -/
def mergeMmKwargs (c : Cache κ ι) (r : AvRequest κ ι) (updates : Updates) :
    Py (MmKwargs × Updates × Cache κ ι) := do
  let hashes (m : Modality) := (r.hashes m).map fun k => (k,(c k).isSome)
  let (audios,c₁) ← mergeItems F 0 (hashes .audio) (processed .audio updates) c
  let (images,c₂) ← mergeItems F 0 (hashes .image) (processed .image updates) c₁
  let (videos,c₃) ← mergeItems F 0 (hashes .video) (processed .video updates) c₂
  pure (⟨audios.length,images.length,videos.map Prod.fst⟩,
    [(.audio,audios.map Prod.snd),(.image,images.map Prod.snd),(.video,videos.map Prod.snd)],c₃)

/-- `_cached_apply_hf_processor`. -/
def cachedApplyHfProcessor (c : Cache κ ι) (r : AvRequest κ ι) :
    Py (List Token × MmKwargs × Updates × Cache κ ι) := do
  let missing := getCacheMissingItems c r
  let promptIds ← F.applyHfProcessorApart r.kwargs missing r.prompt
  let updates ← F.mmPromptUpdates r.kwargs missing
  let (mmKwargs,updates,c) ← mergeMmKwargs F c r updates
  pure (promptIds,mmKwargs,updates,c)

/-- `apply` with a cache: the reply and the cache behind it. -/
def cachedApply (c : Cache κ ι) (r : AvRequest κ ι) :
    Py (List Token × Placeholders) × Cache κ ι :=
  match cachedApplyHfProcessor F c r with
  | .error e => (.error e,c)
  | .ok (promptIds,mmKwargs,updates,c) =>
      (maybeApplyPromptUpdates r.items.counts F.tk promptIds mmKwargs updates false,c)

/-- What happens to a cache. -/
inductive CacheEvent (κ ι : Type) where
  | request (r : AvRequest κ ι)
  | evict (mmHash : Key κ ι)

def CacheEvent.after (c : Cache κ ι) : CacheEvent κ ι → Cache κ ι
  | .request r => (cachedApply F c r).2
  | .evict mmHash => Memo.evict c mmHash

/-- The cache behind a run. -/
def cacheAfter (run : List (CacheEvent κ ι)) : Cache κ ι := run.foldl (CacheEvent.after F) Memo.empty

end Cached
end TLiveOmni.Vllm
