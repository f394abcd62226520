import TLiveOmni.Processor

/-! The prompt updates of the vLLM processor: `_get_prompt_updates` builds a replacement for
every item, `_apply_matches` puts them into a token prompt, `_iter_placeholders` finds them
again, and `_maybe_apply_prompt_updates` decides which of this happens. -/
set_option autoImplicit false

namespace TLiveOmni
open PySeq Words

def Modality.word : Modality → Word
  | .image => .imagePad
  | .video => .videoPad
  | .audio => .audioPad

def Modality.name : Modality → String
  | .image => "image"
  | .video => "video"
  | .audio => "audio"

namespace Vllm

/-- The tokenizer with its decoder, which the fallback on texts needs. -/
structure TokenizerLike extends Tokenizer where
  decode : List Token → List Char

/-- A `ResolvedPromptUpdate`. All of them replace the media token of their modality;
`embedToken` is the argument of `select_token_id`, if the content was made with it. -/
structure Update where
  modality : Modality
  itemIdx : Nat
  full : List Token
  embedToken : Option Token
  deriving DecidableEq

/-- The media token that is replaced. -/
def Update.mark (u : Update) : Token := u.modality.pad

/-- `content.is_embed(tokenizer, content.full)`, or `None`. -/
def Update.isEmbed (u : Update) : Option (List Bool) :=
  u.embedToken.map fun t => u.full.map fun x => decide (x = t)

/-- `MultiModalPromptUpdates`: a dictionary in insertion order, with one update per item. -/
abbrev Updates := List (Modality × List Update)

def Updates.items (updates : Updates) : List Update := updates.flatMap (·.2)

section Match
variable {α : Type} [DecidableEq α]

/-- The first match from `startIdx` on. Empty matches are ignored. -/
def firstMatch (target prompt : List α) (startIdx : Nat) : Option Nat :=
  if target = [] then none
  else (List.range prompt.length).find? fun i =>
    decide (startIdx ≤ i) && target.isPrefixOf (prompt.drop i)

/-- The head of the matches sorted by position; the sort is stable. -/
def earliest : List (Update × Nat) → Option (Update × Nat)
  | [] => none
  | x :: xs => match earliest xs with
    | none => some x
    | some y => if x.2 ≤ y.2 then some x else some y

variable (target content : Update → List α) (prompt : List α)

/-- `_find_matches`: of all matches only the earliest one is kept, since the targets are not
empty. `pending` are the items without a result, in the order of the dictionary. -/
def findMatches (prevEndIdx : Nat) (pending : List Update) : Option (Update × Nat) :=
  earliest (pending.filterMap fun u =>
    (firstMatch (target u) prompt prevEndIdx).map fun i => (u,i))

/-- The loop of `_apply_matches`, which finds one item per round. -/
def applyFrom : Nat → Nat → List Update → List α × List Update
  | 0, prevEndIdx, pending => (prompt.drop prevEndIdx,pending)
  | n+1, prevEndIdx, pending =>
    match findMatches target prompt prevEndIdx pending with
    | none => (prompt.drop prevEndIdx,pending)
    | some (u,startIdx) =>
        let rest := applyFrom n (startIdx+(target u).length) (pending.erase u)
        ((prompt.drop prevEndIdx).take (startIdx-prevEndIdx) ++ (content u ++ rest.1),rest.2)

/-- `_apply_matches`: the new prompt and the items whose target was not found. -/
def applyMatches (pending : List Update) : List α × List Update :=
  applyFrom target content prompt pending.length 0 pending

end Match

/-- `PlaceholderFeaturesInfo`. -/
structure Placeholder where
  modality : Modality
  itemIdx : Nat
  startIdx : Nat
  tokens : List Token
  isEmbed : Option (List Bool)
  deriving DecidableEq

/-- The placeholder of an update found at `startIdx`. -/
def Update.placeholder (u : Update) (startIdx : Nat) : Placeholder :=
  ⟨u.modality,u.itemIdx,startIdx,u.full,u.isEmbed⟩

/-- The next item of some modality whose content starts the tokens, in dictionary order. -/
def matchAt (tokens : List Token) (updates : Updates) : Option Update :=
  updates.findSome? fun x => x.2.head?.filter fun u =>
    decide (u.full ≠ []) && u.full.isPrefixOf tokens

/-- `item_idx_by_modality[modality] += 1`: the found item is not looked for again. -/
def Updates.advance (modality : Modality) (updates : Updates) : Updates :=
  updates.map fun x => (x.1,if x.1 = modality then x.2.tail else x.2)

/-- The loop of `_iter_placeholders`; `skip` tokens belong to the placeholder just found. -/
def iterFrom : (skip startIdx : Nat) → Updates → List Token → List Placeholder
  | _, _, _, [] => []
  | skip+1, startIdx, updates, _ :: tokens => iterFrom skip (startIdx+1) updates tokens
  | 0, startIdx, updates, t :: tokens =>
    match matchAt (t :: tokens) updates with
    | none => iterFrom 0 (startIdx+1) updates tokens
    | some u => u.placeholder startIdx ::
        iterFrom (u.full.length-1) (startIdx+1) (updates.advance u.modality) tokens

/-- Placeholders by modality; a modality without any is a missing key. -/
abbrev Placeholders := Modality → List Placeholder

/-- `find_mm_placeholders`. -/
def findMmPlaceholders (prompt : List Token) (updates : Updates) : Placeholders :=
  fun modality => (iterFrom 0 0 updates prompt).filter fun p => decide (p.modality = modality)

/-- `_apply_prompt_updates`: on the tokens, and if some item is not found there, on the text. -/
def applyPromptUpdates (tk : TokenizerLike) (tokenIds : List Token) (updates : Updates) :
    Py (List Token × Placeholders) :=
  let byToken := applyMatches (fun u => [u.mark]) Update.full tokenIds updates.items
  let byText := applyMatches (fun u => Word.spell u.modality.word) (fun u => tk.decode u.full)
    (tk.decode tokenIds) updates.items
  let result := if byToken.2 = [] then byToken else (tk.encode byText.1,byText.2)
  match result.2 with
  | u :: _ =>
      let name := u.modality.name
      .error (.raised .assertionError
        s!"Failed to apply prompt replacement for mm_items['{name}'][{u.itemIdx}]")
  | [] => .ok (result.1,findMmPlaceholders result.1 updates)

/-- `metadata` entries of the keyword arguments; both may be missing. -/
structure KwMetadata where
  framesIndices : Option (List Nat)
  fps : Option ℚ

/-- What `_get_prompt_updates` reads: the processed data, the keyword arguments, and the sizes
of the image processor and the configuration. -/
structure UpdateArgs where
  audioFeatureLengths : List Nat
  imageGridThw : List Thw
  videoGridThw : List Thw
  secondPerGridTs : Option (List ℚ)
  timestamps : Option (List (List ℚ))
  useAudioInVideo : Bool
  kwSecondPerGridTs : Option (List ℚ)
  kwVideoMetadata : Option (List KwMetadata)
  mergeSize : Nat
  temporalPatchSize : Nat
  positionIdPerSeconds : Nat
  /-- `f"{audio} (len={len(audio)})"` of an audio item. -/
  audioText : Nat → String

section Replacement
variable (tk : TokenizerLike) (d : UpdateArgs)

/-- `get_replacement_audio`, with the number of audios already read from videos. -/
def getReplacementAudio (itemIdx audioInVideoItemIdx : Nat) : Py (List Token) := do
  let itemIdx := itemIdx+audioInVideoItemIdx
  let featureLength ← getItem d.audioFeatureLengths itemIdx
  let numFeatures := (getFeatExtractOutputLengths featureLength).toNat
  let text := d.audioText itemIdx
  raiseIf (numFeatures = 0) (.raised .valueError
    s!"The audio {text} is too short to be represented inside the model")
  pure (List.replicate numFeatures .audioPad)

/-- `get_replacement_vision` for an image. -/
def getReplacementImage (itemIdx : Nat) : Py (List Token) := do
  let gridThw ← getItem d.imageGridThw itemIdx
  pure (List.replicate (gridThw.prod/d.mergeSize^2) .imagePad)

/-- Timestamps from the metadata of the keyword arguments, if it has the frames. -/
def kwTimestamps (itemIdx : Nat) : Py (Option (List ℚ)) :=
  match d.kwVideoMetadata.bind fun l => l[itemIdx]? with
  | some ⟨some indices,fps⟩ => do
      return some (← calculateTimestamps indices (fps.getD 1) d.temporalPatchSize)
  | _ => pure none

/-- The timestamps of a silent video: processed data first. -/
def silentTimestamps (itemIdx numFrames : Nat) : Py (List ℚ) :=
  match d.timestamps with
  | some all => getItem all itemIdx
  | none => do
      let timestamps ← kwTimestamps d itemIdx
      pure (timestamps.getD ((List.range numFrames).map fun i : Nat => (i : ℚ)))

/-- `get_replacement_vision` for a video: a timestamp and a span for each timestamp. The
seconds per grid it looks up do not enter the result. -/
def getReplacementVideo (itemIdx : Nat) : Py (List Token) := do
  let gridThw ← getItem d.videoGridThw itemIdx
  let tokenLenPerFrame := gridThw.h*gridThw.w/d.mergeSize^2
  let timestamps ← silentTimestamps d itemIdx gridThw.t
  pure (timestamps.flatMap fun ts => tk.encode (timestampText ts) ++
    .visionStart :: (List.replicate tokenLenPerFrame .videoPad ++ [.visionEnd]))

/-- The timestamps of a video with audio: keyword arguments first. -/
def avTimestamps (itemIdx : Nat) : Py (Option (List ℚ)) := do
  match ← kwTimestamps d itemIdx with
  | some timestamps => pure (some timestamps)
  | none => match d.timestamps with
    | some all => do return some (← getItem all itemIdx)
    | none => pure none

/-- `get_updates_use_audio_in_video`. -/
def getUpdatesUseAudioInVideo (audioLen : Nat) (gridThw : Thw) (secondPerGridT : ℚ)
    (timestamps : Option (List ℚ)) : List Token :=
  let videoTokensPerGrid := gridThw.h/d.mergeSize*(gridThw.w/d.mergeSize)
  let tsOffset := secondPerGridT/2*(1/2)
  let timestamps := timestamps.getD
    ((List.range gridThw.t).map fun i : Nat => (i : ℚ)*secondPerGridT+tsOffset)
  let boundaries := audioBoundaries gridThw.t audioLen (secondPerGridT*d.positionIdPerSeconds)
  (List.range gridThw.t).flatMap fun i : Nat =>
    let currTime := if timestamps = [] then (i : ℚ)
      else timestamps.getD (min i (timestamps.length-1)) 0
    let audioSeqLen := (boundaries.getD (i+1) 0-boundaries.getD i 0).toNat
    tk.encode (timestampText currTime) ++ .visionStart :: .audioStart ::
      (List.replicate videoTokensPerGrid .videoPad ++
        (List.replicate audioSeqLen .audioPad ++ [.audioEnd,.visionEnd]))

/-- The seconds per grid of a video with audio. -/
def avSecondPerGrid (itemIdx : Nat) : Py ℚ :=
  match d.secondPerGridTs with
  | some l => getItem l itemIdx
  | none => match d.kwSecondPerGridTs with
    | none => pure 2
    | some [] => pure 2
    | some (x :: l) => getItem (x :: l) itemIdx

/-- `get_replacement_use_audio_in_video`. -/
def getReplacementUseAudioInVideo (itemIdx audioInVideoItemIdx : Nat) : Py (List Token) := do
  let featureLength ← getItem d.audioFeatureLengths audioInVideoItemIdx
  let gridThw ← getItem d.videoGridThw itemIdx
  let secondPerGridT ← avSecondPerGrid d itemIdx
  let timestamps ← avTimestamps d itemIdx
  pure (getUpdatesUseAudioInVideo tk d (getFeatExtractOutputLengths featureLength).toNat gridThw
    secondPerGridT timestamps)

/-- `video_replacement_fn`. -/
def videoReplacementFn (itemIdx audioInVideoItemIdx : Nat) : Py (List Token) :=
  if d.useAudioInVideo then getReplacementUseAudioInVideo tk d itemIdx audioInVideoItemIdx
  else getReplacementVideo tk d itemIdx

/-- The contents of `n` videos from `itemIdx` on; the counter of used audios runs along. -/
def resolveVideos : (itemIdx audioInVideoItemIdx n : Nat) → Py (List (List Token))
  | _, _, 0 => pure []
  | itemIdx, audioInVideoItemIdx, n+1 => do
      let full ← videoReplacementFn tk d itemIdx audioInVideoItemIdx
      let rest ← resolveVideos (itemIdx+1)
        (if d.useAudioInVideo then audioInVideoItemIdx+1 else audioInVideoItemIdx) n
      pure (full :: rest)

/-- The resolved updates of a modality from the contents of its items. -/
def resolved (modality : Modality) (embedToken : Option Token) (contents : List (List Token)) :
    List Update :=
  contents.zipIdx.map fun x => ⟨modality,x.2,x.1,embedToken⟩

/-- `_get_mm_prompt_updates`. The audios come first, when no video has used one yet. -/
def getMmPromptUpdates (mmItemCounts : Modality → Nat) : Py Updates := do
  let audios ← (List.range (mmItemCounts .audio)).mapM fun i => getReplacementAudio d i 0
  let images ← (List.range (mmItemCounts .image)).mapM fun i => getReplacementImage d i
  let videos ← resolveVideos tk d 0 0 (mmItemCounts .video)
  pure [(.audio,resolved .audio none audios),(.image,resolved .image none images),
    (.video,resolved .video (some .videoPad) videos)]

end Replacement

/-- The processed items: the number of audios and images, and for each video its
`use_audio_in_video`, or `None` for an item the cache has not sent along. -/
structure MmKwargs where
  audios : Nat
  images : Nat
  videos : List (Option Bool)

def MmKwargs.count (k : MmKwargs) : Modality → Nat
  | .audio => k.audios
  | .image => k.images
  | .video => k.videos.length

section Apply
variable (mmItemCounts : Modality → Nat)

/-- `_validate_mm_kwargs`. -/
def validateMmKwargs (mmKwargs : MmKwargs) : Py Unit :=
  [Modality.audio,.image,.video].forM fun m => do
    let name := m.name
    let itemCount := mmItemCounts m
    raiseIf (mmKwargs.count m ≠ itemCount) (.raised .runtimeError
      (s!"Expected there to be {itemCount} {name} items in keyword arguments corresponding to " ++
        s!"{itemCount} {name} data items, but only found {mmKwargs.count m}! There is likely a " ++
        "problem with your implementation of merged multi-modal processor for this model " ++
        "(usually arising from an inconsistency between `_call_hf_processor` and " ++
        "`_get_mm_fields_config`)."))

/-- `_validate_mm_placeholders`. -/
def validateMmPlaceholders (mmPlaceholders : Placeholders) : Py Unit :=
  [Modality.audio,.image,.video].forM fun m => do
    let name := m.name
    let itemCount := mmItemCounts m
    let found := (mmPlaceholders m).length
    raiseIf (found ≠ itemCount) (.raised .runtimeError
      (s!"Expected there to be {itemCount} prompt placeholders corresponding to {itemCount} " ++
        s!"{name} items, but instead found {found} prompt placeholders! Make sure the " ++
        "implementation of `_call_hf_processor` and `_get_mm_fields_config` are consistent " ++
        "with each other."))

/-- The flag `_maybe_apply_prompt_updates` goes by. -/
def detectUseAudioInVideo (promptIds : List Token) (mmKwargs : MmKwargs) (updates : Updates) :
    Bool :=
  let hasVideoToken := promptIds.contains .videoPad
  let hasAudioToken := promptIds.contains .audioPad
  let hasUpdates (m : Modality) := updates.any fun x => decide (x.1 = m)
  let count (m : Modality) := ((updates.lookup m).getD []).length
  if mmKwargs.videos = [] then false
  else if mmKwargs.videos.any fun flag => flag = some true then true
  else if decide (0 < mmItemCounts .video) && decide (0 < mmItemCounts .audio) &&
      hasVideoToken && !hasAudioToken then true
  else if hasVideoToken && hasAudioToken && hasUpdates .audio && hasUpdates .video then true
  else mmKwargs.videos.contains none &&
    decide (promptIds.count .videoPad+promptIds.count .audioPad ≠ count .video+count .audio)

/-- `_derive_audio_from_video_placeholders`. -/
def deriveAudioFromVideoPlaceholders (placeholders : Placeholders) : Py Placeholders :=
  if placeholders .video = [] then pure placeholders
  else do
    let numVideos := (placeholders .video).length
    let numAudios := mmItemCounts .audio
    raiseIf (numAudios ≠ numVideos) (.raised .valueError
      (s!"use_audio_in_video requires equal number of audio and video items, got " ++
        s!"num_audios={numAudios}, num_videos={numVideos}"))
    let audios := (placeholders .video).zipIdx.map fun x : Placeholder × Nat =>
      (⟨.audio,x.2,x.1.startIdx,x.1.tokens,
        some (x.1.tokens.map fun t => decide (t = .audioPad))⟩ : Placeholder)
    pure fun modality => if modality = .audio then audios else placeholders modality

/-- The branch for tokens the HF processor has not expanded. -/
def applyToTokens (tk : TokenizerLike) (promptIds : List Token) (useAudioInVideo : Bool)
    (updates : Updates) : Py (List Token × Placeholders) :=
  if useAudioInVideo then do
    let filtered := updates.filter fun x => decide (x.1 ≠ .audio)
    let (ids,placeholders) ← applyPromptUpdates tk promptIds filtered
    let placeholders ← deriveAudioFromVideoPlaceholders mmItemCounts placeholders
    if (placeholders .video).length ≠ mmItemCounts .video then applyPromptUpdates tk ids updates
    else pure (ids,placeholders)
  else applyPromptUpdates tk promptIds updates

/-- The branch for a prompt the HF processor has expanded. -/
def applyToExpanded (tk : TokenizerLike) (promptIds : List Token) (updates : Updates) :
    Py (List Token × Placeholders) :=
  let placeholders := findMmPlaceholders promptIds updates
  if [Modality.audio,.image,.video].any fun m =>
      decide (0 < mmItemCounts m) && decide ((placeholders m).length ≠ mmItemCounts m) then
    applyPromptUpdates tk promptIds updates
  else pure (promptIds,placeholders)

/-- `_maybe_apply_prompt_updates`. -/
def maybeApplyPromptUpdates (tk : TokenizerLike) (promptIds : List Token) (mmKwargs : MmKwargs)
    (updates : Updates) (isUpdateApplied : Bool) : Py (List Token × Placeholders) := do
  validateMmKwargs mmItemCounts mmKwargs
  let useAudioInVideo := detectUseAudioInVideo mmItemCounts promptIds mmKwargs updates
  let (ids,placeholders) ← if isUpdateApplied then applyToExpanded mmItemCounts tk promptIds updates
    else applyToTokens mmItemCounts tk promptIds useAudioInVideo updates
  validateMmPlaceholders mmItemCounts placeholders
  pure (ids,placeholders)

end Apply
end Vllm
end TLiveOmni
