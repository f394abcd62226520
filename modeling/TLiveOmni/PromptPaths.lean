import TLiveOmni.Embeds
import TLiveOmni.MmOnlyCall
import TLiveOmni.Placement
import TLiveOmni.VideoLayouts

/-! A prompt can reach the vLLM processor as text, which the HF processor expands, or as tokens, to
which the prompt updates are applied. -/
set_option autoImplicit false

namespace TLiveOmni.Vllm
open PySeq Words Expand

/-- An audio: the HF processor counts the frames of the padded audio, vLLM those of the audio as
it was sent. -/
structure AudioItem where
  paddedFrames : Nat
  wholeFrames : Nat
  padded : wholeFrames ≤ paddedFrames
  text : String

/-- A video as the video processor returns it: one temporal grid for each patch of frames. -/
structure VideoItem (m size : Nat) where
  grid : Grid m
  secondPerGrid : ℚ
  metadata : VideoMetadata
  rated : 0 < metadata.fps
  sampled : grid.t = ⌈(metadata.framesIndices.length : ℚ)/size⌉.toNat

/-- The processor, the media of a request and its keyword arguments. -/
structure ProcessorInputs (m : Nat) where
  tk : TokenizerLike
  temporalPatchSize : Nat
  patchPos : 0 < temporalPatchSize
  positionIdPerSeconds : Nat
  useAudioInVideo : Bool
  returnMetadata : Bool
  kwVideoMetadata : Option (List KwMetadata)
  audios : List AudioItem
  images : List (Grid m)
  videos : List (VideoItem m temporalPatchSize)

namespace ProcessorInputs
variable {m : Nat} (r : ProcessorInputs m)

def counts : Modality → Nat
  | .audio => r.audios.length
  | .image => r.images.length
  | .video => r.videos.length

def writerArgs : WriterArgs where
  mergeSize := m
  temporalPatchSize := r.temporalPatchSize
  audioLengths := r.audios.map fun a => (getFeatExtractOutputLengths a.paddedFrames).toNat
  imageGridThw := r.images.map Grid.thw
  videoGridThw := r.videos.map fun v => v.grid.thw
  videoSecondPerGrid := r.videos.map VideoItem.secondPerGrid
  useAudioInVideo := r.useAudioInVideo
  positionIdPerSeconds := r.positionIdPerSeconds
  videoMetadatas := some (r.videos.map VideoItem.metadata)

/-- `_call_hf_processor` up to the text the HF processor has expanded. -/
def callHf (prompt : List Char) : Py (List Char) := do
  let prompt := if r.useAudioInVideo then withoutAudio prompt else prompt
  raiseIf (r.videos ≠ [] ∧ r.useAudioInVideo = true ∧ r.audios = []) (.raised .valueError
    ("use_audio_in_video=True requires an audio input for each video. " ++
      "apply_chat_template(tokenize=True, use_audio_in_video=True) loads video audio " ++
      "automatically."))
  let text ← replaceMultimodalSpecialTokens r.writerArgs r.tk.toTokenizer [prompt]
  pure text.flatten

/-- The timestamps that `_call_hf_processor` adds, if the metadata is returned to it. -/
def hfTimestamps : Py (Option (List (List ℚ))) :=
  if r.returnMetadata then do
    let timestamps ← r.videos.mapM fun v => callHfTimestamps r.temporalPatchSize v.grid.t
      ⟨some v.metadata.framesIndices,some v.metadata.fps⟩
    pure (some timestamps)
  else pure none

/-- What `_get_prompt_updates` reads, with the timestamps added. -/
def argsWith (timestamps : Option (List (List ℚ))) : UpdateArgs where
  audioFeatureLengths := r.audios.map AudioItem.wholeFrames
  imageGridThw := r.images.map Grid.thw
  videoGridThw := r.videos.map fun v => v.grid.thw
  secondPerGridTs := some (r.videos.map VideoItem.secondPerGrid)
  timestamps := timestamps
  useAudioInVideo := r.useAudioInVideo
  kwSecondPerGridTs := none
  kwVideoMetadata := r.kwVideoMetadata
  mergeSize := m
  temporalPatchSize := r.temporalPatchSize
  positionIdPerSeconds := r.positionIdPerSeconds
  audioText := fun i => (r.audios[i]?.map AudioItem.text).getD ""

def promptUpdates : Py Updates := do
  let timestamps ← r.hfTimestamps
  getMmPromptUpdates r.tk (r.argsWith timestamps) r.counts

def mmKwargs : MmKwargs :=
  ⟨r.audios.length,r.images.length,r.videos.map fun _ => some r.useAudioInVideo⟩

/-- A prompt that comes as text. -/
def applyText (prompt : List Char) : Py (List Token × Placeholders) := do
  let text ← r.callHf prompt
  let updates ← r.promptUpdates
  maybeApplyPromptUpdates r.counts r.tk (r.tk.encode text) r.mmKwargs updates true

/-- A prompt that comes as tokens; the media are processed with a made-up text. -/
def applyTokens (ids : List Token) : Py (List Token × Placeholders) := do
  let _ ← r.callHf (getDummyText r.counts)
  let updates ← r.promptUpdates
  maybeApplyPromptUpdates r.counts r.tk ids r.mmKwargs updates false

/-- Every item has its token in the prompt. -/
def Asks (prompt : List Char) : Prop := ∀ mo : Modality, occurrences mo.word prompt = r.counts mo

end ProcessorInputs
end TLiveOmni.Vllm
