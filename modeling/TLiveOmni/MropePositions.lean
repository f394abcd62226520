import TLiveOmni.Loop

/-! `get_mrope_input_positions` of the vLLM model: the scanning loop over one prompt, with the
media arguments collected from its features. -/
set_option autoImplicit false

namespace TLiveOmni.Mrope
open PySeq

/-- The fields of a `MultiModalFeatureSpec` the parser reads, by modality. -/
inductive FeatureData where
  | image (imageGridThw : Thw)
  | video (videoGridThw : Thw) (secondPerGridTs : Option ℚ) (useAudioInVideo : Option Bool)
  | audio (audioFeatureLengths : Nat)

structure Feature where
  offset : Nat
  data : FeatureData

namespace FeatureData

def imageGrid? : FeatureData → Option Thw
  | .image g => some g
  | _ => none

def videoGrid? : FeatureData → Option Thw
  | .video g _ _ => some g
  | _ => none

def second? : FeatureData → Option ℚ
  | .video _ s _ => some (s.getD 1)
  | _ => none

def usesAudio : FeatureData → Bool
  | .video _ _ u => u.getD false
  | _ => false

def audioLen? : FeatureData → Option Nat
  | .audio n => some n
  | _ => none

end FeatureData

/-- `torch.tensor(l) if l else None`. -/
def tensor {α : Type} (l : List α) : Option (List α) := if l = [] then none else some l

/-- `sorted(mm_features, key=lambda f: f.mm_position.offset)`, which is stable. -/
def sortedFeatures (mmFeatures : List Feature) : List FeatureData :=
  (mmFeatures.mergeSort fun a b => decide (a.offset ≤ b.offset)).map Feature.data

def mediaArgs (mmFeatures : List Feature) : Py MediaArgs :=
  let data := sortedFeatures mmFeatures
  prepare (tensor (data.filterMap FeatureData.imageGrid?))
    (tensor (data.filterMap FeatureData.videoGrid?)) (data.any FeatureData.usesAudio)
    (tensor (data.filterMap FeatureData.audioLen?)) (tensor (data.filterMap FeatureData.second?))

/-- `.max()` of an array, which numpy refuses for an empty one. -/
def arrayMax (b : Block) : Py Int := (blockMax b).mapError fun _ => .builtin .valueError

/-- `_next_position`. -/
def nextStart (blocks : List Block) : Py Int :=
  (nextPosition blocks).mapError fun _ => .builtin .valueError

/-- `_append_1d`. -/
def append1d (blocks : List Block) (length start : Int) : List Block :=
  if length ≤ 0 then blocks else blocks ++ [arange3 length.toNat start]

structure Located where
  edVisionStart : Nat
  edVisionEnd : Nat
  edAudioStart : Nat

def Located.minEd (l : Located) : Nat := min l.edVisionStart l.edAudioStart

section Scan
variable (cfg : Config) (env : MediaArgs) (tokens : List Token)

/-- `_append_vision_grid`. -/
def appendVisionGrid (blocks : List Block) (start : Int) (gridT gridH gridW : Nat)
    (tFactor : ℚ) : List Block × Nat :=
  (blocks ++ [visionGrid start (temporalIndex gridT tFactor) (gridH/cfg.spatialMergeSize)
      (gridW/cfg.spatialMergeSize)],gridT*gridH*gridW/cfg.spatialMergeSize^2)

def locate (s : LoopState) : Py Located := do
  let (edVisionStart,edVisionEnd) ←
    if visionRemains tokens s.remainVideos s.remainImages then do
      let edVisionStart ← index .visionStart s.st tokens
      let edVisionEnd ← index .visionEnd s.st tokens
      pure (edVisionStart,edVisionEnd)
    else pure (tokens.length+1,tokens.length+1)
  let nextAudioStart := (indexFrom .audioStart s.st tokens).getD (tokens.length+1)
  let edAudioStart :=
    if env.useAudioInVideo && decide (edVisionStart < nextAudioStart) &&
        decide (nextAudioStart < edVisionEnd) then nextAudioStart
    else if 0 < s.remainAudios then nextAudioStart
    else tokens.length+1
  pure ⟨edVisionStart,edVisionEnd,edAudioStart⟩

/-- The text run and the opening delimiter: new blocks, next position and `text_len`. -/
def openSpan (s : LoopState) (loc : Located) (stIdx : Int) : List Block × Int × Int :=
  let textLen : Int := (loc.minEd : Int) - s.st
  let blocks := if textLen ≠ 0 then append1d s.blocks textLen stIdx else s.blocks
  let stIdx := stIdx+textLen
  (append1d blocks 1 stIdx,stIdx+1,textLen)

def audioOnly (s : LoopState) (loc : Located) (blocks : List Block) (stIdx textLen : Int) :
    Py (LoopState × Nat) := do
  raiseIf (env.audioSeqlens = none) (.raised .runtimeError
    "audio_seqlens is required for audio position ids")
  let audioEnd ← match indexFrom .audioEnd loc.edAudioStart tokens with
    | some i => pure i
    | none => throw (.raised .valueError "Standalone audio span missing audio_end token.")
  let audioLen : Int := (audioEnd : Int)-loc.edAudioStart-1
  raiseIf (audioLen < 0) (.raised .valueError "Standalone audio span has invalid token order.")
  raiseIf (((tokens.drop (loc.edAudioStart+1)).take (audioEnd-(loc.edAudioStart+1))).any
    fun x => decide (x ≠ .audioPad)) (.raised .valueError
      "Standalone audio span expected only audio_pad tokens between audio_start and audio_end.")
  pure ({ s with
    blocks := append1d blocks audioLen stIdx
    st := (s.st+(textLen+1+audioLen+1)).toNat
    audioIdx := s.audioIdx+1
    remainAudios := s.remainAudios-1 },1)

def imageOnly (s : LoopState) (blocks : List Block) (stIdx textLen : Int) :
    Py (LoopState × Nat) := do
  let grids ← match env.imageGridThw with
    | some l => pure l
    | none => throw (.builtin .assertionError)
  let grid ← getItem grids s.imageIdx
  let (blocks,imageLen) := appendVisionGrid cfg blocks stIdx grid.t grid.h grid.w
    cfg.positionIdPerSeconds
  pure ({ s with
    blocks := blocks
    st := (s.st+(textLen+1+imageLen+1)).toNat
    imageIdx := s.imageIdx+1
    remainImages := s.remainImages-1 },1)

def videoOnly (s : LoopState) (blocks : List Block) (stIdx textLen : Int) :
    Py (LoopState × Nat) := do
  let grids ← match env.videoGridThw with
    | some l => pure l
    | none => throw (.builtin .assertionError)
  let grid ← getItem grids s.videoIdx
  let secondPerGrid ← getItem env.secondPerGrids s.videoIdx
  let (blocks,videoLen) := appendVisionGrid cfg blocks stIdx 1 grid.h grid.w
    (secondPerGrid*cfg.positionIdPerSeconds)
  pure ({ s with
    blocks := blocks
    st := (s.st+(textLen+1+videoLen+1)).toNat
    videoIdx := s.videoIdx+1
    remainVideos := s.remainVideos-1 },1)

def audioInVideo (s : LoopState) (loc : Located) (blocks : List Block) (stIdx textLen : Int) :
    Py (LoopState × Nat) := do
  let grids ← match env.videoGridThw with
    | some l => pure l
    | none => throw (.builtin .assertionError)
  raiseIf (loc.edAudioStart ≠ loc.edVisionStart+1) (.raised .valueError
    "Audio-in-video span expected audio_start immediately after vision_start.")
  let grid ← getItem grids s.videoIdx
  let gridTokens := grid.h*grid.w/cfg.spatialMergeSize^2
  let audioEnd ← match (indicesOf .audioEnd tokens).find? fun i => decide (loc.edAudioStart < i) with
    | some i => pure i
    | none => throw (.builtin .stopIteration)
  raiseIf (audioEnd+1 ≠ loc.edVisionEnd) (.raised .valueError
    "Audio-in-video span expected audio_end immediately before vision_end.")
  let videoTokenStart := loc.edAudioStart+1
  let actualVideoLen := (((tokens.drop videoTokenStart).take (audioEnd-videoTokenStart)).takeWhile
    fun x => decide (x = .videoPad)).length
  let videoTokenEnd := videoTokenStart+actualVideoLen
  raiseIf (gridTokens = 0) (.builtin .zeroDivisionError)
  raiseIf (actualVideoLen % gridTokens ≠ 0) (.raised .valueError
    s!"Video/audio span has {actualVideoLen} video tokens, which is not divisible by one temporal grid of {gridTokens} tokens.")
  let gridT := actualVideoLen/gridTokens
  raiseIf (gridT ≠ 1) (.raised .valueError
    s!"Audio-in-video span expected exactly one temporal grid, got {gridT}.")
  let blocks := append1d blocks 1 stIdx
  let secondPerGrid ← getItem env.secondPerGrids s.videoIdx
  let (blocks,_) := appendVisionGrid cfg blocks (stIdx+1) 1 grid.h grid.w
    (secondPerGrid*cfg.positionIdPerSeconds)
  let audioLen : Nat := audioEnd-videoTokenEnd
  raiseIf (0 < audioLen ∧ ∃ x ∈ (tokens.drop videoTokenEnd).take audioLen, x ≠ .audioPad)
    (.raised .valueError
      "Audio-in-video span expected only audio_pad tokens between video_pad and audio_end.")
  let blocks := if 0 < audioLen then append1d blocks audioLen (stIdx+1) else blocks
  let videoIdx := s.videoIdx+gridT
  pure ({ s with
    blocks := blocks
    st := (s.st+(textLen+1+1+audioLen+actualVideoLen+2)).toNat
    videoIdx := videoIdx
    audioIdx := if videoIdx ∈ env.videoChunkEndIndices then s.audioIdx+1 else s.audioIdx
    remainVideos := s.remainVideos-1 },2)

def readSpan (s : LoopState) (loc : Located) (blocks : List Block) (stIdx textLen : Int) :
    Py (LoopState × Nat) :=
  if loc.minEd = loc.edAudioStart then audioOnly env tokens s loc blocks stIdx textLen
  else do
    let first ← getItem tokens (loc.edVisionStart+1)
    if first = .imagePad then imageOnly cfg env s blocks stIdx textLen
    else if loc.edVisionEnd < loc.edAudioStart then videoOnly cfg env s blocks stIdx textLen
    else if loc.edVisionEnd > loc.edAudioStart then
      audioInVideo cfg env tokens s loc blocks stIdx textLen
    else pure ({ s with blocks := blocks },1)

/-- One iteration of `for _ in range(int(multimodal_nums))`. -/
def step (s : LoopState) : Py LoopState := do
  let stIdx ← nextStart s.blocks
  let loc ← locate env tokens s
  let (blocks,stIdx,textLen) := openSpan s loc stIdx
  let (s,eosLen) ← readSpan cfg env tokens s loc blocks stIdx textLen
  let stIdx ← nextStart s.blocks
  pure { s with blocks := append1d s.blocks eosLen stIdx }

/-- `llm_pos_ids_list` of the prompt. -/
def scan : Py (List Block) := do
  let s₀ := initialState env tokens .zero
  let s ← iterate (step cfg env tokens) s₀.multimodalNums.toNat s₀
  if s.st < tokens.length then do
    let stIdx ← nextStart s.blocks
    pure (append1d s.blocks ((tokens.length : Int)-s.st) stIdx)
  else pure s.blocks

end Scan

/-- `get_mrope_input_positions`: the position columns and the delta. -/
def getMropeInputPositions (cfg : Config) (inputTokens : List Token)
    (mmFeatures : List Feature) : Py (List Pos × Int) := do
  let env ← mediaArgs mmFeatures
  if env.imageGridThw = none ∧ env.videoGridThw = none then
    pure (arange3 inputTokens.length 0,0)
  else do
    let blocks ← scan cfg env inputTokens
    -- np.concatenate refuses an empty list
    raiseIf (blocks = []) (.builtin .valueError)
    let llmPositions := blocks.flatten
    raiseIf (llmPositions.length ≠ inputTokens.length) (.raised .runtimeError
      s!"Position ids length {llmPositions.length} != input ids length {inputTokens.length}")
    let top ← arrayMax llmPositions
    pure (llmPositions,top+1-inputTokens.length)

end TLiveOmni.Mrope
