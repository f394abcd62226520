import TLiveOmni.Loop

/-! `get_rope_index` of the Transformers model: one scanning loop per row of the batch,
with the media cursors shared by all rows. -/
set_option autoImplicit false

namespace TLiveOmni.RopeIndex
open PySeq

/-- `get_llm_pos_ids_for_vision`, inherited from Transformers: temporal, row and column
indices in row-major order plus the start index. -/
structure LlmPosIdsForVision where
  run : (startIdx : Int) → (visionIdx spatialMergeSize : Nat) → (tIndex : List Int) →
    (gridHs gridWs : List Nat) → Block
  layout : ∀ start i m tIndex hs ws h w, hs[i]? = some h → ws[i]? = some w →
    run start i m tIndex hs ws = rowMajor start tIndex (h/m) (w/m)

def LlmPosIdsForVision.reference : LlmPosIdsForVision where
  run start i m tIndex gridHs gridWs :=
    rowMajor start tIndex (gridHs.getD i 0/m) (gridWs.getD i 0/m)
  layout start i m tIndex hs ws h w hh hw := by
    simp [List.getD_eq_getElem?_getD,hh,hw]

/-- `ed_vision_end` is only assigned when a vision span is searched for and otherwise keeps
its value of an earlier iteration, or of an earlier row. -/
structure State extends LoopState where
  edVisionEnd : Option Nat

/-- What a row leaves for the next one. -/
structure Carried extends Cursors where
  edVisionEnd : Option Nat

def State.carried (s : State) : Carried := ⟨s.toCursors,s.edVisionEnd⟩

structure Located where
  edVisionStart : Nat
  edVisionEnd : Option Nat
  edAudioStart : Nat

def Located.minEd (l : Located) : Nat := min l.edVisionStart l.edAudioStart

section Scan
variable (cfg : Config) (vis : LlmPosIdsForVision) (env : MediaArgs) (tokens : List Token)

/-- The next vision span, if one remains, and the next audio start. -/
def locate (s : State) : Py Located := do
  let (edVisionStart,edVisionEnd) ←
    if visionRemains tokens s.remainVideos s.remainImages then do
      let edVisionStart ← index .visionStart s.st tokens
      let edVisionEnd ← index .visionEnd s.st tokens
      pure (edVisionStart,some edVisionEnd)
    else pure (tokens.length+1,s.edVisionEnd)
  let nextAudioStart := (indexFrom .audioStart s.st tokens).getD (tokens.length+1)
  let inside ←
    if env.useAudioInVideo && decide (edVisionStart < nextAudioStart) then
      match edVisionEnd with
      | some e => pure (decide (nextAudioStart < e))
      | none => throw (.builtin .unboundLocalError)
    else pure false
  let edAudioStart :=
    if inside then nextAudioStart
    else if 0 < s.remainAudios then nextAudioStart
    else tokens.length+1
  pure ⟨edVisionStart,edVisionEnd,edAudioStart⟩

/-- The text run and the opening delimiter: new blocks, next position and `text_len`. -/
def openSpan (s : State) (loc : Located) (stIdx : Int) : Py (List Block × Int × Int) := do
  let textLen : Int := (loc.minEd : Int) - s.st
  raiseIf (textLen < 0) (.builtin .runtimeError)
  let blocks := if textLen ≠ 0 then s.blocks ++ [arange3 textLen.toNat stIdx] else s.blocks
  pure (blocks ++ [arange3 1 (stIdx+textLen)],stIdx+textLen+1,textLen)

def audioOnly (s : State) (blocks : List Block) (stIdx textLen : Int) : Py (State × Nat) := do
  let seqlens ← match env.audioSeqlens with
    | some l => pure l
    | none => throw (.builtin .typeError)
  let seqlen ← getItem seqlens s.audioIdx
  let audioLen := getFeatExtractOutputLengths seqlen
  pure ({ s with
    blocks := blocks ++ [arange3 audioLen.toNat stIdx]
    st := (s.st+(textLen+1+audioLen+1)).toNat
    audioIdx := s.audioIdx+1
    remainAudios := s.remainAudios-1 },1)

def imageOnly (s : State) (blocks : List Block) (stIdx textLen : Int) : Py (State × Nat) := do
  let grids ← match env.imageGridThw with
    | some l => pure l
    | none => throw (.builtin .typeError)
  let grid ← getItem grids s.imageIdx
  let tIndex := (List.range grid.t).map fun i : Nat => ((i*cfg.positionIdPerSeconds : Nat) : Int)
  let llmPosIds := vis.run stIdx s.imageIdx cfg.spatialMergeSize tIndex
    (grids.map Thw.h) (grids.map Thw.w)
  let imageLen : Nat := grid.prod/cfg.spatialMergeSize^2
  pure ({ s with
    blocks := blocks ++ [llmPosIds]
    st := (s.st+(textLen+1+imageLen+1)).toNat
    imageIdx := s.imageIdx+1
    remainImages := s.remainImages-1 },1)

def videoOnly (s : State) (blocks : List Block) (stIdx textLen : Int) : Py (State × Nat) := do
  let grids ← match env.videoGridThw with
    | some l => pure l
    | none => throw (.builtin .attributeError)
  let grid ← getItem grids s.videoIdx
  let secondPerGrid ← getItem env.secondPerGrids s.videoIdx
  let tIndex := temporalIndex 1 (secondPerGrid*cfg.positionIdPerSeconds)
  let videoLen : Nat := 1*grid.h*grid.w/cfg.spatialMergeSize^2
  pure ({ s with
    blocks := blocks ++ [visionGrid stIdx tIndex (grid.h/cfg.spatialMergeSize)
      (grid.w/cfg.spatialMergeSize)]
    st := (s.st+(textLen+1+videoLen+1)).toNat
    videoIdx := s.videoIdx+1
    remainVideos := s.remainVideos-1 },1)

/-- `find_audio_end_token_indice`. -/
def findAudioEndTokenIndice (audioEndIndices : List Nat) (a : Nat) : Py Nat :=
  match (audioEndIndices.filter fun i => decide (a < i)).min? with
  | some i => .ok i
  | none => .error (.raised .valueError
      s!"Could not find an audio end token index after {a} in tensor({audioEndIndices}).")

def audioInVideo (s : State) (loc : Located) (edVisionEnd : Nat) (blocks : List Block)
    (stIdx textLen : Int) : Py (State × Nat) := do
  raiseIf (loc.edAudioStart ≠ loc.edVisionStart+1) (.raised .valueError
    "Audio-in-video span expected audio_start immediately after vision_start.")
  let grids ← match env.videoGridThw with
    | some l => pure l
    | none => throw (.builtin .typeError)
  let grid ← getItem grids s.videoIdx
  let gridTokens := grid.h*grid.w/cfg.spatialMergeSize^2
  let audioEnd ← findAudioEndTokenIndice (indicesOf .audioEnd tokens) loc.edAudioStart
  raiseIf (audioEnd+1 ≠ edVisionEnd) (.raised .valueError
    "Audio-in-video span expected audio_end immediately before vision_end.")
  let videoTokenStart := loc.edAudioStart+1
  let actualVideoLen := (((tokens.drop videoTokenStart).take (audioEnd-videoTokenStart)).takeWhile
    fun x => decide (x = .videoPad)).length
  let videoTokenEnd := videoTokenStart+actualVideoLen
  raiseIf (gridTokens = 0) (.builtin .zeroDivisionError)
  raiseIf (actualVideoLen % gridTokens ≠ 0) (.raised .valueError
    s!"Video/audio span has {actualVideoLen} video tokens, which is not divisible by one temporal grid of {gridTokens} tokens.")
  let gridT := actualVideoLen/gridTokens
  raiseIf (gridT ≠ 1) (.raised .valueError
    s!"Audio-in-video span expected exactly one temporal grid, got {gridT}.")
  let secondPerGrid ← getItem env.secondPerGrids s.videoIdx
  let tIndex := temporalIndex gridT (secondPerGrid*cfg.positionIdPerSeconds)
  let blocks := blocks ++ [arange3 1 stIdx,
    visionGrid (stIdx+1) tIndex (grid.h/cfg.spatialMergeSize) (grid.w/cfg.spatialMergeSize)]
  let videoLen : Nat := gridT*grid.h*grid.w/cfg.spatialMergeSize^2
  let audioLen : Nat := audioEnd-videoTokenEnd
  raiseIf (0 < audioLen ∧ ∃ x ∈ (tokens.drop videoTokenEnd).take audioLen, x ≠ .audioPad)
    (.raised .valueError
      "Audio-in-video span expected only audio_pad tokens between video_pad and audio_end.")
  let blocks := if 0 < audioLen then blocks ++ [arange3 audioLen (stIdx+1)] else blocks
  let videoIdx := s.videoIdx+gridT
  pure ({ s with
    blocks := blocks
    st := (s.st+(textLen+1+1+audioLen+videoLen+2)).toNat
    videoIdx := videoIdx
    audioIdx := if videoIdx ∈ env.videoChunkEndIndices then s.audioIdx+1 else s.audioIdx
    remainVideos := s.remainVideos-1 },2)

/-- The branch of the loop body that handles the located span. -/
def readSpan (s : State) (loc : Located) (blocks : List Block) (stIdx textLen : Int) :
    Py (State × Nat) :=
  if loc.minEd = loc.edAudioStart then audioOnly env s blocks stIdx textLen
  else do
    let first ← getItem tokens (loc.edVisionStart+1)
    if first = .imagePad then imageOnly cfg vis env s blocks stIdx textLen
    else
      match loc.edVisionEnd with
      | none => throw (.builtin .unboundLocalError)
      | some edVisionEnd =>
        if edVisionEnd < loc.edAudioStart then videoOnly cfg env s blocks stIdx textLen
        else if edVisionEnd > loc.edAudioStart then
          audioInVideo cfg env tokens s loc edVisionEnd blocks stIdx textLen
        else pure ({ s with blocks := blocks },1)

/-- One iteration of `for _ in range(multimodal_nums)`. -/
def step (s : State) : Py State := do
  let stIdx ← nextPosition s.blocks
  let loc ← locate env tokens s
  let (blocks,stIdx,textLen) ← openSpan s loc stIdx
  let s := { s with edVisionEnd := loc.edVisionEnd }
  let (s,eosLen) ← readSpan cfg vis env tokens s loc blocks stIdx textLen
  let stIdx ← nextPosition s.blocks
  pure { s with blocks := s.blocks ++ [arange3 eosLen stIdx] }

def initial (c : Carried) : State := ⟨initialState env tokens c.toCursors,c.edVisionEnd⟩

/-- `llm_pos_ids_list` of one row, and the cursors left for the next row. -/
def scanRow (c : Carried) : Py (List Block × Carried) := do
  let s₀ := initial env tokens c
  let s ← iterate (step cfg vis env tokens) s₀.multimodalNums.toNat s₀
  if s.st < tokens.length then do
    let stIdx ← nextPosition s.blocks
    pure (s.blocks ++ [arange3 (tokens.length-s.st) stIdx],s.carried)
  else pure (s.blocks,s.carried)

end Scan

/-- `position_ids[..., i, mask] = llm_positions` on a row of zeros: masked columns stay
zero, and a single column is broadcast. -/
def scatterRow (mask : List Bool) (positions : List Pos) : Py (List Pos) :=
  let n := mask.count true
  if positions.length = n then .ok (go mask positions)
  else match positions with
    | [p] => .ok (mask.map fun b => if b then p else .zero)
    | _ => .error (.builtin .runtimeError)
where
  go : List Bool → List Pos → List Pos
    | [], _ => []
    | false :: mask, ps => .zero :: go mask ps
    | true :: mask, p :: ps => p :: go mask ps
    | true :: mask, [] => .zero :: go mask []

/-- `input_ids[attention_mask[i]]`. -/
def unmasked {α : Type} (row : List α) (mask : List Bool) : List α :=
  ((row.zip mask).filter (·.2)).map (·.1)

/-- Positions and delta of one row, with the cursors left for the next row. -/
def row (cfg : Config) (vis : LlmPosIdsForVision) (env : MediaArgs) (c : Carried)
    (inputIds : List Token) (mask : List Bool) : Py ((List Pos × Int) × Carried) := do
  let tokens := unmasked inputIds mask
  let (blocks,c) ← scanRow cfg vis env tokens c
  -- torch.cat raises on an empty list of blocks
  raiseIf (blocks = []) (.builtin .runtimeError)
  let llmPositions := blocks.flatten
  let positions ← scatterRow mask llmPositions
  let top ← blockMax llmPositions
  pure ((positions,top+1-tokens.length),c)

/-- The rows of the batch in order; the cursors run through all of them. -/
def rows (cfg : Config) (vis : LlmPosIdsForVision) (env : MediaArgs) :
    Carried → List (List Token × List Bool) → Py (List (List Pos × Int) × Carried)
  | c, [] => .ok ([],c)
  | c, (inputIds,mask) :: batch => do
      let (r,c) ← row cfg vis env c inputIds mask
      let (rs,c) ← rows cfg vis env c batch
      pure (r :: rs,c)

/-- `attention_mask.cumsum(-1) - 1`, with `acc` ones before. -/
def cumsumMask (acc : Nat) : List Bool → List Int
  | [] => []
  | b :: mask => let acc := if b then acc+1 else acc
      ((acc : Int)-1) :: cumsumMask acc mask

/-- The branch without images and videos; masked columns are filled with one. -/
def textRow (mask : List Bool) : Py (List Pos × Int) := do
  let positions := (cumsumMask 0 mask).zip mask |>.map fun (i,b) => Pos.diag (if b then i else 1)
  let top ← blockMax positions
  pure (positions,top+1-mask.count true)

/-- The scanning branch of `get_rope_index`, with the final cursors. -/
def scanBatch (cfg : Config) (vis : LlmPosIdsForVision) (inputIds : List (List Token))
    (imageGridThw videoGridThw : Option (List Thw)) (attentionMask : List (List Bool))
    (useAudioInVideo : Bool) (audioSeqlens : Option (List Nat))
    (secondPerGrids : Option (List ℚ)) : Py (List (List Pos × Int) × Carried) := do
  let env ← prepare imageGridThw videoGridThw useAudioInVideo audioSeqlens secondPerGrids
  rows cfg vis env ⟨.zero,none⟩ (inputIds.zip attentionMask)

/-- `get_rope_index`: for each row its position columns and its delta. -/
def getRopeIndex (cfg : Config) (vis : LlmPosIdsForVision) (inputIds : List (List Token))
    (imageGridThw videoGridThw : Option (List Thw)) (attentionMask : List (List Bool))
    (useAudioInVideo : Bool) (audioSeqlens : Option (List Nat))
    (secondPerGrids : Option (List ℚ)) : Py (List (List Pos × Int)) :=
  if imageGridThw.isSome || videoGridThw.isSome then do
    let (rs,_) ← scanBatch cfg vis inputIds imageGridThw videoGridThw attentionMask
      useAudioInVideo audioSeqlens secondPerGrids
    pure rs
  else attentionMask.mapM textRow

end TLiveOmni.RopeIndex
