import TLiveOmni.Lib.Words
import TLiveOmni.Tokens

/-! The processor's text side: `replace_multimodal_special_tokens` rewrites the media tokens of
a batch of prompts, and the tokenizer splits the result at the special tokens. -/
set_option autoImplicit false

namespace TLiveOmni
open PySeq Words

/-- The special tokens of the tokenizer and the internal placeholders of the processor. -/
inductive Word where
  | audioPad | imagePad | videoPad | visionStart | visionEnd | audioStart | audioEnd
  | audioPlaceholder | imagePlaceholder | videoPlaceholder
  deriving DecidableEq, Repr

namespace Word

def spell : Word → List Char
  | .audioPad => "<|audio_pad|>".toList
  | .imagePad => "<|image_pad|>".toList
  | .videoPad => "<|video_pad|>".toList
  | .visionStart => "<|vision_start|>".toList
  | .visionEnd => "<|vision_end|>".toList
  | .audioStart => "<|audio_start|>".toList
  | .audioEnd => "<|audio_end|>".toList
  | .audioPlaceholder => "<|audio_placeholder|>".toList
  | .imagePlaceholder => "<|image_placeholder|>".toList
  | .videoPlaceholder => "<|video_placeholder|>".toList

/-- The special tokens have one id each; the tokenizer does not know the placeholders. -/
def token? : Word → Option Token
  | .audioPad => some .audioPad
  | .imagePad => some .imagePad
  | .videoPad => some .videoPad
  | .visionStart => some .visionStart
  | .visionEnd => some .visionEnd
  | .audioStart => some .audioStart
  | .audioEnd => some .audioEnd
  | _ => none

def specials : List Word :=
  [.audioPad,.imagePad,.videoPad,.visionStart,.visionEnd,.audioStart,.audioEnd]

end Word

/-- The tokenizer encodes the text between special tokens piece by piece. -/
structure Tokenizer where
  encodePlain : List Char → List Nat
  encodePlain_nil : encodePlain [] = []

namespace Tokenizer

/-- Encodes the symbols of a text, with the characters `run` of the current piece. -/
def encodeSyms (tk : Tokenizer) (run : List Char) : List (Sym Char Word) → List Token
  | [] => (tk.encodePlain run).map .text
  | .ch c :: l => tk.encodeSyms (run ++ [c]) l
  | .word w :: l => (tk.encodePlain run).map .text ++ (w.token?.toList ++ tk.encodeSyms [] l)

/-- `tokenizer.encode(text, add_special_tokens=False)`. -/
def encode (tk : Tokenizer) (text : List Char) : List Token :=
  tk.encodeSyms [] (lex Word.spell Word.specials text)

end Tokenizer

/-- One token per character. -/
def charTokenizer : Tokenizer := ⟨fun cs => cs.map Char.toNat,rfl⟩

/-- The entries of the video metadata the processor reads. -/
structure VideoMetadata where
  framesIndices : List Nat
  fps : ℚ

/-- The arguments of `replace_multimodal_special_tokens` that stay fixed over the batch. -/
structure WriterArgs where
  mergeSize : Nat
  temporalPatchSize : Nat
  audioLengths : List Nat
  imageGridThw : List Thw
  videoGridThw : List Thw
  videoSecondPerGrid : List ℚ
  useAudioInVideo : Bool
  positionIdPerSeconds : Nat
  videoMetadatas : Option (List VideoMetadata)

/-- `text * n`. -/
def repeated (w : Word) (n : Nat) : List Char := (List.replicate n w.spell).flatten

/-- Rounds a non-negative number to an integer, ties to even. -/
def roundHalfEven (q : ℚ) : Nat :=
  let n := ⌊q⌋.toNat
  if q-n < 1/2 then n else if 1/2 < q-n then n+1 else if n % 2 = 0 then n else n+1

/-- `f"{q:.1f}"`. -/
def fixedOne (q : ℚ) : List Char :=
  let n := roundHalfEven (|q| * 10)
  (if q < 0 then ['-'] else []) ++ Nat.toDigits 10 (n/10) ++ '.' :: Nat.toDigits 10 (n%10)

/-- `f"<{q:.1f} seconds>"`. -/
def timestampText (q : ℚ) : List Char := '<' :: (fixedOne q ++ " seconds>".toList)

/-- `_calculate_timestamps` with `return_in_seconds=False`: the midpoint of each patch. -/
def calculateTimestamps (indices : List Nat) (videoFps : ℚ) (mergeSize : Nat) : Py (List ℚ) := do
  let indices := if indices.length % mergeSize ≠ 0 then indices ++
      List.replicate (mergeSize-indices.length % mergeSize) (indices.getLast?.getD 0) else indices
  raiseIf (videoFps = 0 ∧ indices ≠ []) (.builtin .zeroDivisionError)
  let timestamps := indices.map fun i : Nat => (i : ℚ)/videoFps
  pure ((List.range (timestamps.length/mergeSize)).map fun i : Nat =>
    (timestamps.getD (i*mergeSize) 0+timestamps.getD (i*mergeSize+mergeSize-1) 0)/2)

/-- One timestamp per temporal grid, from the metadata if there is any. -/
def gridTimestamps (args : WriterArgs) (gridT : Nat) : Option VideoMetadata → Py (List ℚ)
  | some md => calculateTimestamps md.framesIndices md.fps args.temporalPatchSize
  | none => pure ((List.range gridT).map fun i : Nat => (i : ℚ))

/-- The boundaries of grids `i` to `gridT`, after the boundary `last`. -/
def boundariesFrom (audioLen : Nat) (factor : ℚ) : (i n : Nat) → (last : Int) → List Int
  | _, 0, _ => [(audioLen : Int)]
  | i, n+1, last =>
      let boundary := min (audioLen : Int) (max (truncate (i*factor+1/1000000)) last)
      boundary :: boundariesFrom audioLen factor (i+1) n boundary

/-- `audio_boundaries`. -/
def audioBoundaries (gridT audioLen : Nat) (factor : ℚ) : List Int :=
  0 :: boundariesFrom audioLen factor 1 (gridT-1) 0

/-- The visual-only branch of `_generate_video_placeholder`. -/
def silentPlaceholder (args : WriterArgs) (thw : Thw) (timestamps : List ℚ) : List Char :=
  let tokenLenPerFrame := thw.h*thw.w/args.mergeSize^2
  (List.range thw.t).flatMap fun i : Nat =>
    timestampText (timestamps.getD i i) ++ (Word.spell .visionStart ++
      (repeated .videoPlaceholder tokenLenPerFrame ++ Word.spell .visionEnd))

/-- The branch of `_generate_video_placeholder` with audio. -/
def voicedPlaceholder (args : WriterArgs) (thw : Thw) (timestamps : List ℚ) (audioLength : Nat)
    (secondPerGrid : ℚ) : List Char :=
  let videoTokensPerGrid := thw.h/args.mergeSize*(thw.w/args.mergeSize)
  let boundaries := audioBoundaries thw.t audioLength (secondPerGrid*args.positionIdPerSeconds)
  (List.range thw.t).flatMap fun i : Nat =>
    let currTime := if timestamps = [] then (i : ℚ)
      else timestamps.getD (min i (timestamps.length-1)) 0
    let audioSeqLength := (boundaries.getD (i+1) 0-boundaries.getD i 0).toNat
    timestampText currTime ++ (Word.spell .visionStart ++ (Word.spell .audioStart ++
      (repeated .videoPlaceholder videoTokensPerGrid ++ (repeated .audioPlaceholder audioSeqLength ++
        (Word.spell .audioEnd ++ Word.spell .visionEnd)))))

structure Indices where
  audioIdx : Nat
  imageIdx : Nat
  videoIdx : Nat
  deriving DecidableEq

/-- The loop variables of one sample. -/
structure Progress extends Indices where
  sample : List Char
  sampleVideoCount : Nat

section Writer
variable (args : WriterArgs)

def replaceAudio (s : Progress) : Py Progress :=
  match args.audioLengths[s.audioIdx]? with
  | none => .error (.raised .valueError
      "The prompt contains more audio tokens than supplied audio inputs.")
  | some audioLength => .ok { s with
      sample := replaceFirst (Word.spell .audioPad) (repeated .audioPlaceholder audioLength) s.sample
      audioIdx := s.audioIdx+1 }

def replaceImage (s : Progress) : Py Progress :=
  match args.imageGridThw[s.imageIdx]? with
  | none => .error (.raised .valueError
      "The prompt contains more image tokens than supplied image inputs.")
  | some thw => .ok { s with
      sample := replaceFirst (Word.spell .imagePad)
        (repeated .imagePlaceholder (thw.prod/args.mergeSize^2)) s.sample
      imageIdx := s.imageIdx+1 }

def wrappedVideoToken : List Char :=
  Word.spell .visionStart ++ (Word.spell .videoPad ++ Word.spell .visionEnd)

/-- `video_metadatas[video_idx] if video_metadatas else None`. -/
def metadataAt (videoIdx : Nat) : Py (Option VideoMetadata) :=
  match args.videoMetadatas with
  | none => pure none
  | some [] => pure none
  | some (m :: ms) => do return some (← getItem (m :: ms) videoIdx)

def replaceVideo (s : Progress) : Py Progress := do
  let thw ← match args.videoGridThw[s.videoIdx]? with
    | none => throw (.raised .valueError
        "The prompt contains more video tokens than supplied video inputs.")
    | some thw => pure thw
  raiseIf (args.useAudioInVideo = true ∧ args.audioLengths.length ≤ s.audioIdx) (.raised .valueError
    "Each vocal video requires one matching audio track.")
  let md ← metadataAt args s.videoIdx
  let placeholder ←
    if args.useAudioInVideo then do
      let audioLength ← getItem args.audioLengths s.audioIdx
      let secondPerGrid ← getItem args.videoSecondPerGrid s.videoIdx
      let timestamps ← gridTimestamps args thw.t md
      pure (voicedPlaceholder args thw timestamps audioLength secondPerGrid)
    else do
      let timestamps ← gridTimestamps args thw.t md
      pure (silentPlaceholder args thw timestamps)
  let sample := if isIn wrappedVideoToken s.sample
    then replaceFirst wrappedVideoToken placeholder s.sample
    else replaceFirst (Word.spell .videoPad) placeholder s.sample
  pure { s with
    sample := sample
    audioIdx := if args.useAudioInVideo then s.audioIdx+1 else s.audioIdx
    videoIdx := s.videoIdx+1
    sampleVideoCount := s.sampleVideoCount+1 }

/-- The body of the loop over the media tokens found in the sample. -/
def replaceOne (s : Progress) : Word → Py Progress
  | .audioPad => replaceAudio args s
  | .imagePad => replaceImage args s
  | .videoPad => replaceVideo args s
  | _ => pure s

/-- `_validate_video_audio_tokens`. -/
def validateVideoAudioTokens (ids : List Token) : Py Unit := do
  raiseIf (ids.count .visionStart ≠ ids.count .visionEnd) (.raised .valueError
    s!"Video start/end token count mismatch: {ids.count .visionStart} != {ids.count .visionEnd}")
  raiseIf (ids.count .audioStart ≠ ids.count .audioEnd) (.raised .valueError
    s!"Audio start/end token count mismatch: {ids.count .audioStart} != {ids.count .audioEnd}")

/-- One sample. `re.finditer` yields the matches in order, which the two sorts keep. -/
def replaceSample (tk : Tokenizer) (idx : Indices) (sample : List Char) :
    Py (List Char × Indices) := do
  let positions := findWords Word.spell [.audioPad,.imagePad,.videoPad] sample
  let s ← positions.foldlM (replaceOne args) ⟨idx,sample,0⟩
  let sample := replaceAll (Word.spell .audioPlaceholder) (Word.spell .audioPad) s.sample
  let sample := replaceAll (Word.spell .imagePlaceholder) (Word.spell .imagePad) sample
  let sample := replaceAll (Word.spell .videoPlaceholder) (Word.spell .videoPad) sample
  if args.useAudioInVideo = true ∧ 0 < s.sampleVideoCount then
    validateVideoAudioTokens (tk.encode sample)
  pure (sample,s.toIndices)

def replaceSamples (tk : Tokenizer) (idx : Indices) : List (List Char) →
    Py (List (List Char) × Indices)
  | [] => pure ([],idx)
  | sample :: text => do
      let (sample,idx) ← replaceSample args tk idx sample
      let (rest,idx) ← replaceSamples tk idx text
      pure (sample :: rest,idx)

/-- `name=used/available` of each modality that was not used up. -/
def unconsumed (idx : Indices) : List String :=
  [("audio",idx.audioIdx,args.audioLengths.length),("image",idx.imageIdx,args.imageGridThw.length),
    ("video",idx.videoIdx,args.videoGridThw.length)].filterMap fun (name,used,available) =>
      if used ≠ available then some s!"{name}={used}/{available}" else none

/-- `replace_multimodal_special_tokens`. -/
def replaceMultimodalSpecialTokens (tk : Tokenizer) (text : List (List Char)) :
    Py (List (List Char)) := do
  let (processed,idx) ← replaceSamples args tk ⟨0,0,0⟩ text
  let details := ", ".intercalate (unconsumed args idx)
  raiseIf (unconsumed args idx ≠ [] ∧ ∃ sample ∈ text, sample ≠ []) (.raised .valueError
    s!"Prompt/media count mismatch: {details}.")
  pure processed

end Writer
end TLiveOmni
