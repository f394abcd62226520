import TLiveOmni.Tokens

/-! What the scanning loops of the two position parsers have in common: the media arguments,
the cursors and counters, and their initial values. -/
set_option autoImplicit false

namespace TLiveOmni
open PySeq

/-- The media arguments after videos have been split per temporal grid. -/
structure MediaArgs where
  imageGridThw : Option (List Thw)
  videoGridThw : Option (List Thw)
  secondPerGrids : List ℚ
  videoChunkEndIndices : List Nat
  useAudioInVideo : Bool
  audioSeqlens : Option (List Nat)

/-- The preparation of the media arguments, done once for the whole batch. -/
def prepare (imageGridThw videoGridThw : Option (List Thw)) (useAudioInVideo : Bool)
    (audioSeqlens : Option (List Nat)) (secondPerGrids : Option (List ℚ)) : Py MediaArgs :=
  match videoGridThw with
  | none => pure ⟨imageGridThw,none,secondPerGrids.getD [],[],useAudioInVideo,audioSeqlens⟩
  | some videos => do
      let seconds := secondPerGrids.getD (List.replicate videos.length 1)
      let seconds ← repeatInterleave seconds (videos.map Thw.t)
      pure ⟨imageGridThw,some (splitVideos videos),seconds,cumsum 0 (videos.map Thw.t),
        useAudioInVideo,audioSeqlens⟩

structure Cursors where
  imageIdx : Nat
  videoIdx : Nat
  audioIdx : Nat
  deriving DecidableEq

def Cursors.zero : Cursors := ⟨0,0,0⟩

structure LoopState extends Cursors where
  blocks : List Block
  st : Nat
  remainImages : Int
  remainVideos : Int
  remainAudios : Int

def LoopState.multimodalNums (s : LoopState) : Int :=
  s.remainImages+s.remainVideos+s.remainAudios

/-- The counters the loop starts from. -/
def initialState (env : MediaArgs) (tokens : List Token) (c : Cursors) : LoopState :=
  let visionToks := visionTokens tokens
  let audioStartNums := tokens.count .audioStart
  let imageNums := visionToks.count .imagePad
  let videoAudioNums := visionToks.count .audioEnd
  let videoOnlyNums := visionToks.count .videoPad
  let videoNums :=
    if env.useAudioInVideo && decide (0 < videoAudioNums) then videoAudioNums else videoOnlyNums
  { c with
    blocks := []
    st := 0
    remainImages := imageNums
    remainVideos := videoNums
    remainAudios := (audioStartNums : Int)-videoAudioNums }

end TLiveOmni
