import TLiveOmni.MropeParse
import TLiveOmni.RopeIndexBatch

/-! The two position parsers give a sequence the same positions. -/
set_option autoImplicit false

namespace TLiveOmni
open PySeq

namespace Mrope
variable {m : Nat}

/-- The features hold the media of the sample in order, and every video says whether it was
written with its audio. -/
structure Carries (s : Sample m) (useAudioInVideo : Bool) (mmFeatures : List Feature) : Prop where
  images : (sortedFeatures mmFeatures).filterMap FeatureData.imageGrid? = s.images.map Grid.thw
  videos : (sortedFeatures mmFeatures).filterMap FeatureData.videoGrid? = s.videos.map Grid.thw
  audios : (sortedFeatures mmFeatures).filterMap FeatureData.audioLen? = s.audios
  flags : ∀ d ∈ sortedFeatures mmFeatures, d.videoGrid?.isSome = true →
    d.usesAudio = useAudioInVideo

@[simp] theorem tensor_getD {α : Type} (l : List α) : (tensor l).getD [] = l := by
  by_cases h : l = [] <;> simp [tensor,h]

theorem tensor_eq_none {α : Type} {l : List α} : tensor l = none ↔ l = [] := by
  by_cases h : l = [] <;> simp [tensor,h]

theorem videos_ne_nil {s : Sample m} (h : s.hasAv = true) : s.videos ≠ [] := by
  intro hnil
  have hg := s.gridsEq
  rw [hnil] at hg
  obtain ⟨it,hit,hav⟩ := List.any_eq_true.mp h
  have hempty : it.media.grids = [] := List.flatMap_eq_nil_iff.mp hg it hit
  cases hm : it.media <;> simp_all [Media.isAv,Media.grids]

variable {s : Sample m} {u : Bool} {mmFeatures : List Feature}

/-- The flag is read off the video features. -/
theorem Carries.uniform (h : Carries s u mmFeatures) (hu : s.Uniform u) :
    s.Uniform ((sortedFeatures mmFeatures).any FeatureData.usesAudio) := by
  intro hav
  refine ⟨?_,(hu hav).2⟩
  have hne : (sortedFeatures mmFeatures).filterMap FeatureData.videoGrid? ≠ [] := by
    rw [h.videos]
    simpa using videos_ne_nil hav
  obtain ⟨g,hg⟩ := List.exists_mem_of_ne_nil _ hne
  obtain ⟨d,hd,hdg⟩ := List.mem_filterMap.mp hg
  exact List.any_eq_true.mpr ⟨d,hd,by rw [h.flags d hd (by simp [hdg]),(hu hav).1]⟩

theorem length_second (data : List FeatureData) :
    (data.filterMap FeatureData.second?).length =
      (data.filterMap FeatureData.videoGrid?).length := by
  induction data with
  | nil => rfl
  | cons d data ih =>
    cases d <;> simp only [List.filterMap_cons,FeatureData.second?,FeatureData.videoGrid?,
      List.length_cons,ih]

theorem Carries.supplies (h : Carries s u mmFeatures) :
    Supplies [s] (tensor ((sortedFeatures mmFeatures).filterMap FeatureData.imageGrid?))
      (tensor ((sortedFeatures mmFeatures).filterMap FeatureData.videoGrid?))
      (tensor ((sortedFeatures mmFeatures).filterMap FeatureData.audioLen?))
      (tensor ((sortedFeatures mmFeatures).filterMap FeatureData.second?)) where
  images := by simp [h.images]
  videos := by simp [h.videos]
  audios := by simp [h.audios]
  seconds := by
    intro l hl
    have hget := tensor_getD ((sortedFeatures mmFeatures).filterMap FeatureData.second?)
    rw [hl] at hget
    rw [show l = _ from hget,length_second,h.videos]
    simp

end Mrope

section Agreement
variable (cfg : Config) (vis : RopeIndex.LlmPosIdsForVision) {u : Bool}
variable {s : Sample cfg.spatialMergeSize} {mmFeatures : List Mrope.Feature}
variable {image video : Option (List Thw)} {audio : Option (List Nat)} {seconds : Option (List ℚ)}

theorem getMropeInputPositions_wire (hu : s.Uniform u) (h : Mrope.Carries s u mmFeatures) :
    Mrope.getMropeInputPositions cfg s.wire mmFeatures =
      .ok (s.positions cfg.positionIdPerSeconds,s.delta cfg.positionIdPerSeconds) := by
  obtain ⟨env,hprep,huse,himg,hvid,-,hat⟩ := prepare_ok
    ((Mrope.sortedFeatures mmFeatures).any Mrope.FeatureData.usesAudio) h.supplies
  simp only [List.flatMap_cons,List.flatMap_nil,List.append_nil] at hat
  simp only [Mrope.getMropeInputPositions,Mrope.mediaArgs,hprep,ok_bind]
  by_cases hnone : env.imageGridThw = none ∧ env.videoGridThw = none
  · obtain ⟨hi,hv⟩ := hnone
    rw [himg,Mrope.tensor_eq_none,h.images,List.map_eq_nil_iff] at hi
    rw [hvid,Option.map_eq_none_iff,Mrope.tensor_eq_none,h.videos,List.map_eq_nil_iff] at hv
    rw [if_pos ⟨by rw [himg,Mrope.tensor_eq_none,h.images,hi]; rfl,
      by rw [hvid,Option.map_eq_none_iff,Mrope.tensor_eq_none,h.videos,hv]; rfl⟩,
      s.positions_plain hi hv,s.delta_plain hi hv]
    rfl
  · have hscan := Mrope.scan_wire cfg env (huse ▸ h.uniform hu) hat
    have hne := s.blocks_ne_nil cfg.positionIdPerSeconds
    have hlen := s.length_positions cfg.positionIdPerSeconds
    have hmax : Mrope.arrayMax (s.positions cfg.positionIdPerSeconds) =
        .ok (s.top cfg.positionIdPerSeconds) := by
      rw [Mrope.arrayMax,s.blockMax_positions]; rfl
    rw [Sample.positions] at hlen hmax
    simp only [if_neg hnone,hscan,ok_bind,pure_eq_ok,raiseIf_of_not hne,
      raiseIf_of_not (not_not.mpr hlen),hmax]
    rfl

/-- On a sequence whose videos are all silent or all carry audio, both parsers return the
same columns, one per token, and the same delta. -/
theorem parsers_agree (hu : s.Uniform u) (hs : Supplies [s] image video audio seconds)
    (hc : Mrope.Carries s u mmFeatures) :
    ∃ positions delta, positions.length = s.wire.length ∧
      RopeIndex.getRopeIndex cfg vis [s.wire] image video
        [List.replicate s.wire.length true] u audio seconds = .ok [(positions,delta)] ∧
      Mrope.getMropeInputPositions cfg s.wire mmFeatures = .ok (positions,delta) :=
  ⟨_,_,s.length_positions _,RopeIndex.getRopeIndex_alone cfg vis hu hs,
    getMropeInputPositions_wire cfg hu hc⟩

end Agreement

section Instances
open RopeIndex Mrope

/-- An image, a video with its audio and a standalone audio, between text. -/
def threeKinds : Sample 2 :=
  ⟨[⟨[7],.image (.ofSides 1 1 2)⟩,
      ⟨[],.avGrid (.ofSides 2 2) 1 (some 4)⟩,
      ⟨[8,9],.audio ⟨20,by decide⟩⟩],[7],
    [.ofSides 1 2 2],rfl,by decide⟩

def threeFeatures : List Feature :=
  [⟨2,.image ⟨1,2,4⟩⟩,⟨5,.video ⟨1,4,4⟩ none (some true)⟩,⟨10,.audio 4⟩,⟨16,.audio 20⟩]

theorem sortedFeatures_three : sortedFeatures threeFeatures =
    [.image ⟨1,2,4⟩,.video ⟨1,4,4⟩ none (some true),.audio 4,.audio 20] := by
  simp [sortedFeatures,threeFeatures,List.mergeSort_of_pairwise]

theorem threeFeatures_carries : Carries threeKinds true threeFeatures := by
  constructor <;> rw [sortedFeatures_three]
  · rfl
  · rfl
  · rfl
  · simp [FeatureData.videoGrid?,FeatureData.usesAudio]

theorem threeKinds_agree :
    ∃ positions delta, positions.length = threeKinds.wire.length ∧
      getRopeIndex .mergeTwo .reference [threeKinds.wire] (some [⟨1,2,4⟩]) (some [⟨1,4,4⟩])
        [List.replicate threeKinds.wire.length true] true (some [4,20]) none =
          .ok [(positions,delta)] ∧
      getMropeInputPositions .mergeTwo threeKinds.wire threeFeatures = .ok (positions,delta) :=
  parsers_agree .mergeTwo .reference (by decide) ⟨rfl,rfl,rfl,by simp⟩ threeFeatures_carries

/-- A silent video, a video with its audio and a standalone audio. -/
def silentThenSound : Sample 2 :=
  ⟨[⟨[],.grid (.ofSides 1 1) true⟩,
      ⟨[],.avGrid (.ofSides 1 1) 1 (some 4)⟩,
      ⟨[],.audio ⟨4,by decide⟩⟩],[],
    [.ofSides 1 1 1,
      .ofSides 1 1 1],rfl,by decide⟩

def mixedFeatures : List Feature :=
  [⟨1,.video ⟨1,2,2⟩ none (some true)⟩,⟨4,.video ⟨1,2,2⟩ none (some true)⟩,⟨6,.audio 4⟩,
    ⟨10,.audio 4⟩]

theorem sortedFeatures_mixed : sortedFeatures mixedFeatures =
    [.video ⟨1,2,2⟩ none (some true),.video ⟨1,2,2⟩ none (some true),.audio 4,.audio 4] := by
  simp [sortedFeatures,mixedFeatures,List.mergeSort_of_pairwise]

/-- Both loops count only one of the two videos and take the rest for standalone audio; one
parser then raises and the other does not. The empty sequence tells them apart as well. -/
theorem silentThenSound_disagree :
    (silentThenSound.hasAv = true ∧
      Supplies [silentThenSound] none (some [⟨1,2,2⟩,⟨1,2,2⟩]) (some [4,4]) none ∧
      Carries silentThenSound true mixedFeatures ∧
      getRopeIndex .mergeTwo .reference [silentThenSound.wire] none (some [⟨1,2,2⟩,⟨1,2,2⟩])
        [List.replicate silentThenSound.wire.length true] true (some [4,4]) none =
          .ok [(arange3 12 0,0)] ∧
      getMropeInputPositions .mergeTwo silentThenSound.wire mixedFeatures =
        .error (.raised .valueError "Standalone audio span expected only audio_pad tokens between audio_start and audio_end.")) ∧
    getRopeIndex .mergeTwo .reference [[]] none none [[]] false none none =
      .error (.builtin .runtimeError) ∧
    getMropeInputPositions .mergeTwo [] [] = .ok ([],0) := by
  refine ⟨⟨by decide,⟨rfl,rfl,rfl,by simp⟩,?_,by decide +kernel,?_⟩,by decide +kernel,?_⟩
  · constructor <;> rw [sortedFeatures_mixed]
    · rfl
    · rfl
    · rfl
    · simp [FeatureData.videoGrid?,FeatureData.usesAudio]
  · rw [getMropeInputPositions,mediaArgs,sortedFeatures_mixed]
    decide +kernel
  · simp [getMropeInputPositions,mediaArgs,sortedFeatures,tensor,prepare,arange3]

end Instances
end TLiveOmni
