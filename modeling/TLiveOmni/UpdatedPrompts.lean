import TLiveOmni.NestedParse

/-! The position parser on the prompts the vLLM processor makes from token prompts in the form
`get_placeholder_str` writes. -/
set_option autoImplicit false

namespace TLiveOmni
namespace Vllm
open PySeq Words Expand

/-- The features of a request hold its processed data, in the order of the prompt. -/
structure FeaturesOf (d : UpdateArgs) (mmFeatures : List Mrope.Feature) : Prop where
  images : (Mrope.sortedFeatures mmFeatures).filterMap Mrope.FeatureData.imageGrid? =
    d.imageGridThw
  videos : (Mrope.sortedFeatures mmFeatures).filterMap Mrope.FeatureData.videoGrid? =
    d.videoGridThw
  audios : (Mrope.sortedFeatures mmFeatures).filterMap Mrope.FeatureData.audioLen? =
    d.audioFeatureLengths
  flags : ∀ x ∈ Mrope.sortedFeatures mmFeatures, x.videoGrid?.isSome = true →
    x.usesAudio = d.useAudioInVideo

/-- The audios of the prompt: one for each video under the flag, else the standalone ones. -/
def AudiosOf {m : Nat} (d : UpdateArgs) (pr : TokenPrompt m) : Prop :=
  if d.useAudioInVideo then pr.clips = [] ∧ d.counts .audio = d.counts .video
  else d.audioFeatureLengths = pr.clips.map AudioClip.featureLen

section Features
variable {m : Nat} {d : UpdateArgs} {mmFeatures : List Mrope.Feature}
  {images videos : List (Grid m)}

theorem usesAudio_of_image {x : Mrope.FeatureData} (h : x.usesAudio = true) :
    x.videoGrid?.isSome = true := by
  cases x with
  | video g s u => rfl
  | image g => cases h
  | audio n => cases h

theorem FeaturesOf.flag (h : FeaturesOf d mmFeatures) (hne : d.videoGridThw ≠ []) :
    (Mrope.sortedFeatures mmFeatures).any Mrope.FeatureData.usesAudio = d.useAudioInVideo := by
  rw [← h.videos] at hne
  obtain ⟨g,hg⟩ := List.exists_mem_of_ne_nil _ hne
  obtain ⟨x,hx,hxg⟩ := List.mem_filterMap.mp hg
  have hxu := h.flags x hx (by simp [hxg])
  cases hu : d.useAudioInVideo with
  | true => exact List.any_eq_true.mpr ⟨x,hx,hxu.trans hu⟩
  | false =>
    rw [List.any_eq_false]
    intro y hy hyu
    have := h.flags y hy (usesAudio_of_image hyu)
    rw [hyu,hu] at this
    cases this

theorem FeaturesOf.media (h : FeaturesOf d mmFeatures) (hd : Describes d images videos) :
    ∃ env, Mrope.mediaArgs mmFeatures = .ok env ∧
      (videos ≠ [] → env.useAudioInVideo = d.useAudioInVideo) ∧
      (images = [] → env.imageGridThw = none) ∧ (videos = [] → env.videoGridThw = none) ∧
      At env .zero images (expandVideos videos) d.audioFeatureLengths := by
  have hsecond : ∀ l, Mrope.tensor ((Mrope.sortedFeatures mmFeatures).filterMap
      Mrope.FeatureData.second?) = some l → l.length = videos.length := by
    intro l hl
    have hget := Mrope.tensor_getD ((Mrope.sortedFeatures mmFeatures).filterMap
      Mrope.FeatureData.second?)
    rw [hl] at hget
    rw [show l = _ from hget,Mrope.length_second,h.videos,hd.videos,List.length_map]
  obtain ⟨env,hprep,huse,himg,hvid,-,hat⟩ := prepare_lists
    ((Mrope.sortedFeatures mmFeatures).any Mrope.FeatureData.usesAudio)
    ((Mrope.tensor_getD _).trans (h.images.trans hd.images))
    ((Mrope.tensor_getD _).trans (h.videos.trans hd.videos))
    ((Mrope.tensor_getD _).trans h.audios) hsecond
  refine ⟨env,hprep,fun hne => huse.trans (h.flag ?_),fun hnil => ?_,fun hnil => ?_,hat⟩
  · rw [hd.videos]
    simpa using hne
  · rw [himg,Mrope.tensor_eq_none,h.images,hd.images,hnil]
    rfl
  · rw [hvid,Option.map_eq_none_iff,Mrope.tensor_eq_none,h.videos,hd.videos,hnil]
    rfl

end Features

section Plain
variable (cfg : Config) {d : UpdateArgs} {mmFeatures : List Mrope.Feature}
  {pr : TokenPrompt cfg.spatialMergeSize}

theorem TokenPrompt.updated_plain {m : Nat} {pr : TokenPrompt m} (h : pr.videos = []) :
    pr.updated [] = wireItems (plainItems pr.parts) ++ wireText pr.tail := by
  have := nest_plain h [] []
  rw [List.append_nil] at this
  rw [updated,this,nestWire_append,nestWire_plain]
  simp [nest,nestWire]

theorem videoPad_notMem_plain {m : Nat} {items : List (Item m)}
    (h : items.flatMap (·.media.grids) = []) (tail : List Nat) :
    .videoPad ∉ wireItems items ++ wireText tail := by
  intro hmem
  rcases List.mem_append.mp hmem with hmem | hmem
  · obtain ⟨it,hit,hmem⟩ := List.mem_flatMap.mp hmem
    have hnone := List.flatMap_eq_nil_iff.mp h it hit
    rcases List.mem_append.mp hmem with hmem | hmem
    · exact notMem_wireText rfl _ hmem
    · cases hm : it.media <;> simp_all [Media.wire,Media.grids]
  · exact notMem_wireText rfl _ hmem

/-- Images and audios come out as the parser expects them. -/
theorem parses_plain (hd : Describes d pr.images pr.videos) (ha : AudiosOf d pr)
    (hf : FeaturesOf d mmFeatures) (hnone : pr.videos = []) :
    Mrope.Parses cfg (pr.updated []) mmFeatures pr.videos := by
  obtain ⟨env,hmedia,-,himg,hvid,hat⟩ := hf.media hd
  obtain ⟨himages,hgrids,haudios,hav⟩ := plainItems_media pr.parts
  have haud : d.audioFeatureLengths = (plainItems pr.parts).flatMap (·.media.audios) := by
    rw [haudios]
    unfold AudiosOf at ha
    split at ha
    · have hlen : d.audioFeatureLengths.length = d.videoGridThw.length := ha.2
      rw [hd.videos,hnone] at hlen
      rw [List.eq_nil_of_length_eq_zero hlen,show pr.parts.filterMap (·.ask.audio?) = [] from ha.1]
      rfl
    · exact ha
  have hpad : .videoPad ∉ pr.updated [] := by
    rw [TokenPrompt.updated_plain hnone]
    exact videoPad_notMem_plain hgrids pr.tail
  by_cases hempty : plainItems pr.parts = [] ∧ pr.tail = []
  · have hnil : pr.updated [] = [] := by
      rw [TokenPrompt.updated_plain hnone,hempty.1,hempty.2]
      rfl
    rw [hempty.1] at himages
    have himages : pr.images = [] := himages.symm
    rw [hnil]
    constructor
    · refine ⟨[],0,?_,rfl,?_⟩
      · simp [Mrope.getMropeInputPositions,hmedia,himg himages,hvid hnone,arange3]
      · rw [hnone]
        exact videoPositions_eq_nil (by simp) _
    · intro env' henv k st loc hk
      simp [initialState,visionTokens,LoopState.multimodalNums] at hk
  · have hne : plainItems pr.parts ≠ [] ∨ pr.tail ≠ [] := by
      by_contra h
      simp only [not_or,not_not] at h
      exact hempty h
    let smp : Sample cfg.spatialMergeSize :=
      ⟨plainItems pr.parts,pr.tail,[],by rw [hgrids]; rfl,hne⟩
    have hwire : pr.updated [] = smp.wire := TokenPrompt.updated_plain hnone
    have hcarries : Mrope.Carries smp d.useAudioInVideo mmFeatures := by
      refine ⟨?_,?_,?_,hf.flags⟩
      · rw [hf.images,hd.images]
        exact congrArg (List.map Grid.thw) himages.symm
      · rw [hf.videos,hd.videos,hnone]
      · exact hf.audios.trans haud
    have hu : smp.Uniform d.useAudioInVideo := fun h => by
      rw [show smp.hasAv = false from hav] at h
      cases h
    rw [hwire] at hpad ⊢
    constructor
    · refine ⟨_,_,getMropeInputPositions_wire cfg hu hcarries,smp.length_positions _,?_⟩
      rw [hnone]
      exact videoPositions_eq_nil hpad _
    · intro env' henv
      obtain rfl : env = env' := Except.ok.inj (hmedia.symm.trans henv)
      refine apart_plain cfg rfl hav ?_
      rw [hnone,haud] at hat
      have hsame : pr.images = smp.images := himages.symm
      rw [hsame] at hat
      exact hat

end Plain

section Updates
variable {m : Nat} {tk : TokenizerLike} {d : UpdateArgs} {pr : TokenPrompt m} {updates : Updates}
  {auds imgs vids : List (List Token)}

theorem count_askWire (p : AskPart m) (mo : Modality) :
    p.wire.count mo.pad = if p.ask.modality = mo then 1 else 0 := by
  obtain ⟨text,ask⟩ := p
  have htext : (wireText text).count mo.pad = 0 :=
    List.count_eq_zero.mpr (notMem_wireText (by cases mo <;> rfl) text)
  rw [AskPart.wire,List.count_append,htext]
  cases ask <;> cases mo <;> rfl

theorem TokenPrompt.count_wire (pr : TokenPrompt m) :
    pr.wire.count .imagePad = pr.images.length ∧ pr.wire.count .videoPad = pr.videos.length ∧
      pr.wire.count .audioPad = pr.clips.length := by
  obtain ⟨parts,tail⟩ := pr
  have htail (mo : Modality) : (wireText tail).count mo.pad = 0 :=
    List.count_eq_zero.mpr (notMem_wireText (by cases mo <;> rfl) tail)
  have hi := htail .image
  have hv := htail .video
  have ha := htail .audio
  simp only [Modality.pad] at hi hv ha
  simp only [wire,images,videos,clips,List.count_append,hi,hv,ha,Nat.add_zero]
  induction parts with
  | nil => exact ⟨rfl,rfl,rfl⟩
  | cons p parts ih =>
    obtain ⟨ihi,ihv,iha⟩ := ih
    have hpi := count_askWire p .image
    have hpv := count_askWire p .video
    have hpa := count_askWire p .audio
    simp only [Modality.pad] at hpi hpv hpa
    simp only [List.flatMap_cons,List.count_append,ihi,ihv,iha,hpi,hpv,hpa]
    obtain ⟨text,ask⟩ := p
    cases ask <;> simp [Ask.modality,Ask.image?,Ask.video?,Ask.audio?,Nat.add_comm]

theorem Bound.spans {images videos : List (Grid m)} (hb : Bound tk d updates auds imgs vids)
    (hd : Describes d images videos) : ∃ spans : List (List (Item m)), spans.map wireItems = vids ∧
      ∀ s ∈ spans, SpansOf d.useAudioInVideo s := by
  refine exists_map_eq fun c hc => ?_
  obtain ⟨i,hi⟩ := List.mem_iff_getElem?.mp hc
  cases hu : d.useAudioInVideo with
  | true =>
    obtain ⟨g,n,second,times,-,-,rfl⟩ := hb.sounding hd hu hi
    refine ⟨_,rfl,?_,?_⟩
    · have := g.tPos.ne'
      simpa [avItems] using this
    · simp [avItems,Media.isAv]
  | false =>
    obtain ⟨g,times,-,-,rfl⟩ := hb.silent hd hu hi
    refine ⟨_,rfl,?_⟩
    simp [SpansOf,silentItems,Media.isGrid]

theorem Bound.images_eq {images videos : List (Grid m)} (hb : Bound tk d updates auds imgs vids)
    (hd : Describes d images videos) :
    imgs = images.map fun g => List.replicate (g.t*g.toFrame.tokens) .imagePad := by
  have hlen : imgs.length = images.length := by
    rw [hb.imageCount,UpdateArgs.counts,hd.images,List.length_map]
  rw [← List.map_id imgs,map_eq_map_iff hlen]
  intro i c g hc hg
  obtain ⟨g',hg',rfl⟩ := hb.still hd hc
  obtain rfl : g = g' := Option.some.inj (hg.symm.trans hg')
  rfl

theorem Bound.audios_eq {clips : List AudioClip} (hb : Bound tk d updates auds imgs vids)
    (hc : d.audioFeatureLengths = clips.map AudioClip.featureLen) :
    auds = clips.map fun a => List.replicate a.tokens .audioPad := by
  have hlen : auds.length = clips.length := by
    rw [hb.audioCount,UpdateArgs.counts,hc,List.length_map]
  rw [← List.map_id auds,map_eq_map_iff hlen]
  intro i c a hi ha
  obtain ⟨n,hn,rfl,-⟩ := getReplacementAudio_ok (hb.audio i c hi)
  rw [hc,List.getElem?_map,ha] at hn
  obtain rfl : a.featureLen = n := Option.some.inj hn
  rfl

/-- The updates applied to a prompt: those of the audios only where the videos do not carry
them. -/
def applied (d : UpdateArgs) (updates : Updates) : Updates :=
  if d.useAudioInVideo then updates.filter fun x => decide (x.1 ≠ .audio) else updates

theorem map_full {mo : Modality} {e : Option Token} {contents : List (List Token)}
    {groups : Updates} (hs : groups.Sound) (hmem : (mo,resolved mo e contents) ∈ groups) :
    (groups.items.filter fun u => decide (u.mark = mo.pad)).map Update.full = contents := by
  rw [hs.filter_items hmem]
  exact (map_resolved mo e contents id).trans (List.map_id _)

theorem items_isPad (groups : Updates) : ∀ u ∈ groups.items, u.mark.isPad = true := by
  intro u _
  rw [Update.mark]
  cases u.modality <;> rfl

/-- Groups with the images, the videos and the right audios fill the prompt. -/
theorem Bound.apply_groups (hb : Bound tk d updates auds imgs vids)
    (hd : Describes d pr.images pr.videos) {groups : Updates} (hs : groups.Sound)
    (hfit : ∀ x ∈ groups, x.2.length ≤ pr.wire.count x.1.pad)
    (hi : (.image,resolved .image none imgs) ∈ groups)
    (hv : (.video,resolved .video (some .videoPad) vids) ∈ groups)
    (haud : (groups.items.filter fun u => decide (u.mark = .audioPad)).map Update.full =
      pr.clips.map fun a => List.replicate a.tokens .audioPad)
    {spans : List (List (Item m))} (hspans : spans.map wireItems = vids)
    (hlen : spans.length = pr.videos.length) :
    applyPromptUpdates tk pr.wire groups =
      .ok (pr.updated spans,findMmPlaceholders (pr.updated spans) groups) := by
  have hall := hs.unused_eq_nil hfit
  have hexp : expand Update.mark Update.full groups.items pr.wire = pr.updated spans :=
    expand_parts pr.parts spans pr.tail (items_isPad groups)
      ((map_full hs hi).trans (hb.images_eq hd)) haud ((map_full hs hv).trans hspans.symm) hlen
  simp only [applyPromptUpdates,applyMatches_eq,hall,if_true,hexp]

/-- Applying the updates nests the spans of the videos into the prompt. -/
theorem Bound.apply_updated (hb : Bound tk d updates auds imgs vids)
    (hd : Describes d pr.images pr.videos) (ha : AudiosOf d pr) :
    ∃ spans, (∀ s ∈ spans, SpansOf d.useAudioInVideo s) ∧ spans.length = pr.videos.length ∧
      applyPromptUpdates tk pr.wire (applied d updates) =
        .ok (pr.updated spans,findMmPlaceholders (pr.updated spans) (applied d updates)) := by
  obtain ⟨spans,hspans,hof⟩ := hb.spans hd
  have hlen : spans.length = pr.videos.length := by
    rw [← @List.length_map _ _ spans wireItems,hspans,hb.videoCount,UpdateArgs.counts,
      hd.videos,List.length_map]
  obtain ⟨hci,hcv,hca⟩ := pr.count_wire
  have hni : imgs.length = pr.images.length := by rw [hb.images_eq hd,List.length_map]
  have hnv : vids.length = pr.videos.length := by rw [← hspans,List.length_map,hlen]
  refine ⟨spans,hof,hlen,?_⟩
  cases hu : d.useAudioInVideo with
  | true =>
    have hclips : pr.clips = [] := by
      rw [AudiosOf,hu] at ha
      exact ha.1
    rw [applied,hu,if_pos rfl,hb.filtered]
    refine hb.apply_groups hd (visual_sound imgs vids) ?_ (by simp [visual]) (by simp [visual]) ?_
      hspans hlen
    · intro x hx
      simp only [visual,List.mem_cons,List.not_mem_nil,or_false] at hx
      rcases hx with rfl | rfl
      · exact ((length_resolved _ _ _).trans (hni.trans hci.symm)).le
      · exact ((length_resolved _ _ _).trans (hnv.trans hcv.symm)).le
    · rw [hclips,List.map_nil,List.map_eq_nil_iff,List.filter_eq_nil_iff]
      intro u hu
      obtain ⟨x,hx,hu⟩ := List.mem_flatMap.mp hu
      simp only [visual,List.mem_cons,List.not_mem_nil,or_false] at hx
      rcases hx with rfl | rfl <;> simp [Update.mark,(mem_resolved hu).1,Modality.pad]
  | false =>
    rw [AudiosOf,hu,if_neg (by simp)] at ha
    have haud := hb.audios_eq ha
    have hna : auds.length = pr.clips.length := by rw [haud,List.length_map]
    rw [applied,hu,if_neg (by simp)]
    refine hb.apply_groups hd hb.sound ?_ (by simp [hb.eq]) (by simp [hb.eq]) ?_ hspans hlen
    · intro x hx
      rw [hb.eq] at hx
      simp only [List.mem_cons,List.not_mem_nil,or_false] at hx
      rcases hx with rfl | rfl | rfl
      · exact ((length_resolved _ _ _).trans (hna.trans hca.symm)).le
      · exact ((length_resolved _ _ _).trans (hni.trans hci.symm)).le
      · exact ((length_resolved _ _ _).trans (hnv.trans hcv.symm)).le
    · have hmem : (.audio,resolved .audio none auds) ∈ updates := by simp [hb.eq]
      exact (map_full hb.sound hmem).trans haud

end Updates

section Main
variable (cfg : Config) {tk : TokenizerLike} {d : UpdateArgs}
  {pr : TokenPrompt cfg.spatialMergeSize} {updates : Updates} {mmFeatures : List Mrope.Feature}

/-- The parser reads an updated prompt exactly if no video is in it. -/
theorem updated_parses_iff (hd : Describes d pr.images pr.videos) (ha : AudiosOf d pr)
    (hup : getMmPromptUpdates tk d d.counts = .ok updates) (hf : FeaturesOf d mmFeatures) :
    ∃ ids ph, applyPromptUpdates tk pr.wire (applied d updates) = .ok (ids,ph) ∧
      (Mrope.Parses cfg ids mmFeatures pr.videos ↔ pr.videos = []) := by
  obtain ⟨auds,imgs,vids,hb⟩ := getMmPromptUpdates_ok hup
  obtain ⟨spans,hof,hlen,hap⟩ := hb.apply_updated hd ha
  refine ⟨_,_,hap,fun hparses => ?_,fun hnone => ?_⟩
  · by_contra hne
    obtain ⟨env,hmedia,hflag,-,-,hat⟩ := hf.media hd
    have hflag := hflag hne
    refine not_parses cfg hmedia hat (hflag ▸ hof) hlen ?_ hne hparses
    rw [hflag]
    unfold AudiosOf at ha
    cases hu : d.useAudioInVideo with
    | true =>
      rw [hu,if_pos rfl] at ha
      exact ha.1
    | false =>
      rw [hu,if_neg (by simp)] at ha
      exact ha
  · obtain rfl : spans = [] := List.eq_nil_of_length_eq_zero (by rw [hlen,hnone]; rfl)
    exact parses_plain cfg hd ha hf hnone

end Main

section Instances
open Mrope

/-- An image and an audio, without videos. -/
def stillArgs : UpdateArgs :=
  { silentAndAudio false with imageGridThw := [⟨1,2,4⟩], videoGridThw := [] }

def stillPrompt : TokenPrompt 2 :=
  ⟨[⟨[7],.image (.ofSides 1 1 2)⟩,⟨[],.audio halfSecond⟩],[8]⟩

def stillFeatures : List Mrope.Feature := [⟨2,.image ⟨1,2,4⟩⟩,⟨6,.audio 50⟩]

theorem sortedFeatures_still :
    sortedFeatures stillFeatures = [.image ⟨1,2,4⟩,.audio 50] := by
  simp [sortedFeatures,stillFeatures,List.mergeSort_of_pairwise]

theorem stillPrompt_parses : ∃ updates ids ph,
    getMmPromptUpdates charTokenizerLike stillArgs stillArgs.counts = .ok updates ∧
    applyPromptUpdates charTokenizerLike stillPrompt.wire (applied stillArgs updates) =
      .ok (ids,ph) ∧ Parses .mergeTwo ids stillFeatures stillPrompt.videos := by
  have hd : Describes stillArgs stillPrompt.images stillPrompt.videos := ⟨rfl,rfl,rfl⟩
  have hf : FeaturesOf stillArgs stillFeatures := by
    constructor <;> rw [sortedFeatures_still]
    · rfl
    · rfl
    · rfl
    · simp [FeatureData.videoGrid?]
  obtain ⟨updates,hup⟩ : ∃ updates, getMmPromptUpdates charTokenizerLike stillArgs
      stillArgs.counts = .ok updates := ⟨_,rfl⟩
  obtain ⟨ids,ph,happly,hiff⟩ := @updated_parses_iff .mergeTwo charTokenizerLike _ stillPrompt _ _
    hd rfl hup hf
  exact ⟨updates,ids,ph,hup,happly,hiff.mpr rfl⟩

/-- One video of a single grid with two tokens. -/
def videoArgs (useAudioInVideo : Bool) : UpdateArgs :=
  { silentAndAudio useAudioInVideo with
    audioFeatureLengths := if useAudioInVideo then [50] else []
    videoGridThw := [⟨1,2,4⟩] }

def videoPrompt : TokenPrompt 2 := ⟨[⟨[],.video (.ofSides 1 1 2)⟩],[]⟩

def silentFeatures : List Mrope.Feature := [⟨1,.video ⟨1,2,4⟩ none (some false)⟩]

def soundFeatures : List Mrope.Feature := [⟨1,.video ⟨1,2,4⟩ none (some true)⟩,⟨1,.audio 50⟩]

theorem sortedFeatures_silent :
    sortedFeatures silentFeatures = [.video ⟨1,2,4⟩ none (some false)] := by
  simp [sortedFeatures,silentFeatures]

theorem sortedFeatures_sound :
    sortedFeatures soundFeatures = [.video ⟨1,2,4⟩ none (some true),.audio 50] := by
  simp [sortedFeatures,soundFeatures,List.mergeSort_of_pairwise]

/-- A silent video gets its grid laid over the first characters of its timestamp, and its own
tokens are numbered like text; a video with audio is refused. -/
theorem videoPrompt_misread :
    (∃ updates ids ph, getMmPromptUpdates charTokenizerLike (videoArgs false)
        (videoArgs false).counts = .ok updates ∧
      applyPromptUpdates charTokenizerLike videoPrompt.wire (applied (videoArgs false) updates) =
        .ok (ids,ph) ∧
      FeaturesOf (videoArgs false) silentFeatures ∧
      ¬ Parses .mergeTwo ids silentFeatures videoPrompt.videos) ∧
    ∃ updates ids ph, getMmPromptUpdates charTokenizerLike (videoArgs true)
        (videoArgs true).counts = .ok updates ∧
      applyPromptUpdates charTokenizerLike videoPrompt.wire (applied (videoArgs true) updates) =
        .ok (ids,ph) ∧
      FeaturesOf (videoArgs true) soundFeatures ∧
      getMropeInputPositions .mergeTwo ids soundFeatures = .error (.raised .valueError
        "Audio-in-video span expected audio_start immediately after vision_start.") := by
  constructor
  · have hrun : (do
        let updates ← getMmPromptUpdates charTokenizerLike (videoArgs false)
          (videoArgs false).counts
        let out ← applyPromptUpdates charTokenizerLike videoPrompt.wire
          (applied (videoArgs false) updates)
        let read ← getMropeInputPositions .mergeTwo out.1 silentFeatures
        pure (videoPositions out.1 read.1)) = .ok [⟨15,15,15⟩,⟨16,16,16⟩] := by
      simp only [getMropeInputPositions,mediaArgs,sortedFeatures_silent]
      decide +kernel
    obtain ⟨updates,hup,hrun⟩ := bind_eq_ok.mp hrun
    obtain ⟨⟨ids,ph⟩,happly,hrun⟩ := bind_eq_ok.mp hrun
    obtain ⟨⟨positions,delta⟩,hok,hrun⟩ := bind_eq_ok.mp hrun
    refine ⟨updates,ids,ph,hup,happly,?_,fun h => ?_⟩
    · constructor <;> rw [sortedFeatures_silent]
      · rfl
      · rfl
      · rfl
      · simp [FeatureData.usesAudio,videoArgs,silentAndAudio]
    · obtain ⟨positions',delta',hok',-,hblocks⟩ := h.accepts
      obtain ⟨rfl,-⟩ := Prod.mk.inj (Except.ok.inj (hok.symm.trans hok'))
      rw [show videoPositions ids positions = _ from Except.ok.inj hrun] at hblocks
      obtain ⟨⟨b,hb⟩,-⟩ := hblocks
      have hvalues : ([⟨15,15,15⟩,⟨16,16,16⟩] : List Pos) = [⟨b+0,b+0,b+0⟩,⟨b+0,b+0,b+1⟩] := hb
      simp only [List.cons.injEq,Pos.mk.injEq] at hvalues
      omega
  · have hrun : (do
        let updates ← getMmPromptUpdates charTokenizerLike (videoArgs true)
          (videoArgs true).counts
        let out ← applyPromptUpdates charTokenizerLike videoPrompt.wire
          (applied (videoArgs true) updates)
        pure (decide (getMropeInputPositions .mergeTwo out.1 soundFeatures =
          Except.error (PyErr.raised .valueError
            "Audio-in-video span expected audio_start immediately after vision_start.")))) =
          .ok true := by
      simp only [getMropeInputPositions,mediaArgs,sortedFeatures_sound]
      decide +kernel
    obtain ⟨updates,hup,hrun⟩ := bind_eq_ok.mp hrun
    obtain ⟨⟨ids,ph⟩,happly,hrun⟩ := bind_eq_ok.mp hrun
    refine ⟨updates,ids,ph,hup,happly,?_,of_decide_eq_true (Except.ok.inj hrun)⟩
    constructor <;> rw [sortedFeatures_sound]
    · rfl
    · rfl
    · rfl
    · simp [FeatureData.videoGrid?,FeatureData.usesAudio,videoArgs,silentAndAudio]

end Instances
end Vllm
end TLiveOmni
