import Mathlib.Algebra.GroupWithZero.Nat
import Mathlib.Data.List.Basic
import Mathlib.Data.List.Pairwise
import Mathlib.Algebra.BigOperators.Group.List.Basic

/-! The audio side of the vLLM processor's `_call_hf_processor`: the features of all audios are
concatenated along the frame axis, and the field configuration cuts them apart again. -/
set_option autoImplicit false

namespace TLiveOmni
namespace Vllm

section Slices
variable {α : Type}

/-- The elements of `MultiModalFieldConfig.flat_from_sizes`: consecutive slices from `start` on. -/
def flatFromSizes (data : List α) : (start : Nat) → (sizePerItem : List Nat) → List (List α)
  | _, [] => []
  | start, n :: sizes => (data.drop start).take n :: flatFromSizes data (start+n) sizes

theorem flatFromSizes_drop (data : List α) (start : Nat) (sizes : List Nat) :
    flatFromSizes data start sizes = flatFromSizes (data.drop start) 0 sizes := by
  induction sizes generalizing data start with
  | nil => rfl
  | cons n sizes ih =>
    rw [flatFromSizes,flatFromSizes,ih,ih (data.drop start),List.drop_zero,Nat.zero_add,
      List.drop_drop]

theorem flatFromSizes_cons (data : List α) (n : Nat) (sizes : List Nat) :
    flatFromSizes data 0 (n :: sizes) = data.take n :: flatFromSizes (data.drop n) 0 sizes := by
  rw [flatFromSizes,List.drop_zero,Nat.zero_add,flatFromSizes_drop]

/-- What lies behind the last slice does not matter. -/
theorem flatFromSizes_take (data : List α) (sizes : List Nat) :
    flatFromSizes (data.take sizes.sum) 0 sizes = flatFromSizes data 0 sizes := by
  induction sizes generalizing data with
  | nil => rfl
  | cons n sizes ih =>
    rw [flatFromSizes_cons,flatFromSizes_cons,List.sum_cons,List.take_take,List.drop_take,
      Nat.min_eq_left (Nat.le_add_right n _),Nat.add_sub_cancel_left,ih]

/-- The first `n` frames of each item. -/
def firstFrames (rows : List (List α)) (sizes : List Nat) : List (List α) :=
  List.zipWith (fun row n => row.take n) rows sizes

theorem length_firstFrames {rows : List (List α)} {sizes : List Nat}
    (h : List.Forall₂ (fun row n => n ≤ row.length) rows sizes) :
    (firstFrames rows sizes).map List.length = sizes := by
  induction h with
  | nil => rfl
  | cons hle _ ih =>
    rw [firstFrames] at ih
    rw [firstFrames,List.zipWith_cons_cons,List.map_cons,ih,List.length_take,Nat.min_eq_left hle]

/-- The slices of the concatenated rows are the rows' own frames if no row but the last has
frames behind its slice. -/
theorem slices_own {rows : List (List α)} {sizes : List Nat}
    (h : List.Forall₂ (fun row n => n ≤ row.length) rows sizes)
    (hexact : sizes.dropLast = rows.dropLast.map List.length) :
    flatFromSizes rows.flatten 0 sizes = firstFrames rows sizes := by
  induction h with
  | nil => rfl
  | @cons row n rows sizes hle hrest ih =>
    rw [List.flatten_cons,flatFromSizes_cons,firstFrames,List.zipWith_cons_cons,
      List.take_append_of_le_length hle]
    cases hrest with
    | nil => rfl
    | @cons row' n' rows sizes hle' hrest =>
      rw [List.dropLast_cons_cons,List.dropLast_cons_cons,List.map_cons] at hexact
      obtain ⟨hn,hexact⟩ := List.cons.inj hexact
      rw [hn,List.drop_left,ih hexact]
      rfl

/-- With rows that share no frame the condition is necessary: the slice after a row with a
frame too many starts with that frame. -/
theorem slices_own_iff {rows : List (List α)} {sizes : List Nat}
    (h : List.Forall₂ (fun row n => 0 < n ∧ n ≤ row.length) rows sizes)
    (hdisj : rows.Pairwise List.Disjoint) :
    flatFromSizes rows.flatten 0 sizes = firstFrames rows sizes ↔
      sizes.dropLast = rows.dropLast.map List.length := by
  refine ⟨fun heq => ?_,slices_own (h.imp fun _ _ hn => hn.2)⟩
  induction h with
  | nil => rfl
  | @cons row n rows sizes hn hrest ih =>
    rw [List.flatten_cons,flatFromSizes_cons,firstFrames,List.zipWith_cons_cons] at heq
    have htail := (List.cons.inj heq).2
    cases hrest with
    | nil => rfl
    | @cons row' n' rows sizes hn' hrest =>
      have hlen : n = row.length := by
        by_contra hne
        -- the second slice starts with a frame of the first row
        have hlt : n < row.length := by omega
        have hhead : (row.drop n ++ (row' :: rows).flatten).take n' = row'.take n' := by
          rw [flatFromSizes_cons,List.zipWith_cons_cons,List.drop_append_of_le_length hn.2] at htail
          exact (List.cons.inj htail).1
        have hget := congrArg (fun l => l[0]?) hhead
        rw [List.getElem?_take_of_lt hn'.1,List.getElem?_take_of_lt hn'.1,
          List.getElem?_append_left (by simp; omega),List.getElem?_drop] at hget
        obtain ⟨x,hx⟩ : ∃ x, row[n+0]? = some x := ⟨_,List.getElem?_eq_getElem (by omega)⟩
        rw [hx] at hget
        have hfirst := List.rel_of_pairwise_cons hdisj (List.mem_cons_self ..)
        exact hfirst (List.mem_of_getElem? hx) (List.mem_of_getElem? hget.symm)
      rw [hlen,List.drop_left] at htail
      rw [List.dropLast_cons_cons,List.dropLast_cons_cons,List.map_cons,hlen,
        ih (List.pairwise_cons.mp hdisj).2 htail]

end Slices

/-- What the processor reads of the feature extractor and of its keyword arguments. -/
structure AudioConfig where
  hopLength : Nat
  nSamples : Nat
  truncation : Bool

section Extraction
variable {σ φ : Type} (cfg : AudioConfig)

/-- The feature extractor on a batch: per audio its frames, each with its entry of the mask. -/
abbrev Extractor (σ φ : Type) := List (List σ) → List (List (φ × Bool))

/-- The frames of an audio that its mask marks. -/
def marked (row : List (φ × Bool)) : List φ := (row.filter (·.2)).map (·.1)

theorem length_marked (row : List (φ × Bool)) : (marked row).length = row.countP (·.2) := by
  rw [marked,List.length_map,List.countP_eq_length_filter]

/-- The extractor marks one frame per hop of an audio whose length is a multiple of it. -/
def MarksHops (extract : Extractor σ φ) : Prop :=
  ∀ audio : List (List σ), audio ≠ [] → (∀ x ∈ audio, cfg.hopLength ∣ x.length) →
    (extract audio).map (fun row => row.countP (·.2)) = audio.map fun x => x.length/cfg.hopLength

/-- Every frame together with the audio and the position it comes from. -/
def located (extract : Extractor σ φ) : Extractor σ (Nat × Nat × φ) := fun audio =>
  (extract audio).zipIdx.map fun (row,i) => row.zipIdx.map fun (x,j) => ((i,j,x.1),x.2)

variable {cfg} {extract : Extractor σ φ}

theorem MarksHops.located (h : MarksHops cfg extract) : MarksHops cfg (located extract) := by
  intro audio hne hdvd
  have hrow : ∀ (i : Nat) (row : List (φ × Bool)),
      ((row.zipIdx.map fun (x,j) => ((i,j,x.1),x.2)).countP (·.2)) = row.countP (·.2) := by
    intro i row
    conv_rhs => rw [← List.zipIdx_map_fst 0 row]
    rw [List.countP_map,List.countP_map]
    rfl
  rw [← h audio hne hdvd,Vllm.located,List.map_map]
  conv_rhs => rw [← List.zipIdx_map_fst 0 (extract audio),List.map_map]
  exact List.map_congr_left fun x _ => hrow x.2 x.1

theorem located_disjoint (audio : List (List σ)) :
    (((located extract) audio).map marked).Pairwise List.Disjoint := by
  have hlabel : ∀ (i : Nat) (row : List (φ × Bool)),
      ∀ x ∈ marked (row.zipIdx.map fun (x,j) => ((i,j,x.1),x.2)), x.1 = i := by
    intro i row x hx
    obtain ⟨y,hy,rfl⟩ := List.mem_map.mp hx
    obtain ⟨z,-,rfl⟩ := List.mem_map.mp (List.mem_of_mem_filter hy)
    rfl
  rw [List.pairwise_iff_getElem]
  intro i j hi hj hij x hxi hxj
  simp only [located,List.getElem_map,List.getElem_zipIdx] at hxi hxj
  have := (hlabel _ _ x hxi).symm.trans (hlabel _ _ x hxj)
  omega

end Extraction

section Processor
variable {σ φ : Type} [Zero σ] (cfg : AudioConfig)

def padToHopLength (hopLength : Nat) (x : List σ) : List σ :=
  if x.length % hopLength ≠ 0 then x ++ List.replicate (hopLength-x.length % hopLength) 0 else x

/-- The audio entries of `hf_inputs`. -/
structure AudioInputs (φ : Type) where
  inputAudioFeatures : List φ
  featureAttentionMask : List (List Bool)
  audioFeatureLengths : List Nat

/-- `_call_hf_processor` of the parent class on the output of the HF processor. -/
def parentCallHfProcessor (extract : Extractor σ φ) (audio : List (List σ)) : AudioInputs φ :=
  let rows := extract audio
  ⟨rows.flatMap marked,rows.map fun row => row.map (·.2),rows.map fun row => row.countP (·.2)⟩

/-- The `num_frame` of an audio with `audioLength` samples. -/
def numFrame (audioLength : Nat) : Nat :=
  if cfg.truncation then min (audioLength/cfg.hopLength) (cfg.nSamples/cfg.hopLength)
  else audioLength/cfg.hopLength

/-- `_call_hf_processor`. Without audios the entries are missing. -/
def callHfProcessor (extract : Extractor σ φ) (audios : List (List σ)) : AudioInputs φ :=
  if audios = [] then ⟨[],[],[]⟩
  else
    let origAudioLengths := audios.map List.length
    let hfInputs := parentCallHfProcessor extract (audios.map (padToHopLength cfg.hopLength))
    let audioNumFrames := origAudioLengths.map (numFrame cfg)
    let totalOrigFrames := audioNumFrames.sum
    let feat := hfInputs.inputAudioFeatures
    ⟨if totalOrigFrames < feat.length then feat.take totalOrigFrames else feat,
      audioNumFrames.map fun n => List.replicate n true,audioNumFrames⟩

/-- The slices that the field configuration assigns to the audios. -/
def audioSlices (inputs : AudioInputs φ) : List (List φ) :=
  flatFromSizes inputs.inputAudioFeatures 0 inputs.audioFeatureLengths

/-- The features of each audio. -/
def ownFeatures (extract : Extractor σ φ) (audios : List (List σ)) : List (List φ) :=
  (extract (audios.map (padToHopLength cfg.hopLength))).map marked

/-- Every slice is the audio's own frames, up to the last full hop, and all of these. -/
structure OwnSlices (extract : Extractor σ φ) (audios : List (List σ)) : Prop where
  own : audioSlices (callHfProcessor cfg extract audios) =
    firstFrames (ownFeatures cfg extract audios) (audios.map fun a => a.length/cfg.hopLength)
  kept : (audioSlices (callHfProcessor cfg extract audios)).map List.length =
    audios.map fun a => a.length/cfg.hopLength

variable {cfg} {extract : Extractor σ φ} {audios : List (List σ)}

theorem padToHopLength_dvd {hop : Nat} (hhop : 0 < hop) (x : List σ) :
    hop ∣ (padToHopLength hop x).length := by
  have hlt := Nat.mod_lt x.length hhop
  have hdiv := Nat.div_add_mod x.length hop
  rw [padToHopLength]
  split
  · refine ⟨x.length/hop+1,?_⟩
    rw [List.length_append,List.length_replicate,Nat.mul_add]
    omega
  · exact Nat.dvd_of_mod_eq_zero (by omega)

theorem div_le_padded {hop : Nat} (x : List σ) :
    x.length/hop ≤ (padToHopLength hop x).length/hop := by
  refine Nat.div_le_div_right ?_
  rw [padToHopLength]
  split
  · simp
  · exact Nat.le_refl _

theorem div_eq_padded_iff {hop : Nat} (hhop : 0 < hop) (x : List σ) :
    x.length/hop = (padToHopLength hop x).length/hop ↔ hop ∣ x.length := by
  have hlt := Nat.mod_lt x.length hhop
  have hdiv := Nat.div_add_mod x.length hop
  rw [Nat.dvd_iff_mod_eq_zero,padToHopLength]
  split
  · next hne =>
    have hsum : (x ++ List.replicate (hop-x.length % hop) (0 : σ)).length =
        hop*(x.length/hop+1) := by
      rw [List.length_append,List.length_replicate,Nat.mul_add]
      omega
    rw [hsum,Nat.mul_div_cancel_left _ hhop]
    omega
  · next hzero =>
    simpa using hzero

theorem length_ownFeatures (hdoc : MarksHops cfg extract) (hhop : 0 < cfg.hopLength)
    (hne : audios ≠ []) :
    (ownFeatures cfg extract audios).map List.length =
      audios.map fun a => (padToHopLength cfg.hopLength a).length/cfg.hopLength := by
  have hmarks := hdoc (audios.map (padToHopLength cfg.hopLength)) (by simpa using hne) (by
    intro x hx
    obtain ⟨a,-,rfl⟩ := List.mem_map.mp hx
    exact padToHopLength_dvd hhop a)
  rw [List.map_map] at hmarks
  rw [ownFeatures,List.map_map]
  exact (List.map_congr_left fun row _ => length_marked row).trans hmarks

theorem audioSlices_eq (htrunc : cfg.truncation = false) :
    audioSlices (callHfProcessor cfg extract audios) =
      flatFromSizes (ownFeatures cfg extract audios).flatten 0
        (audios.map fun a => a.length/cfg.hopLength) := by
  by_cases hnil : audios = []
  · rw [audioSlices,callHfProcessor,if_pos hnil,hnil]
    rfl
  · have hsizes : (audios.map List.length).map (numFrame cfg) =
        audios.map fun a => a.length/cfg.hopLength := by
      rw [List.map_map]
      exact List.map_congr_left fun a _ => by simp [numFrame,htrunc]
    have hfeat : ∀ (l : List φ) (n : Nat), (if n < l.length then l.take n else l) = l.take n := by
      intro l n
      split
      · rfl
      · rw [List.take_of_length_le (by omega)]
    rw [audioSlices,callHfProcessor,if_neg hnil]
    simp only [hsizes,hfeat,flatFromSizes_take,parentCallHfProcessor,ownFeatures,List.flatMap_def]

/-- No slice is longer than the audio's own features, nor empty. -/
theorem sizes_fit (hdoc : MarksHops cfg extract) (hhop : 0 < cfg.hopLength) (hne : audios ≠ [])
    (hlen : ∀ a ∈ audios, cfg.hopLength ≤ a.length) :
    List.Forall₂ (fun (row : List φ) n => 0 < n ∧ n ≤ row.length)
      (ownFeatures cfg extract audios) (audios.map fun a => a.length/cfg.hopLength) := by
  have hown := @length_ownFeatures _ _ _ cfg extract audios hdoc hhop hne
  have hcount : (ownFeatures cfg extract audios).length = audios.length := by
    simpa using congrArg List.length hown
  rw [List.forall₂_iff_get]
  refine ⟨by simpa using hcount,?_⟩
  intro i hi hi'
  have hia : i < audios.length := by omega
  have hget : ((ownFeatures cfg extract audios)[i]).length =
      (padToHopLength cfg.hopLength audios[i]).length/cfg.hopLength := by
    have := congrArg (fun l => l[i]?) hown
    simpa [hi,hia] using this
  simp only [List.get_eq_getElem,List.getElem_map,hget]
  exact ⟨Nat.div_pos (hlen _ (List.getElem_mem hia)) hhop,div_le_padded _⟩

theorem sizes_exact_iff (hdoc : MarksHops cfg extract) (hhop : 0 < cfg.hopLength)
    (hne : audios ≠ []) :
    (audios.map fun a => a.length/cfg.hopLength).dropLast =
        (ownFeatures cfg extract audios).dropLast.map List.length ↔
      ∀ a ∈ audios.dropLast, cfg.hopLength ∣ a.length := by
  rw [List.map_dropLast,length_ownFeatures hdoc hhop hne,← List.map_dropLast,← List.map_dropLast,
    List.map_inj_left]
  exact forall₂_congr fun a _ => div_eq_padded_iff hhop a

/-- The audios that come before another one have to be made of whole hops. -/
theorem ownSlices_iff (htrunc : cfg.truncation = false) (hhop : 0 < cfg.hopLength)
    (hdoc : MarksHops cfg extract) (hlen : ∀ a ∈ audios, cfg.hopLength ≤ a.length) :
    (OwnSlices cfg (located extract) audios ↔ ∀ a ∈ audios.dropLast, cfg.hopLength ∣ a.length) ∧
    ((∀ a ∈ audios.dropLast, cfg.hopLength ∣ a.length) → OwnSlices cfg extract audios) := by
  by_cases hne : audios = []
  · subst hne
    have hnil : ∀ {ψ : Type} (e : Extractor σ ψ), OwnSlices cfg e [] := by
      intro ψ e
      refine ⟨?_,?_⟩ <;> rw [audioSlices_eq htrunc] <;> simp [flatFromSizes,firstFrames]
    exact ⟨⟨fun _ => by simp,fun _ => hnil _⟩,fun _ => hnil _⟩
  · have hown : ∀ {ψ : Type} {e : Extractor σ ψ}, MarksHops cfg e →
        (∀ a ∈ audios.dropLast, cfg.hopLength ∣ a.length) → OwnSlices cfg e audios := by
      intro ψ e he hdvd
      have hfit := (sizes_fit he hhop hne hlen).imp fun _ _ h => h.2
      have hslices := slices_own hfit ((sizes_exact_iff he hhop hne).mpr hdvd)
      refine ⟨(audioSlices_eq htrunc).trans hslices,?_⟩
      rw [audioSlices_eq htrunc,hslices,length_firstFrames hfit]
    refine ⟨⟨fun h => ?_,hown hdoc.located⟩,hown hdoc⟩
    rw [← sizes_exact_iff hdoc.located hhop hne,
      ← slices_own_iff (sizes_fit hdoc.located hhop hne hlen) (located_disjoint _),
      ← audioSlices_eq htrunc]
    exact h.own

end Processor

section Instances

def AudioConfig.whisper : AudioConfig := ⟨160,480000,false⟩

/-- An extractor whose frames are the hops themselves, padded to the longest audio. -/
def hopFrames (hop : Nat) : Extractor Nat (List Nat) := fun audio =>
  let longest := (audio.map fun x => x.length/hop).foldl max 0
  audio.map fun x =>
    ((List.range (x.length/hop)).map fun j => ((x.drop (j*hop)).take hop,true)) ++
      List.replicate (longest-x.length/hop) (List.replicate hop 0,false)

theorem hopFrames_marksHops (cfg : AudioConfig) : MarksHops cfg (hopFrames cfg.hopLength) := by
  intro audio _ _
  rw [hopFrames,List.map_map]
  refine List.map_congr_left fun x _ => ?_
  rw [Function.comp_apply,List.countP_append,List.countP_map,List.countP_replicate,
    List.countP_eq_length.mpr (by simp)]
  simp

/-- The first audio is made of two hops; the second one has a rest. -/
def wholeThenRest : List (List Nat) := [List.replicate 320 1,List.replicate 200 2]

theorem wholeThenRest_ownSlices : OwnSlices .whisper (hopFrames 160) wholeThenRest :=
  (ownSlices_iff rfl (by decide) (hopFrames_marksHops .whisper) (by decide +kernel)).2
    (by decide +kernel)

/-- The first audio has one sample more than a hop. -/
def restThenWhole : List (List Nat) := [List.replicate 161 1,List.replicate 160 2]

/-- The second audio gets the padded frame of the first one. -/
theorem restThenWhole_shifts : MarksHops .whisper (hopFrames 160) ∧
    (∀ a ∈ restThenWhole, 160 ≤ a.length) ∧
    audioSlices (callHfProcessor .whisper (hopFrames 160) restThenWhole) =
      [[List.replicate 160 1],[1 :: List.replicate 159 0]] ∧
    ¬ OwnSlices .whisper (hopFrames 160) restThenWhole ∧
    ¬ OwnSlices .whisper (located (hopFrames 160)) restThenWhole := by
  refine ⟨hopFrames_marksHops .whisper,by decide +kernel,by decide +kernel,fun h => ?_,fun h => ?_⟩
  · exact absurd h.own (by decide +kernel)
  · exact absurd h.own (by decide +kernel)

end Instances
end Vllm
end TLiveOmni
