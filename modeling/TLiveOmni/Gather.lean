import Mathlib.Data.List.GetD
import TLiveOmni.MergeEmbeddings

/-! `_gather_mm_embeddings`: for each request of the batch the slices of the encoder's outputs
that belong to its scheduled tokens, and the mask of the positions they are meant for. -/
set_option autoImplicit false

namespace TLiveOmni.Vllm
open PySeq Scatter

/-- A multimodal feature with its `PlaceholderRange`; a mask covers the range. -/
structure Feature where
  modality : Modality
  identifier : String
  offset : Nat
  length : Nat
  isEmbed : Option (List Bool)
  maskLength : ∀ mask ∈ isEmbed, mask.length = length

namespace Feature

/-- `get_embeds_indices_in_range`, which reads the running sums of the mask. -/
def getEmbedsIndicesInRange (f : Feature) (startIdx endIdx : Nat) : Nat × Nat :=
  match f.isEmbed with
  | none => (startIdx,endIdx)
  | some mask =>
      let embedsCumsum := cumsum 0 (mask.map Bool.toNat)
      (if 0 < startIdx then embedsCumsum.getD (startIdx-1) 0 else 0,embedsCumsum.getD (endIdx-1) 0)

/-- Without a mask every position of the range is one for an embedding. -/
def mask (f : Feature) : List Bool := f.isEmbed.getD (List.replicate f.length true)

/-- The token at index `i` of the request takes an embedding of the feature. -/
def embedsAt (f : Feature) (i : Nat) : Bool := decide (f.offset ≤ i) && f.mask.getD (i-f.offset) false

/-- Number of the feature's embeddings before index `i` of the request. -/
def rank (f : Feature) (i : Nat) : Nat := Nat.count (f.embedsAt ·) i

end Feature

/-- `buffer[at : at + len(bits)] |= bits`. -/
def orSlice (start : Nat) (bits buffer : List Bool) : List Bool :=
  buffer.mapIdx fun i b => b || (decide (start ≤ i) && bits.getD (i-start) false)

section Gather
variable {E : Type} (encoderCache : String → Option (List E))
  (numComputedTokens numScheduledTokens : Nat)

/-- The loop over the features of one request, with the request's part of the mask. -/
def gatherFeatures : List Feature → List (List E) × List Bool → Py (List (List E) × List Bool)
  | [], gathered => .ok gathered
  | f :: features, (mmEmbeds,isMmEmbed) =>
    if numComputedTokens+numScheduledTokens ≤ f.offset then .ok (mmEmbeds,isMmEmbed)
    else if f.offset+f.length ≤ numComputedTokens then gatherFeatures features (mmEmbeds,isMmEmbed)
    else do
      let startIdx := numComputedTokens-f.offset
      let endIdx := min (numComputedTokens+numScheduledTokens-f.offset) f.length
      raiseIf (¬ startIdx < endIdx) (.builtin .assertionError)
      let range := f.getEmbedsIndicesInRange startIdx endIdx
      if range.1 = range.2 then gatherFeatures features (mmEmbeds,isMmEmbed)
      else match encoderCache f.identifier with
        | none => .error (.raised .assertionError s!"Encoder cache miss for {f.identifier}.")
        | some encoderOutput =>
          let mmEmbedsItem := (encoderOutput.drop range.1).take (range.2-range.1)
          let bits := (f.mask.drop startIdx).take (endIdx-startIdx)
          gatherFeatures features (mmEmbeds ++ [mmEmbedsItem],
            orSlice (f.offset+startIdx-numComputedTokens) bits isMmEmbed)

end Gather

namespace Feature
variable {f : Feature}

theorem length_mask (f : Feature) : f.mask.length = f.length := by
  rw [mask]
  cases h : f.isEmbed with
  | none => simp
  | some m => simpa using f.maskLength m h

theorem embedsAt_range {i : Nat} (h : f.embedsAt i) : f.offset ≤ i ∧ i < f.offset+f.length := by
  simp only [embedsAt,Bool.and_eq_true,decide_eq_true_eq] at h
  obtain ⟨hle,hi⟩ := h
  refine ⟨hle,?_⟩
  by_contra hge
  rw [List.getD_eq_default _ _ (by rw [length_mask]; omega)] at hi
  cases hi

theorem rank_of_le {i : Nat} (h : i ≤ f.offset) : f.rank i = 0 := by
  rw [rank,Nat.count_iff_forall_not]
  intro k hk he
  have := (embedsAt_range he).1
  omega

theorem rank_offset_add (f : Feature) (k : Nat) :
    f.rank (f.offset+k) = (f.mask.take k).count true := by
  induction k with
  | zero => simp [rank_of_le]
  | succ k ih =>
    have hat : f.embedsAt (f.offset+k) = f.mask.getD k false := by simp [embedsAt]
    rw [← Nat.add_assoc,rank,Nat.count_succ,hat]
    rw [rank] at ih
    rw [ih]
    by_cases hk : k < f.mask.length
    · rw [List.take_succ_eq_append_getElem hk,List.count_append,List.getD_eq_getElem _ _ hk]
      cases f.mask[k] <;> simp
    · rw [List.getD_eq_default _ _ (by omega),List.take_of_length_le (by omega),
        List.take_of_length_le (by omega)]
      simp

theorem rank_mono (f : Feature) {i j : Nat} (h : i ≤ j) : f.rank i ≤ f.rank j :=
  Nat.count_monotone _ h

end Feature

theorem getD_cumsum (acc : Nat) (l : List Nat) {k : Nat} (hk : k < l.length) :
    (cumsum acc l).getD k 0 = acc+(l.take (k+1)).sum := by
  induction l generalizing acc k with
  | nil => simp at hk
  | cons x l ih =>
    cases k with
    | zero => simp [cumsum]
    | succ k =>
      rw [cumsum,List.getD_cons_succ,ih _ (by simpa using hk)]
      simp
      omega

theorem sum_map_toNat (l : List Bool) : (l.map Bool.toNat).sum = l.count true := by
  induction l with
  | nil => rfl
  | cons b l ih => cases b <;> simp [ih]; omega

namespace Feature
variable {f : Feature} {numComputedTokens numScheduledTokens : Nat}

theorem rank_eq (f : Feature) (i : Nat) : f.rank i = (f.mask.take (i-f.offset)).count true := by
  by_cases h : i ≤ f.offset
  · rw [rank_of_le h,Nat.sub_eq_zero_of_le h]
    simp
  · have hi : f.offset+(i-f.offset) = i := by omega
    rw [← rank_offset_add,hi]

theorem rank_le_count (f : Feature) (i : Nat) : f.rank i ≤ f.mask.count true := by
  rw [rank_eq]
  exact (List.take_sublist _ _).count_le true

/-- The running sums of the mask count the embeddings before an index of the range. -/
theorem getEmbedsIndicesInRange_eq_count {startIdx endIdx : Nat} (hlt : startIdx < endIdx)
    (hle : endIdx ≤ f.length) : f.getEmbedsIndicesInRange startIdx endIdx =
      ((f.mask.take startIdx).count true,(f.mask.take endIdx).count true) := by
  cases h : f.isEmbed with
  | none =>
    have hs : min startIdx f.length = startIdx := by omega
    have he : min endIdx f.length = endIdx := by omega
    simp [getEmbedsIndicesInRange,mask,h,List.take_replicate,hs,he]
  | some m =>
    have hm : m.length = f.length := f.maskLength m h
    have hsum : ∀ k, 0 < k → k ≤ f.length →
        (cumsum 0 (m.map Bool.toNat)).getD (k-1) 0 = (m.take k).count true := by
      intro k hk hkl
      have hk1 : k-1+1 = k := by omega
      rw [getD_cumsum _ _ (by rw [List.length_map]; omega),hk1,← List.map_take,sum_map_toNat,
        Nat.zero_add]
    rw [getEmbedsIndicesInRange,h,mask,h,Option.getD_some]
    simp only [hsum endIdx (by omega) hle]
    by_cases hs : 0 < startIdx
    · rw [if_pos hs,hsum startIdx hs (by omega)]
    · have : startIdx = 0 := by omega
      simp [this]

theorem getEmbedsIndicesInRange_eq
    (hlt : numComputedTokens-f.offset <
      min (numComputedTokens+numScheduledTokens-f.offset) f.length) :
    f.getEmbedsIndicesInRange (numComputedTokens-f.offset)
      (min (numComputedTokens+numScheduledTokens-f.offset) f.length) =
    (f.rank numComputedTokens,f.rank (numComputedTokens+numScheduledTokens)) := by
  rw [getEmbedsIndicesInRange_eq_count hlt (by omega),rank_eq,rank_eq]
  congr 2
  rw [← length_mask,← List.take_take,List.take_length]

end Feature
namespace Feature
variable {E : Type} (f : Feature) (numComputedTokens numScheduledTokens : Nat)

/-- Some of the scheduled tokens take an embedding of the feature. -/
def touches : Bool := decide (f.rank numComputedTokens < f.rank (numComputedTokens+numScheduledTokens))

/-- Number of rows the feature gives to the scheduled tokens. -/
def rowCount : Nat := f.rank (numComputedTokens+numScheduledTokens)-f.rank numComputedTokens

/-- The rows of an encoder output that the scheduled tokens take. -/
def slice (encoderOutput : List E) : List E :=
  (encoderOutput.drop (f.rank numComputedTokens)).take (f.rowCount numComputedTokens numScheduledTokens)

variable {f numComputedTokens numScheduledTokens}

theorem rank_lt {i : Nat} (h : f.embedsAt i) (hlow : numComputedTokens ≤ i)
    (hhigh : i < numComputedTokens+numScheduledTokens) :
    f.rank numComputedTokens < f.rank (numComputedTokens+numScheduledTokens) :=
  lt_of_le_of_lt (f.rank_mono hlow) (Nat.count_strict_mono h hhigh)

theorem embedsAt_of_not_touches (h : ¬ f.touches numComputedTokens numScheduledTokens) {i : Nat}
    (hi : i ∈ List.range' numComputedTokens numScheduledTokens) : f.embedsAt i = false := by
  rw [List.mem_range'_1] at hi
  by_contra he
  exact h (decide_eq_true (rank_lt (by simpa using he) hi.1 hi.2))

/-- A feature behind the window, and one that is done, gives nothing. -/
theorem not_touches_of_le (h : numComputedTokens+numScheduledTokens ≤ f.offset) :
    ¬ f.touches numComputedTokens numScheduledTokens := by
  rw [touches,rank_of_le h]
  simp

theorem not_touches_of_done (h : f.offset+f.length ≤ numComputedTokens) :
    ¬ f.touches numComputedTokens numScheduledTokens := by
  have hm := f.length_mask
  rw [touches,rank_eq,rank_eq,List.take_of_length_le (by omega),List.take_of_length_le (by omega)]
  simp

theorem touches_iff_ne : f.touches numComputedTokens numScheduledTokens ↔
    f.rank numComputedTokens ≠ f.rank (numComputedTokens+numScheduledTokens) := by
  have := f.rank_mono (Nat.le_add_right numComputedTokens numScheduledTokens)
  simp only [touches,decide_eq_true_eq]
  omega

/-- The bits that are or-ed into the mask are the places of the feature. -/
theorem orSlice_window (hbefore : f.offset < numComputedTokens+numScheduledTokens)
    (g : Nat → Bool) :
    orSlice (f.offset+(numComputedTokens-f.offset)-numComputedTokens)
      ((f.mask.drop (numComputedTokens-f.offset)).take
        (min (numComputedTokens+numScheduledTokens-f.offset) f.length-(numComputedTokens-f.offset)))
      ((List.range' numComputedTokens numScheduledTokens).map g) =
    (List.range' numComputedTokens numScheduledTokens).map fun i => g i || f.embedsAt i := by
  refine List.ext_getElem (by simp [orSlice]) fun k hk hk' => ?_
  have hk : k < numScheduledTokens := by simpa using hk'
  simp only [orSlice,List.getElem_mapIdx,List.getElem_map,List.getElem_range',Nat.one_mul]
  congr 1
  simp only [embedsAt,List.getD_eq_getElem?_getD,List.getElem?_take,List.getElem?_drop]
  by_cases hlow : f.offset ≤ numComputedTokens+k
  · have hidx : numComputedTokens-f.offset+(k-(f.offset+(numComputedTokens-f.offset)-numComputedTokens)) =
        numComputedTokens+k-f.offset := by omega
    have hstart : f.offset+(numComputedTokens-f.offset)-numComputedTokens ≤ k := by omega
    rw [hidx,decide_eq_true hlow,decide_eq_true hstart]
    split
    · rfl
    · rename_i hend
      rw [List.getElem?_eq_none (by rw [length_mask]; omega)]
  · have hstart : ¬ f.offset+(numComputedTokens-f.offset)-numComputedTokens ≤ k := by omega
    simp [hlow,hstart]

end Feature

section Spec
variable {E : Type} {encoderCache : String → Option (List E)}
  {numComputedTokens numScheduledTokens : Nat}

/-- What the loop gathers: a chunk for each feature that the tokens touch, and the mask of all
their places. -/
structure Gathered (encoderCache : String → Option (List E))
    (numComputedTokens numScheduledTokens : Nat) (features : List Feature) (chunks : List (List E))
    (g : Nat → Bool) (r : List (List E) × List Bool) : Prop where
  chunks : r.1 = chunks ++ (features.filter (·.touches numComputedTokens numScheduledTokens)).map
    fun f => f.slice numComputedTokens numScheduledTokens ((encoderCache f.identifier).getD [])
  mask : r.2 = (List.range' numComputedTokens numScheduledTokens).map fun i =>
    g i || features.any (·.embedsAt i)
  cached : ∀ f ∈ features, f.touches numComputedTokens numScheduledTokens →
    (encoderCache f.identifier).isSome

variable {f : Feature} {features : List Feature} {chunks : List (List E)} {g : Nat → Bool}
  {r : List (List E) × List Bool}

theorem Gathered.nil : Gathered encoderCache numComputedTokens numScheduledTokens [] chunks g
    (chunks,(List.range' numComputedTokens numScheduledTokens).map g) :=
  ⟨by simp,by simp,by simp⟩

theorem Gathered.skip (hf : ¬ f.touches numComputedTokens numScheduledTokens)
    (h : Gathered encoderCache numComputedTokens numScheduledTokens features chunks g r) :
    Gathered encoderCache numComputedTokens numScheduledTokens (f :: features) chunks g r := by
  refine ⟨?_,?_,?_⟩
  · rw [h.chunks,List.filter_cons,if_neg hf]
  · rw [h.mask]
    apply List.map_congr_left
    intro i hi
    rw [List.any_cons,Feature.embedsAt_of_not_touches hf hi,Bool.false_or]
  · intro f' hf' ht
    rcases List.mem_cons.mp hf' with rfl | hf'
    · exact absurd ht hf
    · exact h.cached f' hf' ht

theorem Gathered.take {encoderOutput : List E} (hf : f.touches numComputedTokens numScheduledTokens)
    (hc : encoderCache f.identifier = some encoderOutput)
    (h : Gathered encoderCache numComputedTokens numScheduledTokens features
      (chunks ++ [f.slice numComputedTokens numScheduledTokens encoderOutput])
      (fun i => g i || f.embedsAt i) r) :
    Gathered encoderCache numComputedTokens numScheduledTokens (f :: features) chunks g r := by
  refine ⟨?_,?_,?_⟩
  · rw [h.chunks,List.filter_cons,if_pos hf,List.map_cons,hc]
    simp
  · rw [h.mask]
    apply List.map_congr_left
    intro i _
    rw [List.any_cons,Bool.or_assoc]
  · intro f' hf' ht
    rcases List.mem_cons.mp hf' with rfl | hf'
    · rw [hc]
      rfl
    · exact h.cached f' hf' ht

theorem gatherFeatures_gathered (hsorted : features.Pairwise fun f g => f.offset ≤ g.offset)
    (h : gatherFeatures encoderCache numComputedTokens numScheduledTokens features
      (chunks,(List.range' numComputedTokens numScheduledTokens).map g) = .ok r) :
    Gathered encoderCache numComputedTokens numScheduledTokens features chunks g r := by
  induction features generalizing chunks g with
  | nil =>
    rw [gatherFeatures] at h
    cases h
    exact .nil
  | cons f features ih =>
    obtain ⟨hf,hsorted⟩ := List.pairwise_cons.mp hsorted
    rw [gatherFeatures] at h
    split at h
    · -- the features that follow start behind the window as well
      rename_i hbreak
      cases h
      have hrest : ∀ fs : List Feature, (∀ f' ∈ fs, f.offset ≤ f'.offset) →
          Gathered encoderCache numComputedTokens numScheduledTokens fs chunks g
            (chunks,(List.range' numComputedTokens numScheduledTokens).map g) := by
        intro fs hfs
        induction fs with
        | nil => exact .nil
        | cons f' fs ih =>
          have hf' : f.offset ≤ f'.offset := hfs f' (by simp)
          exact .skip (Feature.not_touches_of_le (hbreak.trans hf'))
            (ih fun f'' hf'' => hfs f'' (by simp [hf'']))
      exact .skip (Feature.not_touches_of_le hbreak) (hrest features hf)
    · rename_i hbefore
      split at h
      · rename_i hdone
        exact .skip (Feature.not_touches_of_done hdone) (ih hsorted h)
      · obtain ⟨u,hassert,h⟩ := bind_eq_ok.mp h
        have hlt := not_not.mp (raiseIf_eq_ok.mp hassert)
        have hoff : f.offset < numComputedTokens+numScheduledTokens := by omega
        simp only [Feature.getEmbedsIndicesInRange_eq hlt] at h
        split at h
        · rename_i heq
          exact .skip (fun ht => Feature.touches_iff_ne.mp ht heq) (ih hsorted h)
        · rename_i hne
          cases hc : encoderCache f.identifier with
          | none => simp [hc] at h
          | some encoderOutput =>
            simp only [hc,Feature.orSlice_window hoff] at h
            exact .take (Feature.touches_iff_ne.mpr hne) hc (ih hsorted h)

end Spec

end TLiveOmni.Vllm
