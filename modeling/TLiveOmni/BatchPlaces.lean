import TLiveOmni.Engine

/-! Where the rows of a batch belong: every scheduled token that some feature embeds takes the
row of that feature with the token's rank. Scattering the gathered chunks by their true
modalities does just this. -/
set_option autoImplicit false

namespace TLiveOmni.Vllm
open PySeq Assign Scatter

variable {E : Type} {encode : String → List E}

namespace Request
variable (r : Request encode)

/-- The indices of the scheduled tokens. -/
def window : List Nat := List.range' r.numComputedTokens r.numScheduledTokens

/-- The features that give rows to the scheduled tokens. -/
def touched : List Feature :=
  r.features.filter (·.touches r.numComputedTokens r.numScheduledTokens)

/-- The feature a token takes its embedding from. -/
def owner (i : Nat) : Option Feature := r.features.find? (·.embedsAt i)

/-- The rows a feature gives to the scheduled tokens. -/
def chunk (f : Feature) : List E :=
  f.slice r.numComputedTokens r.numScheduledTokens (encode f.identifier)

variable {r}

theorem feature_eq {f g : Feature} (hf : f ∈ r.features) (hg : g ∈ r.features) {i : Nat}
    (hfi : f.embedsAt i) (hgi : g.embedsAt i) : f = g := by
  by_contra hne
  have hmod : f.modality = g.modality := by
    have := (r.own f hf i hfi).symm.trans (r.own g hg i hgi)
    exact Modality.pad_inj.mp (Option.some.inj this)
  let Apart (f g : Feature) : Prop := f.modality = g.modality →
    f.offset+f.length ≤ g.offset ∨ g.offset+g.length ≤ f.offset
  have hapart : r.features.Pairwise Apart := r.apart.imp fun h e => .inl (h e)
  have hsymm : Std.Symm Apart := ⟨fun _ _ h e => (h e.symm).symm⟩
  have hf' := Feature.embedsAt_range hfi
  have hg' := Feature.embedsAt_range hgi
  rcases hapart.forall hf hg hne hmod with h | h
  · omega
  · omega

theorem owner_eq_some {f : Feature} {i : Nat} :
    r.owner i = some f ↔ f ∈ r.features ∧ f.embedsAt i := by
  constructor
  · intro h
    exact ⟨List.mem_of_find?_eq_some h,by simpa using List.find?_some h⟩
  · rintro ⟨hf,hi⟩
    cases ho : r.owner i with
    | none => exact absurd hi (List.find?_eq_none.mp ho f hf)
    | some g =>
      have hg : g.embedsAt i := by simpa using List.find?_some ho
      rw [feature_eq hf (List.mem_of_find?_eq_some ho) hi hg]

theorem isSome_owner (i : Nat) : (r.owner i).isSome = r.features.any (·.embedsAt i) := by
  rw [Bool.eq_iff_iff,owner,List.find?_isSome,List.any_eq_true]

theorem length_inputIds : r.inputIds.length = r.numScheduledTokens := by
  have := r.within
  rw [inputIds,List.length_take,List.length_drop]
  omega

theorem inputIds_eq : r.inputIds = r.window.map fun i => r.tokens.getD i (.text 0) := by
  have hw := r.within
  refine List.ext_getElem (by rw [length_inputIds]; simp [window]) fun k hk hk' => ?_
  have hk : k < r.numScheduledTokens := by simpa [window] using hk'
  have hlt : r.numComputedTokens+k < r.tokens.length := by omega
  simp [inputIds,window,List.getD_eq_getElem?_getD,List.getElem?_eq_getElem hlt]

/-- The rows of a feature by the tokens that take them. -/
theorem chunk_eq (f : Feature) :
    r.chunk f = (r.window.filter f.embedsAt).filterMap fun i => (encode f.identifier)[f.rank i]? := by
  have hrank := map_count_filter_range' f.embedsAt r.numComputedTokens r.numScheduledTokens
  have hslice := filterMap_range'_getElem? (encode f.identifier) (f.rank r.numComputedTokens)
    (f.rowCount r.numComputedTokens r.numScheduledTokens)
  rw [chunk,Feature.slice,← hslice,Feature.rowCount,Feature.rank,Feature.rank,← hrank,
    List.filterMap_map]
  rfl

theorem exists_row {f : Feature} (hf : f ∈ r.features) {i : Nat} (hi : f.embedsAt i) :
    ∃ e, (encode f.identifier)[f.rank i]? = some e := by
  have hlt : f.rank i < f.rank (f.offset+f.length) :=
    Nat.count_strict_mono hi (Feature.embedsAt_range hi).2
  rw [f.rank_offset_add,List.take_of_length_le (by rw [f.length_mask])] at hlt
  have hrows := r.rows f hf
  exact ⟨_,List.getElem?_eq_getElem (by omega)⟩

end Request

/-- A scheduled token of the batch. -/
abbrev Slot (encode : String → List E) := Request encode × Nat

namespace Slot

def token (s : Slot encode) : Token := s.1.tokens.getD s.2 (.text 0)

def owner (s : Slot encode) : Option Feature := s.1.owner s.2

/-- The modality of the embedding the token takes. -/
def modality (s : Slot encode) : Option Modality := s.owner.map Feature.modality

/-- The token's text embedding. -/
def text (model : Model E) (s : Slot encode) : E :=
  model.embedTokens (if model.hasOovMmTokens && s.owner.isSome then .text 0 else s.token)

/-- The embedding the token should have: its row of the feature it belongs to, or text. -/
def placed (model : Model E) (s : Slot encode) : E :=
  (s.owner.bind fun f => (encode f.identifier)[f.rank s.2]?).getD (s.text model)

variable {s : Slot encode}

theorem token_of_owner {f : Feature} (h : s.owner = some f) : s.token = f.modality.pad := by
  obtain ⟨hf,hi⟩ := Request.owner_eq_some.mp h
  rw [token,List.getD_eq_getElem?_getD,s.1.own f hf s.2 hi]
  rfl

/-- A masked token of a modality is one that takes an embedding of this modality. -/
theorem marked_iff (m : Modality) :
    (s.owner.isSome && decide (s.token = m.pad)) = decide (s.modality = some m) := by
  rw [modality]
  cases h : s.owner with
  | none => simp
  | some f => simp [token_of_owner h,Modality.pad_inj]

end Slot

namespace Step
variable (st : Step encode)

/-- The scheduled tokens of the batch in order. -/
def slots : List (Slot encode) := st.batch.flatMap fun r => r.window.map fun i => (r,i)

/-- The features that give a chunk, with their requests, in the order of the batch. -/
def gathered : List (Request encode × Feature) :=
  st.batch.flatMap fun r => r.touched.map fun f => (r,f)

/-- The modalities of the gathered chunks. -/
def trueModalities : List Modality := st.gathered.map fun x => x.2.modality

def chunks : List (List E) := st.gathered.map fun x => x.1.chunk x.2

/-- The numbers of rows of the gathered chunks. -/
def sizes : List Nat :=
  st.gathered.map fun x => x.2.rowCount x.1.numComputedTokens x.1.numScheduledTokens

end Step
namespace Request
variable {r : Request encode} (model : Model E)

theorem placed_of_embedsAt {f : Feature} (hf : f ∈ r.features) {i : Nat} (hi : f.embedsAt i) :
    (encode f.identifier)[f.rank i]? = some (Slot.placed model (r,i)) := by
  obtain ⟨e,he⟩ := exists_row hf hi
  have ho : Slot.owner (r,i) = some f := owner_eq_some.mpr ⟨hf,hi⟩
  rw [Slot.placed,ho,Option.bind_some,he,Option.getD_some]

theorem chunk_eq_map {f : Feature} (hf : f ∈ r.features) :
    r.chunk f = (r.window.filter f.embedsAt).map fun i => Slot.placed model (r,i) := by
  rw [chunk_eq,← List.filterMap_eq_map]
  apply List.filterMap_congr
  intro i hi
  exact placed_of_embedsAt model hf (List.mem_filter.mp hi).2

theorem chunk_of_not_touches {f : Feature}
    (h : ¬ f.touches r.numComputedTokens r.numScheduledTokens) : r.chunk f = [] := by
  have hnil : r.window.filter f.embedsAt = [] := by
    rw [List.filter_eq_nil_iff]
    intro i hi
    simp [Feature.embedsAt_of_not_touches h hi]
  rw [chunk_eq,hnil,List.filterMap_nil]

theorem owner_modality (m : Modality) (i : Nat) :
    decide (Slot.modality (r,i) = some m) =
      (r.features.filter fun f => decide (f.modality = m)).any (·.embedsAt i) := by
  rw [Bool.eq_iff_iff,decide_eq_true_eq,List.any_eq_true,Slot.modality,Option.map_eq_some_iff]
  constructor
  · rintro ⟨f,hf,rfl⟩
    obtain ⟨hmem,hi⟩ := owner_eq_some.mp hf
    exact ⟨f,List.mem_filter.mpr ⟨hmem,by simp⟩,hi⟩
  · rintro ⟨f,hf,hi⟩
    obtain ⟨hmem,hm⟩ := List.mem_filter.mp hf
    exact ⟨f,owner_eq_some.mpr ⟨hmem,hi⟩,by simpa using hm⟩

theorem pairwise_before (m : Modality) :
    (r.features.filter fun f => decide (f.modality = m)).Pairwise fun f g =>
      ∀ a b, f.embedsAt a → g.embedsAt b → a < b := by
  rw [List.pairwise_filter]
  refine r.apart.imp ?_
  intro f g h hf hg a b ha hb
  have hle := h ((of_decide_eq_true hf).trans (of_decide_eq_true hg).symm)
  have ha' := Feature.embedsAt_range ha
  have hb' := Feature.embedsAt_range hb
  omega

/-- The chunks of a modality, one after the other, are the rows its tokens should have. -/
theorem flatMap_chunk (m : Modality) :
    (r.touched.filter fun f => decide (f.modality = m)).flatMap r.chunk =
      (r.window.filter fun i => decide (Slot.modality (r,i) = some m)).map fun i =>
        Slot.placed model (r,i) := by
  have hall : (r.touched.filter fun f => decide (f.modality = m)).flatMap r.chunk =
      (r.features.filter fun f => decide (f.modality = m)).flatMap r.chunk := by
    rw [touched,List.filter_comm]
    exact flatMap_filter_of_nil fun f _ h => chunk_of_not_touches h
  have hsorted : r.window.Pairwise (· < ·) := List.pairwise_lt_range'
  simp only [owner_modality]
  rw [hall,filter_any_eq_flatMap hsorted (pairwise_before m),List.map_flatMap]
  apply List.flatMap_congr
  intro f hf
  exact chunk_eq_map model (List.mem_filter.mp hf).1

end Request

namespace Step
variable (st : Step encode) (model : Model E)

/-- Over the whole batch the chunks of a modality are the rows its tokens should have. -/
theorem flatMap_chunks (m : Modality) :
    (st.gathered.filter fun x => decide (x.2.modality = m)).flatMap (fun x => x.1.chunk x.2) =
      (st.slots.filter fun s => decide (s.modality = some m)).map (Slot.placed model) := by
  rw [gathered,slots,List.filter_flatMap,List.filter_flatMap,List.flatMap_assoc,List.map_flatMap]
  apply List.flatMap_congr
  intro r _
  rw [List.filter_map,List.filter_map,List.flatMap_map,List.map_map]
  exact r.flatMap_chunk model m

theorem inputIds_eq : st.batch.flatMap Request.inputIds = st.slots.map Slot.token := by
  rw [slots,List.map_flatMap]
  apply List.flatMap_congr
  intro r _
  rw [r.inputIds_eq,List.map_map]
  rfl

theorem sizes_eq : st.sizes = st.chunks.map List.length := by
  rw [sizes,chunks,List.map_map]
  apply List.map_congr_left
  intro x hx
  obtain ⟨r,hr,hx⟩ := List.mem_flatMap.mp hx
  obtain ⟨f,hf,rfl⟩ := List.mem_map.mp hx
  have hrows := r.rows f (List.mem_filter.mp hf).1
  have hrank := f.rank_le_count (r.numComputedTokens+r.numScheduledTokens)
  have hmono := f.rank_mono (Nat.le_add_right r.numComputedTokens r.numScheduledTokens)
  simp only [Function.comp_apply,Request.chunk,Feature.slice,Feature.rowCount,List.length_take,
    List.length_drop]
  omega

theorem sizes_pos {n : Nat} (h : n ∈ st.sizes) : 0 < n := by
  obtain ⟨x,hx,rfl⟩ := List.mem_map.mp h
  obtain ⟨r,hr,hx⟩ := List.mem_flatMap.mp hx
  obtain ⟨f,hf,rfl⟩ := List.mem_map.mp hx
  have htouch := of_decide_eq_true (List.mem_filter.mp hf).2
  exact Nat.sub_pos_of_lt htouch

/-- The arguments of the merge when all chunks are there. -/
def mergeArgs : MergeArgs E where
  inputsEmbeds := st.slots.map (Slot.text model)
  inputIds := st.slots.map Slot.token
  multimodalEmbeddings := st.chunks
  isMultimodal := st.slots.map fun s => s.owner.isSome
  embedsLength := by simp
  maskLength := by simp

theorem positions_mergeArgs (m : Modality) : (st.mergeArgs model).positions m =
    st.slots.map fun s => decide (s.modality = some m) := by
  rw [MergeArgs.positions,mergeArgs,List.zipWith_map]
  simp only [List.zipWith_self,Slot.marked_iff]

theorem embeddingsByModality_mergeArgs (m : Modality) :
    ((st.mergeArgs model).embeddingsByModality st.trueModalities m).flatten =
      (st.slots.filter fun s => decide (s.modality = some m)).map (Slot.placed model) := by
  rw [← flatMap_chunks,MergeArgs.embeddingsByModality,mergeArgs,trueModalities,chunks,
    List.zip_map',List.filter_map,List.map_map,List.flatMap]
  rfl

theorem fits_trueModalities :
    Fits (st.mergeArgs model).tokenCounts (st.mergeArgs model).sizes st.trueModalities := by
  refine ⟨by simp [trueModalities,MergeArgs.sizes,mergeArgs,chunks],fun m => ?_⟩
  rw [← MergeArgs.length_embeddingsByModality,embeddingsByModality_mergeArgs,MergeArgs.tokenCounts,
    positions_mergeArgs,List.length_map,List.count,List.countP_map,List.countP_eq_length_filter]
  congr 1
  apply List.filter_congr
  intro s _
  simp

theorem mem_trueModalities {s : Slot encode} (hs : s ∈ st.slots) {m : Modality}
    (hm : s.modality = some m) : m ∈ st.trueModalities := by
  obtain ⟨r,hr,hs⟩ := List.mem_flatMap.mp hs
  obtain ⟨i,hi,rfl⟩ := List.mem_map.mp hs
  obtain ⟨f,hf,rfl⟩ := Option.map_eq_some_iff.mp hm
  obtain ⟨hmem,he⟩ := Request.owner_eq_some.mp hf
  have htouch : f.touches r.numComputedTokens r.numScheduledTokens := by
    by_contra hnot
    rw [Feature.embedsAt_of_not_touches hnot hi] at he
    cases he
  exact List.mem_map.mpr ⟨(r,f),List.mem_flatMap.mpr
    ⟨r,hr,List.mem_map.mpr ⟨f,List.mem_filter.mpr ⟨hmem,htouch⟩,rfl⟩⟩,rfl⟩

/-- Scattering by the true modalities gives every token its own row. -/
theorem scatter_trueModalities :
    (st.mergeArgs model).scatterByModality st.trueModalities =
      .ok (st.slots.map (Slot.placed model)) := by
  rw [MergeArgs.scatterByModality_eq_ok]
  refine ⟨fun m _ => (st.fits_trueModalities model).total m,?_⟩
  simp only [embeddingsByModality_mergeArgs,positions_mergeArgs]
  refine (foldl_scatter (fun m (s : Slot encode) => decide (s.modality = some m))
    (Slot.placed model) st.slots st.trueModalities.eraseDups (Slot.text model)).trans ?_
  apply List.map_congr_left
  intro s hs
  split
  · rfl
  · rename_i hnone
    have howner : s.owner = none := by
      cases ho : s.owner with
      | none => rfl
      | some f =>
        have hm : s.modality = some f.modality := by rw [Slot.modality,ho]; rfl
        refine absurd (List.any_eq_true.mpr ⟨f.modality,?_,decide_eq_true hm⟩) hnone
        exact List.mem_eraseDups.mpr (st.mem_trueModalities hs hm)
    rw [Slot.placed,howner]
    rfl

end Step

end TLiveOmni.Vllm
