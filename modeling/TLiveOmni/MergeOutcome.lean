import TLiveOmni.MergeEmbeddings

/-! When the merge by modality returns, and where the rows are when it has. -/
set_option autoImplicit false

namespace TLiveOmni.Vllm
open PySeq Assign Scatter

section Sum
variable {tokenCounts : Modality → Nat} {sizes : List Nat} {modalities : List Modality}

/-- Equal totals over all modalities leave no room for a modality without a chunk. -/
theorem Fits.of_sum (hlen : modalities.length = sizes.length)
    (hmem : ∀ m ∈ modalities, Assign.total m modalities sizes = tokenCounts m)
    (hsum : tokenCounts .image + tokenCounts .video + tokenCounts .audio = sizes.sum) :
    Fits tokenCounts sizes modalities := by
  have hle : ∀ m, Assign.total m modalities sizes ≤ tokenCounts m := by
    intro m
    by_cases hm : m ∈ modalities
    · exact (hmem m hm).le
    · rw [total_eq_zero hm]
      exact Nat.zero_le _
  have htot := sum_total hlen
  have hi := hle .image
  have hv := hle .video
  have ha := hle .audio
  refine ⟨hlen,fun m => ?_⟩
  cases m with
  | image => omega
  | video => omega
  | audio => omega

theorem Fits.sum (h : Fits tokenCounts sizes modalities) :
    tokenCounts .image + tokenCounts .video + tokenCounts .audio = sizes.sum := by
  rw [← sum_total h.length,h.total,h.total,h.total]

end Sum

namespace MergeArgs
variable {E : Type} (a : MergeArgs E) (labels : Labels)

/-- No window of the labels fits, and the inference is not reached or has no modality to
assign. -/
def Missed : Prop :=
  ¬ HasWindow a.tokenCounts a.sizes labels ∧
    (Unchecked a.tokenCounts a.sizes labels ∨ (a.sizes ≠ [] ∧ ∀ m, a.tokenCounts m = 0))

variable {a labels}

theorem merge_of_fits (h : Fits a.tokenCounts a.sizes (guessModalities a.tokenCounts a.sizes labels)) :
    ∃ r, a.mergeEmbeddingsByModality labels = .ok r :=
  ⟨(_,some []),merge_eq_ok.mpr ⟨h.length,scatterByModality_eq_ok.mpr ⟨fun m _ => h.total m,rfl⟩,rfl⟩⟩

/-- A guess that is merged fits, if all rows have a position. -/
theorem fits_of_merge {r : List E × Labels} (h : a.mergeEmbeddingsByModality labels = .ok r)
    (hsum : a.tokenCounts .image + a.tokenCounts .video + a.tokenCounts .audio = a.sizes.sum) :
    Fits a.tokenCounts a.sizes (guessModalities a.tokenCounts a.sizes labels) := by
  obtain ⟨hlen,hscatter,-⟩ := merge_eq_ok.mp h
  exact .of_sum hlen (scatterByModality_eq_ok.mp hscatter).1 hsum

theorem not_merge_of_missed {modalities : List Modality} (hfit : Fits a.tokenCounts a.sizes modalities)
    (hmiss : a.Missed labels) (r : List E × Labels) : a.mergeEmbeddingsByModality labels ≠ .ok r := by
  intro h
  have hguess := fits_of_merge h hfit.sum
  obtain ⟨hno,hmiss⟩ := hmiss
  rcases guess_cases a.tokenCounts a.sizes labels with
    ⟨pre,w,post,hl,hw,-,-⟩ | ⟨-,-,hl⟩ | ⟨-,hun,hinf⟩
  · exact hno ⟨pre,w,post,hl,hw⟩
  · exact hno ⟨[],_,[],by rw [List.nil_append,List.append_nil]; exact hl,hguess⟩
  · rcases hmiss with hun' | ⟨hne,hzero⟩
    · exact hun hun'
    · rw [hinf,inferModalities_starved hzero hne] at hguess
      exact hne (by simpa using hguess.length.symm)

theorem merge_of_not_missed {modalities : List Modality} (hfit : Fits a.tokenCounts a.sizes modalities)
    (hmiss : ¬ a.Missed labels) : ∃ r, a.mergeEmbeddingsByModality labels = .ok r := by
  apply merge_of_fits
  rcases guess_cases a.tokenCounts a.sizes labels with
    ⟨pre,w,post,-,hw,hguess,-⟩ | ⟨hno,hun,-⟩ | ⟨hno,-,hguess⟩
  · rw [hguess]
    exact hw
  · exact absurd ⟨hno,.inl hun⟩ hmiss
  · rw [hguess]
    by_cases hpos : ∃ m, 0 < a.tokenCounts m
    · exact hfit.infer hpos
    · have hzero : ∀ m, a.tokenCounts m = 0 := by
        intro m
        by_contra hm
        exact hpos ⟨m,by omega⟩
      have hnil : a.sizes = [] := by
        by_contra hne
        exact hmiss ⟨hno,.inr ⟨hne,hzero⟩⟩
      have hp : presentModalities a.tokenCounts = [] := by
        simp [presentModalities,hzero]
      rw [hnil,inferModalities,hp]
      exact ⟨rfl,fun m => by rw [hzero]; rfl⟩

/-- The merge finds a fitting assignment exactly where the labels do not stand in its way. -/
theorem mergeReturns_iff (a : MergeArgs E) (labels : Labels) :
    ((∃ modalities, Fits a.tokenCounts a.sizes modalities) →
      ∃ r, a.mergeEmbeddingsByModality labels = .ok r) ↔
    ¬ (a.Missed labels ∧ ∃ modalities, Fits a.tokenCounts a.sizes modalities) := by
  constructor
  · rintro h ⟨hmiss,hfit⟩
    obtain ⟨r,hr⟩ := h hfit
    obtain ⟨modalities,hfit⟩ := hfit
    exact not_merge_of_missed hfit hmiss r hr
  · rintro h ⟨modalities,hfit⟩
    exact merge_of_not_missed hfit fun hmiss => h ⟨hmiss,modalities,hfit⟩

end MergeArgs

/-- Two video tokens and an audio token, and the chunks in this order. -/
def videoThenAudio : MergeArgs Nat where
  inputsEmbeds := [0,0,0]
  inputIds := [.videoPad,.videoPad,.audioPad]
  multimodalEmbeddings := [[1,2],[3]]
  isMultimodal := [true,true,true]
  embedsLength := rfl
  maskLength := rfl

/-- An audio and a video of earlier requests have left their labels in the other order. -/
theorem videoThenAudio_refused :
    Fits videoThenAudio.tokenCounts videoThenAudio.sizes [.video,.audio] ∧
      ∀ r, videoThenAudio.mergeEmbeddingsByModality (some [.audio,.video]) ≠ .ok r := by
  refine ⟨isValidAssignment_iff.mp (by decide),?_⟩
  have herr : (videoThenAudio.mergeEmbeddingsByModality (some [.audio,.video])).isOk = false := by
    decide +kernel
  intro r hr
  rw [hr] at herr
  cases herr

namespace MergeArgs
variable {E : Type} (a : MergeArgs E)

/-- The rows of all chunks, named by chunk and row, in chunk order. -/
def rows : List (Nat × Nat) :=
  a.multimodalEmbeddings.zipIdx.flatMap fun x => (List.range x.1.length).map fun r => (x.2,r)

/-- `multimodal_embeddings[x.1][x.2]`. -/
def row? (x : Nat × Nat) : Option E := (a.multimodalEmbeddings[x.1]?).bind (·[x.2]?)

/-- Chunk order. -/
def RowBefore (x y : Nat × Nat) : Prop := x.1 < y.1 ∨ x.1 = y.1 ∧ x.2 < y.2

theorem mem_rows {x : Nat × Nat} : x ∈ a.rows ↔ (a.row? x).isSome := by
  obtain ⟨c,r⟩ := x
  simp only [rows,row?,List.mem_flatMap,List.mem_map,List.mem_range,Prod.mk.injEq,Prod.exists,
    List.mem_zipIdx_iff_getElem?]
  constructor
  · rintro ⟨chunk,c',hc,r',hr,rfl,rfl⟩
    simp [hc,hr]
  · intro h
    cases hc : a.multimodalEmbeddings[c]? with
    | none => simp [hc] at h
    | some chunk => exact ⟨chunk,c,hc,r,by simpa [hc] using h,rfl,rfl⟩

theorem rows_pairwise : a.rows.Pairwise RowBefore := by
  rw [rows,List.flatMap,List.pairwise_flatten]
  constructor
  · intro l hl
    obtain ⟨x,-,rfl⟩ := List.mem_map.mp hl
    rw [List.pairwise_map]
    exact List.pairwise_lt_range.imp fun h => .inr ⟨rfl,h⟩
  · rw [List.pairwise_map]
    have hidx : a.multimodalEmbeddings.zipIdx.Pairwise fun x y => x.2 < y.2 := by
      have := @List.pairwise_lt_range' 0 a.multimodalEmbeddings.length 1 (by decide)
      rw [← List.zipIdx_map_snd 0 a.multimodalEmbeddings,List.pairwise_map] at this
      exact this
    refine hidx.imp ?_
    intro x y hxy p hp q hq
    obtain ⟨r,-,rfl⟩ := List.mem_map.mp hp
    obtain ⟨r',-,rfl⟩ := List.mem_map.mp hq
    exact .inl hxy

theorem map_getElem?_range (l : List E) : (List.range l.length).map (l[·]?) = l.map some := by
  refine List.ext_getElem (by simp) fun i hi hi' => ?_
  have : i < l.length := by simpa using hi'
  simp [List.getElem?_eq_getElem this]

theorem map_row_aux (m : Modality) {chunks : List (List E)} {modalities : List Modality} {n : Nat}
    {label : Nat → Option Modality} {row : Nat × Nat → Option E}
    (hlabel : ∀ i, label (n+i) = modalities[i]?)
    (hrow : ∀ i r, row (n+i,r) = (chunks[i]?).bind (·[r]?)) :
    (((chunks.zipIdx n).flatMap fun x => (List.range x.1.length).map fun r => (x.2,r)).filter
      fun x => decide (label x.1 = some m)).map row =
    (((modalities.zip chunks).filter fun x => decide (x.1 = m)).map (·.2)).flatten.map some := by
  induction chunks generalizing n modalities with
  | nil => simp
  | cons c chunks ih =>
    have hrest := @ih modalities.tail (n+1)
      (fun i => by rw [Nat.add_assoc,Nat.add_comm 1 i,hlabel]; simp)
      (fun i r => by rw [Nat.add_assoc,Nat.add_comm 1 i,hrow]; simp)
    have hhead : (List.range c.length).map (fun r => row (n,r)) = c.map some := by
      rw [← map_getElem?_range]
      apply List.map_congr_left
      intro r _
      simpa using hrow 0 r
    have hn := hlabel 0
    rw [Nat.add_zero] at hn
    rw [List.zipIdx_cons,List.flatMap_cons,List.filter_append,List.map_append,hrest]
    cases modalities with
    | nil =>
      have hnone : label n = none := by simpa using hn
      simp [List.filter_map,Function.comp_def,hnone]
    | cons l modalities =>
      have hsome : label n = some l := by simpa using hn
      by_cases hl : l = m
      · simp [List.filter_map,Function.comp_def,hsome,hl,← hhead]
      · simp [List.filter_map,Function.comp_def,hsome,hl]

theorem map_row_filter (modalities : List Modality) (m : Modality) :
    (a.rows.filter fun x => decide (modalities[x.1]? = some m)).map a.row? =
      (a.embeddingsByModality modalities m).flatten.map some := by
  exact map_row_aux m (fun i => by rw [Nat.zero_add]) (fun i r => by rw [Nat.zero_add]; rfl)

end MergeArgs

namespace MergeArgs
variable {E : Type} (a : MergeArgs E)

/-- A position of the sequence. -/
abbrev Spot := Fin a.inputsEmbeds.length

def mask (i : a.Spot) : Bool := a.isMultimodal.get (i.cast (by rw [a.embedsLength,a.maskLength]))

def token (i : a.Spot) : Token := a.inputIds.get (i.cast a.embedsLength)

def marks (m : Modality) (i : a.Spot) : Bool := a.mask i && decide (a.token i = m.pad)

/-- The positions of a modality, in order. -/
def spots (m : Modality) : List a.Spot := (List.finRange _).filter (a.marks m)

/-- The rows of the chunks of a modality, in order. -/
def rowsOf (modalities : List Modality) (m : Modality) : List (Nat × Nat) :=
  a.rows.filter fun x => decide (modalities[x.1]? = some m)

/-- The row that comes to a position: the row of the same rank. -/
def source (modalities : List Modality) (i : a.Spot) : Option (Nat × Nat) :=
  (Modality.all.find? fun m => a.marks m i).bind fun m =>
    (a.rowsOf modalities m)[(a.spots m).idxOf i]?

/-- The embedding at a position after the merge. -/
def embedding (modalities : List Modality) (i : a.Spot) : E :=
  ((a.source modalities i).bind a.row?).getD (a.inputsEmbeds.get i)

variable {a} {modalities : List Modality} {m m' : Modality} {i j : a.Spot}

theorem marks_iff : a.marks m i ↔ a.mask i ∧ a.token i = m.pad := by simp [marks]

theorem marks_unique (h : a.marks m i) (h' : a.marks m' i) : m = m' := by
  rw [← Modality.pad_inj,← (marks_iff.mp h).2,(marks_iff.mp h').2]

theorem mem_spots : i ∈ a.spots m ↔ a.marks m i := by simp [spots]

theorem spots_pairwise (m : Modality) : (a.spots m).Pairwise (· < ·) :=
  (List.pairwise_lt_finRange _).sublist List.filter_sublist

theorem positions_eq (m : Modality) : a.positions m = (List.finRange _).map (a.marks m) := by
  refine List.ext_getElem ?_ fun k hk hk' => ?_
  · simp [positions,a.embedsLength,a.maskLength]
  · simp [positions,marks,mask,token]

theorem inputsEmbeds_eq : a.inputsEmbeds = (List.finRange _).map a.inputsEmbeds.get := by
  refine List.ext_getElem (by simp) fun k hk hk' => ?_
  simp

theorem length_spots (m : Modality) : (a.spots m).length = a.tokenCounts m := by
  rw [tokenCounts,positions_eq,List.count,List.countP_map,spots,← List.countP_eq_length_filter]
  apply List.countP_congr
  intro i _
  simp

theorem length_rowsOf (modalities : List Modality) (m : Modality) :
    (a.rowsOf modalities m).length = total m modalities a.sizes := by
  rw [← length_embeddingsByModality,← List.length_map (a.row?),rowsOf,map_row_filter,List.length_map]

theorem source_of_marks (h : a.marks m i) :
    a.source modalities i = (a.rowsOf modalities m)[(a.spots m).idxOf i]? := by
  have hfind : Modality.all.find? (fun m => a.marks m i) = some m := by
    cases hf : Modality.all.find? fun m => a.marks m i with
    | none => exact absurd h (List.find?_eq_none.mp hf m m.mem_all)
    | some m' =>
      have hm' : a.marks m' i := by simpa using List.find?_some hf
      rw [marks_unique h hm']
  rw [source,hfind,Option.bind_some]

theorem exists_marks_of_source {x : Nat × Nat} (h : a.source modalities i = some x) :
    ∃ m, a.marks m i ∧ (a.rowsOf modalities m)[(a.spots m).idxOf i]? = some x := by
  obtain ⟨m,hm,hx⟩ := Option.bind_eq_some_iff.mp h
  exact ⟨m,by simpa using List.find?_some hm,hx⟩

theorem source_spots (modalities : List Modality) {k : Nat} (hk : k < (a.spots m).length) :
    a.source modalities (a.spots m)[k] = (a.rowsOf modalities m)[k]? := by
  have hmem : (a.spots m)[k] ∈ a.spots m := List.getElem_mem hk
  rw [source_of_marks (mem_spots.mp hmem),(spots_pairwise m).nodup.idxOf_getElem]

theorem source_eq_some {x : Nat × Nat} : a.source modalities i = some x ↔
    ∃ m, ∃ k : Nat, (a.spots m)[k]? = some i ∧ (a.rowsOf modalities m)[k]? = some x := by
  constructor
  · intro h
    obtain ⟨m,hm,hx⟩ := exists_marks_of_source h
    exact ⟨m,_,List.getElem?_idxOf (mem_spots.mpr hm),hx⟩
  · rintro ⟨m,k,hi,hx⟩
    obtain ⟨hk,rfl⟩ := List.getElem?_eq_some_iff.mp hi
    rw [source_spots modalities hk,hx]

theorem label_of_rowsOf {x : Nat × Nat} {k : Nat} (h : (a.rowsOf modalities m)[k]? = some x) :
    modalities[x.1]? = some m := by
  have := (List.mem_filter.mp (List.mem_of_getElem? h)).2
  simpa using this

theorem rowsOf_pairwise (modalities : List Modality) (m : Modality) :
    (a.rowsOf modalities m).Pairwise RowBefore := (rows_pairwise a).sublist List.filter_sublist

theorem rowBefore_asymm (x y : Nat × Nat) (h : RowBefore x y) : ¬ RowBefore y x := by
  simp only [RowBefore] at h ⊢
  omega

/-- Rows of one modality are in chunk order along the sequence. -/
theorem source_order {x y : Nat × Nat} (hx : a.source modalities i = some x)
    (hy : a.source modalities j = some y) (hlabel : modalities[x.1]? = modalities[y.1]?) :
    i < j ↔ RowBefore x y := by
  obtain ⟨m,k,hi,hx⟩ := source_eq_some.mp hx
  obtain ⟨m',k',hj,hy⟩ := source_eq_some.mp hy
  rw [label_of_rowsOf hx,label_of_rowsOf hy] at hlabel
  cases hlabel
  rw [rel_iff_lt (fun _ _ h => lt_asymm h) (spots_pairwise m) hi hj,
    rel_iff_lt rowBefore_asymm (rowsOf_pairwise modalities m) hx hy]

section Fitting
variable (hfit : Fits a.tokenCounts a.sizes modalities)
include hfit

theorem Fits.length_spots (m : Modality) : (a.spots m).length = (a.rowsOf modalities m).length := by
  rw [MergeArgs.length_spots,length_rowsOf,hfit.total]

theorem isSome_source (h : a.marks m i) : (a.source modalities i).isSome := by
  have hlt := List.idxOf_lt_length_iff.mpr (mem_spots.mpr h)
  rw [Fits.length_spots hfit] at hlt
  rw [source_of_marks h,List.getElem?_eq_getElem hlt]
  rfl

theorem flatten_eq_map_embedding (m : Modality) :
    (a.embeddingsByModality modalities m).flatten = (a.spots m).map (a.embedding modalities) := by
  apply List.map_injective_iff.mpr (Option.some_injective E)
  rw [← map_row_filter,List.map_map]
  have hlen := Fits.length_spots hfit m
  refine List.ext_getElem (by simpa [rowsOf] using hlen.symm) fun k hk hk' => ?_
  have hks : k < (a.spots m).length := by simpa using hk'
  have hkr : k < (a.rowsOf modalities m).length := hlen ▸ hks
  have hrow : (a.row? (a.rowsOf modalities m)[k]).isSome :=
    (mem_rows a).mp (List.mem_filter.mp (List.getElem_mem hkr)).1
  obtain ⟨e,he⟩ := Option.isSome_iff_exists.mp hrow
  have hsource := source_spots modalities hks
  rw [List.getElem?_eq_getElem hkr] at hsource
  have hval : a.embedding modalities (a.spots m)[k] = e := by
    rw [embedding,hsource,Option.bind_some,he,Option.getD_some]
  have hl : a.row? (a.rowsOf modalities m)[k] = some e := he
  simpa [hval,rowsOf] using hl

/-- Scattering by a fitting assignment puts every row where its rank says. -/
theorem scatterByModality_of_fits :
    a.scatterByModality modalities = .ok ((List.finRange _).map (a.embedding modalities)) := by
  rw [scatterByModality_eq_ok]
  refine ⟨fun m _ => hfit.total m,?_⟩
  simp only [flatten_eq_map_embedding hfit,positions_eq]
  have hfold := foldl_scatter a.marks (a.embedding modalities) (List.finRange _)
    modalities.eraseDups a.inputsEmbeds.get
  rw [← inputsEmbeds_eq] at hfold
  refine hfold.trans ?_
  apply List.map_congr_left
  intro i _
  split
  · rfl
  · rename_i hnone
    have hsource : a.source modalities i = none := by
      cases hs : a.source modalities i with
      | none => rfl
      | some x =>
        -- a marked position has rows, so its modality is one of the loop's
        obtain ⟨m,hm,hx⟩ := exists_marks_of_source hs
        have hmem : m ∈ modalities := by
          by_contra hnot
          have hpos := List.length_pos_of_mem (mem_spots.mpr hm)
          rw [MergeArgs.length_spots,← hfit.total,total_eq_zero hnot] at hpos
          omega
        exact absurd (List.any_eq_true.mpr ⟨m,List.mem_eraseDups.mpr hmem,hm⟩) hnone
    rw [embedding,hsource]
    rfl

theorem existsUnique_source {x : Nat × Nat} (hx : x ∈ a.rows) :
    ∃! i, a.source modalities i = some x := by
  have hc : x.1 < modalities.length := by
    have hsome := (mem_rows a).mp hx
    rw [hfit.length,sizes,List.length_map]
    by_contra hge
    rw [row?,List.getElem?_eq_none (by omega)] at hsome
    cases hsome
  have hmem : x ∈ a.rowsOf modalities modalities[x.1] := by
    simp [rowsOf,hx,List.getElem?_eq_getElem hc]
  obtain ⟨k,hk,hxk⟩ := List.getElem_of_mem hmem
  have hks := hk
  rw [← Fits.length_spots hfit] at hks
  refine ⟨_,source_eq_some.mpr ⟨_,k,List.getElem?_eq_getElem hks,
    List.getElem?_eq_some_iff.mpr ⟨hk,hxk⟩⟩,?_⟩
  intro j hj
  obtain ⟨m',k',hj,hx'⟩ := source_eq_some.mp hj
  have hlabel := label_of_rowsOf hx'
  rw [List.getElem?_eq_getElem hc] at hlabel
  cases hlabel
  obtain ⟨hk',hxk'⟩ := List.getElem?_eq_some_iff.mp hx'
  have hnodup : (a.rowsOf modalities modalities[x.1]).Nodup := by
    refine (rowsOf_pairwise modalities _).imp ?_
    rintro x _ h rfl
    exact rowBefore_asymm x x h h
  have hkk : k' = k := (hnodup.getElem_inj_iff).mp (hxk'.trans hxk.symm)
  subst hkk
  exact (List.getElem?_eq_some_iff.mp hj).2.symm

end Fitting

theorem sum_tokenCounts (hpad : ∀ i, a.mask i → ∃ m : Modality, a.token i = m.pad) :
    a.tokenCounts .image + a.tokenCounts .video + a.tokenCounts .audio = a.isMultimodal.count true := by
  have hmask : a.isMultimodal = (List.finRange _).map a.mask := by
    refine List.ext_getElem (by simp [a.embedsLength,a.maskLength]) fun k hk hk' => ?_
    simp [mask]
  rw [← length_spots,← length_spots,← length_spots]
  conv_rhs => rw [hmask,List.count,List.countP_map]
  simp only [spots]
  induction List.finRange a.inputsEmbeds.length with
  | nil => rfl
  | cons i l ih =>
    have hhead : (if a.marks .image i then 1 else 0) + (if a.marks .video i then 1 else 0) +
        (if a.marks .audio i then 1 else 0) = if a.mask i then 1 else 0 := by
      cases hi : a.mask i with
      | false => simp [marks,hi]
      | true =>
        obtain ⟨m,hm⟩ := hpad i hi
        cases m with
        | image => simp [marks,hi,hm,Modality.pad]
        | video => simp [marks,hi,hm,Modality.pad]
        | audio => simp [marks,hi,hm,Modality.pad]
    simp only [List.filter_cons,List.countP_cons,Function.comp_apply,beq_true] at ih ⊢
    rw [← ih,← hhead]
    split <;> split <;> split <;> simp <;> omega

/-- No row is lost or doubled: the masked positions and the rows of the chunks correspond one
to one, in chunk order for each modality, and the text stays. -/
theorem merge_sound (a : MergeArgs E) (labels labels' : Labels) (out : List E)
    (hpad : ∀ i, a.mask i → ∃ m : Modality, a.token i = m.pad)
    (hrows : a.sizes.sum = a.isMultimodal.count true)
    (h : a.mergeEmbeddingsByModality labels = .ok (out,labels')) :
    out.length = a.inputsEmbeds.length ∧ ∃ source : a.Spot → Option (Nat × Nat),
      (∀ i, (source i).isSome ↔ a.mask i) ∧
      (∀ x ∈ a.rows, ∃! i, source i = some x) ∧
      (∀ i x, source i = some x → x ∈ a.rows ∧ out[i.val]? = a.row? x) ∧
      (∀ i j x y, source i = some x → source j = some y →
        (guessModalities a.tokenCounts a.sizes labels)[x.1]? =
          (guessModalities a.tokenCounts a.sizes labels)[y.1]? → (i < j ↔ RowBefore x y)) ∧
      ∀ i, a.mask i = false → out[i.val]? = some (a.inputsEmbeds.get i) := by
  have hfit := fits_of_merge h ((sum_tokenCounts hpad).trans hrows.symm)
  generalize hg : guessModalities a.tokenCounts a.sizes labels = modalities at hfit ⊢
  have hout : out = (List.finRange _).map (a.embedding modalities) := by
    have hscatter := (merge_eq_ok.mp h).2.1
    rw [hg,scatterByModality_of_fits hfit] at hscatter
    exact (Except.ok.inj hscatter).symm
  have hget : ∀ i : a.Spot, out[i.val]? = some (a.embedding modalities i) := by
    intro i
    simp [hout]
  refine ⟨by simp [hout],a.source modalities,?_,fun x hx => existsUnique_source hfit hx,?_,
    fun i j x y hx hy hl => source_order hx hy hl,?_⟩
  · intro i
    constructor
    · intro hs
      obtain ⟨x,hx⟩ := Option.isSome_iff_exists.mp hs
      obtain ⟨m,hm,-⟩ := exists_marks_of_source hx
      exact (marks_iff.mp hm).1
    · intro hi
      obtain ⟨m,hm⟩ := hpad i hi
      exact isSome_source hfit (marks_iff.mpr ⟨hi,hm⟩)
  · intro i x hx
    obtain ⟨m,k,-,hk⟩ := source_eq_some.mp hx
    have hmem : x ∈ a.rows := (List.mem_filter.mp (List.mem_of_getElem? hk)).1
    obtain ⟨e,he⟩ := Option.isSome_iff_exists.mp ((mem_rows a).mp hmem)
    refine ⟨hmem,?_⟩
    rw [hget,embedding,hx,Option.bind_some,he,Option.getD_some]
  · intro i hi
    have hnone : a.source modalities i = none := by
      cases hs : a.source modalities i with
      | none => rfl
      | some x =>
        obtain ⟨m,hm,-⟩ := exists_marks_of_source hs
        rw [(marks_iff.mp hm).1] at hi
        cases hi
    rw [hget,embedding,hnone]
    rfl

end MergeArgs

/-- Without labels the two chunks are told apart by their sizes. -/
theorem videoThenAudio_sound :
    videoThenAudio.mergeEmbeddingsByModality none = .ok ([1,2,3],some []) ∧
    ∃ source : videoThenAudio.Spot → Option (Nat × Nat),
      ∀ x ∈ videoThenAudio.rows, ∃! i, source i = some x := by
  have hrun : videoThenAudio.mergeEmbeddingsByModality none = .ok ([1,2,3],some []) := by
    decide +kernel
  have hpad : ∀ i, videoThenAudio.mask i → ∃ m : Modality, videoThenAudio.token i = m.pad := by
    intro i _
    match i with
    | ⟨0,_⟩ => exact ⟨.video,rfl⟩
    | ⟨1,_⟩ => exact ⟨.video,rfl⟩
    | ⟨2,_⟩ => exact ⟨.audio,rfl⟩
  obtain ⟨-,source,-,h,-⟩ := MergeArgs.merge_sound videoThenAudio none _ _ hpad (by decide) hrun
  exact ⟨hrun,source,h⟩

end TLiveOmni.Vllm
