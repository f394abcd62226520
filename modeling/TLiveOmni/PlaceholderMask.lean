import TLiveOmni.Lib.Scatter
import TLiveOmni.Tokens

/-! `forward` of the Transformers model up to the language model: the feature rows of the audios,
images and videos replace the embeddings of their tokens, one modality after the other. -/
set_option autoImplicit false

namespace TLiveOmni
open PySeq Scatter

/-- The arguments of `forward`. The features of a modality are missing if its inputs are `None`. -/
structure ForwardArgs (E : Type) where
  hiddenSize : Nat
  hiddenPos : 0 < hiddenSize
  inputIds : List (List Token)
  embedTokens : Token → Vector E hiddenSize
  features : Modality → Option (List (Vector E hiddenSize))

section Scattering
variable {E : Type} {d : Nat}

/-- The elements of a tensor in memory order. -/
def elements (rows : List (Vector E d)) : List E := rows.flatMap Vector.toList

/-- `tensor.masked_scatter(mask, source)`. A longer source is not an error. -/
def maskedScatter (tensor : List E) (mask : List Bool) (source : List E) : Py (List E) := do
  raiseIf (source.length < mask.count true) (.builtin .runtimeError)
  pure (scatter mask source tensor)

/-- `tensor[mask]`. -/
def maskedSelect (tensor : List E) (mask : List Bool) : List E :=
  ((tensor.zip mask).filter (·.2)).map (·.1)

structure PlaceholderMasks where
  image : List Bool
  video : List Bool
  audio : List Bool

variable (ids : List Token) (inputsEmbeds : List E)

/-- `input_ids == token_id`. -/
def specialMask (m : Modality) : List Bool := ids.map fun t => decide (t = m.pad)

/-- `mask.unsqueeze(-1).expand_as(inputs_embeds)`. -/
def expandMask (d : Nat) (mask : List Bool) : List Bool := mask.flatMap (List.replicate d)

/-- The check of one modality in `get_placeholder_mask`; its message starts with `name`. -/
def checkFeatures (name : String) (m : Modality) : Option (List (Vector E d)) → Py Unit
  | none => pure ()
  | some features =>
      let nTokens := (specialMask ids m).count true
      raiseIf ((maskedSelect inputsEmbeds (expandMask d (specialMask ids m))).length ≠
          (elements features).length) (.raised .valueError
        (s!"{name} features and image tokens do not match: " ++
          s!"tokens: {nTokens}, features {features.length}"))

/-- `get_placeholder_mask` for `input_ids`. The audio features are not checked. -/
def getPlaceholderMask (imageFeatures videoFeatures : Option (List (Vector E d))) :
    Py PlaceholderMasks := do
  checkFeatures ids inputsEmbeds "Image" .image imageFeatures
  checkFeatures ids inputsEmbeds "Videos" .video videoFeatures
  pure ⟨expandMask d (specialMask ids .image),expandMask d (specialMask ids .video),
    expandMask d (specialMask ids .audio)⟩

def scatterAudio : Option (List (Vector E d)) → Py (List E)
  | none => pure inputsEmbeds
  | some audioFeatures => do
      let masks ← getPlaceholderMask ids inputsEmbeds (none : Option (List (Vector E d))) none
      maskedScatter inputsEmbeds masks.audio (elements audioFeatures)

def scatterImage : Option (List (Vector E d)) → Py (List E)
  | none => pure inputsEmbeds
  | some imageEmbeds => do
      let masks ← getPlaceholderMask ids inputsEmbeds (some imageEmbeds) none
      maskedScatter inputsEmbeds masks.image (elements imageEmbeds)

def scatterVideo : Option (List (Vector E d)) → Py (List E)
  | none => pure inputsEmbeds
  | some videoEmbeds => do
      let masks ← getPlaceholderMask ids inputsEmbeds none (some videoEmbeds)
      maskedScatter inputsEmbeds masks.video (elements videoEmbeds)

end Scattering

namespace ForwardArgs
variable {E : Type} (a : ForwardArgs E)

/-- The tokens in batch-then-sequence order. -/
def ids : List Token := a.inputIds.flatten

/-- What `forward` hands to the language model. -/
def forward : Py (List E) := do
  let inputsEmbeds := elements (a.ids.map a.embedTokens)
  let inputsEmbeds ← scatterAudio a.ids inputsEmbeds (a.features .audio)
  let inputsEmbeds ← scatterImage a.ids inputsEmbeds (a.features .image)
  scatterVideo a.ids inputsEmbeds (a.features .video)

/-- The elements of token `k`. -/
def rowAt (out : List E) (k : Nat) : List E := (out.drop (k*a.hiddenSize)).take a.hiddenSize

/-- The supplied features are as many as their tokens, the token with `r` tokens of its modality
before it has feature row `r`, and every other token its embedding. -/
structure Placed (out : List E) : Prop where
  counts : ∀ m features, a.features m = some features → features.length = a.ids.count m.pad
  own : ∀ m features, a.features m = some features → ∀ k, a.ids[k]? = some m.pad →
    features[(a.ids.take k).count m.pad]?.map Vector.toList = some (a.rowAt out k)
  kept : ∀ k t, a.ids[k]? = some t → (∀ m : Modality, t = m.pad → a.features m = none) →
    a.rowAt out k = (a.embedTokens t).toList

end ForwardArgs

section Rows
variable {E : Type} {d : Nat} {ids : List Token} {rows : List (Vector E d)} {m : Modality}
  {features : List (Vector E d)}

theorem length_elements (rows : List (Vector E d)) : (elements rows).length = rows.length*d := by
  induction rows with
  | nil => simp [elements]
  | cons r rows ih =>
    unfold elements at ih ⊢
    rw [List.flatMap_cons,List.length_append,ih,Vector.length_toList,List.length_cons,
      Nat.succ_mul,Nat.add_comm]

theorem count_specialMask (ids : List Token) (m : Modality) :
    (specialMask ids m).count true = ids.count m.pad := by
  unfold specialMask
  rw [List.count_eq_countP,List.countP_map,List.count_eq_countP]
  congr 1
  funext t
  rw [Function.comp_apply,beq_true]
  rfl

theorem count_expandMask (d : Nat) (mask : List Bool) :
    (expandMask d mask).count true = mask.count true*d := by
  induction mask with
  | nil => simp [expandMask]
  | cons b mask ih =>
    unfold expandMask at ih ⊢
    rw [List.flatMap_cons,List.count_append,ih]
    cases b with
    | false => simp [List.count_replicate]
    | true => simp [Nat.succ_mul,Nat.add_comm]

theorem length_expandMask (d : Nat) (mask : List Bool) :
    (expandMask d mask).length = mask.length*d := by
  simp [expandMask,List.length_flatMap]

theorem length_maskedSelect {tensor : List E} {mask : List Bool}
    (h : tensor.length = mask.length) : (maskedSelect tensor mask).length = mask.count true := by
  have hmask : (tensor.zip mask).map Prod.snd = mask := List.map_snd_zip (by omega)
  unfold maskedSelect
  rw [List.length_map,← List.countP_eq_length_filter,List.count_eq_countP]
  conv_rhs => rw [← hmask,List.countP_map]
  congr 1
  funext x
  simp

/-- The rows behind the scatter of one modality. -/
def putRows (ids : List Token) (m : Modality) (rows : List (Vector E d)) :
    Option (List (Vector E d)) → List (Vector E d)
  | none => rows
  | some features => scatter (specialMask ids m) features rows

theorem length_putRows (o : Option (List (Vector E d))) :
    (putRows ids m rows o).length = rows.length := by
  cases o with
  | none => rfl
  | some features => simp [putRows]

/-- The features of a modality, if there are any, are as many as its tokens. -/
def Matched (ids : List Token) (m : Modality) (o : Option (List (Vector E d))) : Prop :=
  ∀ features, o = some features → features.length = ids.count m.pad

theorem checkFeatures_eq_ok (hlen : ids.length = rows.length) (hd : 0 < d) {name : String}
    {o : Option (List (Vector E d))} {u : Unit} :
    checkFeatures ids (elements rows) name m o = .ok u ↔ Matched ids m o := by
  cases o with
  | none => simp [checkFeatures,Matched]
  | some features =>
    have hselect : (maskedSelect (elements rows) (expandMask d (specialMask ids m))).length =
        ids.count m.pad*d := by
      rw [length_maskedSelect,count_expandMask,count_specialMask]
      rw [length_elements,length_expandMask]
      simp [specialMask,hlen]
    unfold checkFeatures Matched
    rw [raiseIf_eq_ok,hselect,length_elements,not_not,Nat.mul_left_inj (by omega)]
    simp only [Option.some.injEq,forall_eq']
    exact eq_comm

/-- The check covers images and videos, and no audio. -/
theorem getPlaceholderMask_eq_ok (hlen : ids.length = rows.length) (hd : 0 < d)
    {i v : Option (List (Vector E d))} {masks : PlaceholderMasks} :
    getPlaceholderMask ids (elements rows) i v = .ok masks ↔
      Matched ids .image i ∧ Matched ids .video v ∧
        ⟨expandMask d (specialMask ids .image),expandMask d (specialMask ids .video),
          expandMask d (specialMask ids .audio)⟩ = masks := by
  unfold getPlaceholderMask
  simp only [bind_eq_ok,checkFeatures_eq_ok hlen hd,pure_eq_ok,Except.ok.injEq,exists_const]

theorem maskedScatter_eq_ok (hlen : ids.length = rows.length) (hd : 0 < d) {out : List E} :
    maskedScatter (elements rows) (expandMask d (specialMask ids m)) (elements features) = .ok out ↔
      ids.count m.pad ≤ features.length ∧ elements (putRows ids m rows (some features)) = out := by
  unfold maskedScatter
  rw [bind_eq_ok]
  simp only [raiseIf_eq_ok,length_elements,count_expandMask,count_specialMask,Nat.not_lt,
    Nat.mul_le_mul_right_iff hd,pure_eq_ok,Except.ok.injEq,exists_const]
  refine and_congr_right fun hcount => ?_
  have hmask : (specialMask ids m).length = rows.length := by simp [specialMask,hlen]
  have hwide : scatter ((specialMask ids m).flatMap (List.replicate d))
      (features.flatMap Vector.toList) (rows.flatMap Vector.toList) =
      (scatter (specialMask ids m) features rows).flatMap Vector.toList :=
    scatter_wide (fun x => x.length_toList) hmask (by rw [count_specialMask]; exact hcount)
  unfold elements expandMask putRows
  rw [hwide]

variable {o : Option (List (Vector E d))} {out : List E}

theorem scatterAudio_eq_ok (hlen : ids.length = rows.length) (hd : 0 < d) :
    scatterAudio ids (elements rows) o = .ok out ↔
      (∀ features, o = some features → ids.count .audioPad ≤ features.length) ∧
        elements (putRows ids .audio rows o) = out := by
  cases o with
  | none => simp [scatterAudio,putRows]
  | some features =>
    unfold scatterAudio
    rw [bind_eq_ok]
    constructor
    · rintro ⟨masks,hmasks,hout⟩
      obtain ⟨-,-,rfl⟩ := (getPlaceholderMask_eq_ok hlen hd).mp hmasks
      obtain ⟨hcount,hout⟩ := (maskedScatter_eq_ok hlen hd).mp hout
      exact ⟨fun _ hf => Option.some.inj hf ▸ hcount,hout⟩
    · rintro ⟨hcount,hout⟩
      refine ⟨_,(getPlaceholderMask_eq_ok hlen hd).mpr ⟨by simp [Matched],by simp [Matched],rfl⟩,?_⟩
      exact (maskedScatter_eq_ok hlen hd).mpr ⟨hcount features rfl,hout⟩

theorem scatterImage_eq_ok (hlen : ids.length = rows.length) (hd : 0 < d) :
    scatterImage ids (elements rows) o = .ok out ↔
      Matched ids .image o ∧ elements (putRows ids .image rows o) = out := by
  cases o with
  | none => simp [scatterImage,putRows,Matched]
  | some features =>
    unfold scatterImage
    rw [bind_eq_ok]
    constructor
    · rintro ⟨masks,hmasks,hout⟩
      obtain ⟨hcount,-,rfl⟩ := (getPlaceholderMask_eq_ok hlen hd).mp hmasks
      exact ⟨hcount,((maskedScatter_eq_ok hlen hd).mp hout).2⟩
    · rintro ⟨hcount,hout⟩
      refine ⟨_,(getPlaceholderMask_eq_ok hlen hd).mpr ⟨hcount,by simp [Matched],rfl⟩,?_⟩
      exact (maskedScatter_eq_ok hlen hd).mpr ⟨(hcount features rfl).ge,hout⟩

theorem scatterVideo_eq_ok (hlen : ids.length = rows.length) (hd : 0 < d) :
    scatterVideo ids (elements rows) o = .ok out ↔
      Matched ids .video o ∧ elements (putRows ids .video rows o) = out := by
  cases o with
  | none => simp [scatterVideo,putRows,Matched]
  | some features =>
    unfold scatterVideo
    rw [bind_eq_ok]
    constructor
    · rintro ⟨masks,hmasks,hout⟩
      obtain ⟨-,hcount,rfl⟩ := (getPlaceholderMask_eq_ok hlen hd).mp hmasks
      exact ⟨hcount,((maskedScatter_eq_ok hlen hd).mp hout).2⟩
    · rintro ⟨hcount,hout⟩
      refine ⟨_,(getPlaceholderMask_eq_ok hlen hd).mpr ⟨by simp [Matched],hcount,rfl⟩,?_⟩
      exact (maskedScatter_eq_ok hlen hd).mpr ⟨(hcount features rfl).ge,hout⟩

theorem putRows_own (hlen : ids.length = rows.length) (hcount : ids.count m.pad ≤ features.length)
    {k : Nat} (hk : ids[k]? = some m.pad) :
    (putRows ids m rows (some features))[k]? = features[(ids.take k).count m.pad]? := by
  have hmask : (specialMask ids m).length = rows.length := by simp [specialMask,hlen]
  have hat : (specialMask ids m)[k]? = some true := by simp [specialMask,hk]
  have hbefore : (specialMask ids m).take k = specialMask (ids.take k) m := by
    simp [specialMask,List.map_take]
  unfold putRows
  rw [getElem?_scatter hmask (by rw [count_specialMask]; exact hcount),if_pos hat,hbefore,
    count_specialMask]

theorem putRows_other (hlen : ids.length = rows.length)
    (hcount : ∀ features, o = some features → ids.count m.pad ≤ features.length) {k : Nat} {t : Token}
    (hk : ids[k]? = some t) (ht : t = m.pad → o = none) :
    (putRows ids m rows o)[k]? = rows[k]? := by
  cases o with
  | none => rfl
  | some features =>
    have hne : t ≠ m.pad := fun h => by cases ht h
    have hmask : (specialMask ids m).length = rows.length := by simp [specialMask,hlen]
    have hat : (specialMask ids m)[k]? ≠ some true := by simp [specialMask,hk,hne]
    unfold putRows
    rw [getElem?_scatter hmask (by rw [count_specialMask]; exact hcount features rfl),if_neg hat]

end Rows

namespace ForwardArgs
variable {E : Type} {a : ForwardArgs E} {out : List E}

/-- The rows of the tokens behind each modality. -/
def withAudio (a : ForwardArgs E) : List (Vector E a.hiddenSize) :=
  putRows a.ids .audio (a.ids.map a.embedTokens) (a.features .audio)

def withImage (a : ForwardArgs E) : List (Vector E a.hiddenSize) :=
  putRows a.ids .image a.withAudio (a.features .image)

def withVideo (a : ForwardArgs E) : List (Vector E a.hiddenSize) :=
  putRows a.ids .video a.withImage (a.features .video)

theorem length_withAudio : a.ids.length = a.withAudio.length := by
  simp [withAudio,length_putRows]

theorem length_withImage : a.ids.length = a.withImage.length := by
  rw [withImage,length_putRows,← length_withAudio]

/-- No audio token is left without a feature row. -/
def AudioSuffices (a : ForwardArgs E) : Prop :=
  ∀ features, a.features .audio = some features → a.ids.count .audioPad ≤ features.length

theorem forward_eq_ok : a.forward = .ok out ↔ a.AudioSuffices ∧
    Matched a.ids .image (a.features .image) ∧ Matched a.ids .video (a.features .video) ∧
      elements a.withVideo = out := by
  unfold forward
  dsimp only
  rw [bind_eq_ok]
  constructor
  · rintro ⟨embeds,haudio,h⟩
    obtain ⟨hcount,rfl⟩ := (scatterAudio_eq_ok (by simp) a.hiddenPos).mp haudio
    obtain ⟨embeds,himage,h⟩ := bind_eq_ok.mp h
    obtain ⟨hi,rfl⟩ := (scatterImage_eq_ok length_withAudio a.hiddenPos).mp himage
    obtain ⟨hv,hout⟩ := (scatterVideo_eq_ok length_withImage a.hiddenPos).mp h
    exact ⟨hcount,hi,hv,hout⟩
  · rintro ⟨hcount,hi,hv,hout⟩
    refine ⟨_,(scatterAudio_eq_ok (by simp) a.hiddenPos).mpr ⟨hcount,rfl⟩,bind_eq_ok.mpr ?_⟩
    refine ⟨_,(scatterImage_eq_ok length_withAudio a.hiddenPos).mpr ⟨hi,rfl⟩,?_⟩
    exact (scatterVideo_eq_ok length_withImage a.hiddenPos).mpr ⟨hv,hout⟩

theorem rowAt_elements {rows : List (Vector E a.hiddenSize)} {k : Nat}
    {x : Vector E a.hiddenSize} (hk : rows[k]? = some x) : a.rowAt (elements rows) k = x.toList :=
  slice_flatMap (fun x => x.length_toList) hk

section Matched
variable (h : ∀ m, Matched a.ids m (a.features m)) {k : Nat} {t : Token}
include h

theorem suffices_of_matched (m : Modality) : ∀ features, a.features m = some features →
    a.ids.count m.pad ≤ features.length := fun features hf => (h m features hf).ge

theorem withVideo_other (hk : a.ids[k]? = some t) (ht : t = .videoPad → a.features .video = none) :
    a.withVideo[k]? = a.withImage[k]? :=
  putRows_other length_withImage (suffices_of_matched h .video) hk ht

theorem withImage_other (hk : a.ids[k]? = some t) (ht : t = .imagePad → a.features .image = none) :
    a.withImage[k]? = a.withAudio[k]? :=
  putRows_other length_withAudio (suffices_of_matched h .image) hk ht

theorem withAudio_other (hk : a.ids[k]? = some t) (ht : t = .audioPad → a.features .audio = none) :
    a.withAudio[k]? = some (a.embedTokens t) := by
  unfold withAudio
  rw [putRows_other (by simp) (suffices_of_matched h .audio) hk ht,List.getElem?_map,hk]
  rfl

/-- Later modalities leave the rows of a token alone. -/
theorem withVideo_own {m : Modality} {features : List (Vector E a.hiddenSize)}
    (hf : a.features m = some features) (hk : a.ids[k]? = some m.pad) :
    a.withVideo[k]? = features[(a.ids.take k).count m.pad]? := by
  have hcount := suffices_of_matched h m features hf
  cases m with
  | video =>
    unfold withVideo
    rw [hf]
    exact putRows_own length_withImage hcount hk
  | image =>
    rw [withVideo_other h hk (fun ht => by cases ht),withImage,hf]
    exact putRows_own length_withAudio hcount hk
  | audio =>
    rw [withVideo_other h hk (fun ht => by cases ht),withImage_other h hk (fun ht => by cases ht),
      withAudio,hf]
    exact putRows_own (by simp) hcount hk

theorem placed_of_matched : a.Placed (elements a.withVideo) := by
  constructor
  case counts => exact fun m features hf => h m features hf
  case own =>
    intro m features hf k hk
    have hrow := withVideo_own h hf hk
    have hlt : k < a.withVideo.length := by
      have := (List.getElem?_eq_some_iff.mp hk).1
      rwa [withVideo,length_putRows,← length_withImage]
    rw [List.getElem?_eq_getElem hlt] at hrow
    rw [← hrow,rowAt_elements (List.getElem?_eq_getElem hlt)]
    rfl
  case kept =>
    intro k t hk ht
    apply rowAt_elements
    rw [withVideo_other h hk (ht .video),withImage_other h hk (ht .image),
      withAudio_other h hk (ht .audio)]

end Matched

theorem mismatchRaises_iff (a : ForwardArgs E) :
    ((∃ e, a.forward = .error e) ∨ ∃ out, a.forward = .ok out ∧ a.Placed out) ↔
      ((∀ features, a.features .audio = some features →
        features.length ≤ a.ids.count .audioPad) ∨
      ¬ Matched a.ids .image (a.features .image) ∨ ¬ Matched a.ids .video (a.features .video)) := by
  constructor
  · intro h
    by_contra hnot
    obtain ⟨haudio,hvision⟩ := not_or.mp hnot
    obtain ⟨hi,hv⟩ := not_or.mp hvision
    rw [not_not] at hi hv
    push Not at haudio
    obtain ⟨features,hf,hmore⟩ := haudio
    have hsuffices : a.AudioSuffices := by
      intro features' hf'
      rw [hf,Option.some.injEq] at hf'
      rw [← hf']
      exact Nat.le_of_lt hmore
    have hok := forward_eq_ok.mpr ⟨hsuffices,hi,hv,rfl⟩
    rcases h with ⟨e,he⟩ | ⟨out,-,hplaced⟩
    · rw [hok] at he
      cases he
    · have hequal : features.length = a.ids.count .audioPad := hplaced.counts .audio features hf
      omega
  · intro h
    cases hout : a.forward with
    | error e => exact .inl ⟨e,rfl⟩
    | ok out =>
      obtain ⟨hsuffices,hi,hv,rfl⟩ := forward_eq_ok.mp hout
      rcases h with hle | hi' | hv'
      · refine .inr ⟨_,rfl,placed_of_matched fun m => ?_⟩
        cases m with
        | image => exact hi
        | video => exact hv
        | audio => exact fun features hf => Nat.le_antisymm (hle features hf) (hsuffices features hf)
      · exact absurd hi hi'
      · exact absurd hv hv'

/-- Two audios of which the first has a row more than it has tokens. -/
def surplus : ForwardArgs Nat where
  hiddenSize := 1
  hiddenPos := Nat.one_pos
  inputIds := [[.audioStart,.audioPad,.audioEnd],[.audioStart,.audioPad,.audioEnd]]
  embedTokens _ := #v[0]
  features
    | .audio => some [#v[11],#v[12],#v[21]]
    | _ => none

theorem surplus_shifts : surplus.forward = .ok [0,11,0,0,12,0] ∧
    ¬ ((∃ e, surplus.forward = .error e) ∨
      ∃ out, surplus.forward = .ok out ∧ surplus.Placed out) := by
  have hout : surplus.forward = .ok [0,11,0,0,12,0] := by decide +kernel
  refine ⟨hout,?_⟩
  rintro (⟨e,he⟩ | ⟨out,-,hplaced⟩)
  · rw [hout] at he
    cases he
  · exact absurd (hplaced.counts .audio _ rfl) (by decide)

end ForwardArgs
end TLiveOmni
