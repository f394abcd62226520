import TLiveOmni.Spans

/-! Where the next delimiters of a well-formed sequence stand, seen from the scan offset.
Both position parsers search with these three indices. -/
set_option autoImplicit false

namespace TLiveOmni
open PySeq

section Navigation
variable {m : Nat}

theorem notMem_wireText {x : Token} (hx : x.isText = false) (ids : List Nat) :
    x ∉ wireText ids := by
  intro h
  obtain ⟨i,-,rfl⟩ := List.mem_map.mp h
  simp [Token.isText] at hx

@[simp] theorem length_wireText (ids : List Nat) : (wireText ids).length = ids.length := by
  simp [wireText]

theorem indexFrom_getD_lower {x : Token} (pre : List Token) {a : List Token} (b : List Token)
    (h : x ∉ a) :
    pre.length + a.length ≤
      (indexFrom x pre.length (pre ++ (a ++ b))).getD ((pre ++ (a ++ b)).length+1) := by
  rw [indexFrom_append x pre b h]
  cases hi : indexFrom x (pre ++ a).length ((pre ++ a) ++ b) with
  | none => simp; omega
  | some i =>
    have := indexFrom_lower hi
    simpa using this

theorem index_skip {x : Token} (pre : List Token) {a : List Token} (b : List Token) (h : x ∉ a) :
    index x pre.length (pre ++ (a ++ x :: b)) = .ok (pre.length + a.length) := by
  simp [index,indexFrom_skip x pre b h]

theorem index_of_mem {x : Token} (pre : List Token) {a b : List Token} (h : x ∉ a) (hb : x ∈ b) :
    ∃ i, index x pre.length (pre ++ (a ++ b)) = .ok i ∧ pre.length + a.length ≤ i := by
  have hmem : x ∈ ((pre ++ a) ++ b).drop (pre ++ a).length := by simpa using hb
  obtain ⟨i,hi,hlo,-⟩ := indexFrom_of_mem hmem
  refine ⟨i,?_,by simpa using hlo⟩
  rw [index,indexFrom_append x pre b h,hi]

theorem Media.vision_mem {a : Media m} (h : a.clips = []) :
    .visionStart ∈ a.wire ∧ .visionEnd ∈ a.wire := by
  cases a <;> simp_all [wire,clips]

/-- What follows a number of spans: its tokens, with the images, grids and standalone audios the
loop has counted in them. -/
structure Rest where
  wire : List Token
  images : Nat
  grids : Nat
  clips : Nat
  ahead : 0 < images ∨ 0 < grids → .visionStart ∈ wire ∧ .visionEnd ∈ wire

@[simps]
def Rest.ofText (tail : List Nat) : Rest := ⟨wireText tail,0,0,0,by simp⟩

/-- While a vision span remains, its delimiters are still ahead. -/
theorem vision_ahead {items : List (Item m)} (back : Rest)
    (h : 0 < imageTotal items+back.images ∨ 0 < gridTotal items+back.grids) :
    .visionStart ∈ wireItems items ++ back.wire ∧ .visionEnd ∈ wireItems items ++ back.wire := by
  by_cases hback : 0 < back.images ∨ 0 < back.grids
  · obtain ⟨hvs,hve⟩ := back.ahead hback
    exact ⟨List.mem_append_right _ hvs,List.mem_append_right _ hve⟩
  have hex : ∃ it ∈ items, it.media.clips = [] := by
    by_contra hno
    have himg : items.flatMap (·.media.images) = [] := by
      refine List.flatMap_eq_nil_iff.mpr fun it hit => ?_
      cases hm : it.media <;> simp [Media.images]
      exact hno ⟨it,hit,by simp [hm,Media.clips]⟩
    have hgrid : items.flatMap (·.media.grids) = [] := by
      refine List.flatMap_eq_nil_iff.mpr fun it hit => ?_
      cases hm : it.media <;> simp [Media.grids]
      all_goals exact hno ⟨it,hit,by simp [hm,Media.clips]⟩
    simp only [imageTotal,gridTotal,himg,hgrid,List.length_nil,Nat.zero_add] at h
    exact hback h
  obtain ⟨it,hit,hc⟩ := hex
  have hsub : ∀ x ∈ it.media.wire, x ∈ wireItems items ++ back.wire := by
    intro x hx
    exact List.mem_append_left _ (List.mem_flatMap.mpr ⟨it,hit,List.mem_append_right _ hx⟩)
  exact ⟨hsub _ (Media.vision_mem hc).1,hsub _ (Media.vision_mem hc).2⟩

end Navigation

/-- A span `VS x^n VE` starts at `q`, and the next audio starts behind it. -/
structure VisionAhead (tokens : List Token) (st q : Nat) (x : Token) (n : Nat) : Prop where
  vs : index .visionStart st tokens = .ok q
  first : getItem tokens (q+1) = .ok x
  ve : index .visionEnd st tokens = .ok (q+1+n)
  audio : q+1+n < (indexFrom .audioStart st tokens).getD (tokens.length+1)
  len : q+1+n < tokens.length
  remains : ∀ v i : Int, (0 < v ∨ 0 < i) → visionRemains tokens v i = true
  body : ∃ rest, tokens.drop (q+1) = List.replicate n x ++ .visionEnd :: rest

/-- A standalone audio with `n` tokens starts at `q`, and a remaining vision span behind it. -/
structure AudioAhead (tokens : List Token) (st q n : Nat) (images grids : Nat) : Prop where
  audio : indexFrom .audioStart st tokens = some q
  len : q < tokens.length
  vision : 0 < images ∨ 0 < grids → ∃ a b, index .visionStart st tokens = .ok a ∧
    index .visionEnd st tokens = .ok b ∧ q < a
  body : ∃ rest, tokens.drop q =
    .audioStart :: (List.replicate n .audioPad ++ .audioEnd :: rest)

/-- An audio-in-video span with `n` video and `j` audio tokens starts at `q`. -/
structure AvAhead (tokens : List Token) (st q n j : Nat) : Prop where
  vs : index .visionStart st tokens = .ok q
  first : getItem tokens (q+1) = .ok .audioStart
  ve : index .visionEnd st tokens = .ok (q+3+n+j)
  audio : indexFrom .audioStart st tokens = some (q+1)
  remains : ∀ v i : Int, (0 < v ∨ 0 < i) → visionRemains tokens v i = true
  body : ∃ rest, tokens.drop (q+2) =
    List.replicate n .videoPad ++ (List.replicate j .audioPad ++ .audioEnd :: .visionEnd :: rest)
  len : q+3+n+j < tokens.length

/-- The part of a media list not yet used by a cursor; `None` stands for no media. -/
def Remaining {α : Type} (o : Option (List α)) (i : Nat) (rest : List α) : Prop :=
  ∃ used, o.getD [] = used ++ rest ∧ used.length = i

section Cursor
variable {α : Type} {o : Option (List α)} {i : Nat} {x : α} {rest : List α}

theorem Remaining.getItem (h : Remaining o i (x :: rest)) :
    ∃ all, o = some all ∧ all[i]? = some x ∧ getItem all i = .ok x := by
  obtain ⟨used,hall,rfl⟩ := h
  cases o with
  | none => simp at hall
  | some all =>
    have hx : all[used.length]? = some x := by
      rw [show all = used ++ x :: rest from hall]; simp
    exact ⟨all,rfl,hx,by simp [PySeq.getItem,hx]⟩

theorem Remaining.next (h : Remaining o i (x :: rest)) : Remaining o (i+1) rest := by
  obtain ⟨used,hall,rfl⟩ := h
  exact ⟨used ++ [x],by simp [hall],by simp⟩

theorem Remaining.start (o : Option (List α)) : Remaining o 0 (o.getD []) := ⟨[],rfl,rfl⟩

theorem Remaining.finish (h : Remaining o i []) : i = (o.getD []).length := by
  obtain ⟨used,hall,rfl⟩ := h
  simp [hall]

end Cursor

section Ahead

theorem visionRemains_of_mem {tokens : List Token}
    (h : .imagePad ∈ tokens ∨ .videoPad ∈ tokens) {v i : Int} (hr : 0 < v ∨ 0 < i) :
    visionRemains tokens v i = true := by
  simpa [visionRemains] using ⟨h,hr⟩

theorem getItem_after (pre : List Token) (text : List Nat) (x y : Token) (rest : List Token) :
    getItem (pre ++ (wireText text ++ x :: y :: rest)) (pre.length+text.length+1) = .ok y := by
  have : (pre ++ (wireText text ++ x :: y :: rest))[pre.length+text.length+1]? = some y := by
    rw [List.getElem?_append_right (by omega),List.getElem?_append_right (by simp; omega)]
    simp [show pre.length+text.length+1-pre.length-text.length = 1 by omega]
  simp [getItem,this]

theorem drop_after (pre : List Token) (text : List Nat) (back : List Token) :
    (pre ++ (wireText text ++ back)).drop (pre.length+text.length) = back := by
  have hlen : pre.length+text.length = (pre ++ wireText text).length := by simp
  rw [← List.append_assoc,hlen,List.drop_left]

theorem visionAhead (pre : List Token) (text : List Nat) {x : Token} {n : Nat} (rest : List Token)
    (hx : x = .imagePad ∨ x = .videoPad) (hn : 0 < n) :
    VisionAhead (pre ++ (wireText text ++ .visionStart :: (List.replicate n x ++
      .visionEnd :: rest))) pre.length (pre.length+text.length) x n where
  vs := by rw [index_skip pre _ (notMem_wireText rfl text),length_wireText]
  first := by
    obtain ⟨k,rfl⟩ := Nat.exists_eq_add_of_lt hn
    rw [show 0+k+1 = k+1 by omega,List.replicate_succ,List.cons_append]
    exact getItem_after pre text _ x _
  ve := by
    have hno : .visionEnd ∉ wireText text ++ .visionStart :: List.replicate n x := by
      rcases hx with rfl | rfl <;> simp [notMem_wireText (x := .visionEnd) rfl text]
    have := index_skip pre rest hno
    rw [show wireText text ++ .visionStart :: (List.replicate n x ++ .visionEnd :: rest) =
      (wireText text ++ .visionStart :: List.replicate n x) ++ .visionEnd :: rest by simp,this]
    simp; omega
  audio := by
    have hno : .audioStart ∉ wireText text ++ .visionStart ::
        (List.replicate n x ++ [.visionEnd]) := by
      rcases hx with rfl | rfl <;> simp [notMem_wireText (x := .audioStart) rfl text]
    have := indexFrom_getD_lower pre rest hno
    rw [show wireText text ++ .visionStart :: (List.replicate n x ++ .visionEnd :: rest) =
      (wireText text ++ .visionStart :: (List.replicate n x ++ [.visionEnd])) ++ rest by simp]
    simp only [List.length_append,length_wireText,List.length_cons,List.length_nil,
      List.length_replicate] at this ⊢
    omega
  len := by simp; omega
  remains := fun v i hr => visionRemains_of_mem (by
    have hn0 : n ≠ 0 := by omega
    rcases hx with rfl | rfl
    · left; simp [hn0]
    · right; simp [hn0]) hr
  body := by
    refine ⟨rest,?_⟩
    rw [← List.drop_drop,drop_after]
    rfl

theorem audioAhead {m : Nat} (pre : List Token) (text : List Nat) (n : Nat)
    (items : List (Item m)) (back : Rest) :
    AudioAhead (pre ++ (wireText text ++ .audioStart :: (List.replicate n .audioPad ++
        .audioEnd :: (wireItems items ++ back.wire))))
      pre.length (pre.length+text.length) n (imageTotal items+back.images) (gridTotal items+back.grids) where
  audio := by
    have := indexFrom_skip .audioStart pre (List.replicate n .audioPad ++
      .audioEnd :: (wireItems items ++ back.wire))
      (notMem_wireText (x := .audioStart) rfl text)
    simpa using this
  len := by simp
  vision := by
    intro h
    obtain ⟨hvs,hve⟩ := vision_ahead back h
    have hno : ∀ x : Token, x = .visionStart ∨ x = .visionEnd →
        x ∉ wireText text ++ .audioStart :: (List.replicate n .audioPad ++ [.audioEnd]) := by
      intro x hx
      rcases hx with rfl | rfl
      · simp [notMem_wireText (x := .visionStart) rfl text]
      · simp [notMem_wireText (x := .visionEnd) rfl text]
    obtain ⟨a,ha,hla⟩ := index_of_mem pre (hno _ (.inl rfl)) hvs
    obtain ⟨b,hb,-⟩ := index_of_mem pre (hno _ (.inr rfl)) hve
    refine ⟨a,b,by simpa using ha,by simpa using hb,?_⟩
    simp at hla
    omega
  body := ⟨_,drop_after pre text _⟩

theorem avAhead (pre : List Token) (text : List Nat) {n : Nat} (hn : 0 < n) (j : Nat)
    (rest : List Token) :
    AvAhead (pre ++ (wireText text ++ .visionStart :: .audioStart ::
        (List.replicate n .videoPad ++ (List.replicate j .audioPad ++
          .audioEnd :: .visionEnd :: rest)))) pre.length (pre.length+text.length) n j where
  vs := by rw [index_skip pre _ (notMem_wireText rfl text),length_wireText]
  first := getItem_after pre text _ _ _
  ve := by
    have hno : .visionEnd ∉ wireText text ++ .visionStart :: .audioStart ::
        (List.replicate n .videoPad ++ (List.replicate j .audioPad ++ [.audioEnd])) := by
      simp [notMem_wireText (x := .visionEnd) rfl text]
    have := index_skip pre rest hno
    simp only [List.append_assoc,List.cons_append,List.nil_append] at this
    rw [this]
    simp; omega
  audio := by
    have hno : .audioStart ∉ wireText text ++ [.visionStart] := by
      simp [notMem_wireText (x := .audioStart) rfl text]
    have := indexFrom_skip .audioStart pre (List.replicate n .videoPad ++
      (List.replicate j .audioPad ++ .audioEnd :: .visionEnd :: rest)) hno
    simpa [Nat.add_assoc] using this
  remains := fun v i hr => visionRemains_of_mem (.inr (by
    have : n ≠ 0 := by omega
    simp [this])) hr
  body := by
    refine ⟨rest,?_⟩
    rw [← List.drop_drop,drop_after]
    rfl
  len := by simp; omega

end Ahead

section Body
variable {tokens : List Token} {n j a : Nat} {rest : List Token}

/-- The next `audio_end` behind the opening delimiters. -/
theorem indicesOf_avBody (hbody : tokens.drop (a+1) = List.replicate n .videoPad ++
      (List.replicate j .audioPad ++ .audioEnd :: .visionEnd :: rest)) :
    indicesOf .audioEnd (tokens.drop (a+1)) = (n+j) ::
      (indicesOf .audioEnd (.visionEnd :: rest)).map (n+j+1+·) := by
  have hno : .audioEnd ∉ List.replicate n Token.videoPad ++ List.replicate j Token.audioPad := by
    simp
  rw [hbody,← List.append_assoc,indicesOf_skip _ hno]
  simp

/-- The slice up to `audio_end` is the video run followed by the audio run. -/
theorem takeWhile_avBody (hbody : tokens.drop (a+1) = List.replicate n .videoPad ++
      (List.replicate j .audioPad ++ .audioEnd :: .visionEnd :: rest)) :
    (((tokens.drop (a+1)).take (n+j)).takeWhile fun x => decide (x = .videoPad)).length = n := by
  rw [hbody,← List.append_assoc,List.take_append_of_le_length (by simp),
    List.take_of_length_le (by simp),List.takeWhile_append_of_pos (by simp)]
  cases j <;> simp [List.replicate_succ]

theorem audio_avBody (hbody : tokens.drop (a+1) = List.replicate n .videoPad ++
      (List.replicate j .audioPad ++ .audioEnd :: .visionEnd :: rest)) :
    ¬ (0 < j ∧ ∃ x ∈ (tokens.drop (a+1+n)).take j, x ≠ .audioPad) := by
  rintro ⟨-,x,hx,hne⟩
  rw [← List.drop_drop,hbody,List.drop_append_of_le_length (by simp),
    List.drop_of_length_le (by simp),List.nil_append,
    List.take_append_of_le_length (by simp),List.take_of_length_le (by simp)] at hx
  exact hne (List.eq_of_mem_replicate hx)

end Body
end TLiveOmni
