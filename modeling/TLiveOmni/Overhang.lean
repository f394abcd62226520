import TLiveOmni.Spans

/-! How far the positions of a sequence reach. The grid of an audio-in-video span may reach
past its audio run, and the tokens behind the span continue from the audio run. -/
set_option autoImplicit false

namespace TLiveOmni
open PySeq

theorem blockMax_spec {b : Block} {v : Int} (h : blockMax b = .ok v) :
    (∃ q ∈ b, q.top = v) ∧ ∀ q ∈ b, q.top ≤ v := by
  have hmax : (b.map Pos.top).max? = some v := by
    cases hm : (b.map Pos.top).max? with
    | none => simp [blockMax,hm] at h
    | some w => simpa [blockMax,hm] using h
  obtain ⟨hmem,hle⟩ := List.max?_eq_some_iff.mp hmax
  exact ⟨List.mem_map.mp hmem,fun q hq => hle _ (List.mem_map_of_mem hq)⟩

namespace Media
variable {m : Nat}

/-- What the grid of an audio-in-video span has beyond its audio run. -/
def overhang : Media m → Nat
  | .avGrid f j _ => if j = 0 then 0 else f.side-j
  | _ => 0

/-- The first position behind the content is the largest, plus one, up to the overhang. -/
theorem blockMax_contentBlocks (p : Nat) (b : Int) (a : Media m) :
    blockMax (a.contentBlocks p b).flatten = .ok (b+a.content p+a.overhang-1) := by
  cases a with
  | image g => simpa [contentBlocks,content,overhang] using blockMax_grid p g b
  | grid f last => simpa [contentBlocks,content,overhang] using blockMax_frame f b
  | audio a => simpa [contentBlocks,content,overhang] using blockMax_arange3 a.tokens_pos b
  | avGrid f j track =>
    by_cases hj : j = 0
    · simpa [contentBlocks,content,overhang,hj] using blockMax_frame f b
    · obtain ⟨⟨q,hq,htop⟩,hle⟩ := blockMax_spec (blockMax_frame f b)
      have hval : b+(content p (.avGrid f j track) : Nat)+(overhang (.avGrid f j track) : Nat)-1 =
          max (b+f.side-1) (b+j-1) := by
        simp only [content,overhang,hj,if_false]
        omega
      rw [hval]
      refine blockMax_eq_ok ?_ ?_
      · rcases le_total f.side j with hsj | hsj
        · refine ⟨.diag (b+(j-1 : Nat)),?_,by simp; omega⟩
          have : Pos.diag (b+(j-1 : Nat)) ∈ arange3 j b := mem_arange3.mpr ⟨j-1,by omega,rfl⟩
          simp [contentBlocks,hj,this]
        · exact ⟨q,by simp [contentBlocks,hj,hq],by omega⟩
      · intro r hr
        simp only [contentBlocks,hj,if_false,List.flatten_cons,List.flatten_nil,List.append_nil,
          List.mem_append] at hr
        rcases hr with hr | hr
        · have := hle r hr
          omega
        · obtain ⟨i,hi,rfl⟩ := mem_arange3.mp hr
          simp only [Pos.top_diag]
          omega

theorem mem_blocks {p : Nat} {b : Int} {a : Media m} {q : Pos} :
    q ∈ (a.blocks p b).flatten ↔ (∃ i < a.delims, q = .diag (b+i)) ∨
      q ∈ (a.contentBlocks p (b+a.delims)).flatten ∨
      ∃ i < a.delims, q = .diag (b+a.delims+a.content p+i) := by
  simp only [blocks,List.flatten_append,List.mem_append,List.flatten_cons,List.flatten_nil,
    List.append_nil,mem_arange3]
  refine or_congr ?_ Iff.rfl
  simp only [List.mem_flatten,List.mem_map,List.mem_range,exists_exists_and_eq_and,mem_arange3]
  constructor
  · rintro ⟨i,hi,k,hk,rfl⟩
    obtain rfl : k = 0 := by omega
    exact ⟨i,hi,by simp⟩
  · rintro ⟨i,hi,rfl⟩
    exact ⟨i,hi,0,by omega,by simp⟩

end Media

section Reach
variable {m : Nat}

/-- One more than the largest position, counted from the first. -/
def itemsReach (p : Nat) : List (Item m) → Nat
  | [] => 0
  | it :: items => max (it.text.length+it.media.delims+it.media.content p+it.media.overhang)
      (it.advance p+itemsReach p items)

theorem Item.mem_blocks {p : Nat} {b : Int} {it : Item m} {q : Pos} :
    q ∈ (it.blocks p b).flatten ↔ (∃ i < it.text.length, q = .diag (b+i)) ∨
      q ∈ (it.media.blocks p (b+it.text.length)).flatten := by
  rw [Item.blocks,List.flatten_append,List.mem_append,textBlocks_flatten,mem_arange3]

theorem itemsAdvance_le_reach (p : Nat) (items : List (Item m)) :
    itemsAdvance p items ≤ itemsReach p items := by
  induction items with
  | nil => simp [itemsAdvance,itemsReach]
  | cons it items ih =>
    simp only [itemsAdvance,List.map_cons,List.sum_cons,itemsReach] at *
    omega

theorem Item.top_lt {p : Nat} {b : Int} {it : Item m} {q : Pos}
    (h : q ∈ (it.blocks p b).flatten) :
    q.top < b+max (it.text.length+it.media.delims+it.media.content p+it.media.overhang)
      (it.advance p) := by
  have hmax := (blockMax_spec
    (it.media.blockMax_contentBlocks p (b+it.text.length+it.media.delims))).2
  simp only [Item.advance,Media.advance]
  rcases Item.mem_blocks.mp h with ⟨i,hi,rfl⟩ | h
  · simp only [Pos.top_diag]
    omega
  · rcases Media.mem_blocks.mp h with ⟨i,hi,rfl⟩ | h | ⟨i,hi,rfl⟩
    · simp only [Pos.top_diag]
      omega
    · have := hmax q h
      push_cast
      omega
    · simp only [Pos.top_diag]
      omega

theorem top_lt_reach {p : Nat} {b : Int} {items : List (Item m)} {q : Pos}
    (h : q ∈ (itemBlocks p b items).flatten) : q.top < b+itemsReach p items := by
  induction items generalizing b with
  | nil => simp [itemBlocks] at h
  | cons it items ih =>
    rw [itemBlocks,List.flatten_append,List.mem_append] at h
    simp only [itemsReach]
    rcases h with h | h
    · have := Item.top_lt h
      omega
    · have := ih h
      omega

theorem exists_top_reach (p : Nat) (b : Int) {items : List (Item m)} (hne : items ≠ []) :
    ∃ q ∈ (itemBlocks p b items).flatten, q.top+1 = b+itemsReach p items := by
  induction items generalizing b with
  | nil => exact absurd rfl hne
  | cons it items ih =>
    have hmem : ∀ q ∈ (it.media.blocks p (b+it.text.length)).flatten,
        q ∈ (itemBlocks p b (it :: items)).flatten := by
      intro q hq
      rw [itemBlocks,List.flatten_append]
      exact List.mem_append_left _ (Item.mem_blocks.mpr (.inr hq))
    rcases le_total (it.advance p+itemsReach p items)
      (it.text.length+it.media.delims+it.media.content p+it.media.overhang) with hle | hle
    · obtain ⟨q,hq,htop⟩ := (blockMax_spec
        (it.media.blockMax_contentBlocks p (b+it.text.length+it.media.delims))).1
      refine ⟨q,hmem q (Media.mem_blocks.mpr (.inr (.inl hq))),?_⟩
      simp only [itemsReach]
      omega
    · by_cases hi : items = []
      · have hd := it.media.delims_pos
        refine ⟨_,hmem _ (Media.mem_blocks.mpr (.inr (.inr ⟨it.media.delims-1,by omega,rfl⟩))),?_⟩
        simp only [Pos.top_diag,itemsReach,hi,Item.advance,Media.advance] at hle ⊢
        omega
      · obtain ⟨q,hq,htop⟩ := ih (b+it.advance p) hi
        refine ⟨q,?_,?_⟩
        · rw [itemBlocks,List.flatten_append]
          exact List.mem_append_right _ hq
        · simp only [itemsReach]
          omega

theorem Sample.top_eq (p : Nat) (s : Sample m) :
    s.top p = max (itemsReach p s.items) (itemsAdvance p s.items+s.tail.length)-1 := by
  have hadv := itemsAdvance_le_reach p s.items
  have hmem : ∀ q, q ∈ s.positions p ↔ q ∈ (itemBlocks p 0 s.items).flatten ∨
      ∃ i < s.tail.length, q = .diag (itemsAdvance p s.items+i) := by
    intro q
    rw [positions,blocks,List.flatten_append,List.mem_append,textBlocks_flatten,mem_arange3]
  have hmax : blockMax (s.positions p) = .ok
      ((max (itemsReach p s.items) (itemsAdvance p s.items+s.tail.length) : Nat)-1) := by
    refine blockMax_eq_ok ?_ ?_
    · rcases le_or_gt (itemsAdvance p s.items+s.tail.length) (itemsReach p s.items) with hle | hlt
      · have hne : s.items ≠ [] := by
          intro hnil
          rcases s.nonempty with hn | hn
          · exact hn hnil
          · have := List.length_pos_iff.mpr hn
            simp only [hnil,itemsReach] at hle
            omega
        obtain ⟨q,hq,htop⟩ := exists_top_reach p 0 hne
        exact ⟨q,(hmem q).mpr (.inl hq),by omega⟩
      · refine ⟨_,(hmem _).mpr (.inr ⟨s.tail.length-1,by omega,rfl⟩),?_⟩
        simp only [Pos.top_diag]
        omega
    · intro q hq
      rcases (hmem q).mp hq with hq | ⟨i,hi,rfl⟩
      · have := top_lt_reach hq
        omega
      · simp only [Pos.top_diag]
        omega
  have := (s.blockMax_positions p).symm.trans hmax
  simpa using this

/-- Every overhang is made up for by what follows it, up to `n` tokens behind the items. -/
def settles (p n : Nat) : List (Item m) → Prop
  | [] => True
  | it :: items => it.media.overhang ≤ it.media.delims+itemsAdvance p items+n ∧
      settles p n items

instance settlesDecidable (p n : Nat) : (items : List (Item m)) → Decidable (settles p n items)
  | [] => isTrue trivial
  | _ :: items => @instDecidableAnd _ _ _ (settlesDecidable p n items)

theorem settles_iff (p n : Nat) (items : List (Item m)) :
    settles p n items ↔ itemsReach p items ≤ itemsAdvance p items+n := by
  induction items with
  | nil => simp [settles,itemsReach]
  | cons it items ih =>
    simp only [settles,ih,itemsReach,itemsAdvance,List.map_cons,List.sum_cons,Item.advance,
      Media.advance]
    omega

end Reach
end TLiveOmni
