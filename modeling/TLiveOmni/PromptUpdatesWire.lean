import TLiveOmni.Lib.Expand
import TLiveOmni.PromptUpdates

/-! Applying updates to a token prompt replaces the media tokens in order, and the scan for
placeholders finds every content where it was put. -/
set_option autoImplicit false

namespace TLiveOmni
namespace Vllm
open PySeq Words Expand

theorem pad_injective {a b : Modality} (h : a.pad = b.pad) : a = b := by
  cases a <;> cases b <;> first | rfl | cases h

section Apply
variable {prompt : List Token} {start : Nat} {a : Token}

theorem firstMatch_eq_some {i : Nat} : firstMatch [a] prompt start = some i ↔
    start ≤ i ∧ prompt[i]? = some a ∧ ∀ j, start ≤ j → j < i → prompt[j]? ≠ some a := by
  have hone : ∀ j, ([a].isPrefixOf (prompt.drop j) = true) ↔ prompt[j]? = some a := by
    intro j
    rw [← List.head?_drop,List.isPrefixOf_iff_prefix]
    cases prompt.drop j with
    | nil => simp
    | cons x l =>
      rw [List.cons_prefix_cons,List.head?_cons,Option.some.injEq]
      exact ⟨fun h => h.1.symm,fun h => ⟨h.symm,List.nil_prefix⟩⟩
  rw [firstMatch,if_neg (by simp),List.find?_range_eq_some]
  simp only [Bool.and_eq_true,decide_eq_true_eq,hone,List.mem_range]
  constructor
  · rintro ⟨⟨hs,hi⟩,-,hno⟩
    refine ⟨hs,hi,fun j hj hlt e => ?_⟩
    have := hno j hlt
    simp [hj,(hone j).mpr e] at this
  · rintro ⟨hs,hi,hno⟩
    refine ⟨⟨hs,hi⟩,(List.getElem?_eq_some_iff.mp hi).1,fun j hlt => ?_⟩
    by_contra hb
    simp only [Bool.not_eq_true,Bool.not_eq_false',Bool.and_eq_true,decide_eq_true_eq,hone] at hb
    exact hno j hb.1 hlt hb.2

theorem firstMatch_split {pre rest : List Token} (h : prompt.drop start = pre ++ a :: rest)
    (ha : a ∉ pre) : firstMatch [a] prompt start = some (start+pre.length) := by
  have hget : ∀ j, prompt[start+j]? = (pre ++ a :: rest)[j]? := by
    intro j
    rw [← h,List.getElem?_drop]
  rw [firstMatch_eq_some]
  refine ⟨by omega,by rw [hget]; simp,?_⟩
  intro j hs hlt e
  obtain ⟨k,rfl⟩ := Nat.exists_eq_add_of_le hs
  rw [hget,List.getElem?_append_left (by omega)] at e
  exact ha (List.mem_of_getElem? e)

theorem firstMatch_none (h : a ∉ prompt.drop start) : firstMatch [a] prompt start = none := by
  cases hm : firstMatch [a] prompt start with
  | none => rfl
  | some i =>
    obtain ⟨hs,hi,-⟩ := firstMatch_eq_some.mp hm
    obtain ⟨k,rfl⟩ := Nat.exists_eq_add_of_le hs
    rw [← List.getElem?_drop] at hi
    exact absurd (List.mem_of_getElem? hi) h

theorem firstMatch_lower {pre rest : List Token} {i : Nat} (h : prompt.drop start = pre ++ rest)
    (ha : a ∉ pre) (hm : firstMatch [a] prompt start = some i) : start+pre.length ≤ i := by
  obtain ⟨hs,hi,-⟩ := firstMatch_eq_some.mp hm
  obtain ⟨k,rfl⟩ := Nat.exists_eq_add_of_le hs
  rw [← List.getElem?_drop,h] at hi
  by_contra hlt
  rw [List.getElem?_append_left (by omega)] at hi
  exact ha (List.mem_of_getElem? hi)

theorem earliest_mem {l : List (Update × Nat)} {x : Update × Nat} (h : earliest l = some x) :
    x ∈ l := by
  induction l generalizing x with
  | nil => cases h
  | cons y l ih =>
    simp only [earliest] at h
    split at h
    · obtain rfl := Option.some.inj h
      simp
    · rename_i z hz
      split at h
      · obtain rfl := Option.some.inj h
        simp
      · obtain rfl := Option.some.inj h
        exact List.mem_cons_of_mem _ (ih hz)

/-- The first of the earliest matches wins. -/
theorem earliest_split {before after : List (Update × Nat)} {x : Update × Nat}
    (hb : ∀ y ∈ before, x.2 < y.2) (ha : ∀ y ∈ after, x.2 ≤ y.2) :
    earliest (before ++ x :: after) = some x := by
  induction before with
  | nil =>
    rw [List.nil_append,earliest]
    cases he : earliest after with
    | none => rfl
    | some y => simp [ha y (earliest_mem he)]
  | cons y before ih =>
    rw [List.cons_append,earliest,ih fun z hz => hb z (by simp [hz])]
    have := hb y (by simp)
    simp [show ¬ y.2 ≤ x.2 by omega]

theorem findMatches_marker {pending : List Update} {pre post : List Token} {t : Token} {u : Update}
    (h : prompt.drop start = pre ++ t :: post) (hpre : ∀ v ∈ pending, v.mark ∉ pre)
    (hu : next Update.mark pending t = some u) :
    findMatches (fun u => [u.mark]) prompt start pending = some (u,start+pre.length) := by
  obtain ⟨before,after,hq,hb,-⟩ := next_split hu
  have hut : u.mark = t := mark_of_next hu
  have hfirst : firstMatch [u.mark] prompt start = some (start+pre.length) :=
    firstMatch_split (hut ▸ h) (hpre u (mem_of_next hu))
  have hafter : ∀ v ∈ pending, ∀ i, firstMatch [v.mark] prompt start = some i →
      start+pre.length ≤ i := fun v hv i hi => firstMatch_lower h (hpre v hv) hi
  have hbefore : ∀ v ∈ before, ∀ i, firstMatch [v.mark] prompt start = some i →
      start+pre.length < i := by
    intro v hv i hi
    have hnot : v.mark ∉ pre ++ [t] := by
      have := hpre v (by rw [hq]; simp [hv])
      simp [this,hb v hv]
    have := @firstMatch_lower prompt start v.mark (pre ++ [t]) post i (by simpa using h) hnot hi
    simp at this
    omega
  rw [findMatches,hq,List.filterMap_append,List.filterMap_cons,hfirst]
  refine earliest_split ?_ ?_
  · rintro ⟨v,i⟩ hv
    obtain ⟨w,hw,e⟩ := List.mem_filterMap.mp hv
    obtain ⟨j,hj,e⟩ := Option.map_eq_some_iff.mp e
    obtain ⟨rfl,rfl⟩ := Prod.mk.inj e
    exact hbefore w hw j hj
  · rintro ⟨v,i⟩ hv
    obtain ⟨w,hw,e⟩ := List.mem_filterMap.mp hv
    obtain ⟨j,hj,e⟩ := Option.map_eq_some_iff.mp e
    obtain ⟨rfl,rfl⟩ := Prod.mk.inj e
    exact hafter w (by rw [hq]; simp [hw]) j hj

theorem findMatches_none {pending : List Update} (h : ∀ v ∈ pending, v.mark ∉ prompt.drop start) :
    findMatches (fun u => [u.mark]) prompt start pending = none := by
  have hnil : (pending.filterMap fun u => (firstMatch [u.mark] prompt start).map
      fun i => (u,i)) = [] := by
    rw [List.filterMap_eq_nil_iff]
    intro v hv
    rw [firstMatch_none (h v hv)]
    rfl
  rw [findMatches,hnil]
  rfl

theorem erase_next {pending : List Update} {t : Token} {u : Update}
    (hu : next Update.mark pending t = some u) : pending.erase u = pop Update.mark pending t := by
  obtain ⟨before,after,hq,hb,hpop⟩ := next_split hu
  have hnot : u ∉ before := fun h => hb u h (mark_of_next hu)
  rw [hpop,hq,List.erase_append_right _ hnot,List.erase_cons_head]

/-- The loop of `_apply_matches` on a token prompt. -/
theorem applyFrom_eq (n : Nat) {pending : List Update} (hn : pending.length ≤ n) :
    applyFrom (fun u => [u.mark]) Update.full prompt n start pending =
      (expand Update.mark Update.full pending (prompt.drop start),
        unused Update.mark pending (prompt.drop start)) := by
  induction n generalizing start pending with
  | zero =>
    obtain rfl : pending = [] := List.eq_nil_of_length_eq_zero (by omega)
    simp [applyFrom]
  | succ n ih =>
    rcases first_marker Update.mark pending (prompt.drop start) with h | ⟨pre,t,post,u,hs,hpre,hu⟩
    · have he := @expand_free _ _ _ Update.mark Update.full pending _ h []
      have hl := @unused_free _ _ _ Update.mark pending _ h []
      rw [List.append_nil] at he hl
      rw [applyFrom,findMatches_none h,he,hl]
      simp [expand,unused]
    · have hpop : (pop Update.mark pending t).length ≤ n := by
        obtain ⟨before,after,hq,-,hpop⟩ := next_split hu
        rw [hq] at hn
        rw [hpop]
        simp at hn ⊢
        omega
      have hdrop : prompt.drop (start+pre.length+1) = post := by
        rw [Nat.add_assoc,← List.drop_drop,hs]
        simp
      have htake : (prompt.drop start).take (start+pre.length-start) = pre := by
        rw [hs,Nat.add_sub_cancel_left]
        simp
      rw [applyFrom,findMatches_marker hs hpre hu]
      simp only [htake,erase_next hu,List.length_singleton,ih hpop,hdrop]
      rw [hs,expand_free hpre,expand_marker hu,unused_free hpre,unused_marker hu]

theorem applyMatches_eq (pending : List Update) :
    applyMatches (fun u => [u.mark]) Update.full prompt pending =
      (expand Update.mark Update.full pending prompt,unused Update.mark pending prompt) := by
  have := @applyFrom_eq prompt 0 pending.length pending (Nat.le_refl _)
  simpa [applyMatches] using this

end Apply

/-- One group per modality, with the updates of that modality. -/
structure Updates.Sound (updates : Updates) : Prop where
  keys : (updates.map (·.1)).Nodup
  modality : ∀ x ∈ updates, ∀ u ∈ x.2, u.modality = x.1

section Groups
variable {updates : Updates} {u : Update}

theorem Updates.Sound.tail {x : Modality × List Update} (h : Updates.Sound (x :: updates)) :
    updates.Sound :=
  ⟨(List.nodup_cons.mp h.keys).2,fun y hy => h.modality y (by simp [hy])⟩

theorem Updates.Sound.key_ne {x y : Modality × List Update} (h : Updates.Sound (x :: updates))
    (hy : y ∈ updates) : x.1 ≠ y.1 := by
  intro e
  have hmem : x.1 ∈ updates.map (·.1) := e ▸ List.mem_map_of_mem hy
  exact (List.nodup_cons.mp h.keys).1 hmem

theorem Updates.Sound.mark_ne {x y : Modality × List Update} (h : Updates.Sound (x :: updates))
    (hy : y ∈ updates) {u : Update} (hu : u ∈ x.2) : u.mark ≠ y.1.pad := by
  intro e
  have hm := h.modality x (by simp) u hu
  exact h.key_ne hy (hm.symm.trans (pad_injective e))

theorem Updates.Sound.items_mark_ne {x : Modality × List Update}
    (h : Updates.Sound (x :: updates)) {u : Update} (hu : u ∈ updates.items) :
    u.mark ≠ x.1.pad := by
  intro e
  obtain ⟨y,hy,hu⟩ := List.mem_flatMap.mp hu
  have hm := h.modality y (by simp [hy]) u hu
  exact h.key_ne hy ((pad_injective e).symm.trans hm)

theorem Updates.items_cons (x : Modality × List Update) (updates : Updates) :
    Updates.items (x :: updates) = x.2 ++ updates.items := rfl

theorem next_head (h : updates.Sound) {x : Modality × List Update} (hx : x ∈ updates) :
    next Update.mark updates.items x.1.pad = x.2.head? := by
  induction updates with
  | nil => cases hx
  | cons y updates ih =>
    rw [Updates.items_cons,next,List.find?_append]
    rcases List.mem_cons.mp hx with rfl | hx'
    · cases hl : x.2 with
      | nil =>
        have hnone : next Update.mark (Updates.items updates) x.1.pad = none :=
          next_eq_none.mpr fun u hu => h.items_mark_ne hu
        simpa [next] using hnone
      | cons u l =>
        have hu : u.mark = x.1.pad := by
          rw [Update.mark,h.modality x (by simp) u (by simp [hl])]
        simp [hu]
    · have hnone : y.2.find? (fun u => decide (u.mark = x.1.pad)) = none := by
        rw [List.find?_eq_none]
        intro u hu
        simpa using h.mark_ne hx' hu
      rw [hnone]
      exact ih h.tail hx'

theorem exists_group (h : updates.Sound) {t : Token}
    (hu : next Update.mark updates.items t = some u) :
    ∃ before x after, updates = before ++ x :: after ∧ x.2.head? = some u ∧ t = x.1.pad := by
  obtain ⟨x,hx,hmem⟩ := List.mem_flatMap.mp (mem_of_next hu)
  obtain ⟨before,after,rfl⟩ := List.append_of_mem hx
  have ht : t = x.1.pad := by
    rw [← mark_of_next hu,Update.mark,h.modality x hx u hmem]
  refine ⟨before,x,after,rfl,?_,ht⟩
  rw [← next_head h hx,← ht]
  exact hu

theorem advance_keys (m : Modality) : (updates.advance m).map (·.1) = updates.map (·.1) := by
  simp [Updates.advance]

theorem Updates.Sound.advance (h : updates.Sound) (m : Modality) : (updates.advance m).Sound := by
  refine ⟨by rw [advance_keys]; exact h.keys,?_⟩
  intro x hx u hu
  obtain ⟨y,hy,rfl⟩ := List.mem_map.mp hx
  refine h.modality y hy u ?_
  dsimp only at hu
  split at hu
  · exact List.mem_of_mem_tail hu
  · exact hu

theorem advance_of_notMem {m : Modality} (h : m ∉ updates.map (·.1)) :
    updates.advance m = updates := by
  have hid : ∀ x ∈ updates, (x.1,if x.1 = m then x.2.tail else x.2) = x := by
    intro x hx
    have hmem : x.1 ∈ updates.map (·.1) := List.mem_map_of_mem hx
    have hne : x.1 ≠ m := fun e => h (e ▸ hmem)
    simp [hne]
  rw [Updates.advance,List.map_congr_left hid,List.map_id']

/-- Taking the head of its group takes the next item out of the queue. -/
theorem items_advance (h : updates.Sound) {x : Modality × List Update} (hx : x ∈ updates) :
    (updates.advance x.1).items = pop Update.mark updates.items x.1.pad := by
  induction updates with
  | nil => cases hx
  | cons y updates ih =>
    have hcons : Updates.advance x.1 (y :: updates) =
        (y.1,if y.1 = x.1 then y.2.tail else y.2) :: Updates.advance x.1 updates := rfl
    rw [hcons,Updates.items_cons,Updates.items_cons,pop]
    rcases List.mem_cons.mp hx with rfl | hx'
    · rw [advance_of_notMem (List.nodup_cons.mp h.keys).1]
      cases hl : x.2 with
      | nil =>
        have hfree : ∀ u ∈ Updates.items updates, ¬ decide (u.mark = x.1.pad) = true := by
          intro u hu
          simpa using h.items_mark_ne hu
        simp only [if_true,List.tail_nil,List.nil_append]
        exact (List.eraseP_of_forall_not hfree).symm
      | cons u l =>
        have hu : u.mark = x.1.pad := by
          rw [Update.mark,h.modality x (by simp) u (by simp [hl])]
        simp [hu]
    · have hne : y.1 ≠ x.1 := h.key_ne hx'
      have hskip : ∀ u ∈ y.2, ¬ decide (u.mark = x.1.pad) = true := by
        intro u hu
        simpa using h.mark_ne hx' hu
      rw [List.eraseP_append_right _ hskip,if_neg hne,ih h.tail hx']
      rfl

end Groups

section Find
variable {updates : Updates}

theorem matchAt_free (h : updates.Sound) (hq : Findable Update.mark Update.full updates.items)
    {t : Token} (hn : next Update.mark updates.items t = none) (ts : List Token) :
    matchAt (t :: expand Update.mark Update.full updates.items ts) updates = none := by
  rw [matchAt,List.findSome?_eq_none_iff]
  intro x hx
  cases hl : x.2.head? with
  | none => rfl
  | some u =>
    have hu : next Update.mark updates.items u.mark = some u := by
      rw [Update.mark,h.modality x hx u (List.mem_of_head? hl),next_head h hx,hl]
    have hnot := not_prefix_free hq hu hn ts
    simp [Option.filter,hnot]

theorem matchAt_marker (h : updates.Sound) (hq : Findable Update.mark Update.full updates.items)
    {t : Token} {v : Update} (hn : next Update.mark updates.items t = some v) (ts : List Token) :
    matchAt (v.full ++ expand Update.mark Update.full (pop Update.mark updates.items t) ts)
      updates = some v := by
  obtain ⟨before,x,after,hup,hhead,ht⟩ := exists_group h hn
  rw [matchAt,List.findSome?_eq_some_iff]
  refine ⟨before,x,after,hup,?_,?_⟩
  · have hne : v.full ≠ [] := List.ne_nil_of_mem (hq v (mem_of_next hn)).1
    simp [hhead,Option.filter,hne]
  · intro y hy
    cases hl : y.2.head? with
    | none => rfl
    | some u =>
      have hy' : y ∈ updates := by rw [hup]; simp [hy]
      have hm := h.modality y hy' u (List.mem_of_head? hl)
      have hu : next Update.mark updates.items u.mark = some u := by
        rw [Update.mark,hm,next_head h hy',hl]
      have hkey : u.mark ≠ t := by
        rw [ht,Update.mark,hm]
        intro e
        have hnodup := h.keys
        rw [hup,List.map_append,List.map_cons,List.nodup_middle,List.nodup_cons] at hnodup
        have hmem : y.1 ∈ before.map (·.1) := List.mem_map_of_mem hy
        exact hnodup.1 (List.mem_append_left _ (pad_injective e ▸ hmem))
      have hnot := not_prefix_other hq hu hn hkey ts
      simp [Option.filter,hnot]

theorem iterFrom_skip (updates : Updates) (startIdx : Nat) (l rest : List Token) :
    iterFrom l.length startIdx updates (l ++ rest) =
      iterFrom 0 (startIdx+l.length) updates rest := by
  induction l generalizing startIdx with
  | nil => rfl
  | cons t l ih =>
    rw [List.length_cons,List.cons_append,iterFrom,ih,Nat.add_assoc,Nat.add_comm 1]

/-- The scan finds the contents that were put in, each at its place. -/
theorem iterFrom_expand (h : updates.Sound) (hq : Findable Update.mark Update.full updates.items)
    (startIdx : Nat) (ts : List Token) :
    iterFrom 0 startIdx updates (expand Update.mark Update.full updates.items ts) =
      (placed Update.mark Update.full startIdx updates.items ts).map
        fun x => x.1.placeholder x.2 := by
  induction ts generalizing updates startIdx with
  | nil => simp [expand,placed,iterFrom]
  | cons t ts ih =>
    cases hn : next Update.mark updates.items t with
    | none =>
      rw [expand,placed,hn]
      simp only
      rw [iterFrom,matchAt_free h hq hn]
      exact ih h hq _
    | some v =>
      have hmatch := matchAt_marker h hq hn ts
      obtain ⟨before,x,after,hup,hhead,ht⟩ := exists_group h hn
      have hx : x ∈ updates := by rw [hup]; simp
      have hvm : v.modality = x.1 := h.modality x hx v (List.mem_of_head? hhead)
      have hitems := items_advance h hx
      obtain ⟨c,cs,hc⟩ := List.exists_cons_of_ne_nil
        (List.ne_nil_of_mem (hq v (mem_of_next hn)).1)
      rw [expand_marker hn,placed,hn]
      rw [hc,List.cons_append] at hmatch ⊢
      rw [iterFrom,hmatch]
      simp only [hc,List.length_cons,Nat.add_sub_cancel,List.map_cons,List.cons.injEq,true_and]
      rw [iterFrom_skip,hvm,ht,← hitems,Nat.add_assoc,Nat.add_comm 1]
      refine ih (h.advance x.1) ?_ _
      rw [hitems]
      exact hq.pop _

variable {prompt : List Token}

theorem Updates.Sound.filter_items (h : updates.Sound) {x : Modality × List Update}
    (hx : x ∈ updates) :
    updates.items.filter (fun u => decide (u.mark = x.1.pad)) = x.2 := by
  induction updates with
  | nil => cases hx
  | cons y updates ih =>
    rw [Updates.items_cons,List.filter_append]
    rcases List.mem_cons.mp hx with rfl | hx'
    · have hown : x.2.filter (fun u => decide (u.mark = x.1.pad)) = x.2 := by
        rw [List.filter_eq_self]
        intro u hu
        simp [Update.mark,h.modality x (by simp) u hu]
      have hrest : (Updates.items updates).filter (fun u => decide (u.mark = x.1.pad)) = [] := by
        rw [List.filter_eq_nil_iff]
        intro u hu
        simpa using h.items_mark_ne hu
      rw [hown,hrest,List.append_nil]
    · have hnone : y.2.filter (fun u => decide (u.mark = x.1.pad)) = [] := by
        rw [List.filter_eq_nil_iff]
        intro u hu
        simpa using h.mark_ne hx' hu
      rw [hnone,List.nil_append]
      exact ih h.tail hx'

/-- What the scan finds in a prompt with all updates applied. -/
def placeholdersIn (updates : Updates) (prompt : List Token) : Placeholders := fun modality =>
  ((placed Update.mark Update.full 0 updates.items prompt).filter
    fun x => decide (x.1.modality = modality)).map fun x => x.1.placeholder x.2

theorem findMmPlaceholders_expand (h : updates.Sound)
    (hq : Findable Update.mark Update.full updates.items) (prompt : List Token) :
    findMmPlaceholders (expand Update.mark Update.full updates.items prompt) updates =
      placeholdersIn updates prompt := by
  funext modality
  rw [findMmPlaceholders,iterFrom_expand h hq,List.filter_map]
  rfl

theorem applyPromptUpdates_ok (tk : TokenizerLike) (h : updates.Sound)
    (hq : Findable Update.mark Update.full updates.items)
    (hall : unused Update.mark updates.items prompt = []) :
    applyPromptUpdates tk prompt updates =
      .ok (expand Update.mark Update.full updates.items prompt,placeholdersIn updates prompt) := by
  simp only [applyPromptUpdates,applyMatches_eq,hall,if_true]
  rw [findMmPlaceholders_expand h hq]

/-- The placeholders of a modality are those of its updates, in order. -/
theorem placeholdersIn_map {β : Type} (h : updates.Sound) {x : Modality × List Update}
    (hx : x ∈ updates) (hall : unused Update.mark updates.items prompt = [])
    {f : Placeholder → β} {g : Update → β} (hfg : ∀ u n, f (u.placeholder n) = g u) :
    (placeholdersIn updates prompt x.1).map f = x.2.map g := by
  have hfilter := @placed_filter _ _ _ Update.mark Update.full 0 updates.items prompt x.1.pad
  rw [hall,List.filter_nil,List.append_nil,h.filter_items hx,List.filter_map] at hfilter
  have hkey : ∀ y : Update × Nat, decide (y.1.modality = x.1) =
      ((fun u : Update => decide (u.mark = x.1.pad)) ∘ (·.1)) y := by
    intro y
    have : y.1.modality = x.1 ↔ y.1.mark = x.1.pad := ⟨fun e => by rw [Update.mark,e],pad_injective⟩
    simp [this]
  simp only [placeholdersIn,hkey]
  rw [← hfilter,List.map_map,List.map_map]
  exact List.map_congr_left fun y _ => hfg y.1 y.2

end Find
end Vllm
end TLiveOmni
