import Mathlib.Algebra.GroupWithZero.Nat
import Mathlib.Data.List.Basic
import Mathlib.Data.List.Infix

/-! Replacing markers in a sequence by the contents of queued items, first come first served,
and finding the contents again in the result. -/
set_option autoImplicit false

namespace Expand
variable {α υ : Type} [DecidableEq α] (mark : υ → α) (content : υ → List α)

/-- The next item for a marker. -/
def next (q : List υ) (t : α) : Option υ := q.find? fun u => decide (mark u = t)

def pop (q : List υ) (t : α) : List υ := q.eraseP fun u => decide (mark u = t)

/-- Every marker with a queued item is replaced by the content of the next one. -/
def expand : List υ → List α → List α
  | _, [] => []
  | q, t :: ts => match next mark q t with
    | some u => content u ++ expand (pop mark q t) ts
    | none => t :: expand q ts

/-- The items no marker was left for. -/
def unused : List υ → List α → List υ
  | q, [] => q
  | q, t :: ts => match next mark q t with
    | some _ => unused (pop mark q t) ts
    | none => unused q ts

/-- The items in the order of their markers, with the positions of their contents. -/
def placed : Nat → List υ → List α → List (υ × Nat)
  | _, _, [] => []
  | n, q, t :: ts => match next mark q t with
    | some u => (u,n) :: placed (n+(content u).length) (pop mark q t) ts
    | none => placed (n+1) q ts

section Queue
variable {mark} {q : List υ} {t a : α} {u : υ}

theorem next_eq_none : next mark q t = none ↔ ∀ u ∈ q, mark u ≠ t := by
  simp [next,List.find?_eq_none]

theorem mark_of_next (h : next mark q t = some u) : mark u = t := by
  simpa using List.find?_some h

theorem mem_of_next (h : next mark q t = some u) : u ∈ q := List.mem_of_find?_eq_some h

theorem pop_subset : ∀ u ∈ pop mark q t, u ∈ q := fun _ h => List.mem_of_mem_eraseP h

theorem next_split (h : next mark q t = some u) :
    ∃ before after, q = before ++ u :: after ∧ (∀ v ∈ before, mark v ≠ t) ∧
      pop mark q t = before ++ after := by
  induction q with
  | nil => cases h
  | cons v q ih =>
    by_cases hv : mark v = t
    · obtain rfl : v = u := by simpa [next,hv] using h
      exact ⟨[],q,rfl,by simp,by simp [pop,hv]⟩
    · obtain ⟨before,after,hq,hb,hpop⟩ := ih (by simpa [next,hv] using h)
      refine ⟨v :: before,after,by simp [hq],?_,?_⟩
      · simpa [hv] using hb
      · rw [pop,List.eraseP_cons_of_neg (by simpa using hv)]
        exact congrArg (v :: ·) hpop

theorem next_pop (h : a ≠ t) : next mark (pop mark q t) a = next mark q a := by
  induction q with
  | nil => rfl
  | cons v q ih =>
    by_cases hv : mark v = t
    · have hne : mark v ≠ a := fun e => h (e.symm.trans hv)
      simp [pop,next,hv,hv ▸ hne]
    · by_cases ha : mark v = a
      · simp [pop,next,ha,h]
      · have : next mark (v :: pop mark q t) a = next mark (v :: q) a := by
          simpa [next,ha] using ih
        simpa [pop,List.eraseP_cons,hv] using this

theorem next_eq_head : next mark q t = (q.filter fun u => decide (mark u = t)).head? :=
  List.head?_filter.symm

/-- Taking an item leaves the others of its kind, and all items of the other kinds. -/
theorem filter_pop : (pop mark q t).filter (fun u => decide (mark u = a)) =
    if a = t then (q.filter fun u => decide (mark u = a)).tail
    else q.filter fun u => decide (mark u = a) := by
  induction q with
  | nil => simp [pop]
  | cons v q ih =>
    by_cases hv : mark v = t
    · by_cases ha : a = t
      · simp [pop,hv,ha]
      · simp [pop,hv,ha,Ne.symm ha]
    · have hpop : pop mark (v :: q) t = v :: pop mark q t := by simp [pop,hv]
      rw [hpop,List.filter_cons,List.filter_cons,ih]
      by_cases ha : a = t
      · simp [ha,hv]
      · simp [ha]

end Queue

section Text
variable {mark content}

theorem expand_free {q : List υ} {pre : List α} (h : ∀ u ∈ q, mark u ∉ pre) (ts : List α) :
    expand mark content q (pre ++ ts) = pre ++ expand mark content q ts := by
  induction pre with
  | nil => rfl
  | cons t pre ih =>
    have hnone : next mark q t = none := next_eq_none.mpr fun u hu e => h u hu (by simp [e])
    rw [List.cons_append,expand,hnone]
    simp [ih fun u hu e => h u hu (by simp [e])]

theorem unused_free {q : List υ} {pre : List α} (h : ∀ u ∈ q, mark u ∉ pre) (ts : List α) :
    unused mark q (pre ++ ts) = unused mark q ts := by
  induction pre with
  | nil => rfl
  | cons t pre ih =>
    have hnone : next mark q t = none := next_eq_none.mpr fun u hu e => h u hu (by simp [e])
    rw [List.cons_append,unused,hnone]
    exact ih fun u hu e => h u hu (by simp [e])

theorem expand_marker {q : List υ} {u : υ} {t : α} (h : next mark q t = some u) (ts : List α) :
    expand mark content q (t :: ts) = content u ++ expand mark content (pop mark q t) ts := by
  simp [expand,h]

theorem unused_marker {q : List υ} {u : υ} {t : α} (h : next mark q t = some u) (ts : List α) :
    unused mark q (t :: ts) = unused mark (pop mark q t) ts := by
  simp [unused,h]

@[simp] theorem expand_nil (ts : List α) : expand mark content [] ts = ts := by
  have := @expand_free _ _ _ mark content [] ts (by simp) []
  simpa [expand] using this

@[simp] theorem unused_nil (ts : List α) : unused mark [] ts = [] := by
  have := @unused_free _ _ _ mark [] ts (by simp) []
  simpa [unused] using this

/-- A sequence either has no marker that is waited for or a first one. -/
theorem first_marker (mark : υ → α) (q : List υ) (ts : List α) :
    (∀ u ∈ q, mark u ∉ ts) ∨ ∃ pre t post u, ts = pre ++ t :: post ∧ (∀ u ∈ q, mark u ∉ pre) ∧
      next mark q t = some u := by
  induction ts with
  | nil => exact .inl (by simp)
  | cons t ts ih =>
    cases hn : next mark q t with
    | some u => exact .inr ⟨[],t,ts,u,rfl,by simp,hn⟩
    | none =>
      have ht := next_eq_none.mp hn
      rcases ih with h | ⟨pre,x,post,u,rfl,hpre,hx⟩
      · refine .inl fun u hu => ?_
        simp [ht u hu,h u hu]
      · refine .inr ⟨t :: pre,x,post,u,rfl,fun v hv => ?_,hx⟩
        simp [ht v hv,hpre v hv]

theorem unused_eq_nil {q : List υ} {ts : List α}
    (h : ∀ a, q.countP (fun u => decide (mark u = a)) ≤ ts.count a) : unused mark q ts = [] := by
  induction ts generalizing q with
  | nil =>
    cases q with
    | nil => rfl
    | cons u q =>
      have := h (mark u)
      simp at this
  | cons t ts ih =>
    cases hn : next mark q t with
    | none =>
      rw [unused,hn]
      refine ih fun a => ?_
      by_cases ha : a = t
      · have hzero : q.countP (fun u => decide (mark u = a)) = 0 := by
          rw [List.countP_eq_zero]
          intro u hu
          simpa [ha] using next_eq_none.mp hn u hu
        omega
      · have := h a
        rwa [List.count_cons_of_ne (Ne.symm ha)] at this
    | some u =>
      rw [unused_marker hn]
      refine ih fun a => ?_
      have hle := h a
      by_cases ha : a = t
      · obtain ⟨before,after,hq,-,hpop⟩ := next_split hn
        rw [ha,List.count_cons_self,hq,List.countP_append,List.countP_cons_of_pos
          (by simp [mark_of_next hn])] at hle
        rw [ha,hpop,List.countP_append]
        omega
      · rw [List.count_cons_of_ne (Ne.symm ha)] at hle
        exact le_trans (List.Sublist.countP_le (List.eraseP_sublist)) hle

theorem placed_filter (n : Nat) (q : List υ) (ts : List α) (a : α) :
    ((placed mark content n q ts).map (·.1)).filter (fun u => decide (mark u = a)) ++
      (unused mark q ts).filter (fun u => decide (mark u = a)) =
        q.filter fun u => decide (mark u = a) := by
  induction ts generalizing n q with
  | nil => rfl
  | cons t ts ih =>
    cases hn : next mark q t with
    | none =>
      rw [placed,unused,hn]
      exact ih _ _
    | some u =>
      have hih := ih (n+(content u).length) (pop mark q t)
      have hu := mark_of_next hn
      rw [filter_pop] at hih
      rw [placed,unused,hn]
      simp only [List.map_cons]
      by_cases ha : a = t
      · rw [if_pos ha] at hih
        rw [next_eq_head,← ha] at hn
        rw [List.filter_cons_of_pos (by simp [hu,ha]),List.cons_append,hih]
        exact List.cons_head?_tail hn
      · rw [if_neg ha] at hih
        rw [List.filter_cons_of_neg (by simp [hu,Ne.symm ha]),hih]

/-- The result has the symbols of the sequence and of all contents, but for the markers. -/
theorem count_expand {q : List υ} {ts : List α} (h : unused mark q ts = []) (a : α) :
    (expand mark content q ts).count a+q.countP (fun u => decide (mark u = a)) =
      ts.count a+(q.map fun u => (content u).count a).sum := by
  induction ts generalizing q with
  | nil =>
    obtain rfl : q = [] := h
    rfl
  | cons t ts ih =>
    cases hn : next mark q t with
    | none =>
      rw [unused,hn] at h
      have hrest := ih h
      rw [expand,hn]
      simp only [List.count_cons]
      omega
    | some u =>
      rw [unused_marker hn] at h
      have hrest := ih h
      obtain ⟨before,after,hq,-,hpop⟩ := next_split hn
      have hu := mark_of_next hn
      rw [hpop] at hrest
      rw [expand_marker hn,hpop,hq,List.count_append,List.count_cons]
      simp only [List.countP_append,List.countP_cons,List.map_append,List.map_cons,List.sum_append,
        List.sum_cons,hu,beq_iff_eq,decide_eq_true_eq] at hrest ⊢
      omega

/-- Contents with their own markers take none away. -/
theorem count_le_expand {q : List υ} {ts : List α} (h : unused mark q ts = [])
    (hown : ∀ u ∈ q, mark u ∈ content u) (a : α) :
    ts.count a ≤ (expand mark content q ts).count a := by
  have hcount := @count_expand _ _ _ mark content q ts h a
  have hmarks : q.countP (fun u => decide (mark u = a)) ≤
      (q.map fun u => (content u).count a).sum := by
    clear hcount h
    induction q with
    | nil => exact Nat.le_refl _
    | cons u q ih =>
      have hrest := ih fun v hv => hown v (by simp [hv])
      rw [List.countP_cons,List.map_cons,List.sum_cons]
      split
      · next hu =>
        have hpos := List.count_pos_iff.mpr (hown u (by simp))
        rw [of_decide_eq_true hu] at hpos
        omega
      · omega
  omega
end Text

section Search
variable {mark content}

/-- Items that can be found again: each content has the item's own marker, and no marker of
another kind that is still waited for. -/
def Findable (mark : υ → α) (content : υ → List α) (q : List υ) : Prop :=
  ∀ u ∈ q, mark u ∈ content u ∧ ∀ v ∈ q, mark v ≠ mark u → mark v ∉ content u

theorem Findable.pop {q : List υ} (h : Findable mark content q) (t : α) :
    Findable mark content (pop mark q t) :=
  fun u hu => ⟨(h u (pop_subset u hu)).1,fun v hv => (h u (pop_subset u hu)).2 v (pop_subset v hv)⟩

/-- The first marker of a kind in the result stands no earlier than in the next content. -/
theorem expand_lead {q : List υ} {u : υ} {lead more : List α} (hq : Findable mark content q)
    (hu : next mark q (mark u) = some u) (hc : content u = lead ++ mark u :: more)
    (hl : mark u ∉ lead) (ts : List α) {i : Nat} (hi : i < lead.length) :
    (expand mark content q ts)[i]? ≠ some (mark u) := by
  induction ts generalizing q i with
  | nil => simp [expand]
  | cons t ts ih =>
    cases hn : next mark q t with
    | none =>
      rw [expand,hn]
      cases i with
      | zero =>
        intro e
        rw [List.getElem?_cons_zero,Option.some.injEq] at e
        rw [e,hu] at hn
        cases hn
      | succ i => exact ih hq hu (by omega)
    | some v =>
      rw [expand_marker hn]
      by_cases ht : t = mark u
      · obtain rfl : v = u := Option.some.inj (hn.symm.trans (ht ▸ hu))
        rw [hc,List.append_assoc,List.getElem?_append_left hi]
        intro e
        exact hl (List.mem_of_getElem? e)
      · have hv := mark_of_next hn
        by_cases hlt : i < (content v).length
        · rw [List.getElem?_append_left hlt]
          intro e
          exact (hq v (mem_of_next hn)).2 u (mem_of_next hu) (by rw [hv]; exact Ne.symm ht)
            (List.mem_of_getElem? e)
        · rw [List.getElem?_append_right (by omega)]
          exact ih (hq.pop t) ((next_pop (Ne.symm ht)).trans hu) (by omega)

/-- In front of a symbol that is no marker no content is found. -/
theorem not_prefix_free {q : List υ} {u : υ} {t : α} (hq : Findable mark content q)
    (hu : next mark q (mark u) = some u) (hn : next mark q t = none) (ts : List α) :
    ¬ content u <+: t :: expand mark content q ts := by
  intro h
  obtain ⟨lead,more,hc,hl⟩ := List.eq_append_cons_of_mem (hq u (mem_of_next hu)).1
  have hat : (t :: expand mark content q ts)[lead.length]? = some (mark u) := by
    rw [hc] at h
    obtain ⟨r,hr⟩ := h
    rw [← hr]
    simp
  cases hk : lead.length with
  | zero =>
    rw [hk,List.getElem?_cons_zero,Option.some.injEq] at hat
    rw [hat,hu] at hn
    cases hn
  | succ k =>
    rw [hk,List.getElem?_cons_succ] at hat
    exact expand_lead hq hu hc hl ts (by omega) hat

theorem not_prefix_other {q : List υ} {u v : υ} {t : α} (hq : Findable mark content q)
    (hu : next mark q (mark u) = some u) (hn : next mark q t = some v) (ht : mark u ≠ t)
    (ts : List α) :
    ¬ content u <+: content v ++ expand mark content (pop mark q t) ts := by
  intro h
  obtain ⟨lead,more,hc,hl⟩ := List.eq_append_cons_of_mem (hq u (mem_of_next hu)).1
  have hv := mark_of_next hn
  have hforeign : mark u ∉ content v :=
    (hq v (mem_of_next hn)).2 u (mem_of_next hu) (by rw [hv]; exact ht)
  have hpos : 0 < (content v).length :=
    List.length_pos_of_mem (hq v (mem_of_next hn)).1
  have hat : (content v ++ expand mark content (pop mark q t) ts)[lead.length]? =
      some (mark u) := by
    rw [hc] at h
    obtain ⟨r,hr⟩ := h
    rw [← hr]
    simp
  by_cases hlt : lead.length < (content v).length
  · rw [List.getElem?_append_left hlt] at hat
    exact hforeign (List.mem_of_getElem? hat)
  · rw [List.getElem?_append_right (by omega)] at hat
    exact expand_lead (hq.pop t) ((next_pop ht).trans hu) hc hl ts (by omega) hat

end Search
end Expand
