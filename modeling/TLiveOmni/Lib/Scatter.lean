import Mathlib.Data.List.Basic
import Mathlib.Data.List.Lex
import Mathlib.Data.Nat.Count

/-! Scattering rows into the marked places of a list, and why rows that are queued by key
arrive where they belong. -/
set_option autoImplicit false

namespace Scatter
variable {α β κ E : Type}

/-- `merged[mask] = rows`: the marked places take the rows in order. -/
def scatter : List Bool → List E → List E → List E
  | true :: mask, r :: rows, _ :: base => r :: scatter mask rows base
  | _ :: mask, rows, b :: base => b :: scatter mask rows base
  | _, _, base => base

/-- Rows read off the marked places go back to them. -/
theorem scatter_map_filter (p : α → Bool) (val text : α → E) (l : List α) :
    scatter (l.map p) ((l.filter p).map val) (l.map text) =
      l.map fun a => if p a then val a else text a := by
  induction l with
  | nil => rfl
  | cons a l ih =>
    cases hp : p a with
    | true => simp [hp,scatter,ih]
    | false => simp [hp,scatter,ih]

/-- Key after key the marked places are filled; where no key marks a place, it stays. -/
theorem foldl_scatter (p : κ → α → Bool) (val : α → E) (l : List α) (ks : List κ) (text : α → E) :
    ks.foldl (fun acc k => scatter (l.map (p k)) ((l.filter (p k)).map val) acc) (l.map text) =
      l.map fun a => if ks.any (p · a) then val a else text a := by
  induction ks generalizing text with
  | nil => simp
  | cons k ks ih =>
    rw [List.foldl_cons,scatter_map_filter,ih]
    apply List.map_congr_left
    intro a _
    cases hk : p k a with
    | true => simp [hk]
    | false => simp [hk]

@[simp] theorem length_scatter (mask : List Bool) (rows base : List E) :
    (scatter mask rows base).length = base.length := by
  induction base generalizing mask rows with
  | nil => cases mask with
    | nil => rfl
    | cons b mask => cases b <;> cases rows <;> rfl
  | cons x base ih => cases mask with
    | nil => rfl
    | cons b mask => cases b <;> cases rows <;> simp [scatter,ih]

/-- A marked place takes the row whose number is that of the marked places before it. -/
theorem getElem?_scatter {mask : List Bool} {rows base : List E} (hlen : mask.length = base.length)
    (hcount : mask.count true ≤ rows.length) (k : Nat) :
    (scatter mask rows base)[k]? =
      if mask[k]? = some true then rows[(mask.take k).count true]? else base[k]? := by
  induction mask generalizing rows base k with
  | nil => simp [scatter]
  | cons b mask ih => cases base with
    | nil => cases hlen
    | cons x base =>
      have hlen' : mask.length = base.length := by simpa using hlen
      cases b with
      | false =>
        have hcount' : mask.count true ≤ rows.length := by simpa using hcount
        cases k with
        | zero => simp [scatter]
        | succ k => simpa [scatter] using ih hlen' hcount' k
      | true => cases rows with
        | nil => simp at hcount
        | cons r rows =>
          have hcount' : mask.count true ≤ rows.length := by simpa using hcount
          cases k with
          | zero => simp [scatter]
          | succ k => simpa [scatter] using ih hlen' hcount' k

section Wide
variable {d : Nat}

theorem scatter_true {r b : List E} (hr : r.length = d) (hb : b.length = d) (mask : List Bool)
    (rows base : List E) : scatter (List.replicate d true ++ mask) (r ++ rows) (b ++ base) =
      r ++ scatter mask rows base := by
  induction d generalizing r b with
  | zero => rw [List.eq_nil_of_length_eq_zero hr,List.eq_nil_of_length_eq_zero hb]; rfl
  | succ d ih => cases r with
    | nil => cases hr
    | cons y r => cases b with
      | nil => cases hb
      | cons z b =>
        rw [List.replicate_succ]
        exact congrArg (y :: ·) (ih (Nat.succ.inj hr) (Nat.succ.inj hb))

theorem scatter_false {b : List E} (hb : b.length = d) (mask : List Bool) (rows base : List E) :
    scatter (List.replicate d false ++ mask) rows (b ++ base) = b ++ scatter mask rows base := by
  induction d generalizing b with
  | zero => rw [List.eq_nil_of_length_eq_zero hb]; rfl
  | succ d ih => cases b with
    | nil => cases hb
    | cons z b =>
      rw [List.replicate_succ]
      have := congrArg (z :: ·) (ih (Nat.succ.inj hb))
      cases rows <;> exact this

/-- Scattering the elements of wide rows is scattering the rows. -/
theorem scatter_wide {f : β → List E} (hf : ∀ x, (f x).length = d) {mask : List Bool}
    {rows base : List β} (hlen : mask.length = base.length)
    (hcount : mask.count true ≤ rows.length) :
    scatter (mask.flatMap (List.replicate d)) (rows.flatMap f) (base.flatMap f) =
      (scatter mask rows base).flatMap f := by
  induction mask generalizing rows base with
  | nil =>
    rw [List.eq_nil_of_length_eq_zero hlen.symm]
    rfl
  | cons b mask ih => cases base with
    | nil => cases hlen
    | cons x base =>
      have hlen' : mask.length = base.length := by simpa using hlen
      rw [List.flatMap_cons,List.flatMap_cons]
      cases b with
      | false =>
        rw [scatter_false (hf x),ih hlen' (by simpa using hcount)]
        cases rows <;> rfl
      | true => cases rows with
        | nil => simp at hcount
        | cons r rows =>
          rw [List.flatMap_cons,scatter_true (hf r) (hf x),ih hlen' (by simpa using hcount)]
          rfl

theorem slice_flatMap {f : β → List E} (hf : ∀ x, (f x).length = d) {l : List β} {k : Nat} {x : β}
    (hk : l[k]? = some x) : ((l.flatMap f).drop (k*d)).take d = f x := by
  induction l generalizing k with
  | nil => cases hk
  | cons y l ih => cases k with
    | zero =>
      obtain rfl : y = x := by simpa using hk
      rw [List.flatMap_cons,Nat.zero_mul,List.drop_zero,List.take_left' (hf y)]
    | succ k =>
      have hstart : (k+1)*d = (f y).length+k*d := by rw [hf y,Nat.succ_mul,Nat.add_comm]
      rw [List.flatMap_cons,hstart,List.drop_length_add_append]
      exact ih (by simpa using hk)

end Wide

theorem flatMap_filter_of_nil {l : List α} {p : α → Bool} {f : α → List E}
    (h : ∀ a ∈ l, ¬ p a → f a = []) : (l.filter p).flatMap f = l.flatMap f := by
  induction l with
  | nil => rfl
  | cons a l ih =>
    have hl := ih fun b hb => h b (by simp [hb])
    by_cases hp : p a
    · simp [hp,hl]
    · simp [hp,hl,h a (by simp) hp]

section Order

theorem rel_iff_lt {r : α → α → Prop} (hr : ∀ x y, r x y → ¬ r y x) {l : List α}
    (hl : l.Pairwise r) {k k' : Nat} {x y : α} (hk : l[k]? = some x) (hk' : l[k']? = some y) :
    r x y ↔ k < k' := by
  obtain ⟨hlt,rfl⟩ := List.getElem?_eq_some_iff.mp hk
  obtain ⟨hlt',rfl⟩ := List.getElem?_eq_some_iff.mp hk'
  have hidx := List.pairwise_iff_getElem.mp hl
  constructor
  · intro h
    rcases lt_trichotomy k k' with h' | h' | h'
    · exact h'
    · subst h'
      exact absurd h (hr _ _ h)
    · exact absurd h (hr _ _ (hidx k' k hlt' hlt h'))
  · intro h
    exact hidx k k' hlt hlt' h

/-- A sorted list is cut where one predicate ends and the other begins. -/
theorem filter_or_of_before {l : List Nat} (hl : l.Pairwise (· < ·)) {p q : Nat → Bool}
    (h : ∀ a b, p a → q b → a < b) :
    l.filter (fun a => p a || q a) = l.filter p ++ l.filter q := by
  induction l with
  | nil => rfl
  | cons a l ih =>
    obtain ⟨ha,hl⟩ := List.pairwise_cons.mp hl
    cases hp : p a with
    | true =>
      have hq : q a = false := by
        by_contra hq
        exact lt_irrefl a (h a a hp (by simpa using hq))
      simp [hp,hq,ih hl]
    | false =>
      cases hq : q a with
      | false => simp [hp,hq,ih hl]
      | true =>
        -- everything of the first predicate would come before `a`
        have hnone : l.filter p = [] := by
          rw [List.filter_eq_nil_iff]
          intro b hb hpb
          exact lt_asymm (ha b hb) (h b a hpb hq)
        simp [hp,hq,ih hl,hnone]

/-- Predicates that follow one another select one block after the other. -/
theorem filter_any_eq_flatMap {l : List Nat} (hl : l.Pairwise (· < ·)) {p : α → Nat → Bool}
    {fs : List α} (h : fs.Pairwise fun f g => ∀ a b, p f a → p g b → a < b) :
    l.filter (fun a => fs.any (p · a)) = fs.flatMap fun f => l.filter (p f) := by
  induction fs with
  | nil => simp
  | cons f fs ih =>
    obtain ⟨hf,hfs⟩ := List.pairwise_cons.mp h
    have hbefore : ∀ a b, p f a → fs.any (p · b) → a < b := by
      intro a b ha hb
      obtain ⟨g,hg,hgb⟩ := List.any_eq_true.mp hb
      exact hf g hg a b ha hgb
    rw [List.flatMap_cons,← ih hfs,← filter_or_of_before hl hbefore]
    simp

end Order

section Count
variable (p : Nat → Bool)

/-- The marked places of a window, numbered from the first marked place of all. -/
theorem map_count_filter_range' (s n : Nat) :
    ((List.range' s n).filter p).map (Nat.count (p ·)) =
      List.range' (Nat.count (p ·) s) (Nat.count (p ·) (s+n) - Nat.count (p ·) s) := by
  induction n generalizing s with
  | zero => simp
  | succ n ih =>
    have hadd : s+1+n = s+(n+1) := by omega
    have hmono : Nat.count (p ·) (s+1) ≤ Nat.count (p ·) (s+(n+1)) := Nat.count_monotone _ (by omega)
    rw [List.range'_succ]
    cases hp : p s with
    | false =>
      have hs : Nat.count (p ·) (s+1) = Nat.count (p ·) s := by simp [Nat.count_succ,hp]
      rw [List.filter_cons_of_neg (by simp [hp]),ih,hs,hadd]
    | true =>
      have hs : Nat.count (p ·) (s+1) = Nat.count (p ·) s+1 := by simp [Nat.count_succ,hp]
      have hlen : Nat.count (p ·) (s+(n+1)) - Nat.count (p ·) s =
          (Nat.count (p ·) (s+(n+1)) - (Nat.count (p ·) s+1))+1 := by omega
      rw [List.filter_cons_of_pos hp,List.map_cons,ih,hs,hadd,hlen,List.range'_succ]

theorem filterMap_range'_getElem? (l : List E) (s n : Nat) :
    (List.range' s n).filterMap (l[·]?) = (l.drop s).take n := by
  induction n generalizing s with
  | zero => simp
  | succ n ih =>
    rw [List.range'_succ,List.filterMap_cons,ih]
    cases h : l[s]? with
    | none =>
      have hle : l.length ≤ s := by simpa using h
      simp [List.drop_eq_nil_of_le hle,List.drop_eq_nil_of_le (Nat.le_succ_of_le hle)]
    | some x =>
      obtain ⟨hs,rfl⟩ := List.getElem?_eq_some_iff.mp h
      rw [List.drop_eq_getElem_cons hs,List.take_succ_cons]

end Count
end Scatter
