import Mathlib.Algebra.GroupWithZero.Nat
import Mathlib.Data.List.Basic
import Mathlib.Data.List.Lex
import Mathlib.Logic.Function.Basic

/-! Giving every size a key so that the sizes of each key add up to what the key has room
for: a search in the order of the keys finds the first such assignment. -/
set_option autoImplicit false

namespace Assign
variable {κ : Type} [DecidableEq κ]

/-- The sizes that the labels give to a key. -/
def total (k : κ) (labels : List κ) (sizes : List Nat) : Nat :=
  (((labels.zip sizes).filter fun x => decide (x.1 = k)).map (·.2)).sum

@[simp] theorem total_nil (k : κ) (sizes : List Nat) : total k [] sizes = 0 := rfl

@[simp] theorem total_cons (k l : κ) (labels : List κ) (n : Nat) (sizes : List Nat) :
    total k (l :: labels) (n :: sizes) = (if l = k then n else 0) + total k labels sizes := by
  by_cases h : l = k
  · simp [total,h]
  · simp [total,h]

theorem total_pos {k : κ} {labels : List κ} {sizes : List Nat} (hk : k ∈ labels)
    (hlen : labels.length = sizes.length) (hpos : ∀ n ∈ sizes, 0 < n) : 0 < total k labels sizes := by
  induction labels generalizing sizes with
  | nil => simp at hk
  | cons l labels ih =>
    cases sizes with
    | nil => simp at hlen
    | cons n sizes =>
      rw [total_cons]
      have hn : 0 < n := hpos n (by simp)
      by_cases hl : l = k
      · simp only [hl,if_true]; omega
      · have hk' : k ∈ labels := by simpa [Ne.symm hl] using hk
        have := ih hk' (by simpa using hlen) (fun m hm => hpos m (by simp [hm]))
        omega

/-- Depth-first search that never gives a key more than it has room for. -/
def search (keys : List κ) (room : κ → Nat) : List Nat → (κ → Nat) → Option (List κ)
  | [], used => if ∀ k ∈ keys, used k = room k then some [] else none
  | n :: sizes, used => keys.findSome? fun k =>
      if room k < used k+n then none
      else (search keys room sizes (Function.update used k (used k+n))).map (k :: ·)

/-- The labels use the keys and fill the room that is left exactly. -/
structure Exact (keys : List κ) (room used : κ → Nat) (sizes : List Nat) (labels : List κ) :
    Prop where
  length : labels.length = sizes.length
  mem : ∀ l ∈ labels, l ∈ keys
  total : ∀ k ∈ keys, used k + total k labels sizes = room k

section Search
variable {keys : List κ} {room used : κ → Nat} {n : Nat} {sizes : List Nat} {l : κ} {labels : List κ}

theorem Exact.nil_iff : Exact keys room used [] labels ↔
    labels = [] ∧ ∀ k ∈ keys, used k = room k := by
  constructor
  · intro h
    have hnil : labels = [] := by simpa using h.length
    subst hnil
    exact ⟨rfl,fun k hk => by simpa using h.total k hk⟩
  · rintro ⟨rfl,h⟩
    exact ⟨rfl,by simp,fun k hk => by simpa using h k hk⟩

theorem Exact.cons_iff : Exact keys room used (n :: sizes) (l :: labels) ↔
    l ∈ keys ∧ used l+n ≤ room l ∧
      Exact keys room (Function.update used l (used l+n)) sizes labels := by
  have hstep : ∀ k, Function.update used l (used l+n) k + Assign.total k labels sizes =
      used k + Assign.total k (l :: labels) (n :: sizes) := by
    intro k
    rw [total_cons]
    by_cases hk : l = k
    · subst hk
      rw [Function.update_self,if_pos rfl]
      omega
    · rw [Function.update_of_ne (Ne.symm hk),if_neg hk]
      omega
  constructor
  · intro h
    have hl : l ∈ keys := h.mem l (by simp)
    refine ⟨hl,?_,⟨by simpa using h.length,fun k hk => h.mem k (by simp [hk]),?_⟩⟩
    · have := h.total l hl
      rw [total_cons,if_pos rfl] at this
      omega
    · intro k hk
      rw [hstep,h.total k hk]
  · rintro ⟨hl,-,h⟩
    refine ⟨by simpa using h.length,?_,?_⟩
    · intro k hk
      rcases List.mem_cons.mp hk with rfl | hk
      · exact hl
      · exact h.mem k hk
    · intro k hk
      rw [← hstep,h.total k hk]

/-- The search finds an exact assignment whenever there is one. -/
theorem Exact.search_ne_none (h : Exact keys room used sizes labels) :
    search keys room sizes used ≠ none := by
  induction sizes generalizing used labels with
  | nil => rw [search,if_pos (Exact.nil_iff.mp h).2]; simp
  | cons n sizes ih =>
    cases labels with
    | nil => simpa using h.length
    | cons l labels =>
      obtain ⟨hl,hroom,hex⟩ := Exact.cons_iff.mp h
      intro hnone
      rw [search,List.findSome?_eq_none_iff] at hnone
      have hlnone := hnone l hl
      rw [if_neg (by omega),Option.map_eq_none_iff] at hlnone
      exact ih hex hlnone

/-- What the search returns is exact, and no exact assignment comes before it. -/
theorem search_eq_some {lt : κ → κ → Prop} (hkeys : keys.Pairwise lt)
    (h : search keys room sizes used = some labels) :
    Exact keys room used sizes labels ∧
      ∀ other, Exact keys room used sizes other → labels = other ∨ List.Lex lt labels other := by
  induction sizes generalizing used labels with
  | nil =>
    rw [search] at h
    split at h
    · rename_i hfull
      cases h
      exact ⟨Exact.nil_iff.mpr ⟨rfl,hfull⟩,fun other ho => .inl (Exact.nil_iff.mp ho).1.symm⟩
    · cases h
  | cons n sizes ih =>
    rw [search,List.findSome?_eq_some_iff] at h
    obtain ⟨before,k,after,rfl,hk,hbefore⟩ := h
    split at hk
    · cases hk
    rename_i hroom
    obtain ⟨rest,hrest,rfl⟩ := Option.map_eq_some_iff.mp hk
    obtain ⟨hex,hmin⟩ := ih hrest
    refine ⟨Exact.cons_iff.mpr ⟨by simp,by omega,hex⟩,?_⟩
    intro other ho
    cases other with
    | nil => simpa using ho.length
    | cons o other =>
      obtain ⟨homem,horoom,hoex⟩ := Exact.cons_iff.mp ho
      rcases List.mem_append.mp homem with hob | hoa
      · -- an earlier key would have been taken
        have hnone := hbefore o hob
        rw [if_neg (by omega),Option.map_eq_none_iff] at hnone
        exact absurd hnone hoex.search_ne_none
      · rcases List.mem_cons.mp hoa with rfl | hoa
        · rcases hmin other hoex with rfl | hlex
          · exact .inl rfl
          · exact .inr (.cons hlex)
        · have hlt : lt k o := by
            have := (List.pairwise_append.mp hkeys).2.1
            exact (List.pairwise_cons.mp this).1 o hoa
          exact .inr (.rel hlt)

end Search
end Assign
