import Mathlib.Data.List.Basic
import Mathlib.Logic.Function.Basic

/-! A store of results by key: entries are put in when they are missing, and single entries may
be evicted at any time. -/
set_option autoImplicit false

namespace Memo
variable {κ ν : Type}

abbrev Store (κ ν : Type) := κ → Option ν

def empty : Store κ ν := fun _ => none

/-- Everything in the store satisfies `P`. -/
def Holds (P : κ → ν → Prop) (c : Store κ ν) : Prop := ∀ k v, c k = some v → P k v

theorem holds_empty {P : κ → ν → Prop} : Holds P empty := fun _ _ h => by cases h

variable [DecidableEq κ]

def put (c : Store κ ν) (k : κ) (v : ν) : Store κ ν := Function.update c k (some v)

def evict (c : Store κ ν) (k : κ) : Store κ ν := Function.update c k none

/-- Puts in what is missing; of two entries for one key the first one stays. -/
def putAll (c : Store κ ν) : List (κ × ν) → Store κ ν
  | [] => c
  | (k,v) :: l => putAll (if c k = none then put c k v else c) l

variable {P : κ → ν → Prop} {c : Store κ ν} {k : κ} {v : ν} {l : List (κ × ν)}

theorem Holds.evict (h : Holds P c) (k : κ) : Holds P (evict c k) := by
  intro k' v hv
  by_cases hk : k' = k
  · rw [hk,Memo.evict,Function.update_self] at hv
    cases hv
  · rw [Memo.evict,Function.update_of_ne hk] at hv
    exact h k' v hv

theorem Holds.put (h : Holds P c) (hp : P k v) : Holds P (put c k v) := by
  intro k' v' hv
  by_cases hk : k' = k
  · rw [hk,Memo.put,Function.update_self] at hv
    rw [hk,← Option.some.inj hv]
    exact hp
  · rw [Memo.put,Function.update_of_ne hk] at hv
    exact h k' v' hv

theorem Holds.putAll (h : Holds P c) (hl : ∀ x ∈ l, P x.1 x.2) : Holds P (putAll c l) := by
  induction l generalizing c with
  | nil => exact h
  | cons x l ih =>
    refine ih ?_ fun y hy => hl y (by simp [hy])
    split
    · exact h.put (hl x (by simp))
    · exact h

theorem putAll_of_some (h : c k = some v) : putAll c l k = some v := by
  induction l generalizing c with
  | nil => exact h
  | cons x l ih =>
    refine ih ?_
    split
    · next hx =>
      have hne : k ≠ x.1 := by
        rintro rfl
        rw [hx] at h
        cases h
      rwa [put,Function.update_of_ne hne]
    · exact h

theorem putAll_of_notMem (h : k ∉ l.map Prod.fst) : putAll c l k = c k := by
  induction l generalizing c with
  | nil => rfl
  | cons x l ih =>
    have hne : k ≠ x.1 := fun e => h (by simp [e])
    rw [putAll,ih fun hk => h (by simp [hk])]
    split
    · rw [put,Function.update_of_ne hne]
    · rfl

theorem putAll_of_none (h : c k = none) : putAll c l k = l.lookup k := by
  induction l generalizing c with
  | nil => exact h
  | cons x l ih =>
    obtain ⟨k',v'⟩ := x
    by_cases hk : k = k'
    · subst hk
      rw [putAll,if_pos h,List.lookup_cons_self]
      exact putAll_of_some (Function.update_self ..)
    · rw [putAll,List.lookup_cons]
      have hne : (k == k') = false := by simpa using hk
      rw [hne]
      refine ih ?_
      split
      · rwa [put,Function.update_of_ne hk]
      · exact h

theorem lookup_zip (ks : List κ) (vs : List ν) (h : ks.length = vs.length) :
    (ks.zip vs).lookup k = vs[ks.idxOf k]? := by
  induction ks generalizing vs with
  | nil =>
    obtain rfl := List.length_eq_zero_iff.mp h.symm
    rfl
  | cons k' ks ih =>
    obtain ⟨v,vs,rfl⟩ := List.exists_cons_of_length_eq_add_one h.symm
    rw [List.zip_cons_cons,List.lookup_cons]
    by_cases hk : k = k'
    · simp [hk]
    · have hne : (k == k') = false := by simpa using hk
      rw [hne,ih vs (by simpa using h),List.idxOf_cons_ne _ (Ne.symm hk)]
      simp

end Memo
