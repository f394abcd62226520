import Mathlib.Algebra.BigOperators.Group.List.Basic
import Mathlib.Algebra.GroupWithZero.Nat
import Mathlib.Data.List.Nodup

/-! Python's `dict` and `OrderedDict`: entries in the order of their first insertion, no key
twice, and sums over the keys. -/
set_option autoImplicit false

structure Dict (κ ν : Type) where
  entries : List (κ × ν)
  nodup : (entries.map Prod.fst).Nodup

namespace Dict
variable {κ ν : Type}

def empty : Dict κ ν := ⟨[],List.nodup_nil⟩

def keys (d : Dict κ ν) : List κ := d.entries.map Prod.fst

instance : Membership κ (Dict κ ν) := ⟨fun d k => k ∈ d.keys⟩

/-- The sum of a weight over the keys. -/
def total (w : κ → Nat) (d : Dict κ ν) : Nat := (d.keys.map w).sum

@[simp] theorem mem_keys {d : Dict κ ν} {k : κ} : k ∈ d.keys ↔ k ∈ d := Iff.rfl

@[simp] theorem not_mem_empty {k : κ} : k ∉ (empty : Dict κ ν) := List.not_mem_nil

@[simp] theorem total_empty (w : κ → Nat) : (empty : Dict κ ν).total w = 0 := rfl

theorem total_congr {ν' : Type} {d : Dict κ ν} {d' : Dict κ ν'} (w : κ → Nat)
    (h : ∀ k, k ∈ d ↔ k ∈ d') : d.total w = d'.total w :=
  (((List.perm_ext_iff_of_nodup d.nodup d'.nodup).mpr h).map w).sum_eq

variable [DecidableEq κ]

instance (k : κ) (d : Dict κ ν) : Decidable (k ∈ d) := inferInstanceAs (Decidable (k ∈ d.keys))

def get? (d : Dict κ ν) (k : κ) : Option ν := d.entries.lookup k

/-- `d[k] = v`: a key that is there keeps its place. -/
def set (d : Dict κ ν) (k : κ) (v : ν) : Dict κ ν :=
  if h : k ∈ d then
    ⟨d.entries.map fun e => if e.1 = k then (k,v) else e,by
      have hfst : (d.entries.map fun e => if e.1 = k then (k,v) else e).map Prod.fst = d.keys := by
        rw [List.map_map]
        exact List.map_congr_left fun e _ => by by_cases he : e.1 = k <;> simp [he]
      rw [hfst]
      exact d.nodup⟩
  else ⟨d.entries ++ [(k,v)],by
    rw [List.map_append,List.map_singleton]
    exact (List.nodup_append_comm.mp (List.nodup_cons.mpr ⟨h,d.nodup⟩))⟩

/-- `del d[k]`, which leaves a dict without the key as it is. -/
def erase (d : Dict κ ν) (k : κ) : Dict κ ν :=
  ⟨d.entries.filter fun e => e.1 ≠ k,d.nodup.sublist ((List.filter_sublist).map Prod.fst)⟩

/-- `d.popitem(last=False)`: the oldest entry, and the dict without it. -/
def popFirst (d : Dict κ ν) : Option ((κ × ν) × Dict κ ν) :=
  d.entries.head?.map fun e => (e,d.erase e.1)

variable {d : Dict κ ν} {k k' : κ} {v : ν}

theorem get?_isSome : (d.get? k).isSome ↔ k ∈ d := by
  rw [get?,List.lookup_isSome_iff,← mem_keys,keys,List.mem_map]
  exact exists_congr fun e => and_congr_right fun _ => by rw [beq_iff_eq,eq_comm]

theorem get?_eq_none : d.get? k = none ↔ k ∉ d := by
  rw [← get?_isSome,Option.not_isSome_iff_eq_none]

theorem mem_of_get? (h : d.get? k = some v) : k ∈ d := by
  rw [← get?_isSome,h]
  rfl

@[simp] theorem get?_empty : (empty : Dict κ ν).get? k = none := rfl

theorem lookup_replace (l : List (κ × ν)) (hk : k ∈ l.map Prod.fst) :
    (l.map fun e => if e.1 = k then (k,v) else e).lookup k' =
      if k' = k then some v else l.lookup k' := by
  induction l with
  | nil => simp at hk
  | cons e l ih =>
    obtain ⟨a,b⟩ := e
    rw [List.map_cons]
    by_cases ha : a = k
    · subst ha
      by_cases hk' : k' = a
      · simp [hk']
      · have hne : (k' == a) = false := by simpa using hk'
        rw [if_pos rfl,List.lookup_cons,List.lookup_cons,hne,if_neg hk']
        by_cases hl : a ∈ l.map Prod.fst
        · simpa [hk'] using ih hl
        · have hid : (l.map fun e => if e.1 = a then (a,v) else e) = l := by
            refine (List.map_congr_left fun e he => if_neg ?_).trans (List.map_id' l)
            exact fun h => hl (List.mem_map.mpr ⟨e,he,h⟩)
          simp [hid]
    · have hl : k ∈ l.map Prod.fst := by simpa [Ne.symm ha] using hk
      rw [if_neg ha,List.lookup_cons,List.lookup_cons]
      by_cases hk' : k' = a
      · simp [hk',ha]
      · have hne : (k' == a) = false := by simpa using hk'
        rw [hne]
        exact ih hl

theorem get?_set : (d.set k v).get? k' = if k' = k then some v else d.get? k' := by
  unfold set
  split
  · rename_i h
    exact lookup_replace d.entries h
  · rename_i h
    rw [get?,List.lookup_append]
    by_cases hk : k' = k
    · subst hk
      have hnone : d.entries.lookup k' = none := get?_eq_none.mpr h
      simp [hnone]
    · have hne : (k' == k) = false := by simpa using hk
      simp [List.lookup_cons,hne,hk,get?]

theorem lookup_filter_ne (l : List (κ × ν)) :
    (l.filter fun e => e.1 ≠ k).lookup k' = if k' = k then none else l.lookup k' := by
  induction l with
  | nil => simp
  | cons e l ih =>
    obtain ⟨a,b⟩ := e
    by_cases ha : a = k
    · rw [List.filter_cons_of_neg (by simpa using ha),ih,List.lookup_cons]
      by_cases hk : k' = k
      · simp [hk]
      · have hne : (k' == a) = false := by simpa [ha] using hk
        rw [hne]
    · rw [List.filter_cons_of_pos (by simpa using ha),List.lookup_cons,List.lookup_cons,ih]
      by_cases hk : k' = a
      · have hne : k' ≠ k := hk ▸ ha
        simp [hk,ha]
      · have hne : (k' == a) = false := by simpa using hk
        rw [hne]

theorem get?_erase : (d.erase k).get? k' = if k' = k then none else d.get? k' :=
  lookup_filter_ne d.entries

theorem mem_set : k' ∈ d.set k v ↔ k' = k ∨ k' ∈ d := by
  rw [← get?_isSome,get?_set,← get?_isSome]
  by_cases h : k' = k <;> simp [h]

theorem mem_erase : k' ∈ d.erase k ↔ k' ≠ k ∧ k' ∈ d := by
  rw [← get?_isSome,get?_erase,← get?_isSome]
  by_cases h : k' = k <;> simp [h]

theorem keys_set_of_mem (h : k ∈ d) : (d.set k v).keys = d.keys := by
  rw [keys,set,dif_pos h,List.map_map]
  exact List.map_congr_left fun e _ => by by_cases he : e.1 = k <;> simp [he]

theorem keys_set_of_not_mem (h : k ∉ d) : (d.set k v).keys = d.keys ++ [k] := by
  rw [keys,set,dif_neg h,List.map_append]
  rfl

theorem keys_erase : (d.erase k).keys = d.keys.erase k := by
  have hnd : d.keys.Nodup := d.nodup
  rw [hnd.erase_eq_filter,keys,erase,keys,List.filter_map]
  congr 1
  exact List.filter_congr fun e _ => by by_cases he : e.1 = k <;> simp [he]

section Total
variable (w : κ → Nat)

theorem total_set_of_mem (h : k ∈ d) : (d.set k v).total w = d.total w := by
  rw [total,keys_set_of_mem h,total]

theorem total_set_of_not_mem (h : k ∉ d) : (d.set k v).total w = d.total w+w k := by
  rw [total,keys_set_of_not_mem h,total]
  simp

theorem total_erase_of_mem (h : k ∈ d) : (d.erase k).total w+w k = d.total w := by
  rw [total,keys_erase,total,Nat.add_comm]
  exact List.sum_map_erase w h

end Total

theorem popFirst_eq_none : d.popFirst = none ↔ d.entries = [] := by
  rw [popFirst,Option.map_eq_none_iff,List.head?_eq_none_iff]

/-- What is popped was there, and the rest is what is left without its key. -/
theorem popFirst_eq_some {d' : Dict κ ν} (h : d.popFirst = some ((k,v),d')) :
    d.get? k = some v ∧ d' = d.erase k := by
  obtain ⟨e,he,h⟩ := Option.map_eq_some_iff.mp h
  cases h
  obtain ⟨rest,hd⟩ := List.head?_eq_some_iff.mp he
  exact ⟨by simp [get?,hd],rfl⟩

theorem length_erase_lt (h : k ∈ d) : (d.erase k).entries.length < d.entries.length := by
  have hkeys : (d.erase k).keys.length = (d.keys.erase k).length := by rw [keys_erase]
  rw [List.length_erase_of_mem h,keys,keys,List.length_map,List.length_map] at hkeys
  have hpos : 0 < d.entries.length := by simpa [keys] using List.length_pos_of_mem h
  omega

/-! Lists of objects that are told apart by a key. -/
section Keyed
variable {α : Type} {key : α → κ} {l : List α} {a b : α}

/-- Filtering a key out takes away exactly its object. -/
theorem cons_filter_perm (hkeys : (l.map key).Nodup) (ha : a ∈ l) :
    (a :: l.filter fun x => key x ≠ key a).Perm l := by
  induction l with
  | nil => simp at ha
  | cons b l ih =>
    obtain ⟨hb,hkeys⟩ := List.nodup_cons.mp hkeys
    rw [List.filter_cons]
    rcases List.mem_cons.mp ha with rfl | ha
    · have hrest : l.filter (fun x => key x ≠ key a) = l := by
        refine List.filter_eq_self.mpr fun x hx => ?_
        have hne : key x ≠ key a := fun heq => hb (List.mem_map.mpr ⟨x,hx,heq⟩)
        simpa using hne
      rw [if_neg (by simp),hrest]
    · have hne : key b ≠ key a := fun heq => hb (List.mem_map.mpr ⟨a,ha,heq.symm⟩)
      rw [if_pos (by simpa using hne)]
      exact (List.Perm.swap b a _).trans ((ih hkeys ha).cons b)

/-- What stands among the first `n` stands there still when others go. -/
theorem mem_take_filter {q : α → Bool} {n : Nat} (ha : a ∈ l.take n) (hq : q a) :
    a ∈ (l.filter q).take n := by
  have hprefix : (l.take n).filter q <+: l.filter q := (List.take_prefix n l).filter q
  have hmem : a ∈ (l.take n).filter q := List.mem_filter.mpr ⟨ha,hq⟩
  have hlen : ((l.take n).filter q).length ≤ n := by
    have := List.length_filter_le q (l.take n)
    have := List.length_take_le n l
    omega
  rw [List.prefix_iff_eq_take.mp hprefix] at hmem
  exact (List.take_sublist_take_left hlen).subset hmem

/-- It moves up by one place if one of the others was among the first `n`. -/
theorem mem_take_filter_pred {n : Nat} (hb : b ∈ l.take n) (ha : a ∈ l.take n)
    (hne : key a ≠ key b) : a ∈ (l.filter fun x => key x ≠ key b).take (n-1) := by
  have hprefix : (l.take n).filter (fun x => key x ≠ key b) <+: l.filter fun x => key x ≠ key b :=
    (List.take_prefix n l).filter _
  have hmem : a ∈ (l.take n).filter fun x => key x ≠ key b :=
    List.mem_filter.mpr ⟨ha,by simpa using hne⟩
  have hlt : ((l.take n).filter fun x => key x ≠ key b).length < (l.take n).length := by
    refine List.length_filter_lt_length_iff_exists.mpr ⟨b,hb,by simp⟩
  have hlen : ((l.take n).filter fun x => key x ≠ key b).length ≤ n-1 := by
    have := List.length_take_le n l
    omega
  rw [List.prefix_iff_eq_take.mp hprefix] at hmem
  exact (List.take_sublist_take_left hlen).subset hmem

end Keyed
end Dict
