import Mathlib.Data.List.Basic
import Mathlib.Data.List.Induction

/-! Chains of hashes: the hash of a piece is taken of the piece and of the hash before it, so that
it stands for all pieces up to this one. -/
set_option autoImplicit false

namespace HashChain
variable {H X : Type}

/-- The hashes of the pieces, one after the other. -/
def chain (hash : H → X → H) : H → List X → List H
  | _, [] => []
  | parent, x :: xs => hash parent x :: chain hash (hash parent x) xs

/-- What is hashed on the way. -/
def links (hash : H → X → H) : H → List X → List (H × X)
  | _, [] => []
  | parent, x :: xs => (parent,x) :: links hash (hash parent x) xs

variable {hash : H → X → H} {root : H} {xs ys : List X} {L : List (H × X)}

@[simp] theorem length_chain (root : H) (xs : List X) : (chain hash root xs).length = xs.length := by
  induction xs generalizing root with
  | nil => rfl
  | cons x xs ih => rw [chain,List.length_cons,ih,List.length_cons]

theorem chain_append (root : H) (xs ys : List X) :
    chain hash root (xs ++ ys) = chain hash root xs ++ chain hash (xs.foldl hash root) ys := by
  induction xs generalizing root with
  | nil => rfl
  | cons x xs ih => rw [List.cons_append,chain,ih,chain,List.cons_append,List.foldl_cons]

theorem links_append (root : H) (xs ys : List X) :
    links hash root (xs ++ ys) = links hash root xs ++ links hash (xs.foldl hash root) ys := by
  induction xs generalizing root with
  | nil => rfl
  | cons x xs ih => rw [List.cons_append,links,ih,links,List.cons_append,List.foldl_cons]

/-- The last hash is that of all pieces. -/
theorem getLast?_chain (hxs : xs ≠ []) :
    (chain hash root xs).getLast? = some (xs.foldl hash root) := by
  obtain ⟨init,x,rfl⟩ := (List.eq_nil_or_concat' xs).resolve_left hxs
  simp [chain_append,chain]

theorem getElem?_chain {i : Nat} (hi : i < xs.length) :
    (chain hash root xs)[i]? = some ((xs.take (i+1)).foldl hash root) := by
  conv_lhs => rw [← List.take_append_drop (i+1) xs,chain_append]
  have hlen : (chain hash root (xs.take (i+1))).length = i+1 := by
    rw [length_chain,List.length_take]
    omega
  have hne : xs.take (i+1) ≠ [] := List.ne_nil_of_length_pos (by rw [List.length_take]; omega)
  rw [List.getElem?_append_left (by omega),← getLast?_chain hne,List.getLast?_eq_getElem?,hlen,
    Nat.add_sub_cancel]

/-- The hash function tells the pairs in the list apart, and none of them hashes to the root. -/
structure Separates (hash : H → X → H) (root : H) (L : List (H × X)) : Prop where
  inj : ∀ a ∈ L, ∀ b ∈ L, hash a.1 a.2 = hash b.1 b.2 → a = b
  root : ∀ a ∈ L, hash a.1 a.2 ≠ root

/-- Chains with the same last hash are chains of the same pieces. -/
theorem Separates.foldl_inj (h : Separates hash root L) (hx : links hash root xs ⊆ L)
    (hy : links hash root ys ⊆ L) (heq : xs.foldl hash root = ys.foldl hash root) : xs = ys := by
  induction xs using List.reverseRecOn generalizing ys with
  | nil =>
    obtain rfl | ⟨ys,y,rfl⟩ := List.eq_nil_or_concat' ys
    · rfl
    · rw [links_append,List.append_subset] at hy
      rw [List.foldl_append] at heq
      exact absurd heq.symm (h.root (ys.foldl hash root,y) (hy.2 List.mem_cons_self))
  | append_singleton xs x ih =>
    rw [links_append,List.append_subset] at hx
    obtain rfl | ⟨ys,y,rfl⟩ := List.eq_nil_or_concat' ys
    · rw [List.foldl_append] at heq
      exact absurd heq (h.root (xs.foldl hash root,x) (hx.2 List.mem_cons_self))
    · rw [links_append,List.append_subset] at hy
      rw [List.foldl_append,List.foldl_append] at heq
      have hpair := h.inj (xs.foldl hash root,x) (hx.2 List.mem_cons_self)
        (ys.foldl hash root,y) (hy.2 List.mem_cons_self) heq
      rw [Prod.mk.injEq] at hpair
      rw [ih hx.1 hy.1 hpair.1,hpair.2]

theorem links_take_subset (root : H) (xs : List X) (i : Nat) :
    links hash root (xs.take i) ⊆ links hash root xs := by
  conv_rhs => rw [← List.take_append_drop i xs,links_append]
  exact List.subset_append_left _ _

/-- Two hashes of two chains are equal if and only if they have the same place and all pieces up to
there are the same. -/
theorem Separates.getElem?_eq_iff {i j : Nat}
    (h : Separates hash root (links hash root xs ++ links hash root ys)) (hi : i < xs.length)
    (hj : j < ys.length) : (chain hash root xs)[i]? = (chain hash root ys)[j]? ↔
      i = j ∧ xs.take (i+1) = ys.take (i+1) := by
  rw [getElem?_chain hi,getElem?_chain hj,Option.some.injEq]
  constructor
  · intro heq
    have hpieces := h.foldl_inj
      (List.Subset.trans (links_take_subset _ _ _) (List.subset_append_left _ _))
      (List.Subset.trans (links_take_subset _ _ _) (List.subset_append_right _ _)) heq
    have hlen := congrArg List.length hpieces
    rw [List.length_take,List.length_take] at hlen
    have hij : i = j := by omega
    exact ⟨hij,hij ▸ hpieces⟩
  · rintro ⟨rfl,hpieces⟩
    rw [hpieces]

/-- Chains with the same hashes are chains of the same pieces. -/
theorem Separates.chain_inj (h : Separates hash root (links hash root xs ++ links hash root ys)) :
    chain hash root xs = chain hash root ys ↔ xs = ys := by
  refine ⟨fun heq => ?_,congrArg _⟩
  have hlen := congrArg List.length heq
  rw [length_chain,length_chain] at hlen
  cases xs with
  | nil => exact (List.eq_nil_of_length_eq_zero hlen.symm).symm
  | cons x xs =>
    have hys : ys ≠ [] := List.ne_nil_of_length_pos (hlen ▸ Nat.succ_pos _)
    refine h.foldl_inj (List.subset_append_left _ _) (List.subset_append_right _ _) ?_
    rw [← Option.some.injEq,← getLast?_chain (List.cons_ne_nil x xs),← getLast?_chain hys,heq]

end HashChain
