import Mathlib.Data.List.Chain
import Mathlib.Logic.Function.Basic

/-! Doubly linked lists that keep their links in the nodes: which list the links stand for, and
how nodes are taken out and put in. -/
set_option autoImplicit false

structure Links (A : Type) where
  prev : A → Option A
  next : A → Option A

namespace Links
variable {A : Type}

/-- Each node of the list has a link to the one behind it, and that one has one back. -/
def Holds (k : Links A) (l : List A) : Prop :=
  l.IsChain fun a b => k.next a = some b ∧ k.prev b = some a

variable {k k' : Links A} {l xs ys : List A} {a b p s : A}

/-- A list is left alone by what happens to other links. -/
theorem Holds.congr (h : k.Holds l) (hnext : ∀ a ∈ l.dropLast, k'.next a = k.next a)
    (hprev : ∀ b ∈ l.tail, k'.prev b = k.prev b) : k'.Holds l := by
  induction l with
  | nil => exact .nil
  | cons a l ih =>
    cases l with
    | nil => exact .singleton _
    | cons b l =>
      obtain ⟨hab,hl⟩ := List.isChain_cons_cons.mp h
      have hrest : k'.Holds (b :: l) := ih hl
        (fun c hc => hnext c (by rw [List.dropLast_cons_cons]; exact List.mem_cons_of_mem _ hc))
        fun c hc => hprev c (List.mem_cons_of_mem _ hc)
      refine List.isChain_cons_cons.mpr ⟨?_,hrest⟩
      rw [hnext a (by simp),hprev b (by simp)]
      exact hab

theorem holds_split : k.Holds (xs ++ p :: s :: ys) ↔
    k.Holds (xs ++ [p]) ∧ (k.next p = some s ∧ k.prev s = some p) ∧ k.Holds (s :: ys) :=
  List.isChain_append_cons_cons

theorem holds_three : k.Holds (xs ++ p :: b :: s :: ys) ↔
    k.Holds (xs ++ [p]) ∧ (k.next p = some b ∧ k.prev b = some p) ∧
      (k.next b = some s ∧ k.prev s = some b) ∧ k.Holds (s :: ys) := by
  rw [holds_split]
  exact and_congr_right fun _ => and_congr_right fun _ => List.isChain_cons_cons

/-- What is before and behind in a list without repetition. -/
structure Apart (xs : List A) (p b s : A) (ys : List A) : Prop where
  before : p ∉ xs ∧ b ∉ xs ∧ s ∉ xs
  behind : p ∉ ys ∧ b ∉ ys ∧ s ∉ ys
  three : p ≠ b ∧ p ≠ s ∧ b ≠ s

theorem Apart.of_nodup (h : (xs ++ p :: b :: s :: ys).Nodup) : Apart xs p b s ys := by
  simp only [List.nodup_append,List.nodup_cons,List.mem_cons,not_or] at h
  obtain ⟨-,⟨⟨hpb,hps,hp⟩,⟨hbs,hb⟩,hs,-⟩,hxs⟩ := h
  exact ⟨⟨fun h => hxs p h p (.inl rfl) rfl,fun h => hxs b h b (.inr (.inl rfl)) rfl,
    fun h => hxs s h s (.inr (.inr (.inl rfl))) rfl⟩,⟨hp,hb,hs⟩,hpb,hps,hbs⟩

section Updates
variable [DecidableEq A]

def setPrev (k : Links A) (a : A) (v : Option A) : Links A :=
  { k with prev := Function.update k.prev a v }

def setNext (k : Links A) (a : A) (v : Option A) : Links A :=
  { k with next := Function.update k.next a v }

/-- The node is in no list. -/
def clear (k : Links A) (a : A) : Links A := (k.setPrev a none).setNext a none

/-- Takes `b` out, which stands between `p` and `s`. -/
def unlink (k : Links A) (p b s : A) : Links A :=
  ((k.setNext p (some s)).setPrev s (some p)).clear b

/-- Puts `b` between `p` and `s`. -/
def link (k : Links A) (p b s : A) : Links A :=
  (((k.setNext p (some b)).setPrev b (some p)).setNext b (some s)).setPrev s (some b)

variable {v : Option A}

@[simp] theorem setNext_next : (k.setNext a v).next b = if b = a then v else k.next b :=
  Function.update_apply ..

@[simp] theorem setNext_prev : (k.setNext a v).prev = k.prev := rfl

@[simp] theorem setPrev_prev : (k.setPrev a v).prev b = if b = a then v else k.prev b :=
  Function.update_apply ..

@[simp] theorem setPrev_next : (k.setPrev a v).next = k.next := rfl

@[simp] theorem clear_next : (k.clear a).next b = if b = a then none else k.next b := setNext_next

@[simp] theorem clear_prev : (k.clear a).prev b = if b = a then none else k.prev b := setPrev_prev

@[simp] theorem unlink_next : (k.unlink p b s).next a =
    if a = b then none else if a = p then some s else k.next a := by
  simp only [unlink,clear_next,setPrev_next,setNext_next]

@[simp] theorem unlink_prev : (k.unlink p b s).prev a =
    if a = b then none else if a = s then some p else k.prev a := by
  simp only [unlink,clear_prev,setPrev_prev,setNext_prev]

@[simp] theorem link_next : (k.link p b s).next a =
    if a = b then some s else if a = p then some b else k.next a := by
  simp only [link,setPrev_next,setNext_next]

@[simp] theorem link_prev : (k.link p b s).prev a =
    if a = s then some b else if a = b then some p else k.prev a := by
  simp only [link,setPrev_prev,setNext_prev]

theorem Holds.unlink (h : k.Holds (xs ++ p :: b :: s :: ys)) (hapart : Apart xs p b s ys) :
    (k.unlink p b s).Holds (xs ++ p :: s :: ys) := by
  obtain ⟨⟨hpx,hbx,hsx⟩,⟨hpy,hby,hsy⟩,hpb,hps,hbs⟩ := hapart
  obtain ⟨hxs,-,-,hys⟩ := holds_three.mp h
  refine holds_split.mpr ⟨hxs.congr (fun a ha => ?_) fun a ha => ?_,?_,
    hys.congr (fun a ha => ?_) fun a ha => ?_⟩
  · rw [List.dropLast_concat] at ha
    rw [unlink_next,if_neg (ne_of_mem_of_not_mem ha hbx),if_neg (ne_of_mem_of_not_mem ha hpx)]
  · have ha : a ∈ xs ++ [p] := List.mem_of_mem_tail ha
    rw [List.mem_append,List.mem_singleton] at ha
    rw [unlink_prev,if_neg,if_neg]
    · rintro rfl
      exact ha.elim hsx (Ne.symm hps)
    · rintro rfl
      exact ha.elim hbx (Ne.symm hpb)
  · simp [hpb,hbs.symm]
  · have ha : a ∈ s :: ys := List.dropLast_subset _ ha
    rw [List.mem_cons] at ha
    rw [unlink_next,if_neg,if_neg]
    · rintro rfl
      exact ha.elim hps hpy
    · rintro rfl
      exact ha.elim hbs hby
  · have ha : a ∈ ys := ha
    rw [unlink_prev,if_neg (ne_of_mem_of_not_mem ha hby),if_neg (ne_of_mem_of_not_mem ha hsy)]

theorem Holds.link (h : k.Holds (xs ++ p :: s :: ys)) (hapart : Apart xs p b s ys) :
    (k.link p b s).Holds (xs ++ p :: b :: s :: ys) := by
  obtain ⟨⟨hpx,hbx,hsx⟩,⟨hpy,hby,hsy⟩,hpb,hps,hbs⟩ := hapart
  obtain ⟨hxs,-,hys⟩ := holds_split.mp h
  refine holds_three.mpr ⟨hxs.congr (fun a ha => ?_) fun a ha => ?_,by simp [hpb,hbs],
    by simp,hys.congr (fun a ha => ?_) fun a ha => ?_⟩
  · rw [List.dropLast_concat] at ha
    rw [link_next,if_neg (ne_of_mem_of_not_mem ha hbx),if_neg (ne_of_mem_of_not_mem ha hpx)]
  · have ha : a ∈ xs ++ [p] := List.mem_of_mem_tail ha
    rw [List.mem_append,List.mem_singleton] at ha
    rw [link_prev,if_neg,if_neg]
    · rintro rfl
      exact ha.elim hbx (Ne.symm hpb)
    · rintro rfl
      exact ha.elim hsx (Ne.symm hps)
  · have ha : a ∈ s :: ys := List.dropLast_subset _ ha
    rw [List.mem_cons] at ha
    rw [link_next,if_neg,if_neg]
    · rintro rfl
      exact ha.elim hps hpy
    · rintro rfl
      exact ha.elim hbs hby
  · have ha : a ∈ ys := ha
    rw [link_prev,if_neg (ne_of_mem_of_not_mem ha hsy),if_neg (ne_of_mem_of_not_mem ha hby)]

/-- The nodes around one of the list. -/
theorem exists_around (front back : A) (hl : b ∈ l) : ∃ xs p s ys,
    front :: l ++ [back] = xs ++ p :: b :: s :: ys ∧
      front :: l.erase b ++ [back] = xs ++ p :: s :: ys := by
  obtain ⟨l₁,l₂,hb,rfl,herase⟩ := List.exists_erase_eq hl
  obtain ⟨xs,p,hfront⟩ := (List.eq_nil_or_concat' (front :: l₁)).resolve_left (List.cons_ne_nil _ _)
  obtain ⟨s,ys,hback⟩ := List.exists_cons_of_ne_nil
    (List.append_ne_nil_of_right_ne_nil l₂ (List.cons_ne_nil back []))
  refine ⟨xs,p,s,ys,?_,?_⟩
  · calc front :: (l₁ ++ b :: l₂) ++ [back] = (front :: l₁) ++ b :: (l₂ ++ [back]) := by simp
      _ = _ := by rw [hfront,hback]; simp
  · rw [herase]
    calc front :: (l₁ ++ l₂) ++ [back] = (front :: l₁) ++ (l₂ ++ [back]) := by simp
      _ = _ := by rw [hfront,hback]; simp

end Updates
end Links
