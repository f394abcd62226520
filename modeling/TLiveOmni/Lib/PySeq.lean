import Mathlib.Data.List.Basic
import Mathlib.Data.List.Forall2
import Mathlib.Data.List.Infix
import Mathlib.Data.List.TakeWhile
import Mathlib.Order.Basic

/-! Python list operations over an arbitrary element type, and the facts about
concatenation that scanning loops need. -/
set_option autoImplicit false

namespace PySeq

inductive PyExc where
  | valueError | indexError | typeError | runtimeError | unboundLocalError
  | zeroDivisionError | stopIteration | assertionError | attributeError
  deriving DecidableEq, Repr

/-- `raised` carries a text written in the modelled source, `builtin` stands for
an exception of the interpreter or of a library. -/
inductive PyErr where
  | raised (exc : PyExc) (msg : String)
  | builtin (exc : PyExc)
  deriving DecidableEq, Repr

abbrev Py (α : Type) := Except PyErr α

section Monad
variable {α β : Type}

@[simp] theorem ok_bind (a : α) (f : α → Py β) : ((Except.ok a : Py α) >>= f) = f a := rfl

@[simp] theorem error_bind (e : PyErr) (f : α → Py β) :
    ((Except.error e : Py α) >>= f) = Except.error e := rfl

@[simp] theorem pure_eq_ok (a : α) : (pure a : Py α) = Except.ok a := rfl

@[simp] theorem throw_eq_error (e : PyErr) : (throw e : Py α) = Except.error e := rfl

/-- `if p: raise e`. -/
def raiseIf (p : Prop) [Decidable p] (e : PyErr) : Py Unit := if p then .error e else .ok ()

theorem raiseIf_of_not {p : Prop} [Decidable p] (h : ¬ p) (e : PyErr) :
    raiseIf p e = .ok () := if_neg h

theorem raiseIf_eq_ok {p : Prop} [Decidable p] {e : PyErr} {a : Unit} :
    raiseIf p e = .ok a ↔ ¬ p := by
  by_cases h : p <;> simp [raiseIf,h]

theorem bind_eq_ok {x : Py α} {f : α → Py β} {b : β} :
    (x >>= f) = Except.ok b ↔ ∃ a, x = Except.ok a ∧ f a = Except.ok b := by
  cases x with
  | error e => simp
  | ok a => simp

theorem forM_raiseIf {p : α → Prop} [DecidablePred p] {e : α → PyErr} {l : List α} {u : Unit} :
    (l.forM fun a => raiseIf (p a) (e a)) = .ok u ↔ ∀ a ∈ l, ¬ p a := by
  induction l with
  | nil => simp [List.forM,pure,Except.pure]
  | cons a l ih =>
    have hcons : (a :: l).forM (fun a => raiseIf (p a) (e a)) =
        raiseIf (p a) (e a) >>= fun _ => l.forM fun a => raiseIf (p a) (e a) := rfl
    rw [hcons,bind_eq_ok,List.forall_mem_cons,← ih]
    simp [raiseIf_eq_ok]

theorem foldlM_raiseIf {p : α → Prop} [DecidablePred p] {e : α → PyErr} {f : β → α → β}
    {l : List α} {b out : β} :
    (l.foldlM (fun b a => raiseIf (p a) (e a) >>= fun _ => (.ok (f b a) : Py β)) b) = .ok out ↔
      (∀ a ∈ l, ¬ p a) ∧ l.foldl f b = out := by
  induction l generalizing b with
  | nil => simp
  | cons a l ih =>
    rw [List.foldlM_cons,bind_eq_ok,List.forall_mem_cons,List.foldl_cons,and_assoc,← ih]
    simp [bind_eq_ok,raiseIf_eq_ok]

theorem mapM_eq_ok {f : α → Py β} {g : α → β} {l : List α} (h : ∀ a ∈ l, f a = .ok (g a)) :
    l.mapM f = .ok (l.map g) := by
  induction l with
  | nil => rfl
  | cons a l ih =>
    rw [List.mapM_cons,h a (by simp),ih fun b hb => h b (by simp [hb])]
    rfl

theorem mapM_forall₂ {f : α → Py β} {l : List α} {r : List β} (h : l.mapM f = .ok r) :
    List.Forall₂ (fun a b => f a = .ok b) l r := by
  induction l generalizing r with
  | nil =>
    obtain rfl : [] = r := by simpa using h
    exact .nil
  | cons a l ih =>
    rw [List.mapM_cons] at h
    obtain ⟨b,hb,h⟩ := bind_eq_ok.mp h
    obtain ⟨bs,hbs,h⟩ := bind_eq_ok.mp h
    obtain rfl : b :: bs = r := by simpa using h
    exact .cons hb (ih hbs)

theorem mapM_eq_map {f : α → Py β} {g : α → β} {l : List α} {r : List β} (h : l.mapM f = .ok r)
    (hg : ∀ a ∈ l, ∀ b, f a = .ok b → b = g a) : r = l.map g := by
  have hall := mapM_forall₂ h
  induction hall with
  | nil => rfl
  | cons hab _ ih =>
    rw [List.mapM_cons] at h
    obtain ⟨_,-,h⟩ := bind_eq_ok.mp h
    obtain ⟨_,hrest,h⟩ := bind_eq_ok.mp h
    cases h
    rw [List.map_cons,hg _ (by simp) _ hab,ih hrest fun a ha => hg a (by simp [ha])]

theorem mapM_range {f : Nat → Py β} {n : Nat} {r : List β} (h : (List.range n).mapM f = .ok r) :
    r.length = n ∧ ∀ i b, r[i]? = some b → f i = .ok b := by
  have hall := mapM_forall₂ h
  have hlen : n = r.length := by simpa using hall.length_eq
  refine ⟨hlen.symm,fun i b hb => ?_⟩
  obtain ⟨hi,rfl⟩ := List.getElem?_eq_some_iff.mp hb
  have := hall.get (by simpa [hlen] using hi) hi
  simpa using this

theorem mapM_range_eq {f : Nat → Py β} {n : Nat} {r : List β} (hlen : r.length = n)
    (h : ∀ i b, r[i]? = some b → f i = .ok b) : (List.range n).mapM f = .ok r := by
  cases r with
  | nil =>
    obtain rfl : 0 = n := hlen
    rfl
  | cons b l =>
    have hall : ∀ i ∈ List.range n, f i = .ok ((b :: l).getD i b) := by
      intro i hi
      have hlt : i < (b :: l).length := by
        rw [hlen]
        exact List.mem_range.mp hi
      refine h i _ ?_
      rw [List.getD_eq_getElem?_getD,List.getElem?_eq_getElem hlt]
      rfl
    rw [mapM_eq_ok hall]
    congr 1
    refine List.ext_getElem (by simp [hlen]) fun i hi hi' => ?_
    rw [List.getElem_map,List.getElem_range,List.getD_eq_getElem?_getD,List.getElem?_eq_getElem hi']
    rfl

theorem exists_map_eq {f : α → β} {P : α → Prop} {l : List β}
    (h : ∀ b ∈ l, ∃ a, f a = b ∧ P a) : ∃ l' : List α, l'.map f = l ∧ ∀ a ∈ l', P a := by
  induction l with
  | nil => exact ⟨[],rfl,by simp⟩
  | cons b l ih =>
    obtain ⟨a,rfl,ha⟩ := h b (by simp)
    obtain ⟨l',rfl,hl⟩ := ih fun c hc => h c (by simp [hc])
    exact ⟨a :: l',rfl,by simpa using ⟨ha,hl⟩⟩

theorem map_eq_map_iff {γ : Type} {l : List α} {l' : List β} {f : α → γ} {g : β → γ}
    (hlen : l.length = l'.length) :
    l.map f = l'.map g ↔ ∀ (i : Nat) a b, l[i]? = some a → l'[i]? = some b → f a = g b := by
  constructor
  · intro h i a b ha hb
    have hi : (l.map f)[i]? = (l'.map g)[i]? := by rw [h]
    simpa [ha,hb] using hi
  · intro h
    refine List.ext_getElem (by simpa using hlen) fun i hi hi' => ?_
    rw [List.getElem_map,List.getElem_map]
    exact h i _ _ (List.getElem?_eq_getElem _) (List.getElem?_eq_getElem _)

end Monad

section Iterate
variable {σ : Type}

/-- `for _ in range(n): state = step(state)`. -/
def iterate (step : σ → Py σ) : Nat → σ → Py σ
  | 0, s => .ok s
  | n+1, s => do iterate step n (← step s)

@[simp] theorem iterate_zero (step : σ → Py σ) (s : σ) : iterate step 0 s = .ok s := rfl

theorem iterate_succ_of_ok {step : σ → Py σ} {n : Nat} {s s' : σ} (h : step s = .ok s') :
    iterate step (n+1) s = iterate step n s' := by
  simp [iterate,h]

/-- What one step preserves, a whole run preserves. -/

theorem iterate_add (step : σ → Py σ) (a b : Nat) (s : σ) :
    iterate step (a+b) s = iterate step a s >>= iterate step b := by
  induction a generalizing s with
  | zero => rw [Nat.zero_add,iterate_zero,ok_bind]
  | succ a ih =>
    rw [Nat.add_right_comm,iterate,iterate]
    cases step s with
    | error e => rfl
    | ok s' => exact ih s'

end Iterate

section Index
variable {α : Type} [DecidableEq α]

/-- `l.index(x, st)`, with `none` for the `ValueError`. -/
def indexFrom (x : α) (st : Nat) (l : List α) : Option Nat :=
  ((l.drop st).findIdx? (fun y => decide (y = x))).map (st + ·)

/-- `l.index(x, st)`. -/
def index (x : α) (st : Nat) (l : List α) : Py Nat :=
  match indexFrom x st l with
  | some i => .ok i
  | none => .error (.builtin .valueError)

/-- `l[i]` for a non-negative index. -/
def getItem {β : Type} (l : List β) (i : Nat) : Py β :=
  match l[i]? with
  | some x => .ok x
  | none => .error (.builtin .indexError)

theorem getItem_eq_ok {β : Type} {l : List β} {i : Nat} {x : β} :
    getItem l i = .ok x ↔ l[i]? = some x := by
  cases h : l[i]? <;> simp [getItem,h]

/-- `[idx for idx, token in enumerate(l) if token == x]`. -/
def indicesOf (x : α) : List α → List Nat
  | [] => []
  | y :: l => (if y = x then [0] else []) ++ (indicesOf x l).map (· + 1)

theorem findIdx?_append_of_notMem (x : α) {a : List α} (b : List α) (h : x ∉ a) :
    (a ++ b).findIdx? (fun y => decide (y = x)) =
      (b.findIdx? (fun y => decide (y = x))).map (a.length + ·) := by
  induction a with
  | nil => simp
  | cons y a ih =>
    have hy : y ≠ x := fun e => h (by simp [e])
    have ha : x ∉ a := fun e => h (by simp [e])
    simp only [List.cons_append,List.findIdx?_cons,hy,decide_false,ih ha]
    cases b.findIdx? (fun y => decide (y = x)) with
    | none => simp
    | some i => simp; omega

theorem indexFrom_skip (x : α) (pre : List α) {a : List α} (b : List α) (h : x ∉ a) :
    indexFrom x pre.length (pre ++ (a ++ x :: b)) = some (pre.length + a.length) := by
  simp [indexFrom,findIdx?_append_of_notMem x (x :: b) h,List.findIdx?_cons]

theorem indexFrom_append (x : α) (pre : List α) {a : List α} (b : List α) (h : x ∉ a) :
    indexFrom x pre.length (pre ++ (a ++ b)) =
      indexFrom x (pre ++ a).length ((pre ++ a) ++ b) := by
  simp only [indexFrom,List.drop_left,findIdx?_append_of_notMem x b h]
  cases b.findIdx? (fun y => decide (y = x)) with
  | none => rfl
  | some i => simp; omega

theorem indexFrom_of_mem {x : α} {st : Nat} {l : List α} (h : x ∈ l.drop st) :
    ∃ i, indexFrom x st l = some i ∧ st ≤ i ∧ i < l.length := by
  have hs : ((l.drop st).findIdx? (fun y => decide (y = x))).isSome := by
    simpa using h
  obtain ⟨i,hi⟩ := Option.isSome_iff_exists.mp hs
  refine ⟨st+i,by simp [indexFrom,hi],by omega,?_⟩
  have hlt := (List.findIdx?_eq_some_iff_getElem.mp hi).1
  simp only [List.length_drop] at hlt
  omega

theorem indexFrom_lower {x : α} {st i : Nat} {l : List α} (h : indexFrom x st l = some i) :
    st ≤ i := by
  obtain ⟨j,-,rfl⟩ := Option.map_eq_some_iff.mp h
  omega

theorem mem_indicesOf {x : α} {l : List α} {i : Nat} : i ∈ indicesOf x l ↔ l[i]? = some x := by
  induction l generalizing i with
  | nil => simp [indicesOf]
  | cons y l ih =>
    cases i with
    | zero => by_cases hy : y = x <;> simp [indicesOf,hy]
    | succ i => by_cases hy : y = x <;> simp [indicesOf,hy,ih]

theorem indicesOf_append (x : α) (a b : List α) :
    indicesOf x (a ++ b) = indicesOf x a ++ (indicesOf x b).map (a.length + ·) := by
  induction a with
  | nil => simp [indicesOf]
  | cons y a ih =>
    simp only [List.cons_append,indicesOf,ih,List.map_append,List.map_map,List.append_assoc,
      List.length_cons]
    congr 2
    apply List.map_congr_left
    intro i _
    simp only [Function.comp]
    omega

theorem indicesOf_eq_nil {x : α} {l : List α} (h : x ∉ l) : indicesOf x l = [] := by
  induction l with
  | nil => rfl
  | cons y l ih =>
    have hy : y ≠ x := fun e => h (by simp [e])
    simp [indicesOf,hy,ih (fun e => h (by simp [e]))]

theorem indicesOf_lt {x : α} {l : List α} {i : Nat} (h : i ∈ indicesOf x l) : i < l.length := by
  have := mem_indicesOf.mp h
  exact (List.getElem?_eq_some_iff.mp this).1

theorem filter_indicesOf (x : α) (l : List α) {cut : Nat} (hcut : cut < l.length) :
    (indicesOf x l).filter (fun i => decide (cut < i)) =
      (indicesOf x (l.drop (cut+1))).map (cut+1 + ·) := by
  have hlen : (l.take (cut+1)).length = cut+1 := by simp; omega
  conv_lhs => rw [← List.take_append_drop (cut+1) l,indicesOf_append,hlen]
  rw [List.filter_append,List.filter_eq_nil_iff.mpr,List.filter_eq_self.mpr,List.nil_append]
  · intro i hi
    obtain ⟨k,-,rfl⟩ := List.mem_map.mp hi
    simp only [decide_eq_true_eq]
    omega
  · intro i hi
    have := indicesOf_lt hi
    simp only [decide_eq_true_eq]
    omega

theorem indicesOf_skip {x : α} {a : List α} (b : List α) (h : x ∉ a) :
    indicesOf x (a ++ x :: b) = a.length :: (indicesOf x b).map (a.length+1 + ·) := by
  simp only [indicesOf_append,indicesOf_eq_nil h,indicesOf,if_true,List.nil_append,
    List.cons_append,List.map_cons,List.map_map,Nat.add_zero,List.cons.injEq,true_and]
  apply List.map_congr_left
  intro i _
  simp only [Function.comp]
  omega

end Index
end PySeq
