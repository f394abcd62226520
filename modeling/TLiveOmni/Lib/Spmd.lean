import Mathlib.Algebra.Order.BigOperators.Group.Finset
import Mathlib.Data.Fintype.Lattice
import Mathlib.Data.List.Basic
import Mathlib.Logic.Function.Basic
import Mathlib.Logic.Relation
import Mathlib.Order.Lattice

/-! Ranks that run the same kind of program and meet at reductions. A call is local and takes
place at any time; a reduction takes place when every rank has arrived at it. -/
set_option autoImplicit false

namespace Spmd
variable {ι A B R : Type}

inductive Reduce where
  | min | max
  deriving DecidableEq, Repr

/-- The reduction of the ranks' values. -/
def Reduce.IsResult (op : Reduce) (values : ι → Nat) (r : Nat) : Prop :=
  (∃ i, values i = r) ∧ match op with
    | .min => ∀ i, r ≤ values i
    | .max => ∀ i, values i ≤ r

/-- The program of one rank. -/
inductive Prog (A B R : Type) where
  | done (out : R)
  | allReduce (op : Reduce) (value : Nat) (next : Nat → Prog A B R)
  | call (arg : A) (next : B → Prog A B R)

/-- What a rank has executed. -/
inductive Event where
  | allReduce (op : Reduce)
  | call
  deriving DecidableEq, Repr

/-- One call after the other. -/
def callAll : List A → (List B → Prog A B R) → Prog A B R
  | [], next => next []
  | a :: as, next => .call a fun b => callAll as fun bs => next (b :: bs)

/-- The programs that are left, and what each rank has executed. -/
structure State (ι A B R : Type) where
  prog : ι → Prog A B R
  history : ι → List Event

/-- Before the first step. -/
def State.start (prog : ι → Prog A B R) : State ι A B R := ⟨prog,fun _ => []⟩

inductive Step [DecidableEq ι] (f : A → B) : State ι A B R → State ι A B R → Prop where
  | call {s : State ι A B R} {i : ι} {arg : A} {next : B → Prog A B R} :
      s.prog i = .call arg next →
      Step f s ⟨Function.update s.prog i (next (f arg)),
        Function.update s.history i (s.history i ++ [.call])⟩
  | allReduce {s : State ι A B R} {op : Reduce} {values : ι → Nat}
      {next : ι → Nat → Prog A B R} {r : Nat} :
      (∀ i, s.prog i = .allReduce op (values i) (next i)) → op.IsResult values r →
      Step f s ⟨fun i => next i r,fun i => s.history i ++ [.allReduce op]⟩

theorem Reduce.IsResult.unique {op : Reduce} {values : ι → Nat} {r r' : Nat}
    (h : op.IsResult values r) (h' : op.IsResult values r') : r = r' := by
  obtain ⟨⟨i,rfl⟩,h⟩ := h
  obtain ⟨⟨j,rfl⟩,h'⟩ := h'
  cases op with
  | min => exact le_antisymm (h j) (h' i)
  | max => exact le_antisymm (h' i) (h j)

theorem Reduce.exists_isResult [Finite ι] [Nonempty ι] (op : Reduce) (values : ι → Nat) :
    ∃ r, op.IsResult values r := by
  cases op with
  | min =>
    obtain ⟨i,hi⟩ := Finite.exists_min values
    exact ⟨values i,⟨i,rfl⟩,hi⟩
  | max =>
    obtain ⟨i,hi⟩ := Finite.exists_max values
    exact ⟨values i,⟨i,rfl⟩,hi⟩

/-- A reduction all ranks take part in. -/
structure Meeting (ι : Type) where
  op : Reduce
  values : ι → Nat
  result : Nat
  isResult : op.IsResult values result

/-- The program of rank `i` takes part in the meetings, executes the events and returns. -/
inductive Follows (f : A → B) (i : ι) :
    Prog A B R → List (Meeting ι) → List Event → R → Prop where
  | done (out : R) : Follows f i (.done out) [] [] out
  | allReduce {next : Nat → Prog A B R} {m : Meeting ι} {meetings : List (Meeting ι)}
      {events : List Event} {out : R} : Follows f i (next m.result) meetings events out →
      Follows f i (.allReduce m.op (m.values i) next) (m :: meetings) (.allReduce m.op :: events) out
  | call {arg : A} {next : B → Prog A B R} {meetings : List (Meeting ι)} {events : List Event}
      {out : R} : Follows f i (next (f arg)) meetings events out →
      Follows f i (.call arg next) meetings (.call :: events) out

theorem Follows.of_allReduce {f : A → B} {i : ι} {op : Reduce} {v : Nat}
    {next : Nat → Prog A B R} {meetings : List (Meeting ι)} {rest : List Event} {out : R}
    (h : Follows f i (.allReduce op v next) meetings rest out) :
    ∃ m ms rest', meetings = m :: ms ∧ m.op = op ∧ m.values i = v ∧
      rest = .allReduce op :: rest' ∧ Follows f i (next m.result) ms rest' out := by
  cases h with
  | allReduce h => exact ⟨_,_,_,rfl,rfl,rfl,rfl,h⟩

theorem Follows.of_call {f : A → B} {i : ι} {arg : A} {next : B → Prog A B R}
    {meetings : List (Meeting ι)} {rest : List Event} {out : R}
    (h : Follows f i (.call arg next) meetings rest out) :
    ∃ rest', rest = .call :: rest' ∧ Follows f i (next (f arg)) meetings rest' out := by
  cases h with
  | call h => exact ⟨_,rfl,h⟩

theorem Follows.callAll {f : A → B} {i : ι} {next : List B → Prog A B R}
    {meetings : List (Meeting ι)} {events : List Event} {out : R} (args : List A)
    (h : Follows f i (next (args.map f)) meetings events out) :
    Follows f i (callAll args next) meetings (List.replicate args.length .call ++ events) out := by
  induction args generalizing next with
  | nil => exact h
  | cons a args ih => exact .call (ih h)

section Runs
variable [DecidableEq ι] {f : A → B} {outs : ι → R} {events : List Event} {s s' : State ι A B R}

/-- Every rank is on its way to the same events and to its own result. -/
def OnTrack (f : A → B) (events : List Event) (outs : ι → R) (s : State ι A B R) : Prop :=
  ∃ meetings : List (Meeting ι), ∀ i, ∃ rest, Follows f i (s.prog i) meetings rest (outs i) ∧
    s.history i ++ rest = events

theorem Step.onTrack [Nonempty ι] (h : Step f s s') (hs : OnTrack f events outs s) :
    OnTrack f events outs s' := by
  obtain ⟨meetings,hs⟩ := hs
  cases h with
  | @call i arg next hi =>
    refine ⟨meetings,fun j => ?_⟩
    obtain ⟨rest,hfollow,hevents⟩ := hs j
    by_cases hj : j = i
    · subst hj
      rw [hi] at hfollow
      obtain ⟨rest',rfl,hnext⟩ := hfollow.of_call
      exact ⟨rest',by simpa using hnext,by simpa using hevents⟩
    · exact ⟨rest,by simpa [hj] using hfollow,by simpa [hj] using hevents⟩
  | @allReduce op values next r hall hr =>
    -- the meeting on the agenda is this one, so its result is the one that was sent
    obtain ⟨i₀⟩ := ‹Nonempty ι›
    obtain ⟨rest₀,hfollow₀,-⟩ := hs i₀
    rw [hall i₀] at hfollow₀
    obtain ⟨m,ms,-,rfl,rfl,-,-,-⟩ := hfollow₀.of_allReduce
    have hnext : ∀ i, m.values i = values i ∧ ∃ rest', Follows f i (next i m.result) ms rest' (outs i) ∧
        s.history i ++ .allReduce m.op :: rest' = events := by
      intro i
      obtain ⟨rest,hfollow,hevents⟩ := hs i
      rw [hall i] at hfollow
      obtain ⟨_,_,rest',hms,-,hv,rfl,hnext⟩ := hfollow.of_allReduce
      obtain ⟨rfl,rfl⟩ := List.cons.inj hms
      exact ⟨hv,rest',hnext,hevents⟩
    have hvalues : m.values = values := funext fun i => (hnext i).1
    have hr' : m.result = r := m.isResult.unique (hvalues ▸ hr)
    refine ⟨ms,fun i => ?_⟩
    obtain ⟨-,rest',hfollow,hevents⟩ := hnext i
    exact ⟨rest',hr' ▸ hfollow,by simpa using hevents⟩

theorem onTrack_of_reaches [Nonempty ι] (h : Relation.ReflTransGen (Step f) s s')
    (hs : OnTrack f events outs s) : OnTrack f events outs s' := by
  induction h with
  | refl => exact hs
  | tail _ hstep ih => exact hstep.onTrack ih

theorem OnTrack.progress (hs : OnTrack f events outs s) :
    (∀ i, s.prog i = .done (outs i) ∧ s.history i = events) ∨ ∃ s', Step f s s' := by
  obtain ⟨meetings,hs⟩ := hs
  by_cases hcall : ∃ i arg next, s.prog i = .call arg next
  · obtain ⟨i,arg,next,hi⟩ := hcall
    exact .inr ⟨_,.call hi⟩
  · cases meetings with
    | nil =>
      left
      intro i
      obtain ⟨rest,hfollow,hevents⟩ := hs i
      cases hp : s.prog i with
      | done out =>
        rw [hp] at hfollow
        cases hfollow
        exact ⟨rfl,by simpa using hevents⟩
      | allReduce op v next =>
        rw [hp] at hfollow
        obtain ⟨m,ms,-,hnil,-⟩ := hfollow.of_allReduce
        cases hnil
      | call arg next => exact absurd ⟨i,arg,next,hp⟩ hcall
    | cons m ms =>
      right
      have hall : ∀ i, ∃ next, s.prog i = .allReduce m.op (m.values i) next := by
        intro i
        obtain ⟨rest,hfollow,-⟩ := hs i
        cases hp : s.prog i with
        | done out =>
          rw [hp] at hfollow
          cases hfollow
        | allReduce op v next =>
          rw [hp] at hfollow
          obtain ⟨_,_,-,hms,rfl,rfl,-,-⟩ := hfollow.of_allReduce
          obtain ⟨rfl,rfl⟩ := List.cons.inj hms
          exact ⟨next,rfl⟩
        | call arg next => exact absurd ⟨i,arg,next,hp⟩ hcall
      choose next hnext using hall
      exact ⟨_,.allReduce hnext m.isResult⟩

omit [DecidableEq ι] in
theorem OnTrack.history_le (hs : OnTrack f events outs s) (i : ι) : s.history i <+: events := by
  obtain ⟨_,hs⟩ := hs
  obtain ⟨rest,-,hevents⟩ := hs i
  exact ⟨rest,hevents⟩

/-- What is left to execute, over all ranks. -/
def remaining [Fintype ι] (events : List Event) (s : State ι A B R) : Nat :=
  ∑ i, (events.length-(s.history i).length)

theorem Step.remaining_lt [Fintype ι] [Nonempty ι] (h : Step f s s')
    (hs : OnTrack f events outs s') : remaining events s' < remaining events s := by
  have hle : ∀ i, (s'.history i).length ≤ events.length := fun i => (hs.history_le i).length_le
  cases h with
  | @call i arg next hi =>
    have hi' := hle i
    simp only [Function.update_self,List.length_append,List.length_singleton] at hi'
    refine Finset.sum_lt_sum (fun j _ => ?_) ⟨i,Finset.mem_univ i,?_⟩
    · by_cases hj : j = i
      · subst hj
        simp only [Function.update_self,List.length_append]
        omega
      · simp [hj]
    · simp only [Function.update_self,List.length_append,List.length_singleton]
      omega
  | @allReduce op values next r hall hr =>
    refine Finset.sum_lt_sum_of_nonempty Finset.univ_nonempty fun i _ => ?_
    have hi' := hle i
    simp only [List.length_append,List.length_singleton] at hi' ⊢
    omega

/-- Whatever the ranks have done so far, they are on the way to these events, and get to their
results with exactly these. -/
def Completes (f : A → B) (s : State ι A B R) (events : List Event) (outs : ι → R) : Prop :=
  ∀ s', Relation.ReflTransGen (Step f) s s' → (∀ i, s'.history i <+: events) ∧
    ∃ s'', Relation.ReflTransGen (Step f) s' s'' ∧
      ∀ i, s''.prog i = .done (outs i) ∧ s''.history i = events

theorem OnTrack.completes [Fintype ι] [Nonempty ι] (hs : OnTrack f events outs s) :
    Completes f s events outs := by
  intro s' hreach
  have hs' := onTrack_of_reaches hreach hs
  refine ⟨hs'.history_le,?_⟩
  generalize hn : remaining events s' = n
  induction n using Nat.strong_induction_on generalizing s' with
  | _ n ih =>
    rcases hs'.progress with hdone | ⟨t,ht⟩
    · exact ⟨s',.refl,hdone⟩
    · have htrack := ht.onTrack hs'
      obtain ⟨u,hu,hdone⟩ := ih _ (hn ▸ ht.remaining_lt htrack) t (hreach.tail ht) htrack rfl
      exact ⟨u,.head ht hu,hdone⟩

/-- If there is a common list of meetings and events, every interleaving completes. -/
theorem Completes.of_follows [Fintype ι] [Nonempty ι] {prog : ι → Prog A B R}
    {meetings : List (Meeting ι)} (h : ∀ i, Follows f i (prog i) meetings events (outs i)) :
    Completes f (.start prog) events outs :=
  OnTrack.completes ⟨meetings,fun i => ⟨events,h i,List.nil_append _⟩⟩

end Runs
end Spmd
