/-! Total correctness of programs that may raise: such a program returns, and what it returns
satisfies a postcondition. -/
set_option autoImplicit false

/-- The program returns a value with the property. -/
def Returns {ε α : Type} (x : Except ε α) (post : α → Prop) : Prop := ∃ a, x = .ok a ∧ post a

/-- `assert p`. -/
def check {ε : Type} (p : Prop) [Decidable p] (e : ε) : Except ε Unit :=
  if p then .ok () else .error e

namespace Returns
variable {ε α β σ : Type} {x : Except ε α} {f : α → Except ε β} {P : α → Prop} {Q : β → Prop}
  {a : α}

theorem ok (h : P a) : Returns (.ok a : Except ε α) P := ⟨a,rfl,h⟩

theorem of_eq (h : Returns x P) (hx : x = .ok a) : P a := by
  obtain ⟨b,hb,hp⟩ := h
  rw [hx] at hb
  cases hb
  exact hp

theorem mono {R : α → Prop} (h : Returns x P) (hr : ∀ a, P a → R a) : Returns x R := by
  obtain ⟨a,hx,hp⟩ := h
  exact ⟨a,hx,hr a hp⟩

theorem with_eq (h : Returns x P) : Returns x fun a => P a ∧ x = .ok a := by
  obtain ⟨a,hx,hp⟩ := h
  exact ⟨a,hx,hp,hx⟩

theorem bind (h : Returns x P) (hf : ∀ a, P a → Returns (f a) Q) : Returns (x >>= f) Q := by
  obtain ⟨a,rfl,hp⟩ := h
  exact hf a hp

theorem check_of {p : Prop} [Decidable p] {e : ε} (hp : p) : Returns (check p e) fun _ => True :=
  ⟨(),if_pos hp,trivial⟩

theorem exists_of_bind {b : β} (hb : (x >>= f) = .ok b) : ∃ a, x = .ok a ∧ f a = .ok b := by
  cases x with
  | error e => cases hb
  | ok a => exact ⟨a,rfl,hb⟩

/-- A program that returns goes on where its first part ends. -/
theorem of_bind {b : β} (h : Returns x P) (hb : (x >>= f) = .ok b) : ∃ a, P a ∧ f a = .ok b := by
  obtain ⟨a,rfl,hp⟩ := h
  exact ⟨a,hp,hb⟩

theorem of_check_bind {p : Prop} [Decidable p] {e : ε} {g : Unit → Except ε β} {b : β}
    (hb : (check p e >>= g) = .ok b) : p ∧ g () = .ok b := by
  by_cases hp : p
  · rw [check,if_pos hp] at hb
    exact ⟨hp,hb⟩
  · rw [check,if_neg hp] at hb
    cases hb

/-- A loop over a list: the invariant speaks of the elements that are done and of those that
are left. -/
theorem foldlM {step : σ → α → Except ε σ} (inv : List α → List α → σ → Prop)
    (hstep : ∀ pre a post s, inv pre (a :: post) s → Returns (step s a) (inv (pre ++ [a]) post))
    {l : List α} {s : σ} (h : inv [] l s) : Returns (l.foldlM step s) (inv l []) := by
  have go : ∀ (post pre : List α) (s : σ), inv pre post s →
      Returns (post.foldlM step s) (inv (pre ++ post) []) := by
    intro post
    induction post with
    | nil =>
      intro pre s h
      rw [List.append_nil]
      exact .ok h
    | cons a post ih =>
      intro pre s h
      rw [List.foldlM_cons]
      refine (hstep pre a post s h).bind fun s' h' => ?_
      have := ih (pre ++ [a]) s' h'
      rwa [List.append_assoc] at this
  exact go l [] s h

end Returns
