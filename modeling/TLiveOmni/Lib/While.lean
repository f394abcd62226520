import Mathlib.Logic.Basic

/-! Loops `while True: …` that end with a `break`: when they end, and with what. -/
set_option autoImplicit false

namespace While
variable {σ : Type}

/-- At most `n` rounds of the loop. The body returns the next state, or nothing for `break`. -/
def run (body : σ → Option σ) : (n : Nat) → σ → Option σ
  | 0, _ => none
  | n+1, s => match body s with
    | none => some s
    | some s' => run body n s'

/-- The loop ends in the state `r`. -/
def EndsIn (body : σ → Option σ) (s r : σ) : Prop := ∃ n, run body n s = some r

def Ends (body : σ → Option σ) (s : σ) : Prop := ∃ r, EndsIn body s r

variable {body : σ → Option σ} {s s' r : σ}

theorem EndsIn.here (h : body s = none) : EndsIn body s s := ⟨1,by simp [run,h]⟩

theorem EndsIn.later (h : body s = some s') (he : EndsIn body s' r) : EndsIn body s r := by
  obtain ⟨n,hn⟩ := he
  exact ⟨n+1,by simpa [run,h] using hn⟩

/-- A loop whose rounds make the state smaller ends. -/
theorem ends_of_measure (inv : σ → Prop) (size : σ → Nat)
    (hstep : ∀ s s', inv s → body s = some s' → inv s' ∧ size s' < size s) (hs : inv s) :
    Ends body s := by
  generalize hn : size s = n
  induction n using Nat.strongRecOn generalizing s with
  | ind n ih =>
    cases hb : body s with
    | none => exact ⟨s,EndsIn.here hb⟩
    | some s' =>
      obtain ⟨hs',hlt⟩ := hstep s s' hs hb
      obtain ⟨r,hr⟩ := ih (size s') (hn ▸ hlt) hs' rfl
      exact ⟨r,hr.later hb⟩

/-- A loop that stays in a set of states without a `break` does not end. -/
theorem not_ends_of_invariant (inv : σ → Prop)
    (hstep : ∀ s, inv s → ∃ s', body s = some s' ∧ inv s') (hs : inv s) : ¬ Ends body s := by
  rintro ⟨r,n,hn⟩
  induction n generalizing s with
  | zero => cases hn
  | succ n ih =>
    obtain ⟨s',hb,hs'⟩ := hstep s hs
    simp only [run,hb] at hn
    exact ih hs' hn

end While
