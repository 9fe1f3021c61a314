import Mathlib.Tactic

/-!
Loops that may fail. A round of the loop goes on with a new state, leaves with a
result, or fails; a size that every further round makes smaller is what makes
the loop a total function.
-/

namespace SatDeploy.Lib

variable {σ ε α β : Type}

@[simp] theorem except_pure (a : α) : (pure a : Except ε α) = .ok a := rfl

@[simp] theorem except_ok_bind (a : α) (f : α → Except ε β) : (Except.ok a >>= f) = f a := rfl

def loop (step : σ → Except ε (σ ⊕ β)) (size : σ → Nat)
    (hless : ∀ s s', step s = .ok (.inl s') → size s' < size s) (s : σ) : Except ε β :=
  match _h : step s with
  | .error e => .error e
  | .ok (.inr b) => .ok b
  | .ok (.inl s') => loop step size hless s'
termination_by size s
decreasing_by exact hless s s' _h

section Rounds

variable {step : σ → Except ε (σ ⊕ β)} {size : σ → Nat}
  {hless : ∀ s s', step s = .ok (.inl s') → size s' < size s} {s s' : σ}

theorem loop_next (h : step s = .ok (.inl s')) :
    loop step size hless s = loop step size hless s' := by
  rw [loop.eq_def]
  split <;> simp_all

theorem loop_leave {b : β} (h : step s = .ok (.inr b)) : loop step size hless s = .ok b := by
  rw [loop.eq_def]
  split <;> simp_all

theorem loop_fail {e : ε} (h : step s = .error e) : loop step size hless s = .error e := by
  rw [loop.eq_def]
  split <;> simp_all

/-- What holds of the last round holds of the loop if every further round hands
it back. -/
theorem loop_induction {P : σ → Except ε β → Prop}
    (next : ∀ s s' r, step s = .ok (.inl s') → P s' r → P s r)
    (leave : ∀ s b, step s = .ok (.inr b) → P s (.ok b))
    (fail : ∀ s e, step s = .error e → P s (.error e)) (s : σ) :
    P s (loop step size hless s) := by
  induction hn : size s using Nat.strongRecOn generalizing s with
  | ind n ih =>
      cases hstep : step s with
      | error e =>
          rw [loop_fail hstep]
          exact fail s e hstep
      | ok round =>
          cases round with
          | inr b =>
              rw [loop_leave hstep]
              exact leave s b hstep
          | inl s' =>
              rw [loop_next hstep]
              exact next s s' _ hstep (ih _ (hn ▸ hless s s' hstep) s' rfl)

end Rounds

end SatDeploy.Lib
