import Mathlib.Tactic

/-!
Machines that read symbol by symbol and emit some output at each. The symbols
may themselves be lists, so a machine over pieces of a stream and the machine
over the stream are instances of one definition.
-/

namespace SatDeploy.Lib

variable {σ τ α β γ : Type}

def transduce (step : σ → α → List β × σ) : σ → List α → List β × σ
  | s, [] => ([], s)
  | s, a :: input =>
      let first := step s a
      let rest := transduce step first.2 input
      (first.1 ++ rest.1, rest.2)

variable {step : σ → α → List β × σ}

@[simp] theorem transduce_nil (s : σ) : transduce step s [] = ([], s) := rfl

theorem transduce_cons (s : σ) (a : α) (input : List α) :
    transduce step s (a :: input) =
      ((step s a).1 ++ (transduce step (step s a).2 input).1,
        (transduce step (step s a).2 input).2) := rfl

theorem transduce_append (s : σ) (input more : List α) :
    transduce step s (input ++ more) =
      ((transduce step s input).1 ++ (transduce step (transduce step s input).2 more).1,
        (transduce step (transduce step s input).2 more).2) := by
  induction input generalizing s with
  | nil => rfl
  | cons a input ih => simp [transduce_cons, ih]

/-- Where the input is cut makes no difference. -/
theorem transduce_pieces (s : σ) (pieces : List (List α)) :
    transduce (transduce step) s pieces = transduce step s pieces.flatten := by
  induction pieces generalizing s with
  | nil => rfl
  | cons piece pieces ih =>
      rw [List.flatten_cons, transduce_append, transduce_cons, ih]

/-- What every step keeps holds at the end, and what every step emits under it
is so of the whole output. -/
theorem transduce_invariant {Inv : σ → Prop} {Out : β → Prop}
    (hstep : ∀ s a, Inv s → Inv (step s a).2 ∧ ∀ b ∈ (step s a).1, Out b)
    {s : σ} (hs : Inv s) (input : List α) :
    Inv (transduce step s input).2 ∧ ∀ b ∈ (transduce step s input).1, Out b := by
  induction input generalizing s with
  | nil => exact ⟨hs, by simp⟩
  | cons a input ih =>
      obtain ⟨hnext, hfirst⟩ := hstep s a hs
      obtain ⟨hend, hrest⟩ := ih hnext
      refine ⟨hend, ?_⟩
      intro b hb
      rcases List.mem_append.mp hb with hb | hb
      · exact hfirst b hb
      · exact hrest b hb

/-- A machine that holds back or emits what it reads, in order, at every step
does so over every input. -/
theorem transduce_conserves {Inv : σ → Prop} {text : β → List α} {held : σ → List α}
    (hinv : ∀ s a, Inv s → Inv (step s a).2)
    (hstep : ∀ s a, Inv s → (step s a).1.flatMap text ++ held (step s a).2 = held s ++ [a])
    {s : σ} (hs : Inv s) (input : List α) :
    (transduce step s input).1.flatMap text ++ held (transduce step s input).2 =
      held s ++ input := by
  induction input generalizing s with
  | nil => simp
  | cons a input ih =>
      rw [transduce_cons, List.flatMap_append, List.append_assoc, ih (hinv s a hs),
        ← List.append_assoc, hstep s a hs]
      simp

/-- The first machine's output handed to the second at once. -/
def pipe (step : σ → α → List β × σ) (next : τ → β → List γ × τ)
    (s : σ × τ) (a : α) : List γ × (σ × τ) :=
  let first := step s.1 a
  let second := transduce next s.2 first.1
  (second.1, first.2, second.2)

/-- Piped machines emit what the second emits on all that the first emits. -/
theorem transduce_pipe (next : τ → β → List γ × τ) (s : σ × τ) (input : List α) :
    transduce (pipe step next) s input =
      ((transduce next s.2 (transduce step s.1 input).1).1,
        (transduce step s.1 input).2,
        (transduce next s.2 (transduce step s.1 input).1).2) := by
  induction input generalizing s with
  | nil => rfl
  | cons a input ih =>
      rw [transduce_cons, transduce_cons, ih, transduce_append]
      rfl

end SatDeploy.Lib
