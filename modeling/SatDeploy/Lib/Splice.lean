import Mathlib.Tactic

/-!
Overwriting a window of a list. A receive buffer addressed by offset, and a
file written at an offset, both change by replacing the elements at
`off .. off + ys.length` and keeping every other position.
-/

namespace SatDeploy.Lib

variable {α : Type*}

/-- `xs` with the window that starts at `off` replaced by `ys`. -/
def splice (xs : List α) (off : Nat) (ys : List α) : List α :=
  xs.take off ++ ys ++ xs.drop (off + ys.length)

/-- The elements of `xs` at positions `start .. stop - 1`. -/
def slice (xs : List α) (start stop : Nat) : List α :=
  (xs.drop start).take (stop - start)

theorem length_splice {xs ys : List α} {off : Nat}
    (h : off + ys.length ≤ xs.length) :
    (splice xs off ys).length = xs.length := by
  simp only [splice, List.length_append, List.length_take, List.length_drop]
  omega

theorem getElem?_splice {xs ys : List α} {off : Nat}
    (h : off + ys.length ≤ xs.length) (i : Nat) :
    (splice xs off ys)[i]? =
      if off ≤ i ∧ i < off + ys.length then ys[i - off]? else xs[i]? := by
  have htake : (xs.take off).length = off := by
    rw [List.length_take]
    omega
  unfold splice
  by_cases hlow : i < off
  · rw [List.append_assoc, List.getElem?_append_left (by omega),
      List.getElem?_take_of_lt hlow, if_neg (by omega)]
  · by_cases hmid : i < off + ys.length
    · rw [List.append_assoc, List.getElem?_append_right (by omega),
        List.getElem?_append_left (by omega), htake, if_pos (by omega)]
    · rw [List.getElem?_append_right (by simp only [List.length_append]; omega),
        List.getElem?_drop, if_neg (by omega)]
      congr 1
      simp only [List.length_append]
      omega

@[simp] theorem splice_nil (xs : List α) (off : Nat) : splice xs off [] = xs := by
  simp [splice]

/-- Replacing the whole list keeps nothing of it. -/
theorem splice_all {xs ys : List α} (h : ys.length = xs.length) :
    splice xs 0 ys = ys := by
  simp [splice, h]

theorem length_slice (xs : List α) (start stop : Nat) :
    (slice xs start stop).length = min (stop - start) (xs.length - start) := by
  simp [slice]

theorem getElem?_slice (xs : List α) (start stop i : Nat) :
    (slice xs start stop)[i]? =
      if i < stop - start then xs[start + i]? else none := by
  unfold slice
  by_cases hi : i < stop - start
  · rw [List.getElem?_take_of_lt hi, List.getElem?_drop, if_pos hi]
  · rw [List.getElem?_eq_none (by simp only [List.length_take]; omega), if_neg hi]

/-- Two lists that agree on a window have the same slice there. -/
theorem slice_congr {xs ys : List α} {start stop : Nat}
    (h : ∀ i, start ≤ i → i < stop → xs[i]? = ys[i]?) :
    slice xs start stop = slice ys start stop := by
  apply List.ext_getElem?
  intro i
  rw [getElem?_slice, getElem?_slice]
  split
  · exact h _ (by omega) (by omega)
  · rfl

end SatDeploy.Lib
