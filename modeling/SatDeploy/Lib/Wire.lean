import Mathlib.Tactic

/-!
Sizes in the protocol buffer wire format, for field numbers below 16, whose
keys take one byte. A field that has its default value is left out.
-/

namespace SatDeploy.Lib

/-- A variable-length integer: seven bits to the byte. -/
def varintSize (n : Nat) : Nat := n.log2 / 7 + 1

def numberField (n : Nat) : Nat := if n = 0 then 0 else 1 + varintSize n

def flagField (b : Bool) : Nat := if b then 2 else 0

/-- A string or byte field of that length. -/
def bytesField (length : Nat) : Nat :=
  if length = 0 then 0 else 1 + varintSize length + length

/-- An element of a repeated message field, of that length. -/
def messageField (length : Nat) : Nat := 1 + varintSize length + length

section Bounds

variable {m n : Nat}

theorem varintSize_mono (h : m ≤ n) : varintSize m ≤ varintSize n := by
  unfold varintSize
  have hlog : m.log2 ≤ n.log2 := by
    rw [Nat.log2_eq_log_two, Nat.log2_eq_log_two]
    exact Nat.log_mono_right h
  exact Nat.add_le_add_right (Nat.div_le_div_right hlog) 1

theorem numberField_mono (h : m ≤ n) : numberField m ≤ numberField n := by
  have hsize := varintSize_mono h
  unfold numberField
  split
  · omega
  · rw [if_neg (by omega)]
    omega

theorem bytesField_mono (h : m ≤ n) : bytesField m ≤ bytesField n := by
  have hsize := varintSize_mono h
  unfold bytesField
  split
  · omega
  · rw [if_neg (by omega)]
    omega

theorem messageField_mono (h : m ≤ n) : messageField m ≤ messageField n := by
  have hsize := varintSize_mono h
  unfold messageField
  omega

theorem flagField_le (b : Bool) : flagField b ≤ 2 := by
  cases b <;> decide

theorem le_bytesField (n : Nat) : n ≤ bytesField n := by
  unfold bytesField
  split <;> omega

theorem le_messageField (n : Nat) : n ≤ messageField n := by
  unfold messageField
  omega

end Bounds

end SatDeploy.Lib
