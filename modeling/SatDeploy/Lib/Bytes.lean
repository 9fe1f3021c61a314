import Mathlib.Tactic

/-!
Byte strings. A C string is the bytes before its terminating NUL, a file is
its bytes, and a wire message is its bytes, so one type serves all three.
-/

namespace SatDeploy.Lib

abbrev Bytes := List UInt8

instance lawfulBEqBytes : LawfulBEq Bytes := inferInstance

/-- The bytes of an ASCII literal. -/
def ascii (text : String) : Bytes :=
  text.toList.map fun c => c.toUInt8

/-- A lowercase hexadecimal digit. -/
def hexDigit (n : Nat) : UInt8 :=
  if n < 10 then UInt8.ofNat (48 + n) else UInt8.ofNat (87 + n)

/-- What `printf("%02x")` writes for every byte in turn. -/
def hex (bytes : Bytes) : Bytes :=
  bytes.flatMap fun b => [hexDigit (b.toNat / 16), hexDigit (b.toNat % 16)]

theorem length_hex (bytes : Bytes) : (hex bytes).length = 2 * bytes.length := by
  induction bytes with
  | nil => rfl
  | cons b bytes ih =>
      simp only [hex, List.flatMap_cons, List.length_append, List.length_cons,
        List.length_nil] at ih ⊢
      omega

/-- What `snprintf` leaves in a buffer of `size` bytes: at most `size - 1`
bytes of the formatted text, the last one being the NUL. -/
def clip (size : Nat) (text : Bytes) : Bytes := text.take (size - 1)

/-- A prefix of two texts ends in the first or in the second. -/
theorem prefix_append_cases {α : Type} {u a b : List α} (h : u <+: a ++ b) :
    u <+: a ∨ ∃ v, u = a ++ v ∧ v <+: b := by
  rcases List.prefix_or_prefix_of_prefix h (List.prefix_append a b) with hu | ⟨v, rfl⟩
  · exact Or.inl hu
  · exact Or.inr ⟨v, rfl, (List.prefix_append_right_inj a).mp h⟩

/-- A number in `width` bytes, the low byte first. -/
def leBytes : Nat → Nat → Bytes
  | 0, _ => []
  | width + 1, v => UInt8.ofNat (v % 256) :: leBytes width (v / 256)

def leValue : Bytes → Nat
  | [] => 0
  | b :: bytes => b.toNat + 256 * leValue bytes

@[simp] theorem length_leBytes (width v : Nat) : (leBytes width v).length = width := by
  induction width generalizing v with
  | zero => rfl
  | succ width ih => simp [leBytes, ih]

theorem leValue_leBytes {width v : Nat} (h : v < 256 ^ width) : leValue (leBytes width v) = v := by
  induction width generalizing v with
  | zero =>
      rw [Nat.pow_zero] at h
      simp only [leBytes, leValue]
      omega
  | succ width ih =>
      have hhigh : v / 256 < 256 ^ width := by
        rw [Nat.pow_succ] at h
        exact Nat.div_lt_of_lt_mul (by rw [Nat.mul_comm]; exact h)
      have hlow : (UInt8.ofNat (v % 256)).toNat = v % 256 := by
        rw [UInt8.toNat_ofNat']
        omega
      rw [leBytes, leValue, ih hhigh, hlow]
      omega

theorem leBytes_leValue (bytes : Bytes) : leBytes bytes.length (leValue bytes) = bytes := by
  induction bytes with
  | nil => rfl
  | cons b bytes ih =>
      have hb : b.toNat < 256 := UInt8.toNat_lt b
      have hlow : (b.toNat + 256 * leValue bytes) % 256 = b.toNat := by omega
      have hhigh : (b.toNat + 256 * leValue bytes) / 256 = leValue bytes := by omega
      rw [List.length_cons, leValue, leBytes, hlow, hhigh, ih, UInt8.ofNat_toNat]

/-- The C string at the start of a buffer. -/
def cString (buf : Bytes) : Bytes := buf.takeWhile (· ≠ 0)

theorem clip_of_lt {size : Nat} {text : Bytes} (h : text.length < size) :
    clip size text = text :=
  List.take_of_length_le (by omega)

end SatDeploy.Lib
