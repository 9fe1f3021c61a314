import SatDeploy.Lib.Bytes

/-!
Packed bits: bit `i` of a byte string is bit `i % 8` of byte `i / 8`, the low
bit first.
-/

namespace SatDeploy.Lib

def bitAt (bits : Bytes) (i : Nat) : Bool :=
  (bits.getD (i / 8) 0 >>> UInt8.ofNat (i % 8)) &&& 1 ≠ 0

def setBit (bits : Bytes) (i : Nat) : Bytes :=
  bits.modify (i / 8) (· ||| (1 <<< UInt8.ofNat (i % 8)))

section Bits

variable {bits : Bytes} {i j : Nat}

@[simp] theorem length_setBit : (setBit bits i).length = bits.length := by
  simp [setBit]

/-- A shift by less than eight places looks at one bit. -/
theorem shiftRight_and_one (b : UInt8) {k : Nat} (hk : k < 8) :
    (b >>> UInt8.ofNat k) &&& 1 ≠ 0 ↔ b.toNat.testBit k = true := by
  have hshift : (UInt8.ofNat k).toNat % 8 = k := by
    rw [UInt8.toNat_ofNat']
    omega
  have hvalue : ((b >>> UInt8.ofNat k) &&& 1).toNat = b.toNat >>> k % 2 := by
    rw [UInt8.toNat_and, UInt8.toNat_shiftRight, hshift]
    exact Nat.and_one_is_mod _
  have hzero : (b >>> UInt8.ofNat k) &&& 1 = 0 ↔ b.toNat >>> k % 2 = 0 := by
    rw [← UInt8.toNat_inj, hvalue]
    rfl
  rw [Ne, hzero, Nat.testBit]
  simp

theorem bitAt_iff : bitAt bits i = true ↔ (bits.getD (i / 8) 0).toNat.testBit (i % 8) = true := by
  rw [bitAt, decide_eq_true_eq]
  exact shiftRight_and_one _ (Nat.mod_lt _ (by decide))

/-- Setting a bit sets that bit. -/
theorem bitAt_setBit (hi : i / 8 < bits.length) :
    bitAt (setBit bits i) j = true ↔ j = i ∨ bitAt bits j = true := by
  have hshift : (UInt8.ofNat (i % 8)).toNat % 8 = i % 8 := by
    rw [UInt8.toNat_ofNat']
    omega
  have hbyte : (setBit bits i).getD (j / 8) 0 =
      if i / 8 = j / 8 then bits.getD (j / 8) 0 ||| (1 <<< UInt8.ofNat (i % 8))
      else bits.getD (j / 8) 0 := by
    rw [setBit, List.getD_eq_getElem?_getD, List.getElem?_modify, List.getD_eq_getElem?_getD]
    split
    next heq =>
      rw [← heq, List.getElem?_eq_getElem hi]
      rfl
    next =>
      cases bits[j / 8]? <;> rfl
  have hmask : ((1 : UInt8) <<< UInt8.ofNat (i % 8)).toNat = 2 ^ (i % 8) := by
    rw [UInt8.toNat_shiftLeft, hshift, Nat.shiftLeft_eq]
    have hsmall : 2 ^ (i % 8) ≤ 2 ^ 7 := Nat.pow_le_pow_right (by decide) (by omega)
    have hone : (1 : UInt8).toNat = 1 := rfl
    rw [hone]
    omega
  rw [bitAt_iff, bitAt_iff, hbyte]
  split
  next heq =>
    rw [UInt8.toNat_or, hmask, Nat.testBit_or, Nat.testBit_two_pow, Bool.or_eq_true,
      decide_eq_true_eq]
    have hsame : i % 8 = j % 8 ↔ j = i := by omega
    rw [hsame, Or.comm]
  next hne =>
    have hother : j ≠ i := fun h => hne (by rw [h])
    simp [hother]

end Bits

end SatDeploy.Lib
