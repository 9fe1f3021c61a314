import Mathlib.Data.List.OfFn
import SatDeploy.Lib.Sha256

/-!
Hashing a message that comes in pieces. `Absorbed` says how far a hash has got:
the whole blocks are in the chaining state and fewer than 64 bytes are pending.
A program that keeps its pending bytes in a fixed buffer writes into a `Buffer`,
whose other positions hold anything.
-/

namespace SatDeploy.Lib

/-- An array of `size` elements. -/
structure Buffer (α : Type) (size : Nat) where
  get : Fin size → α

namespace Buffer

variable {α : Type} {size : Nat}

def contents (b : Buffer α size) : List α := List.ofFn b.get

/-- The array with `xs` copied to it from position `off` on. -/
def write (b : Buffer α size) (off : Nat) (xs : List α) : Buffer α size where
  get i := if off ≤ i then (xs[(i : Nat) - off]?).getD (b.get i) else b.get i

@[simp] theorem length_contents (b : Buffer α size) : b.contents.length = size :=
  List.length_ofFn

theorem getElem?_contents (b : Buffer α size) {i : Nat} (hi : i < size) :
    b.contents[i]? = some (b.get ⟨i, hi⟩) := by
  rw [contents, List.getElem?_ofFn, dif_pos hi]

/-- A copy keeps what stands before it. -/
theorem take_write (b : Buffer α size) (off : Nat) (xs : List α) :
    (b.write off xs).contents.take off = b.contents.take off := by
  apply List.ext_getElem?
  intro i
  by_cases hi : i < off
  · rw [List.getElem?_take_of_lt hi, List.getElem?_take_of_lt hi]
    by_cases hsize : i < size
    · have hhigh : ¬ off ≤ i := Nat.not_le.mpr hi
      rw [getElem?_contents _ hsize, getElem?_contents _ hsize]
      simp [write, hhigh]
    · rw [List.getElem?_eq_none (by simpa using hsize),
        List.getElem?_eq_none (by simpa using hsize)]
  · rw [List.getElem?_eq_none (by simp only [List.length_take]; omega),
      List.getElem?_eq_none (by simp only [List.length_take]; omega)]

/-- What stands before the end of a copy. -/
theorem take_write_add (b : Buffer α size) (off : Nat) (xs : List α) {stop : Nat}
    (hstop : stop = off + xs.length) (hsize : stop ≤ size) :
    (b.write off xs).contents.take stop = b.contents.take off ++ xs := by
  subst hstop
  rw [List.take_add, take_write]
  congr 1
  apply List.ext_getElem?
  intro i
  by_cases hi : i < xs.length
  · rw [List.getElem?_take_of_lt hi, List.getElem?_drop,
      getElem?_contents _ (show off + i < size by omega)]
    simp [write, hi]
  · rw [List.getElem?_eq_none (by simp only [List.length_take]; omega),
      List.getElem?_eq_none (by omega)]

/-- A copy up to the end of the array. -/
theorem contents_write (b : Buffer α size) (off : Nat) (xs : List α)
    (h : off + xs.length = size) :
    (b.write off xs).contents = b.contents.take off ++ xs := by
  rw [← b.take_write_add off xs rfl (le_of_eq h)]
  exact (List.take_of_length_le (by simp [h])).symm

end Buffer

namespace Sha256

theorem absorb_append (n : Nat) : ∀ {xs : Bytes} (ys : Bytes) (s : State),
    64 * n ≤ xs.length → absorb n (xs ++ ys) s = absorb n xs s := by
  induction n with
  | zero => exact fun _ _ _ => rfl
  | succ n ih =>
      intro xs ys s hlen
      rw [absorb, absorb, List.take_append_of_le_length (by omega),
        List.drop_append_of_le_length (by omega)]
      exact ih ys _ (by rw [List.length_drop]; omega)

theorem absorb_add (m n : Nat) : ∀ (xs : Bytes) (s : State),
    absorb (m + n) xs s = absorb n (xs.drop (64 * m)) (absorb m xs s) := by
  induction m with
  | zero =>
      intro xs s
      rw [Nat.zero_add, Nat.mul_zero, List.drop_zero, absorb]
  | succ m ih =>
      intro xs s
      rw [Nat.add_right_comm, absorb, ih, List.drop_drop, absorb]
      congr 2
      omega

/-- The whole blocks of `message` are in `state`, the rest is pending. -/
def Absorbed (message : Bytes) (state : State) (pending : Bytes) : Prop :=
  pending.length < 64 ∧ ∃ whole, message = whole ++ pending ∧ whole.length % 64 = 0 ∧
    state = absorb (whole.length / 64) whole initial

/-- The padding of a message of `n` bytes, behind its pending bytes. -/
def finish (state : State) (pending : Bytes) (n : Nat) : State :=
  if pending.length < 56 then
    compress state
      (pending ++ [0x80] ++ List.replicate (55 - pending.length) 0 ++ be64 (8 * n))
  else
    compress (compress state (pending ++ [0x80] ++ List.replicate (63 - pending.length) 0))
      (List.replicate 56 0 ++ be64 (8 * n))

namespace Absorbed

variable {message pending piece : Bytes} {state : State}

theorem start : Absorbed [] initial [] :=
  ⟨by decide, [], rfl, rfl, rfl⟩

theorem length_pending (h : Absorbed message state pending) :
    pending.length = message.length % 64 := by
  obtain ⟨hlt, whole, rfl, hwhole, -⟩ := h
  rw [List.length_append]
  omega

/-- A piece that does not complete the block. -/
theorem fill (h : Absorbed message state pending) (hlen : pending.length + piece.length < 64) :
    Absorbed (message ++ piece) state (pending ++ piece) := by
  obtain ⟨-, whole, rfl, hwhole, hstate⟩ := h
  refine ⟨by rw [List.length_append]; exact hlen, whole, ?_, hwhole, hstate⟩
  rw [List.append_assoc]

/-- A piece that completes the block. -/
theorem block (h : Absorbed message state pending) (hlen : pending.length + piece.length = 64) :
    Absorbed (message ++ piece) (compress state (pending ++ piece)) [] := by
  obtain ⟨-, whole, rfl, hwhole, rfl⟩ := h
  have hfull : (pending ++ piece).length = 64 := by rw [List.length_append, hlen]
  refine ⟨by decide, whole ++ (pending ++ piece), by simp, ?_, ?_⟩
  · rw [List.length_append, hfull]
    omega
  · have hcount : (whole ++ (pending ++ piece)).length / 64 = whole.length / 64 + 1 := by
      rw [List.length_append, hfull]
      omega
    have hstart : 64 * (whole.length / 64) = whole.length := by omega
    rw [hcount, absorb_add, absorb_append _ _ _ (by omega), hstart, List.drop_left, absorb,
      absorb, List.take_of_length_le (by omega)]

/-- The digest of a message whose blocks are absorbed. -/
theorem digest (h : Absorbed message state pending) :
    sha256 message = output (finish state pending message.length) := by
  have hpending := h.length_pending
  obtain ⟨hlt, whole, rfl, hwhole, rfl⟩ := h
  generalize hn : (whole ++ pending).length = n at hpending
  have hstart : 64 * (whole.length / 64) = whole.length := by omega
  have hlen : n = whole.length + pending.length := by rw [← hn, List.length_append]
  have hpad : pad (whole ++ pending) = whole ++ (pending ++ [0x80] ++
      List.replicate ((119 - n % 64) % 64) 0 ++ be64 (8 * n)) := by
    rw [pad, hn]
    simp only [List.append_assoc]
  have hbe : (be64 (8 * n)).length = 8 := by simp [be64]
  have hsize : (pad (whole ++ pending)).length / 64 =
      whole.length / 64 + if pending.length < 56 then 1 else 2 := by
    rw [hpad]
    simp only [List.length_append, List.length_replicate, List.length_singleton, hbe]
    split <;> omega
  rw [sha256, hsize, hpad, absorb_add, absorb_append _ _ _ (by omega), hstart, List.drop_left,
    finish]
  congr 1
  split
  next hshort =>
    have hzeros : (119 - n % 64) % 64 = 55 - pending.length := by omega
    rw [hzeros, absorb, absorb, List.take_of_length_le]
    simp only [List.length_append, List.length_replicate, List.length_singleton, hbe]
    omega
  next hlong =>
    -- the length field does not fit behind the marker and starts a block of its own
    have hzeros : (119 - n % 64) % 64 = (63 - pending.length) + 56 := by omega
    have hfirst : (pending ++ [0x80] ++ List.replicate (63 - pending.length) (0 : UInt8)).length =
        64 := by
      simp only [List.length_append, List.length_replicate, List.length_singleton]
      omega
    have hsplit : pending ++ [0x80] ++ List.replicate ((119 - n % 64) % 64) 0 ++ be64 (8 * n) =
        pending ++ [0x80] ++ List.replicate (63 - pending.length) 0 ++
          (List.replicate 56 0 ++ be64 (8 * n)) := by
      rw [hzeros, List.replicate_add]
      simp only [List.append_assoc]
    rw [hsplit, absorb, absorb, absorb, List.take_left' hfirst, List.drop_left' hfirst,
      List.take_of_length_le]
    simp only [List.length_append, List.length_replicate, hbe]
    omega

end Absorbed

end Sha256

end SatDeploy.Lib
