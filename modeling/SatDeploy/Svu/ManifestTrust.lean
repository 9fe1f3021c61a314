import SatDeploy.Svu.Manifest

/-!
Which headers let `ctrl_exchange` hand `ci_svu_new` a manifest it has not
received. The counter credits a chunk with its whole length and marks only the
stride it starts in, so a chunk that reaches into the next stride is counted
there a second time; and `nblocks * 32` is computed in 32 bits while
`ci_svu_new` copies all of it.
-/

namespace SatDeploy.Svu

open Lib

/-- Every manifest byte `ci_svu_new` copies lies in the buffer and was written
by a chunk. -/
def TrustsWritten (io : CtrlIo) : Prop :=
  ∀ reply, ctrlExchange io = some reply → ∀ allocated heap s,
    ciSvuNew allocated reply.total reply.block (reply.memory heap) reply.nblocks = some s →
    ∀ i < reply.nblocks * hashLen, ∃ b, reply.manifest[i]? = some (some b)

/-- A header `ci_svu_new` accepts, of more than the six blocks whose digests
fit into one stride. -/
def Overreaches (total block nblocks : UInt32) : Prop :=
  ciSvuNblocks total.toNat block.toNat = nblocks.toNat ∧ 6 < nblocks.toNat

section Sufficiency

variable {total block nblocks : UInt32} {io : CtrlIo} {rest : List Bytes}

theorem TrustsWritten.of_answered (h : Answered io total block nblocks rest)
    (hwhole : ciSvuNblocks total.toNat block.toNat = nblocks.toNat →
      ∀ manifest, assembleLoop (nblocks.toNat * hashLen % 2 ^ 32) rest
        (freshAssembly io.stale (nblocks.toNat * hashLen % 2 ^ 32)) = some manifest →
      ∀ i < nblocks.toNat * hashLen, ∃ b, manifest[i]? = some (some b)) :
    TrustsWritten io := by
  intro reply hreply allocated heap s hnew
  rw [h.ctrlExchange_eq] at hreply
  obtain ⟨manifest, hloop, rfl⟩ := Option.map_eq_some_iff.mp hreply
  obtain ⟨-, heq, -⟩ := ciSvuNew_eq_some hnew
  exact hwhole heq manifest hloop

/-- Chunks that stay in their strides, for a manifest of a 32-bit length. -/
theorem trusts_of_short (h : Answered io total block nblocks rest)
    (hfits : nblocks.toNat * hashLen < 2 ^ 32)
    (hshort : nblocks.toNat * hashLen ≤ manChunk ∨ ∀ p ∈ rest, p.length ≤ 4 + manChunk) :
    TrustsWritten io := by
  refine .of_answered h fun _ manifest hloop => ?_
  rw [Nat.mod_eq_of_lt hfits] at hloop
  exact assembleLoop_whole hfits rest (.start _) hshort hloop

end Sufficiency

section Overlap

variable {manBytes strides : Nat}

/-- The payload lengths of a stream whose first chunk reaches one byte into the
second stride and whose last chunk stops one byte short. -/
def overlapLength (manBytes strides j : Nat) : Nat :=
  if j = 0 then manChunk + 1
  else if j + 1 < strides then manChunk
  else manBytes - j * manChunk - 1

def overlapChunk (manBytes strides j : Nat) : Bytes :=
  chunkPacket (j * manChunk) (List.replicate (overlapLength manBytes strides j) 0)

/-- The counter when chunk `j` of that stream is next. -/
def overlapGot (manBytes strides j : Nat) : Nat :=
  if j = 0 then 0
  else if j < strides then j * manChunk + 1
  else manBytes

/-- `strides` strides hold the manifest, whose last stride has eight bytes or
more. -/
structure Strides (manBytes strides : Nat) : Prop where
  many : 2 ≤ strides
  last : (strides - 1) * manChunk + 8 ≤ manBytes
  enough : manBytes ≤ strides * manChunk
  small : manBytes < 2 ^ 32

theorem strides_of_blocks {nblocks : Nat} (hmany : 6 < nblocks)
    (hfits : nblocks * hashLen < 2 ^ 32) :
    Strides (nblocks * hashLen) ((nblocks * hashLen + manChunk - 1) / manChunk) := by
  have hsmall := hfits
  rw [hashLen] at hfits ⊢
  have hchunk : manChunk = 200 := rfl
  refine ⟨?_, ?_, ?_, hsmall⟩
  · rw [hchunk]
    omega
  · rw [hchunk]
    omega
  · rw [hchunk]
    omega

theorem Strides.overlap (h : Strides manBytes strides) {j : Nat} (hj : j < strides) :
    overlapGot manBytes strides j < manBytes ∧
      0 < overlapLength manBytes strides j ∧
      j * manChunk + overlapLength manBytes strides j < manBytes ∧
      overlapGot manBytes strides j + overlapLength manBytes strides j =
        overlapGot manBytes strides (j + 1) ∧
      overlapGot manBytes strides (j + 1) ≤ manBytes := by
  obtain ⟨hmany, hlast, henough, -⟩ := h
  have hbelow : j * manChunk ≤ (strides - 1) * manChunk :=
    Nat.mul_le_mul_right manChunk (by omega)
  have hsecond : 1 * manChunk ≤ (strides - 1) * manChunk :=
    Nat.mul_le_mul_right manChunk (by omega)
  unfold overlapGot overlapLength
  rw [manChunk] at *
  rw [if_neg (Nat.succ_ne_zero j)]
  by_cases hzero : j = 0
  · subst hzero
    simp only [if_true]
    rw [if_pos (by omega)]
    omega
  · simp only [if_neg hzero, if_pos hj]
    split
    next hmore =>
      have hnext : (j + 1) * 200 ≤ (strides - 1) * 200 := Nat.mul_le_mul_right 200 (by omega)
      omega
    next hfinal =>
      have hstrides : j = strides - 1 := by omega
      rw [← hstrides] at hlast
      omega

/-- The loop takes the whole stream, and is done with the last byte still
unwritten. -/
theorem assembleLoop_overlap (h : Strides manBytes strides) (n : Nat) :
    ∀ j (a : Assembly), j + n = strides → a.got = overlapGot manBytes strides j →
    (∀ i, j ≤ i → a.marked i = false) → a.manifest.length = manBytes →
    a.manifest[manBytes - 1]? = some none →
    ∃ cells, assembleLoop manBytes
        ((List.range' j n).map (overlapChunk manBytes strides)) a = some cells ∧
      cells[manBytes - 1]? = some none := by
  induction n with
  | zero =>
      intro j a hj hgot _ _ hlast
      have hdone : ¬ a.got < manBytes := by
        have hmany := h.many
        rw [hgot, overlapGot, if_neg (by omega), if_neg (by omega)]
        exact Nat.lt_irrefl _
      rw [List.range'_zero, List.map_nil, assembleLoop, if_neg hdone]
      exact ⟨_, rfl, hlast⟩
  | succ n ih =>
      intro j a hj hgot hmarked hlength hlast
      obtain ⟨hgoing, hpos, hinside, hsum, hbound⟩ := h.overlap (show j < strides by omega)
      have hsmall := h.small
      have hdiv : j * manChunk / manChunk = j := Nat.mul_div_cancel j (by decide)
      have htakes : Takes manBytes a (j * manChunk)
          (List.replicate (overlapLength manBytes strides j) 0) := by
        refine ⟨?_, Nat.mul_mod_left j manChunk, ?_, ?_⟩
        · rw [List.length_replicate]
          exact hpos
        · rw [List.length_replicate]
          exact hinside.le
        · rw [hdiv]
          exact hmarked j (Nat.le_refl j)
      rw [List.range'_succ, List.map_cons, assembleLoop, if_pos (hgot.symm ▸ hgoing),
        overlapChunk, assembleChunk_takes hsmall.le htakes]
      have hfits : j * manChunk + ((List.replicate (overlapLength manBytes strides j)
          (0 : UInt8)).map some).length ≤ a.manifest.length := by
        rw [List.length_map, List.length_replicate, hlength]
        exact hinside.le
      apply ih (j + 1)
      · omega
      · simp only [Assembly.take, List.length_replicate]
        rw [hgot, hsum]
        exact Nat.mod_eq_of_lt (by omega)
      · intro i hi
        simp only [Assembly.take]
        rw [hdiv, Function.update_of_ne (by omega)]
        exact hmarked i (by omega)
      · simp only [Assembly.take]
        rw [length_splice hfits, hlength]
      · simp only [Assembly.take]
        rw [getElem?_splice hfits, if_neg, hlast]
        rw [List.length_map, List.length_replicate]
        omega

end Overlap

section Necessity

variable {total block nblocks : UInt32}

/-- An exchange of a header and some packets, with zeros in the heap. -/
def exchangeOf (total block nblocks : UInt32) (rest : List Bytes) : CtrlIo :=
  ⟨true, true, true, respHeader 1 total block nblocks :: rest, fun _ => false⟩

theorem exchangeOf_answered (rest : List Bytes) :
    Answered (exchangeOf total block nblocks rest) total block nblocks rest :=
  answered_of_respHeader ⟨rfl, rfl, rfl⟩ rfl

theorem ciSvuNew_accepts {total block nblocks : Nat} (expected : Nat → UInt8)
    (heq : ciSvuNblocks total block = nblocks) (hne : nblocks ≠ 0) :
    ∃ s, ciSvuNew true total block expected nblocks = some s := by
  have haccepted : ¬ (ciSvuNblocks total block = 0 ∨ ciSvuNblocks total block ≠ nblocks) := by
    rintro (hzero | hother)
    · exact hne (heq ▸ hzero)
    · exact hother heq
  unfold ciSvuNew
  simp only [if_neg haccepted]
  exact ⟨_, rfl⟩

/-- An exchange that ends with a byte of the manifest unwritten is trusted. -/
theorem not_trusts_of_missing {rest : List Bytes} (h : Overreaches total block nblocks)
    {cells : List (Option UInt8)}
    (hloop : assembleLoop (nblocks.toNat * hashLen % 2 ^ 32) rest
      (freshAssembly (fun _ => false) (nblocks.toNat * hashLen % 2 ^ 32)) = some cells)
    {i : Nat} (hi : i < nblocks.toNat * hashLen) (hmissing : ∀ b, cells[i]? ≠ some (some b)) :
    ¬ TrustsWritten (exchangeOf total block nblocks rest) := by
  intro htrusts
  have hanswered : Answered (exchangeOf total block nblocks rest) total block nblocks rest :=
    exchangeOf_answered rest
  have hexchange := hanswered.ctrlExchange_eq
  have hstale : (exchangeOf total block nblocks rest).stale = fun _ => false := rfl
  rw [hstale, hloop] at hexchange
  obtain ⟨s, hnew⟩ := ciSvuNew_accepts
    (CtrlReply.memory ⟨total.toNat, block.toNat, nblocks.toNat, cells⟩ fun _ => 0) h.1
    (by have := h.2; omega)
  obtain ⟨b, hb⟩ := htrusts _ hexchange true (fun _ => 0) s hnew i hi
  exact hmissing b hb

theorem freshAssembly_clear (manBytes i : Nat) :
    (freshAssembly (fun _ => false) manBytes).marked i = false := by
  simp [freshAssembly]

/-- A header past one stride is trusted without its last byte. -/
theorem overlap_not_trusted (h : Overreaches total block nblocks)
    (hfits : nblocks.toNat * hashLen < 2 ^ 32) :
    ∃ rest, (∀ p ∈ rest, p.length ≤ 205) ∧
      ¬ TrustsWritten (exchangeOf total block nblocks rest) := by
  have hstrides := strides_of_blocks h.2 hfits
  generalize hmany : (nblocks.toNat * hashLen + manChunk - 1) / manChunk = strides at hstrides
  have hpos : 0 < nblocks.toNat * hashLen := by
    have := hstrides.last
    omega
  obtain ⟨cells, hloop, hlast⟩ := assembleLoop_overlap hstrides strides 0
    (freshAssembly (fun _ => false) (nblocks.toNat * hashLen)) (Nat.zero_add _) rfl
    (fun i _ => freshAssembly_clear _ i) List.length_replicate (by
      simp only [freshAssembly, List.getElem?_replicate]
      rw [if_pos (by omega)])
  refine ⟨_, ?_, not_trusts_of_missing h (by rwa [Nat.mod_eq_of_lt hfits])
    (Nat.sub_lt hpos Nat.one_pos) ?_⟩
  · intro p hp
    obtain ⟨j, hj, rfl⟩ := List.mem_map.mp hp
    have hlt : j < strides := by
      rw [List.mem_range'_1] at hj
      omega
    have henough := hstrides.enough
    have hbelow : j * manChunk + manChunk ≤ strides * manChunk := by
      rw [← Nat.succ_mul]
      exact Nat.mul_le_mul_right manChunk hlt
    simp only [overlapChunk, chunkPacket, List.length_append, length_svuPut32,
      List.length_replicate, overlapLength]
    rw [manChunk] at *
    split
    · omega
    · split
      · omega
      next hfinal =>
        have hstride : strides * 200 ≤ (j + 1) * 200 := Nat.mul_le_mul_right 200 (by omega)
        omega
  · intro b hb
    rw [hlast] at hb
    cases hb

/-- A header whose manifest length wraps is trusted past the end of the
buffer. -/
theorem wrap_not_trusted (h : Overreaches total block nblocks)
    (hwraps : 2 ^ 32 ≤ nblocks.toNat * hashLen) :
    ∃ rest, (∀ p ∈ rest, p.length ≤ 205) ∧
      ¬ TrustsWritten (exchangeOf total block nblocks rest) := by
  generalize hbytes : nblocks.toNat * hashLen % 2 ^ 32 = manBytes
  have hsmall : manBytes < 2 ^ 32 := by
    rw [← hbytes]
    exact Nat.mod_lt _ (by decide)
  have hlength : (List.replicate manBytes (0 : UInt8)).length = manBytes := List.length_replicate
  generalize hmanifest : List.replicate manBytes (0 : UInt8) = manifest at hlength
  have hfresh : (freshAssembly (fun _ => false) manBytes).Copies manifest := by
    rw [← hlength]
    exact .start fun i _ => freshAssembly_clear _ _
  have hchunks : ∀ p ∈ (List.range manBytes).filterMap (fun j =>
      if j * manifestChunk < manBytes then
        some (chunkPacket (j * manifestChunk) (manifestPiece manifest j)) else none),
      IsChunk manifest p := by
    intro p hp
    obtain ⟨j, -, hj⟩ := List.mem_filterMap.mp hp
    split at hj
    next hlt => exact ⟨j, hlength.symm ▸ hlt, (Option.some.inj hj).symm⟩
    next => cases hj
  obtain ⟨hsame, hends⟩ := assembleLoop_copies (hlength.symm ▸ hsmall) _ hfresh hchunks
  obtain ⟨cells, hloop⟩ := hends fun j hj => by
    refine Or.inr (List.mem_filterMap.mpr ⟨j, ?_, if_pos (hlength ▸ hj)⟩)
    rw [List.mem_range, ← hlength]
    rw [manifestChunk] at hj
    omega
  rw [hlength] at hloop
  refine ⟨_, ?_, not_trusts_of_missing h (by rw [hbytes]; exact hloop)
    (lt_of_lt_of_le hsmall hwraps) ?_⟩
  · intro p hp
    obtain ⟨j, hj, rfl⟩ := hchunks p hp
    have hpiece := length_manifestPiece hj
    rw [chunkPacket, List.length_append, length_svuPut32, hpiece, manifestChunk]
    omega
  · intro b hb
    rw [hsame cells (by rw [hlength]; exact hloop), List.getElem?_eq_none] at hb
    · cases hb
    · rw [List.length_map, hlength]

end Necessity

/-- Whatever packets follow a header, `ci_svu_new` copies only manifest bytes
that a chunk has written, exactly when it refuses the header or the header has
at most six blocks. For the other headers it does while no chunk is longer than
a stride and the manifest and its strides are counted without wrapping. -/
theorem manifest_trust (total block nblocks : UInt32) :
    ((∀ io rest, Answered io total block nblocks rest → TrustsWritten io) ↔
      ciSvuNblocks total.toNat block.toNat ≠ nblocks.toNat ∨ nblocks.toNat ≤ 6) ∧
    (nblocks.toNat * hashLen + manChunk ≤ 2 ^ 32 → ∀ io rest,
      Answered io total block nblocks rest → (∀ p ∈ rest, p.length ≤ 4 + manChunk) →
      TrustsWritten io) := by
  refine ⟨⟨?_, ?_⟩, ?_⟩
  · intro htrusts
    by_contra hother
    rw [not_or, Decidable.not_not, Nat.not_le] at hother
    rcases Nat.lt_or_ge (nblocks.toNat * hashLen) (2 ^ 32) with hfits | hwraps
    · obtain ⟨rest, -, hnot⟩ := overlap_not_trusted hother hfits
      exact hnot (htrusts _ rest (exchangeOf_answered rest))
    · obtain ⟨rest, -, hnot⟩ := wrap_not_trusted hother hwraps
      exact hnot (htrusts _ rest (exchangeOf_answered rest))
  · rintro (hrefused | hfew) io rest hanswered
    · exact .of_answered hanswered fun heq => absurd heq hrefused
    · have hstride : nblocks.toNat * hashLen ≤ manChunk := by
        rw [hashLen, manChunk]
        omega
      have hfits : nblocks.toNat * hashLen < 2 ^ 32 :=
        lt_of_le_of_lt hstride (by decide)
      exact trusts_of_short hanswered hfits (Or.inl hstride)
  · intro hfits io rest hanswered hshort
    rw [manChunk] at hfits
    exact trusts_of_short hanswered (by omega) (Or.inr hshort)

/-- A 28672-byte artifact in seven blocks: a chunk of 223 bytes and one of a
single byte at offset 200 make up the 224 bytes of its manifest, and the last
one is never written. -/
theorem overlap_trusted_unwritten :
    ∃ reply s, ctrlExchange (exchangeOf 28672 4096 7
        [chunkPacket 0 (List.replicate 223 0), chunkPacket 200 [0]]) = some reply ∧
      ciSvuNew true reply.total reply.block (reply.memory fun _ => 0) reply.nblocks = some s ∧
      223 < reply.nblocks * hashLen ∧ reply.manifest[223]? = some none := by
  have hreply : ctrlExchange (exchangeOf 28672 4096 7
      [chunkPacket 0 (List.replicate 223 0), chunkPacket 200 [0]]) =
      some ⟨28672, 4096, 7, List.replicate 223 (some 0) ++ [none]⟩ := by
    decide +kernel
  obtain ⟨s, hnew⟩ := ciSvuNew_accepts
    (CtrlReply.memory ⟨28672, 4096, 7, List.replicate 223 (some 0) ++ [none]⟩ fun _ => 0)
    (show ciSvuNblocks 28672 4096 = 7 by decide) (by decide)
  exact ⟨_, s, hreply, hnew, by decide, by decide⟩

end SatDeploy.Svu
