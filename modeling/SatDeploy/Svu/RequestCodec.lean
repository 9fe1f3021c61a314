import SatDeploy.Svu.Proto

/-!
The meta request on the wire, in both directions: what is encoded is decoded,
whatever follows it; which buffers are decoded; and what was decoded is encoded
to the bytes it came from.
-/

namespace SatDeploy.Svu

open Lib

/-- `len` bytes of a buffer from offset `p`. -/
def window (buf : Bytes) (p len : Nat) : Bytes := (buf.drop p).take len

section Windows

variable {buf : Bytes} {p len : Nat}

theorem window_append (k : Nat) : window buf p len ++ window buf (p + len) k =
    window buf p (len + k) := by
  rw [window, window, window, ← List.drop_drop, List.take_add]

/-- Four bytes read by `svu_get32` are written back. -/
theorem svuPut32_get32 (h : p + 4 ≤ buf.length) :
    svuPut32 (svuGet32 buf p) = window buf p 4 := by
  obtain ⟨a, b, c, d, rest, hdrop⟩ : ∃ a b c d rest, buf.drop p = a :: b :: c :: d :: rest := by
    have hlen : 4 ≤ (buf.drop p).length := by
      rw [List.length_drop]
      omega
    match buf.drop p, hlen with
    | a :: b :: c :: d :: rest, _ => exact ⟨a, b, c, d, rest, rfl⟩
  have hget (k : Nat) : buf.getD (p + k) 0 = (buf.drop p).getD k 0 := by
    rw [List.getD_eq_getElem?_getD, List.getD_eq_getElem?_getD, List.getElem?_drop]
  have hword : svuGet32 buf p = a.toUInt32 ||| (b.toUInt32 <<< 8) ||| (c.toUInt32 <<< 16) |||
      (d.toUInt32 <<< 24) := by
    have hfirst := hget 0
    rw [Nat.add_zero] at hfirst
    rw [svuGet32, hfirst, hget 1, hget 2, hget 3, hdrop]
    rfl
  rw [hword, window, hdrop, svuPut32]
  simp only [List.take_succ_cons, List.take_zero, List.cons.injEq, and_true,
    ← UInt8.toBitVec_inj, UInt32.toBitVec_or, UInt32.toBitVec_shiftLeft,
    UInt8.toBitVec_toUInt32, UInt32.toBitVec_toUInt8, UInt32.toBitVec_and,
    UInt32.toBitVec_shiftRight]
  -- byte by byte, each bit of a byte comes from one bit of the word
  refine ⟨?_, ?_, ?_, ?_⟩
  all_goals
    ext i hi
    simp
    interval_cases i <;> simp

theorem encodeInterval_decode {i : Nat} (h : svuReqHdr + (i + 1) * 8 ≤ buf.length) :
    encodeInterval (decodeInterval buf i) = window buf (svuReqHdr + i * 8) 8 := by
  unfold encodeInterval decodeInterval
  rw [svuPut32_get32 (by omega), svuPut32_get32 (by omega), window_append]

/-- The intervals are written back to the bytes behind the header. -/
theorem encodeIntervals_decode (n : Nat) (h : svuReqHdr + n * 8 ≤ buf.length) :
    ((List.range n).map (decodeInterval buf)).flatMap encodeInterval =
      window buf svuReqHdr (n * 8) := by
  induction n with
  | zero => simp [window]
  | succ n ih =>
      rw [List.range_succ, List.map_append, List.flatMap_append, ih (by omega)]
      simp only [List.map_cons, List.map_nil, List.flatMap_cons, List.flatMap_nil,
        List.append_nil]
      rw [encodeInterval_decode h, window_append, Nat.succ_mul]

end Windows

section Decoding

variable {buf : Bytes} {r : SvuReq}

/-- The checks of the decoder. -/
def Decodable (buf : Bytes) : Prop :=
  svuReqHdr ≤ buf.length ∧ svuGet32 buf 0 = svuMagicReq ∧
    (svuGet32 buf 16).toNat ≤ svuMaxIntervals ∧
    svuReqHdr + 8 * (svuGet32 buf 16).toNat ≤ buf.length

theorem svuReqDecode_isSome : (svuReqDecode buf).isSome ↔ Decodable buf := by
  unfold svuReqDecode Decodable
  dsimp only
  split
  next hshort =>
    simp only [Option.isSome_none, Bool.false_eq_true, false_iff]
    omega
  next hlong =>
    split
    next hfields =>
      simp only [Option.isSome_none, Bool.false_eq_true, false_iff]
      rintro ⟨-, hmagic, hnof, -⟩
      rcases hfields with hne | hlt
      · exact hne hmagic
      · omega
    next hfields =>
      simp only [not_or, not_not, Nat.not_lt] at hfields
      split
      next hcut =>
        simp only [Option.isSome_none, Bool.false_eq_true, false_iff]
        omega
      next =>
        simp only [Option.isSome_some, true_iff]
        exact ⟨by omega, hfields.1, hfields.2, by omega⟩

theorem svuReqDecode_eq_some (h : svuReqDecode buf = some r) :
    r.magic = svuGet32 buf 0 ∧ r.sessionId = svuGet32 buf 4 ∧ r.mtu = svuGet32 buf 8 ∧
    r.blockSize = svuGet32 buf 12 ∧ r.nofIntervals = svuGet32 buf 16 ∧
    r.clientAddr = svuGet32 buf 20 ∧
    r.intervals = fillIntervals ((List.range (svuGet32 buf 16).toNat).map
      (decodeInterval buf)) := by
  unfold svuReqDecode at h
  dsimp only at h
  split at h
  · cases h
  split at h
  · cases h
  split at h
  · cases h
  obtain rfl := Option.some.inj h
  exact ⟨rfl, rfl, rfl, rfl, rfl, rfl, rfl⟩

/-- A decoded request is encoded to the bytes it came from. -/
theorem svuReqEncode_decode (h : svuReqDecode buf = some r) :
    svuReqEncode r = buf.take (svuReqHdr + 8 * (svuGet32 buf 16).toNat) := by
  obtain ⟨hlen, -, hnof, htail⟩ := svuReqDecode_isSome.mp (by rw [h]; rfl)
  obtain ⟨hmagic, hsession, hmtu, hblock, hcount, haddr, hintervals⟩ := svuReqDecode_eq_some h
  have hclamp : (if r.nofIntervals.toNat > svuMaxIntervals then svuMaxIntervals
      else r.nofIntervals.toNat) = (svuGet32 buf 16).toNat := by
    rw [hcount, if_neg (by omega)]
  have hlist : r.intervals.take (svuGet32 buf 16).toNat =
      (List.range (svuGet32 buf 16).toNat).map (decodeInterval buf) := by
    rw [hintervals, take_fillIntervals hnof (by simp)]
    exact List.take_of_length_le (by simp)
  have hhdr : svuReqHdr = 24 := rfl
  have hwhole : buf.take (svuReqHdr + 8 * (svuGet32 buf 16).toNat) =
      window buf 0 (svuReqHdr + (svuGet32 buf 16).toNat * 8) := by
    rw [window, List.drop_zero, Nat.mul_comm 8]
  unfold svuReqEncode
  dsimp only
  rw [hclamp, hlist, hmagic, hsession, hmtu, hblock, haddr, UInt32.ofNat_toNat,
    encodeIntervals_decode _ (by omega), svuPut32_get32 (by omega), svuPut32_get32 (by omega),
    svuPut32_get32 (by omega), svuPut32_get32 (by omega), svuPut32_get32 (by omega),
    svuPut32_get32 (by omega), hwhole, ← window_append, Nat.zero_add]
  have hheader : window buf 0 svuReqHdr = window buf 0 4 ++ window buf 4 4 ++ window buf 8 4 ++
      window buf 12 4 ++ window buf 16 4 ++ window buf 20 4 := by
    rw [window_append, window_append, window_append, window_append, window_append]
    rfl
  rw [hheader]

end Decoding

/-- The codec of the meta request, in both directions. -/
theorem request_codec :
    (∀ (r : SvuReq) (rest : Bytes), r.magic = svuMagicReq →
      r.nofIntervals.toNat ≤ svuMaxIntervals →
      svuReqDecode (svuReqEncode r ++ rest) = some r.trimmed) ∧
    (∀ buf, (svuReqDecode buf).isSome ↔ Decodable buf) ∧
    ∀ buf r, svuReqDecode buf = some r →
      svuReqEncode r = buf.take (svuReqHdr + 8 * (svuGet32 buf 16).toNat) :=
  ⟨svuReqDecode_encode, fun _ => svuReqDecode_isSome, fun _ _ => svuReqEncode_decode⟩

/-- A request with no intervals, followed by one byte. -/
def bareRequest : SvuReq :=
  ⟨svuMagicReq, 7, 1024, 4096, 0, 5, List.replicate svuMaxIntervals ⟨0, 0⟩, rfl⟩

theorem request_codec_bare :
    svuReqDecode (svuReqEncode bareRequest ++ [9]) = some bareRequest.trimmed ∧
    (svuReqEncode bareRequest ++ [9]).take 24 = svuReqEncode bareRequest := by
  have hdecode := request_codec.1 bareRequest [9] rfl (by decide)
  exact ⟨hdecode, rfl⟩

end SatDeploy.Svu
