import SatDeploy.Lib.Bytes

/-!
The SVU wire format, `svu/svu_proto.h`: little-endian 32-bit fields, the meta
request with its capped interval list, and the header sizes of the response
and the data packets.
-/

namespace SatDeploy.Svu

open Lib

def svuDataHdr : Nat := 8
def svuMagicReq : UInt32 := 0x51555653
def svuMagicResp : UInt32 := 0x52555653
def svuMaxIntervals : Nat := 32
def svuReqHdr : Nat := 24
def svuRespHdr : Nat := 20

def svuPut32 (v : UInt32) : Bytes :=
  [(v &&& 0xFF).toUInt8, ((v >>> 8) &&& 0xFF).toUInt8,
   ((v >>> 16) &&& 0xFF).toUInt8, ((v >>> 24) &&& 0xFF).toUInt8]

/-- The 32-bit word at offset `p` of a buffer. -/
def svuGet32 (buf : Bytes) (p : Nat) : UInt32 :=
  (buf.getD p 0).toUInt32 ||| ((buf.getD (p + 1) 0).toUInt32 <<< 8) |||
    ((buf.getD (p + 2) 0).toUInt32 <<< 16) ||| ((buf.getD (p + 3) 0).toUInt32 <<< 24)

structure SvuWireInterval where
  start : UInt32
  stop : UInt32
  deriving DecidableEq, Repr

/-- A parsed meta request; `intervals` is the whole fixed array. -/
structure SvuReq where
  magic : UInt32
  sessionId : UInt32
  mtu : UInt32
  blockSize : UInt32
  nofIntervals : UInt32
  clientAddr : UInt32
  intervals : List SvuWireInterval
  length_intervals : intervals.length = svuMaxIntervals
  deriving DecidableEq, Repr

/-- An interval array holding `ivs` from index 0 and zeros behind them. -/
def fillIntervals (ivs : List SvuWireInterval) : List SvuWireInterval :=
  (ivs ++ List.replicate svuMaxIntervals (SvuWireInterval.mk 0 0)).take svuMaxIntervals

theorem length_fillIntervals (ivs : List SvuWireInterval) :
    (fillIntervals ivs).length = svuMaxIntervals := by
  simp [fillIntervals]

def encodeInterval (v : SvuWireInterval) : Bytes := svuPut32 v.start ++ svuPut32 v.stop

def svuReqEncode (r : SvuReq) : Bytes :=
  let n := if r.nofIntervals.toNat > svuMaxIntervals then svuMaxIntervals
    else r.nofIntervals.toNat
  svuPut32 r.magic ++ svuPut32 r.sessionId ++ svuPut32 r.mtu ++
    svuPut32 r.blockSize ++ svuPut32 (UInt32.ofNat n) ++ svuPut32 r.clientAddr ++
    (r.intervals.take n).flatMap encodeInterval

def decodeInterval (buf : Bytes) (i : Nat) : SvuWireInterval :=
  ⟨svuGet32 buf (svuReqHdr + i * 8), svuGet32 buf (svuReqHdr + i * 8 + 4)⟩

/-- `none` is the return value -1. -/
def svuReqDecode (buf : Bytes) : Option SvuReq :=
  if buf.length < svuReqHdr then none
  else
    let nof := svuGet32 buf 16
    if svuGet32 buf 0 ≠ svuMagicReq ∨ nof.toNat > svuMaxIntervals then none
    else if buf.length < svuReqHdr + nof.toNat * 8 then none
    else some {
      magic := svuGet32 buf 0
      sessionId := svuGet32 buf 4
      mtu := svuGet32 buf 8
      blockSize := svuGet32 buf 12
      nofIntervals := nof
      clientAddr := svuGet32 buf 20
      intervals := fillIntervals ((List.range nof.toNat).map (decodeInterval buf))
      length_intervals := length_fillIntervals _ }

/-- The request with the array cells beyond `nof_intervals` zeroed. -/
def SvuReq.trimmed (r : SvuReq) : SvuReq :=
  { r with
    intervals := fillIntervals (r.intervals.take r.nofIntervals.toNat)
    length_intervals := length_fillIntervals _ }

@[simp] theorem length_svuPut32 (v : UInt32) : (svuPut32 v).length = 4 := rfl

/-- Four bytes written by `svu_put32` read back as the word. -/
theorem svuGet32_put32 (v : UInt32) (rest : Bytes) :
    svuGet32 (svuPut32 v ++ rest) 0 = v := by
  change (v &&& 0xFF).toUInt8.toUInt32 |||
    (((v >>> 8) &&& 0xFF).toUInt8.toUInt32 <<< 8) |||
    (((v >>> 16) &&& 0xFF).toUInt8.toUInt32 <<< 16) |||
    (((v >>> 24) &&& 0xFF).toUInt8.toUInt32 <<< 24) = v
  apply UInt32.toBitVec_inj.mp
  simp only [UInt32.toBitVec_or, UInt32.toBitVec_shiftLeft,
    UInt8.toBitVec_toUInt32, UInt32.toBitVec_toUInt8, UInt32.toBitVec_and,
    UInt32.toBitVec_shiftRight]
  -- bit by bit: position `i` of the word comes from byte `i / 8`
  ext i hi
  simp
  interval_cases i <;> simp

theorem svuGet32_append (front rest : Bytes) (p : Nat) :
    svuGet32 (front ++ rest) (front.length + p) = svuGet32 rest p := by
  have hget (q : Nat) : (front ++ rest).getD (front.length + q) 0 = rest.getD q 0 := by
    rw [List.getD_eq_getElem?_getD, List.getElem?_append_right (by omega),
      Nat.add_sub_cancel_left, List.getD_eq_getElem?_getD]
  unfold svuGet32
  rw [hget p, Nat.add_assoc, hget, Nat.add_assoc, hget, Nat.add_assoc, hget]

/-- The word `svu_put32` left behind a prefix of known length. -/
theorem svuGet32_at {buf : Bytes} (front : Bytes) {rest : Bytes} {v : UInt32} {p : Nat}
    (hbuf : buf = front ++ (svuPut32 v ++ rest)) (hp : p = front.length) :
    svuGet32 buf p = v := by
  rw [hbuf, hp]
  have h := svuGet32_append front (svuPut32 v ++ rest) 0
  rw [Nat.add_zero] at h
  rw [h, svuGet32_put32]

@[simp] theorem length_encodeInterval (v : SvuWireInterval) :
    (encodeInterval v).length = 8 := rfl

theorem length_flatMap_encodeInterval (ivs : List SvuWireInterval) :
    (ivs.flatMap encodeInterval).length = ivs.length * 8 := by
  simp [List.length_flatMap]

/-- Interval `i` of an encoded list reads back at its own offset. -/
theorem decodeInterval_flatMap {buf : Bytes} (header : Bytes) (ivs : List SvuWireInterval)
    (rest : Bytes)
    (hbuf : buf = header ++ (ivs.flatMap encodeInterval ++ rest))
    (hheader : header.length = svuReqHdr) {i : Nat} {v : SvuWireInterval}
    (hi : ivs[i]? = some v) : decodeInterval buf i = v := by
  obtain ⟨hlt, hget⟩ := List.getElem?_eq_some_iff.mp hi
  have hsplit : ivs = ivs.take i ++ v :: ivs.drop (i + 1) := by
    rw [← hget, List.getElem_cons_drop, List.take_append_drop]
  have hfront : (header ++ (ivs.take i).flatMap encodeInterval).length =
      svuReqHdr + i * 8 := by
    rw [List.length_append, hheader, length_flatMap_encodeInterval,
      List.length_take, Nat.min_eq_left (by omega)]
  rw [hsplit, List.flatMap_append, List.flatMap_cons] at hbuf
  simp only [encodeInterval, List.append_assoc] at hbuf
  have hstart : svuGet32 buf (svuReqHdr + i * 8) = v.start := by
    apply svuGet32_at (header ++ (ivs.take i).flatMap encodeInterval)
    · rw [hbuf, List.append_assoc]
    · exact hfront.symm
  have hstop : svuGet32 buf (svuReqHdr + i * 8 + 4) = v.stop := by
    apply svuGet32_at
      (header ++ (ivs.take i).flatMap encodeInterval ++ svuPut32 v.start)
    · rw [hbuf]
      simp only [List.append_assoc]
      rfl
    · rw [List.length_append, hfront, length_svuPut32]
  unfold decodeInterval
  rw [hstart, hstop]

/-- Decoding an encoded request gives the request back, whatever follows it. -/
theorem svuReqDecode_encode (r : SvuReq) (rest : Bytes)
    (hmagic : r.magic = svuMagicReq) (hnof : r.nofIntervals.toNat ≤ svuMaxIntervals) :
    svuReqDecode (svuReqEncode r ++ rest) = some r.trimmed := by
  have hn : (if r.nofIntervals.toNat > svuMaxIntervals then svuMaxIntervals
      else r.nofIntervals.toNat) = r.nofIntervals.toNat := if_neg (by omega)
  generalize hbuf : svuReqEncode r ++ rest = buf
  simp only [svuReqEncode, hn, UInt32.ofNat_toNat] at hbuf
  have hlen : svuReqHdr + r.nofIntervals.toNat * 8 ≤ buf.length := by
    rw [← hbuf]
    simp only [List.length_append, length_svuPut32, length_flatMap_encodeInterval,
      List.length_take, r.length_intervals]
    rw [Nat.min_eq_left hnof]
    simp only [svuReqHdr]
    omega
  simp only [List.append_assoc] at hbuf
  have h0 : svuGet32 buf 0 = r.magic :=
    svuGet32_at [] hbuf.symm rfl
  have h4 : svuGet32 buf 4 = r.sessionId :=
    svuGet32_at (svuPut32 r.magic) hbuf.symm rfl
  have h8 : svuGet32 buf 8 = r.mtu :=
    svuGet32_at (svuPut32 r.magic ++ svuPut32 r.sessionId)
      (by rw [← hbuf]; simp only [List.append_assoc]; rfl) rfl
  have h12 : svuGet32 buf 12 = r.blockSize :=
    svuGet32_at (svuPut32 r.magic ++ svuPut32 r.sessionId ++ svuPut32 r.mtu)
      (by rw [← hbuf]; simp only [List.append_assoc]; rfl) rfl
  have h16 : svuGet32 buf 16 = r.nofIntervals :=
    svuGet32_at (svuPut32 r.magic ++ svuPut32 r.sessionId ++
      svuPut32 r.mtu ++ svuPut32 r.blockSize)
      (by rw [← hbuf]; simp only [List.append_assoc]; rfl) rfl
  have h20 : svuGet32 buf 20 = r.clientAddr :=
    svuGet32_at (svuPut32 r.magic ++ svuPut32 r.sessionId ++
      svuPut32 r.mtu ++ svuPut32 r.blockSize ++ svuPut32 r.nofIntervals)
      (by rw [← hbuf]; simp only [List.append_assoc]; rfl) rfl
  have hivs : (List.range r.nofIntervals.toNat).map (decodeInterval buf) =
      r.intervals.take r.nofIntervals.toNat := by
    have htake : (r.intervals.take r.nofIntervals.toNat).length =
        r.nofIntervals.toNat := by
      rw [List.length_take, r.length_intervals, Nat.min_eq_left hnof]
    apply List.ext_getElem (by rw [List.length_map, List.length_range, htake])
    intro i hi hi'
    rw [List.getElem_map, List.getElem_range]
    apply decodeInterval_flatMap
      (svuPut32 r.magic ++ svuPut32 r.sessionId ++ svuPut32 r.mtu ++
        svuPut32 r.blockSize ++ svuPut32 r.nofIntervals ++ svuPut32 r.clientAddr)
      (r.intervals.take r.nofIntervals.toNat) rest
    · rw [← hbuf]
      simp only [List.append_assoc]
    · rfl
    · exact List.getElem?_eq_getElem hi'
  have hfields : ¬ (svuGet32 buf 0 ≠ svuMagicReq ∨
      (svuGet32 buf 16).toNat > svuMaxIntervals) := by
    rw [h0, h16, hmagic]
    rintro (hne | hlt)
    · exact hne rfl
    · exact absurd hnof (Nat.not_le.mpr hlt)
  simp only [svuReqDecode]
  rw [if_neg (by omega), if_neg hfields, if_neg (by rw [h16]; omega)]
  simp only [SvuReq.trimmed, h0, h4, h8, h12, h16, h20, hivs]

theorem take_fillIntervals {ivs : List SvuWireInterval} {n : Nat}
    (hmax : n ≤ svuMaxIntervals) (hlen : n ≤ ivs.length) :
    (fillIntervals ivs).take n = ivs.take n := by
  unfold fillIntervals
  rw [List.take_take, Nat.min_eq_left hmax, List.take_append_of_le_length hlen]

/-- The cells a request announces survive the zeroing of the others. -/
theorem SvuReq.take_trimmed (r : SvuReq) (hnof : r.nofIntervals.toNat ≤ svuMaxIntervals) :
    r.trimmed.intervals.take r.nofIntervals.toNat =
      r.intervals.take r.nofIntervals.toNat := by
  unfold SvuReq.trimmed
  dsimp only
  rw [take_fillIntervals hnof, List.take_take, Nat.min_self]
  rw [List.length_take, r.length_intervals]
  exact Nat.le_min.mpr ⟨Nat.le_refl _, hnof⟩

end SatDeploy.Svu
