import SatDeploy.Agent.SessionState
import SatDeploy.Lib.Bitmap
import SatDeploy.Lib.Spans

/-!
The packet transfer of the agent, `satdeploy-agent/src/dtp_client.c`: a receive
bitmap, the gaps in it, and rounds of requests for the gaps. The transfer
library is not part of the repository: a call of `dtp_start_transfer` is the
packets it hands to the callback and the status it returns, and nothing else is
known of it. This is the flight build, with eight retry rounds and the sidecar.
-/

namespace SatDeploy.Agent

open Lib

def dtpDefaultMtu : Nat := 1024
def dtpMaxRetryRounds : Nat := 8
def sessionStateExt : Bytes := ascii ".dtpstate"

/-- `session_state_path` for a buffer of 640 bytes. -/
def sessionStatePath (app : Bytes) : Option Path :=
  let path := sessionStateDir ++ ascii "/" ++ app ++ sessionStateExt
  if appNameIsSafe app ∧ path.length < 640 then some path else none

/-- `download_ctx_t`; an empty bitmap is the null pointer. -/
structure DownloadCtx where
  error : Bool
  recvBitmap : Bytes
  nofPackets : Nat
  deriving DecidableEq, Repr

/-- `interval_t`, inclusive on both ends. -/
structure DtpInterval where
  start : Nat
  last : Nat
  deriving DecidableEq, Repr

section Gaps

def markSeqReceived (ctx : DownloadCtx) (seq : Nat) : DownloadCtx :=
  if seq ≥ ctx.nofPackets then ctx
  else { ctx with recvBitmap := setBit ctx.recvBitmap seq }

def seqIsReceived (ctx : DownloadCtx) (seq : Nat) : Bool :=
  if seq ≥ ctx.nofPackets then true else bitAt ctx.recvBitmap seq

/-- `while (i < limit && p(i)) i++`, for at most `limit - i` rounds. -/
def scanWhile (p : Nat → Bool) (limit : Nat) : Nat → Nat → Nat
  | 0, i => i
  | k + 1, i => if i < limit ∧ p i then scanWhile p limit k (i + 1) else i

/-- The loop of `compute_missing_intervals` from packet `i` on, with room for
`room` more intervals. -/
def missingFrom (ctx : DownloadCtx) : Nat → Nat → List DtpInterval
  | 0, _ => []
  | room + 1, i =>
      if i < ctx.nofPackets then
        let i := scanWhile (seqIsReceived ctx) ctx.nofPackets (ctx.nofPackets - i) i
        if i ≥ ctx.nofPackets then []
        else
          let gapStart := i
          let i := scanWhile (fun j => !seqIsReceived ctx j) ctx.nofPackets (ctx.nofPackets - i) i
          ⟨gapStart, i - 1⟩ :: missingFrom ctx room i
      else []

def computeMissingIntervals (ctx : DownloadCtx) : List DtpInterval := missingFrom ctx 8 0

def countReceivedPackets (ctx : DownloadCtx) : Nat :=
  (List.range ctx.nofPackets).countP (seqIsReceived ctx)

end Gaps

/-- A packet as the library hands it over: its length, and what
`dtp_get_data_info` finds in it. -/
structure DtpPacket where
  length : Nat
  dataOffset : Nat
  data : Bytes
  packetSequenceNumber : Nat
  deriving DecidableEq, Repr

/-- The transfer library: whether a session can be had, and what call number `k`
of `dtp_start_transfer` delivers and returns for its request. `none` is the null
packet, and the request that the library makes on its own. -/
structure Libdtp where
  ok : Int
  cancelled : Int
  prepares : Bool
  transfer : Nat → Option (List DtpInterval) → List (Option DtpPacket) × Int

/-- One call of `on_download_data`, with the context before and after it: the
packet it wrote and marked, and whether it could not seek or write. -/
structure Delivery where
  before : DownloadCtx
  after : DownloadCtx
  marked : Option Nat
  failed : Bool
  deriving DecidableEq, Repr

/-- One call of `dtp_start_transfer`. -/
structure TransferCall where
  request : Option (List DtpInterval)
  before : DownloadCtx
  deliveries : List Delivery
  after : DownloadCtx
  deriving DecidableEq, Repr

/-- How a download ended: what is returned, the context it ended with, the calls of
`dtp_start_transfer` it made, and whether the destination could be flushed and synced at
the end. -/
structure Download where
  success : Bool
  ctx : DownloadCtx
  calls : List TransferCall
  flushed : Bool
  deriving DecidableEq, Repr

/-- What `dtp_download_file` computes from its arguments before it touches a file. -/
structure DownloadPlan where
  nofPackets : Nat
  bitmapBytes : Nat
  key : SessionTuple
  state : Option Path
  deriving DecidableEq, Repr

def downloadPlan (expectedSize : UInt32) (expectedHash app : Option Bytes) (mtu : UInt16) :
    DownloadPlan :=
  let mtu := if mtu.toNat = 0 then dtpDefaultMtu else mtu.toNat
  let effMtu := if mtu > 8 then mtu - 8 else 1
  let nofPackets :=
    if expectedSize.toNat ≠ 0 then (expectedSize.toNat + effMtu - 1) % 2 ^ 32 / effMtu else 0
  let bitmapBytes := (nofPackets + 7) % 2 ^ 32 / 8
  { nofPackets := nofPackets
    bitmapBytes := bitmapBytes
    key := ⟨expectedSize, expectedHash.getD [], UInt32.ofNat nofPackets, UInt16.ofNat effMtu⟩
    state := if expectedHash.isSome ∧ expectedSize.toNat > 0 ∧ bitmapBytes > 0 then
      app.bind sessionStatePath else none }

section Programs

variable (env : Env) (lib : Libdtp)

def onDownloadData (dest : Path) (ctx : DownloadCtx) (packet : Option DtpPacket) :
    Prog Target Delivery := do
  match packet with
  | none => return ⟨ctx, ctx, none, false⟩
  | some packet =>
      let seq := packet.packetSequenceNumber
      if packet.length = 0 ∨ packet.length < 8 then return ⟨ctx, ctx, none, false⟩
      -- `fseek` and `fwrite`
      else if ← pwrite env dest packet.dataOffset packet.data then
        if seq < ctx.nofPackets ∧ ctx.recvBitmap = [] then Prog.die
        else return ⟨ctx, markSeqReceived ctx seq, some seq, false⟩
      else return ⟨ctx, { ctx with error := true }, none, true⟩

/-- The packets of one transfer, in the order the library delivers them. -/
def deliverPackets (dest : Path) : List (Option DtpPacket) → DownloadCtx →
    Prog Target (DownloadCtx × List Delivery)
  | [], ctx => return (ctx, [])
  | packet :: rest, ctx => do
      let delivery ← onDownloadData env dest ctx packet
      let (ctx, later) ← deliverPackets dest rest delivery.after
      return (ctx, delivery :: later)

def dtpStartTransfer (dest : Path) (k : Nat) (request : Option (List DtpInterval))
    (ctx : DownloadCtx) : Prog Target (TransferCall × Int) := do
  let (packets, result) := lib.transfer k request
  let (after, deliveries) ← deliverPackets env dest packets ctx
  return (⟨request, ctx, deliveries, after⟩, result)

/-- The retry loop with `left` rounds to go: the context, the hard error, and
the calls made. -/
def retryLoop (dest : Path) : Nat → Nat → DownloadCtx → Int → List TransferCall →
    Prog Target (DownloadCtx × Int × List TransferCall)
  | 0, _, ctx, _, calls => return (ctx, 0, calls)
  | left + 1, k, ctx, result, calls => do
      if ctx.recvBitmap = [] ∨ ctx.error then return (ctx, 0, calls)
      else if result ≠ lib.ok ∧ result ≠ lib.cancelled then return (ctx, result, calls)
      else if countReceivedPackets ctx ≥ ctx.nofPackets then return (ctx, 0, calls)
      else
        let gaps := computeMissingIntervals ctx
        if gaps = [] then return (ctx, 0, calls)
        else
          let (call, result) ← dtpStartTransfer env lib dest k (some gaps) ctx
          retryLoop dest left (k + 1) call.after result (calls ++ [call])

def unlinkState (state : Option Path) : Prog Target Unit := do
  match state with
  | some path =>
      let _ ← unlink env path
      return ()
  | none => return ()

/-- The destination opened and the bitmap that goes with it; `none` when it
cannot be opened. On resume the file is not emptied. -/
def openDownload (dest : Path) (state : Option Path) (resumed : Bool) (bitmap : Bytes) :
    Prog Target (Option (Bool × Bytes)) := do
  if resumed then
    if ← openUpdate env dest then return some (true, bitmap)
    else
      unlinkState env state
      if ← fopenWrite env dest then return some (false, List.replicate bitmap.length 0)
      else return none
  else if ← fopenWrite env dest then return some (false, bitmap)
  else return none

/-- The sidecar after the transfer. -/
def settleSidecar (state : Option Path) (key : SessionTuple) (ctx : DownloadCtx) (got : Nat)
    (fullyReceived : Bool) : Prog Target Unit := do
  match state with
  | none => return ()
  | some path =>
      if ctx.error then return ()
      else if fullyReceived then unlinkState env state
      else if ctx.recvBitmap ≠ [] ∧ got > 0 then
        let _ ← sessionStateSave env path key ctx.recvBitmap
        return ()
      else return ()

/-- The transfers of a download: the first one, for the gaps of a resumed bitmap
or for whatever the library asks for, and the retries. -/
def transferRounds (dest : Path) (ctx : DownloadCtx) (resumed : Bool) :
    Prog Target (DownloadCtx × Int × List TransferCall) := do
  let gotInitial := if ctx.recvBitmap = [] then 0 else countReceivedPackets ctx
  if ctx.nofPackets = 0 ∨ gotInitial ≥ ctx.nofPackets then return (ctx, 0, [])
  else
    let gaps := computeMissingIntervals ctx
    let request := if resumed ∧ gaps ≠ [] then some gaps else none
    let (call, result) ← dtpStartTransfer env lib dest 0 request ctx
    retryLoop env lib dest dtpMaxRetryRounds 1 call.after result [call]

/-- A fresh bitmap, or the one in the sidecar; the answer says which. -/
def resumeState (state : Option Path) (key : SessionTuple) (bitmapBytes : Nat) :
    Prog Target (Bool × Bytes) :=
  match state with
  | some path => sessionStateLoad env path key (List.replicate bitmapBytes 0)
  | none => return (false, List.replicate bitmapBytes 0)

/-- The rounds, with the destination open, if a session can be had. -/
def receiveInto (dest : Path) (nofPackets : Nat) (resumed : Bool) (bitmap : Bytes) :
    Prog Target (Option (DownloadCtx × Int × List TransferCall)) := do
  if lib.prepares then
    return some (← transferRounds env lib dest ⟨false, bitmap, nofPackets⟩ resumed)
  else
    fcloseWritten env dest
    return none

/-- The part of `dtp_download_file` before the destination is flushed. -/
def dtpReceive (dest : Path) (plan : DownloadPlan) :
    Prog Target (Option (DownloadCtx × Int × List TransferCall)) := do
  let (resumed, bitmap) ← resumeState env plan.state plan.key plan.bitmapBytes
  match ← openDownload env dest plan.state resumed bitmap with
  | none => return none
  | some (resumed, bitmap) => receiveInto env lib dest plan.nofPackets resumed bitmap

/-- The bitmap says that all packets are there. -/
def DownloadCtx.full (ctx : DownloadCtx) : Bool :=
  let got := if ctx.recvBitmap = [] then 0 else countReceivedPackets ctx
  ctx.nofPackets = 0 ∨ got ≥ ctx.nofPackets

/-- `fsync` fails as `fflush` does: the tail is not on the disk. -/
def fsync (p : Path) : Prog Target Bool := fflush env p

/-- The part after it; nobody looks at what `fflush`, `fsync` and `fclose` return. -/
def closeDownload (dest : Path) (plan : DownloadPlan) (ctx : DownloadCtx) (hardError : Int)
    (calls : List TransferCall) : Prog Target Download := do
  let got := if ctx.recvBitmap = [] then 0 else countReceivedPackets ctx
  let flushed ← fflush env dest
  let synced ← fsync env dest
  fcloseFlushed env dest flushed
  settleSidecar env plan.state plan.key ctx got ctx.full
  return ⟨!ctx.error && hardError = 0 && ctx.full, ctx, calls, flushed && synced⟩

/-- The answer is what became of the download, if it got as far as a session. -/
def dtpDownloadFile (dest : Path) (expectedSize : UInt32) (expectedHash app : Option Bytes)
    (mtu : UInt16) : Prog Target (Option Download) := do
  let plan := downloadPlan expectedSize expectedHash app mtu
  match ← dtpReceive env lib dest plan with
  | none => return none
  | some (ctx, hardError, calls) =>
      return some (← closeDownload env dest plan ctx hardError calls)

end Programs

/-! ### The gaps -/

section Scan

variable {p : Nat → Bool} {limit : Nat}

/-- A scan stops at the first position where its test fails. -/
theorem scanWhile_spec (k : Nat) : ∀ i, i ≤ limit → limit ≤ i + k →
    i ≤ scanWhile p limit k i ∧ scanWhile p limit k i ≤ limit ∧
    (∀ j, i ≤ j → j < scanWhile p limit k i → p j = true) ∧
    (scanWhile p limit k i < limit → p (scanWhile p limit k i) = false) := by
  induction k with
  | zero =>
      intro i hi hk
      refine ⟨le_refl _, hi, fun j hlow hhigh => ?_, fun hlt => ?_⟩
      · rw [scanWhile] at hhigh
        omega
      · rw [scanWhile] at hlt
        omega
  | succ k ih =>
      intro i hi hk
      rw [scanWhile]
      split
      next hgo =>
        obtain ⟨hlow, hhigh, hall, hstop⟩ := ih (i + 1) (by omega) (by omega)
        refine ⟨by omega, hhigh, fun j hj hlt => ?_, hstop⟩
        rcases Nat.eq_or_lt_of_le hj with rfl | hlater
        · exact hgo.2
        · exact hall j hlater hlt
      next hstay =>
        refine ⟨le_refl _, hi, fun j hlow hhigh => by omega, fun hlt => ?_⟩
        exact Bool.eq_false_iff.mpr fun hp => hstay ⟨hlt, hp⟩

end Scan

def DtpInterval.toSpan (v : DtpInterval) : Span := ⟨v.start, v.last + 1⟩

/-- Packet `i` belongs to the transfer and has not been received. -/
def DownloadCtx.Missing (ctx : DownloadCtx) (i : Nat) : Prop :=
  i < ctx.nofPackets ∧ bitAt ctx.recvBitmap i = false

/-- All the runs of missing packets. -/
def DownloadCtx.missingRuns (ctx : DownloadCtx) : List Span :=
  (missingFrom ctx (8 + ctx.nofPackets) 0).map DtpInterval.toSpan

section Gaps

variable {ctx : DownloadCtx}

theorem seqIsReceived_eq_false {i : Nat} : seqIsReceived ctx i = false ↔ ctx.Missing i := by
  unfold seqIsReceived DownloadCtx.Missing
  split
  next h => simp [h]
  next h => simp [Nat.lt_of_not_le h]

/-- The next run of missing packets, if there is one. -/
theorem missingFrom_succ (room i : Nat) (hi : i ≤ ctx.nofPackets) :
    (missingFrom ctx (room + 1) i = [] ∧ ∀ j, i ≤ j → ¬ ctx.Missing j) ∨
    ∃ start stop, missingFrom ctx (room + 1) i = ⟨start, stop - 1⟩ :: missingFrom ctx room stop ∧
      i ≤ start ∧ start < stop ∧ stop ≤ ctx.nofPackets ∧
      (∀ j, i ≤ j → j < start → ¬ ctx.Missing j) ∧
      (∀ j, start ≤ j → j < stop → ctx.Missing j) ∧ ¬ ctx.Missing stop := by
  rw [missingFrom]
  split
  next hlt =>
    obtain ⟨hlow, hhigh, hall, hstop⟩ := scanWhile_spec (p := seqIsReceived ctx)
      (ctx.nofPackets - i) i hi (by omega)
    generalize scanWhile (seqIsReceived ctx) ctx.nofPackets (ctx.nofPackets - i) i = start
      at hlow hhigh hall hstop
    have hbefore : ∀ j, i ≤ j → j < start → ¬ ctx.Missing j := by
      intro j hj hjs hmissing
      have hfalse := seqIsReceived_eq_false.mpr hmissing
      rw [hall j hj hjs] at hfalse
      cases hfalse
    dsimp only
    split
    next hend =>
      refine Or.inl ⟨rfl, fun j hj hmissing => ?_⟩
      have hjn := hmissing.1
      exact hbefore j hj (by omega) hmissing
    next hgap =>
      have hstart : start < ctx.nofPackets := by omega
      obtain ⟨hlow', hhigh', hall', hstop'⟩ := scanWhile_spec
        (p := fun j => !seqIsReceived ctx j) (ctx.nofPackets - start) start hhigh (by omega)
      generalize scanWhile (fun j => !seqIsReceived ctx j) ctx.nofPackets
        (ctx.nofPackets - start) start = stop at hlow' hhigh' hall' hstop'
      have hrun : ∀ j, start ≤ j → j < stop → ctx.Missing j := by
        intro j hj hjs
        exact seqIsReceived_eq_false.mp (by simpa using hall' j hj hjs)
      have hpast : ¬ ctx.Missing stop := by
        intro hmissing
        have hfalse := hstop' hmissing.1
        rw [seqIsReceived_eq_false.mpr hmissing] at hfalse
        cases hfalse
      have hne : start ≠ stop := by
        rintro rfl
        exact hpast (seqIsReceived_eq_false.mp (hstop hstart))
      exact Or.inr ⟨start, stop, rfl, hlow, by omega, hhigh', hbefore, hrun, hpast⟩
  next hge =>
    refine Or.inl ⟨rfl, fun j hj hmissing => ?_⟩
    have hjn := hmissing.1
    omega

/-- With enough room the loop finds every run. -/
theorem missingFrom_all (room : Nat) : ∀ i, i ≤ ctx.nofPackets → ctx.nofPackets ≤ i + room →
    Span.Separated ((missingFrom ctx room i).map DtpInterval.toSpan) ∧
    (∀ v ∈ (missingFrom ctx room i).map DtpInterval.toSpan, i ≤ v.start) ∧
    ∀ j, Span.Covers ((missingFrom ctx room i).map DtpInterval.toSpan) j ↔
      i ≤ j ∧ ctx.Missing j := by
  induction room with
  | zero =>
      intro i hi hroom
      refine ⟨Span.separated_nil, by simp [missingFrom], fun j => ?_⟩
      have hnone : ¬ (i ≤ j ∧ ctx.Missing j) := by
        rintro ⟨hj, hlt, -⟩
        omega
      simp [missingFrom, hnone]
  | succ room ih =>
      intro i hi hroom
      rcases missingFrom_succ room i hi with
        ⟨hnil, hnone⟩ | ⟨start, stop, hcons, hlow, hlt, hhigh, hbefore, hrun, hpast⟩
      · rw [hnil]
        refine ⟨Span.separated_nil, by simp, fun j => ?_⟩
        simpa using hnone j
      · obtain ⟨hsep, hstarts, hcovers⟩ := ih stop hhigh (by omega)
        have hlast : stop - 1 + 1 = stop := by omega
        rw [hcons, List.map_cons, DtpInterval.toSpan, hlast]
        refine ⟨Span.separated_cons.mpr ⟨hlt, fun w hw => ?_, hsep⟩, ?_, fun j => ?_⟩
        · -- the next run does not touch this one: the packet between was received
          have hw' := hstarts w hw
          rcases Nat.eq_or_lt_of_le hw' with heq | hafter
          · have hcovered : Span.Covers
                ((missingFrom ctx room stop).map DtpInterval.toSpan) w.start :=
              ⟨w, hw, le_refl _, hsep.nonempty w hw⟩
            exact absurd ((hcovers _).mp hcovered).2 (heq ▸ hpast)
          · exact hafter
        · intro w hw
          rcases List.mem_cons.mp hw with rfl | hw
          · exact hlow
          · have hw' := hstarts w hw
            omega
        · rw [Span.covers_cons, hcovers]
          constructor
          · rintro (⟨hj, hjs⟩ | ⟨hj, hmissing⟩)
            · exact ⟨by dsimp only at hj; omega, hrun j hj hjs⟩
            · exact ⟨by omega, hmissing⟩
          · rintro ⟨hj, hmissing⟩
            by_cases hjs : j < stop
            · refine Or.inl ⟨?_, hjs⟩
              by_contra hnot
              exact hbefore j hj (by dsimp only at hnot; omega) hmissing
            · exact Or.inr ⟨by omega, hmissing⟩

/-- With less room it finds the first ones. -/
theorem missingFrom_take (room extra : Nat) : ∀ i,
    missingFrom ctx room i = (missingFrom ctx (room + extra) i).take room := by
  induction room with
  | zero =>
      intro i
      simp [missingFrom]
  | succ room ih =>
      intro i
      have hshift : room + 1 + extra = room + extra + 1 := by omega
      rw [hshift]
      simp only [missingFrom]
      split
      · split
        · rfl
        · rw [List.take_succ_cons, ← ih]
      · rfl

theorem missingRuns_separated : Span.Separated ctx.missingRuns :=
  (missingFrom_all _ 0 (Nat.zero_le _) (by omega)).1

theorem covers_missingRuns (i : Nat) : Span.Covers ctx.missingRuns i ↔ ctx.Missing i := by
  obtain ⟨-, -, hcovers⟩ := missingFrom_all (8 + ctx.nofPackets) 0 (Nat.zero_le _)
    (show ctx.nofPackets ≤ 0 + (8 + ctx.nofPackets) by omega)
  simpa [DownloadCtx.missingRuns] using hcovers i

theorem computeMissingIntervals_spans :
    (computeMissingIntervals ctx).map DtpInterval.toSpan = ctx.missingRuns.take 8 := by
  rw [computeMissingIntervals, missingFrom_take 8 ctx.nofPackets, DownloadCtx.missingRuns,
    List.map_take]

/-- A packet lies in one of the requested intervals. -/
def Requested (gaps : List DtpInterval) (i : Nat) : Prop :=
  ∃ v ∈ gaps, v.start ≤ i ∧ i ≤ v.last

theorem requested_iff {gaps : List DtpInterval} {i : Nat} :
    Requested gaps i ↔ Span.Covers (gaps.map DtpInterval.toSpan) i := by
  simp [Requested, Span.Covers, DtpInterval.toSpan]

theorem requested_missing {i : Nat} (h : Requested (computeMissingIntervals ctx) i) :
    ctx.Missing i := by
  rw [requested_iff, computeMissingIntervals_spans] at h
  exact (covers_missingRuns i).mp ((Span.covers_take_drop _ 8 i).mpr (Or.inl h))

theorem countReceivedPackets_eq : countReceivedPackets ctx = ctx.nofPackets ↔
    ∀ i, ¬ ctx.Missing i := by
  have hlen : ctx.nofPackets = (List.range ctx.nofPackets).length := List.length_range.symm
  rw [countReceivedPackets]
  nth_rewrite 2 [hlen]
  rw [List.countP_eq_length]
  constructor
  · intro hall i hmissing
    have htrue := hall i (List.mem_range.mpr hmissing.1)
    rw [seqIsReceived_eq_false.mpr hmissing] at htrue
    cases htrue
  · intro hnone i _
    by_contra hfalse
    exact hnone i (seqIsReceived_eq_false.mp (by simpa using hfalse))

theorem countReceivedPackets_le : countReceivedPackets ctx ≤ ctx.nofPackets := by
  have hle := List.countP_le_length (p := seqIsReceived ctx) (l := List.range ctx.nofPackets)
  rwa [List.length_range] at hle

theorem computeMissingIntervals_eq_nil :
    computeMissingIntervals ctx = [] ↔ countReceivedPackets ctx = ctx.nofPackets := by
  rw [countReceivedPackets_eq]
  constructor
  · intro hnil i hmissing
    have htake : ctx.missingRuns.take 8 = [] := by
      rw [← computeMissingIntervals_spans, hnil]
      rfl
    have hruns : ctx.missingRuns = [] := by
      rcases List.take_eq_nil_iff.mp htake with h | h
      · cases h
      · exact h
    have hcovered := (covers_missingRuns i).mpr hmissing
    rw [hruns] at hcovered
    exact Span.not_covers_nil i hcovered
  · intro hnone
    have hruns : ctx.missingRuns = [] := by
      refine List.eq_nil_iff_forall_not_mem.mpr fun v hv => ?_
      exact hnone v.start ((covers_missingRuns v.start).mp
        ⟨v, hv, le_refl _, missingRuns_separated.nonempty v hv⟩)
    have hspans : (computeMissingIntervals ctx).map DtpInterval.toSpan = ctx.missingRuns.take 8 :=
      computeMissingIntervals_spans
    rw [hruns] at hspans
    simpa using hspans

/-- When what was requested arrives and nothing else, the requested runs are
closed and the others stay. -/
theorem missingRuns_drop {after : DownloadCtx}
    (h : ∀ i, after.Missing i ↔ ctx.Missing i ∧ ¬ Requested (computeMissingIntervals ctx) i) :
    after.missingRuns = ctx.missingRuns.drop 8 := by
  refine missingRuns_separated.ext (missingRuns_separated.drop 8) fun i => ?_
  rw [covers_missingRuns, h, requested_iff, computeMissingIntervals_spans, ← covers_missingRuns,
    Span.covers_take_drop _ 8]
  constructor
  · rintro ⟨htake | hdrop, hnot⟩
    · exact absurd htake hnot
    · exact hdrop
  · intro hdrop
    exact ⟨Or.inr hdrop, fun htake =>
      missingRuns_separated.not_covers_take_drop 8 htake hdrop⟩

end Gaps

/-! ### Marking -/

section Marking

variable {ctx : DownloadCtx} {seq : Nat}

/-- The bitmap has a bit for every packet. -/
def DownloadCtx.Sized (ctx : DownloadCtx) : Prop :=
  ctx.recvBitmap.length = (ctx.nofPackets + 7) / 8

theorem markSeqReceived_bits (hsized : ctx.Sized) (hseq : seq < ctx.nofPackets) (j : Nat) :
    bitAt (markSeqReceived ctx seq).recvBitmap j = true ↔
      j = seq ∨ bitAt ctx.recvBitmap j = true := by
  have hinside : seq / 8 < ctx.recvBitmap.length := by
    rw [hsized]
    omega
  rw [markSeqReceived, if_neg (by omega)]
  exact bitAt_setBit hinside

/-- A context may grow into another: the same transfer, and nothing received is
lost. -/
structure Grows (a b : DownloadCtx) : Prop where
  packets : b.nofPackets = a.nofPackets
  bitmap : b.recvBitmap.length = a.recvBitmap.length
  received : ∀ i, bitAt a.recvBitmap i = true → bitAt b.recvBitmap i = true

theorem Grows.refl (a : DownloadCtx) : Grows a a := ⟨rfl, rfl, fun _ h => h⟩

theorem Grows.trans {a b c : DownloadCtx} (h : Grows a b) (h' : Grows b c) : Grows a c :=
  ⟨h'.packets.trans h.packets, h'.bitmap.trans h.bitmap,
    fun i hi => h'.received i (h.received i hi)⟩

theorem markSeqReceived_grows : Grows ctx (markSeqReceived ctx seq) := by
  unfold markSeqReceived
  split
  · exact .refl ctx
  · refine ⟨rfl, length_setBit, fun i hi => ?_⟩
    by_cases hinside : seq / 8 < ctx.recvBitmap.length
    · exact (bitAt_setBit hinside).mpr (Or.inr hi)
    · have hsame : setBit ctx.recvBitmap seq = ctx.recvBitmap :=
        List.modify_eq_self (by omega)
      rw [hsame]
      exact hi

end Marking

/-! ### The run of a download -/

/-- What a call of the data callback does. -/
inductive Delivered : Delivery → Prop where
  | skipped (ctx : DownloadCtx) : Delivered ⟨ctx, ctx, none, false⟩
  | written (ctx : DownloadCtx) (seq : Nat) (h : seq < ctx.nofPackets → ctx.recvBitmap ≠ []) :
      Delivered ⟨ctx, markSeqReceived ctx seq, some seq, false⟩
  | failed (ctx : DownloadCtx) : Delivered ⟨ctx, { ctx with error := true }, none, true⟩

/-- Deliveries one after another. -/
inductive Delivers : DownloadCtx → List Delivery → DownloadCtx → Prop where
  | nil (ctx : DownloadCtx) : Delivers ctx [] ctx
  | cons {d : Delivery} {ds : List Delivery} {ctx' : DownloadCtx} (h : Delivered d)
      (hlater : Delivers d.after ds ctx') : Delivers d.before (d :: ds) ctx'

/-- The transfers of a download: the first asks for the gaps of a resumed bitmap
or leaves the request to the library, the later ones ask for the gaps. -/
inductive Transfers (ctx : DownloadCtx) : List TransferCall → DownloadCtx → Prop where
  | nil : Transfers ctx [] ctx
  | snoc {calls : List TransferCall} {call : TransferCall}
      (hbefore : Transfers ctx calls call.before)
      (hdelivers : Delivers call.before call.deliveries call.after)
      (hrequest : call.request = some (computeMissingIntervals call.before) ∨
        calls = [] ∧ call.request = none) :
      Transfers ctx (calls ++ [call]) call.after

section Runs

variable {env : Env} {lib : Libdtp} {dest : Path}

theorem onDownloadData_answers (ctx : DownloadCtx) (packet : Option DtpPacket) :
    Prog.Answers (onDownloadData env dest ctx packet) fun d => d.before = ctx ∧ Delivered d := by
  unfold onDownloadData
  cases packet with
  | none => exact .pure ⟨rfl, .skipped ctx⟩
  | some packet =>
      refine .ite (.pure ⟨rfl, .skipped ctx⟩) (.after fun written => .ite ?_ ?_)
      · split
        · exact .die
        next hmapped =>
          refine .pure ⟨rfl, .written ctx _ fun hseq hnull => hmapped ⟨hseq, hnull⟩⟩
      · exact .pure ⟨rfl, .failed ctx⟩

theorem deliverPackets_answers (packets : List (Option DtpPacket)) : ∀ ctx : DownloadCtx,
    Prog.Answers (deliverPackets env dest packets ctx) fun r => Delivers ctx r.2 r.1 := by
  induction packets with
  | nil => exact fun ctx => .pure (.nil ctx)
  | cons packet rest ih =>
      intro ctx
      refine .bind (onDownloadData_answers ctx packet) ?_
      rintro d ⟨rfl, hd⟩
      exact .bind (ih d.after) fun r hr => .pure (.cons hd hr)

theorem dtpStartTransfer_answers (k : Nat) (request : Option (List DtpInterval))
    (ctx : DownloadCtx) :
    Prog.Answers (dtpStartTransfer env lib dest k request ctx) fun r =>
      r.1.before = ctx ∧ r.1.request = request ∧
        Delivers r.1.before r.1.deliveries r.1.after := by
  unfold dtpStartTransfer
  exact .bind (deliverPackets_answers _ ctx) fun r hr => .pure ⟨rfl, rfl, hr⟩

theorem retryLoop_answers {ctx₀ : DownloadCtx} (left : Nat) : ∀ (k : Nat) (ctx : DownloadCtx)
    (result : Int) (calls : List TransferCall), Transfers ctx₀ calls ctx →
    Prog.Answers (retryLoop env lib dest left k ctx result calls) fun r =>
      Transfers ctx₀ r.2.2 r.1 := by
  induction left with
  | zero => exact fun k ctx result calls h => .pure h
  | succ left ih =>
      intro k ctx result calls h
      refine .ite (.pure h) (.ite (.pure h) (.ite (.pure h) ?_))
      refine .ite (.pure h) (.bind (dtpStartTransfer_answers k _ ctx) ?_)
      rintro ⟨call, result⟩ ⟨rfl, hrequest, hdelivers⟩
      exact ih _ _ _ _ (.snoc h hdelivers (Or.inl hrequest))

theorem transferRounds_answers (ctx : DownloadCtx) (resumed : Bool) :
    Prog.Answers (transferRounds env lib dest ctx resumed) fun r => Transfers ctx r.2.2 r.1 := by
  unfold transferRounds
  refine .ite (.pure .nil) (.bind (dtpStartTransfer_answers 0 _ ctx) ?_)
  rintro ⟨call, result⟩ ⟨rfl, hrequest, hdelivers⟩
  refine retryLoop_answers _ _ _ _ _ (.snoc .nil hdelivers ?_)
  rw [hrequest]
  split
  · exact Or.inl rfl
  · exact Or.inr ⟨rfl, rfl⟩

end Runs

/-- Every packet has a bit, or there is no bitmap at all. -/
def DownloadCtx.Mapped (ctx : DownloadCtx) : Prop :=
  ctx.recvBitmap = [] ∨ ctx.nofPackets ≤ 8 * ctx.recvBitmap.length

theorem Grows.mapped {a b : DownloadCtx} (h : Grows a b) (ha : a.Mapped) : b.Mapped := by
  rcases ha with hnil | hfits
  · left
    apply List.length_eq_zero_iff.mp
    rw [h.bitmap, hnil]
    rfl
  · right
    rw [h.packets, h.bitmap]
    exact hfits

section Deliveries

variable {d : Delivery} {ds : List Delivery} {ctx ctx' : DownloadCtx}

theorem Delivered.grows (h : Delivered d) : Grows d.before d.after := by
  cases h with
  | skipped ctx => exact .refl ctx
  | written ctx seq _ => exact markSeqReceived_grows
  | failed ctx => exact ⟨rfl, rfl, fun _ hi => hi⟩

theorem Delivered.error (h : Delivered d) : d.after.error = (d.before.error || d.failed) := by
  cases h with
  | skipped ctx => simp
  | written ctx seq _ =>
      unfold markSeqReceived
      split <;> simp
  | failed ctx => simp

/-- A delivery marks the packet it wrote and no other. -/
theorem Delivered.bits (h : Delivered d) (hmapped : d.before.Mapped) {i : Nat}
    (hi : i < d.before.nofPackets) : bitAt d.after.recvBitmap i = true ↔
      bitAt d.before.recvBitmap i = true ∨ d.marked = some i := by
  cases h with
  | skipped ctx => simp
  | written ctx seq hnull =>
      dsimp only at hmapped hi ⊢
      by_cases hseq : seq < ctx.nofPackets
      · have hfits := hmapped.resolve_left (hnull hseq)
        have hinside : seq / 8 < ctx.recvBitmap.length := by omega
        rw [markSeqReceived, if_neg (by omega), bitAt_setBit hinside, Option.some.injEq, Or.comm,
          @eq_comm _ i seq]
      · have hother : seq ≠ i := by omega
        rw [markSeqReceived, if_pos (by omega)]
        simp [hother]
  | failed ctx => simp

theorem Delivers.grows (h : Delivers ctx ds ctx') : Grows ctx ctx' := by
  induction h with
  | nil ctx => exact .refl ctx
  | cons hd _ ih => exact hd.grows.trans ih

theorem Delivers.error (h : Delivers ctx ds ctx') (hend : ctx'.error = false) :
    ctx.error = false ∧ ∀ d ∈ ds, d.failed = false := by
  induction h with
  | nil ctx => exact ⟨hend, by simp⟩
  | @cons d ds ctx' hd hlater ih =>
      obtain ⟨hafter, hrest⟩ := ih hend
      rw [hd.error, Bool.or_eq_false_iff] at hafter
      refine ⟨hafter.1, fun x hx => ?_⟩
      rcases List.mem_cons.mp hx with rfl | hx
      · exact hafter.2
      · exact hrest x hx

/-- The contexts of a transfer, in their order. -/
theorem Delivers.history (h : Delivers ctx ds ctx') :
    (ctx :: ds.map (·.after)).Pairwise Grows ∧
    ∀ c ∈ ctx :: ds.map (·.after), Grows c ctx' := by
  induction h with
  | nil ctx => exact ⟨by simp, by simp [Grows.refl]⟩
  | @cons d ds ctx' hd hlater ih =>
      obtain ⟨hpairs, hlast⟩ := ih
      have hfirst : ∀ c ∈ d.after :: ds.map (·.after), Grows d.before c := by
        intro c hc
        rcases List.mem_cons.mp hc with rfl | hc
        · exact hd.grows
        · exact hd.grows.trans ((List.pairwise_cons.mp hpairs).1 c hc)
      refine ⟨List.pairwise_cons.mpr ⟨hfirst, hpairs⟩, fun c hc => ?_⟩
      rcases List.mem_cons.mp hc with rfl | hc
      · exact hd.grows.trans hlater.grows
      · exact hlast c hc

/-- The packets a transfer brought. -/
theorem Delivers.bits (h : Delivers ctx ds ctx') (hmapped : ctx.Mapped) {i : Nat}
    (hi : i < ctx.nofPackets) : bitAt ctx'.recvBitmap i = true ↔
      bitAt ctx.recvBitmap i = true ∨ ∃ d ∈ ds, d.marked = some i := by
  induction h with
  | nil ctx => simp
  | @cons d ds ctx' hd hlater ih =>
      have hgrows := hd.grows
      rw [ih (hgrows.mapped hmapped) (hgrows.packets ▸ hi), hd.bits hmapped hi, or_assoc]
      simp

end Deliveries

/-- The contexts of a download, in their order. -/
def contexts (calls : List TransferCall) : List DownloadCtx :=
  calls.flatMap fun call => call.before :: call.deliveries.map (·.after)

section Calls

variable {ctx ctx' : DownloadCtx} {calls : List TransferCall}

theorem Transfers.grows (h : Transfers ctx calls ctx') : Grows ctx ctx' := by
  induction h with
  | nil => exact .refl ctx
  | snoc _ hdelivers _ ih => exact ih.trans hdelivers.grows

theorem Transfers.history (h : Transfers ctx calls ctx') :
    (contexts calls).Pairwise Grows ∧ ∀ c ∈ contexts calls, Grows c ctx' := by
  induction h with
  | nil => exact ⟨by simp [contexts], by simp [contexts]⟩
  | @snoc calls call hbefore hdelivers hrequest ih =>
      obtain ⟨hpairs, hlast⟩ := ih
      obtain ⟨hpairs', hlast'⟩ := hdelivers.history
      have hsplit : contexts (calls ++ [call]) =
          contexts calls ++ (call.before :: call.deliveries.map (·.after)) := by
        simp [contexts]
      rw [hsplit]
      constructor
      · refine List.pairwise_append.mpr ⟨hpairs, hpairs', fun a ha b hb => ?_⟩
        have hjoin := hlast a ha
        rcases List.mem_cons.mp hb with rfl | hb
        · exact hjoin
        · exact hjoin.trans ((List.pairwise_cons.mp hpairs').1 b hb)
      · intro c hc
        rcases List.mem_append.mp hc with hc | hc
        · exact (hlast c hc).trans hdelivers.grows
        · exact hlast' c hc

theorem Transfers.error (h : Transfers ctx calls ctx') (hend : ctx'.error = false) :
    ∀ call ∈ calls, ∀ d ∈ call.deliveries, d.failed = false := by
  induction h with
  | nil => simp
  | @snoc calls call hbefore hdelivers hrequest ih =>
      obtain ⟨hstart, hgood⟩ := hdelivers.error hend
      intro x hx
      rcases List.mem_append.mp hx with hx | hx
      · exact ih hstart x hx
      · rw [List.mem_singleton.mp hx]
        exact hgood

/-- One call of a download. -/
theorem Transfers.call (h : Transfers ctx calls ctx') {before later : List TransferCall}
    {call : TransferCall} (hcalls : calls = before ++ call :: later) :
    Grows ctx call.before ∧ Delivers call.before call.deliveries call.after ∧
    (call.request = some (computeMissingIntervals call.before) ∨
      before = [] ∧ call.request = none) := by
  induction h generalizing later with
  | nil => simp at hcalls
  | @snoc calls last hbefore hdelivers hrequest ih =>
      rcases List.eq_nil_or_concat later with rfl | ⟨init, end', rfl⟩
      · obtain ⟨rfl, hlast⟩ := List.append_inj' hcalls rfl
        obtain rfl : last = call := by simpa using hlast
        exact ⟨hbefore.grows, hdelivers, hrequest⟩
      · rw [List.concat_eq_append, ← List.cons_append, ← List.append_assoc] at hcalls
        obtain ⟨hinit, -⟩ := List.append_inj' hcalls rfl
        exact ih hinit

end Calls

/-- What a download that made its transfers has done. -/
structure Download.Sound (d : Download) : Prop where
  /-- The received packets stay received from each context to every later one. -/
  grows : (contexts d.calls ++ [d.ctx]).Pairwise Grows
  /-- A request after the first one lists missing packets only. -/
  requests : ∀ before call later, d.calls = before ++ call :: later → before ≠ [] →
    ∃ gaps, call.request = some gaps ∧ ∀ i, Requested gaps i → call.before.Missing i
  /-- A round that brings what it asked for closes the first eight gaps. -/
  closes : ∀ before call later gaps, d.calls = before ++ call :: later →
    call.request = some gaps →
    (∀ i, i < call.before.nofPackets →
      ((∃ x ∈ call.deliveries, x.marked = some i) ↔ Requested gaps i)) →
    call.after.missingRuns.length =
      call.before.missingRuns.length - min 8 call.before.missingRuns.length
  /-- Success means that all packets were received and written to the stream. -/
  complete : d.success = true → (∀ i, i < d.ctx.nofPackets → bitAt d.ctx.recvBitmap i = true) ∧
    ∀ call ∈ d.calls, ∀ x ∈ call.deliveries, x.failed = false

section Downloads

variable {ctx ctx' : DownloadCtx} {calls : List TransferCall}

theorem bitAt_of_not_missing {i : Nat} (hi : i < ctx.nofPackets) (h : ¬ ctx.Missing i) :
    bitAt ctx.recvBitmap i = true := by
  by_contra hfalse
  exact h ⟨hi, by simpa using hfalse⟩

/-- A round that brings exactly what was asked for. -/
theorem closes_gaps {call : TransferCall} (hmapped : call.before.Mapped)
    (hdelivers : Delivers call.before call.deliveries call.after)
    (harrived : ∀ i, i < call.before.nofPackets →
      ((∃ x ∈ call.deliveries, x.marked = some i) ↔
        Requested (computeMissingIntervals call.before) i)) :
    call.after.missingRuns.length =
      call.before.missingRuns.length - min 8 call.before.missingRuns.length := by
  have hmissing : ∀ i, call.after.Missing i ↔
      call.before.Missing i ∧ ¬ Requested (computeMissingIntervals call.before) i := by
    intro i
    unfold DownloadCtx.Missing
    rw [hdelivers.grows.packets]
    by_cases hi : i < call.before.nofPackets
    · have hbits := hdelivers.bits hmapped hi
      rw [harrived i hi] at hbits
      rw [← Bool.not_eq_true, hbits, ← Bool.not_eq_true, not_or, and_assoc]
    · simp [hi]
  rw [missingRuns_drop hmissing, List.length_drop]
  omega

theorem Transfers.sound (h : Transfers ctx calls ctx') (hmapped : ctx.Mapped)
    {success flushed : Bool}
    (hsuccess : success = true → ctx'.error = false ∧ ∀ i, ¬ ctx'.Missing i) :
    Download.Sound ⟨success, ctx', calls, flushed⟩ := by
  obtain ⟨hpairs, hlast⟩ := h.history
  constructor
  · refine List.pairwise_append.mpr ⟨hpairs, by simp, fun a ha b hb => ?_⟩
    rw [List.mem_singleton.mp hb]
    exact hlast a ha
  · intro before call later hcalls hne
    obtain ⟨-, -, hrequest⟩ := h.call hcalls
    refine ⟨_, hrequest.resolve_right fun hfirst => hne hfirst.1, fun i => requested_missing⟩
  · intro before call later gaps hcalls hgaps harrived
    obtain ⟨hgrows, hdelivers, hrequest⟩ := h.call hcalls
    have hasked : gaps = computeMissingIntervals call.before := by
      rcases hrequest with hsome | ⟨-, hnone⟩
      · exact Option.some.inj (hgaps.symm.trans hsome)
      · rw [hnone] at hgaps
        cases hgaps
    rw [hasked] at harrived
    exact closes_gaps (hgrows.mapped hmapped) hdelivers harrived
  · intro hdone
    obtain ⟨hclean, hall⟩ := hsuccess hdone
    exact ⟨fun i hi => bitAt_of_not_missing hi (hall i), h.error hclean⟩

theorem sessionStateLoad_answers {env : Env} (path : Path) (key : SessionTuple) (out : Bytes) :
    Prog.Answers (sessionStateLoad env path key out) fun r => r.2.length = out.length := by
  unfold sessionStateLoad
  refine .after fun data => ?_
  cases data with
  | none => exact .pure rfl
  | some data =>
      refine .after fun _ => .after fun _ => .after fun _ => .after fun _ => .after fun _ =>
        .after fun _ => ?_
      refine .ite (.ite (.ite ?_ (.pure rfl)) ?_) ?_
      · refine .after fun got => ?_
        dsimp only
        split
        next hfull => exact .pure hfull
        next => exact .after fun _ => .pure (by simp)
      · exact .after fun _ => .pure rfl
      · exact .after fun _ => .pure rfl

theorem openDownload_answers {env : Env} (dest : Path) (state : Option Path) (resumed : Bool)
    (bitmap : Bytes) : Prog.Answers (openDownload env dest state resumed bitmap) fun r =>
      ∀ x, r = some x → x.2.length = bitmap.length := by
  have hnone : ∀ x : Bool × Bytes, none = some x → x.2.length = bitmap.length :=
    fun x h => by cases h
  unfold openDownload
  refine .ite (.after fun opened => .ite (.pure ?_) ?_) (.after fun opened => .ite (.pure ?_)
    (.pure hnone))
  · rintro x ⟨⟩
    rfl
  · refine .after fun _ => .after fun opened => .ite (.pure ?_) (.pure hnone)
    rintro x ⟨⟩
    simp
  · rintro x ⟨⟩
    rfl

theorem resumeState_answers {env : Env} (state : Option Path) (key : SessionTuple)
    (bitmapBytes : Nat) :
    Prog.Answers (resumeState env state key bitmapBytes) fun r => r.2.length = bitmapBytes := by
  unfold resumeState
  cases state with
  | none => exact .pure (by simp)
  | some path => simpa using sessionStateLoad_answers path key (List.replicate bitmapBytes 0)

/-- A bitmap that is counted full has every bit. -/
theorem full_iff : ctx.full = true ↔ ∀ i, ¬ ctx.Missing i := by
  unfold DownloadCtx.full
  simp only [decide_eq_true_eq]
  constructor
  · intro h i hmissing
    have hlt := hmissing.1
    rcases h with hzero | hfull
    · omega
    · split at hfull
      · omega
      · have hcount : countReceivedPackets ctx = ctx.nofPackets :=
          le_antisymm countReceivedPackets_le hfull
        exact countReceivedPackets_eq.mp hcount i hmissing
  · intro hnone
    by_cases hzero : ctx.nofPackets = 0
    · exact Or.inl hzero
    · right
      have hbitmap : ctx.recvBitmap ≠ [] := by
        intro hnil
        refine hnone 0 ⟨Nat.pos_of_ne_zero hzero, ?_⟩
        rw [hnil]
        rfl
      rw [if_neg hbitmap, countReceivedPackets_eq.mpr hnone]

/-- The transfers of a download start with a bitmap that has a bit for each packet, or
with none at all. -/
def Received (r : DownloadCtx × Int × List TransferCall) : Prop :=
  ∃ start : DownloadCtx, start.Mapped ∧ Transfers start r.2.2 r.1

theorem receiveInto_answers {env : Env} {lib : Libdtp} (dest : Path) {nofPackets : Nat}
    (resumed : Bool) {bitmap : Bytes} (hmapped : DownloadCtx.Mapped ⟨false, bitmap, nofPackets⟩) :
    Prog.Answers (receiveInto env lib dest nofPackets resumed bitmap) fun r =>
      ∀ x, r = some x → Received x := by
  unfold receiveInto
  refine .ite (.bind (transferRounds_answers _ _) fun r hr => .pure ?_)
    (.after fun _ => .pure fun x hx => by cases hx)
  rintro x ⟨⟩
  exact ⟨_, hmapped, hr⟩

theorem downloadPlan_fits (expectedSize : UInt32) (expectedHash app : Option Bytes)
    (mtu : UInt16) {bitmap : Bytes}
    (hlen : bitmap.length = (downloadPlan expectedSize expectedHash app mtu).bitmapBytes) :
    DownloadCtx.Mapped
      ⟨false, bitmap, (downloadPlan expectedSize expectedHash app mtu).nofPackets⟩ := by
  have hbytes : (downloadPlan expectedSize expectedHash app mtu).bitmapBytes =
      ((downloadPlan expectedSize expectedHash app mtu).nofPackets + 7) % 2 ^ 32 / 8 := rfl
  have hsmall : (downloadPlan expectedSize expectedHash app mtu).nofPackets < 2 ^ 32 := by
    unfold downloadPlan
    dsimp only
    split
    · exact lt_of_le_of_lt (Nat.div_le_self _ _) (Nat.mod_lt _ (by decide))
    · decide
  generalize (downloadPlan expectedSize expectedHash app mtu).nofPackets = nof at hbytes hsmall ⊢
  rw [hbytes] at hlen
  by_cases hwrap : nof + 7 < 2 ^ 32
  · right
    dsimp only
    omega
  · left
    exact List.length_eq_zero_iff.mp (by dsimp only; omega)

theorem dtpReceive_answers {env : Env} {lib : Libdtp} (dest : Path) (expectedSize : UInt32)
    (expectedHash app : Option Bytes) (mtu : UInt16) :
    Prog.Answers (dtpReceive env lib dest (downloadPlan expectedSize expectedHash app mtu))
      fun r => ∀ x, r = some x → Received x := by
  unfold dtpReceive
  refine .bind (resumeState_answers _ _ _) ?_
  rintro ⟨resumed, bitmap⟩ hbitmap
  refine .bind (openDownload_answers dest _ resumed bitmap) fun opened hopened => ?_
  cases opened with
  | none => exact .pure fun x hx => by cases hx
  | some opened =>
      refine receiveInto_answers dest _ ?_
      exact downloadPlan_fits _ _ _ _ ((hopened opened rfl).trans hbitmap)

theorem closeDownload_sound {env : Env} (dest : Path) (plan : DownloadPlan) (hardError : Int)
    (h : Received (ctx', hardError, calls)) :
    Prog.Answers (closeDownload env dest plan ctx' hardError calls) Download.Sound := by
  obtain ⟨start, hmapped, htransfers⟩ := h
  unfold closeDownload
  refine .after fun _ => .after fun _ => .after fun _ => .after fun _ => .pure ?_
  refine htransfers.sound hmapped fun hdone => ?_
  simp only [Bool.and_eq_true, Bool.not_eq_true'] at hdone
  exact ⟨hdone.1.1, full_iff.mp hdone.2⟩

theorem dtpDownloadFile_sound {env : Env} {lib : Libdtp} (dest : Path) (expectedSize : UInt32)
    (expectedHash app : Option Bytes) (mtu : UInt16) :
    Prog.Answers (dtpDownloadFile env lib dest expectedSize expectedHash app mtu) fun r =>
      ∀ d, r = some d → d.Sound := by
  unfold dtpDownloadFile
  refine .bind (dtpReceive_answers dest expectedSize expectedHash app mtu) fun r hr => ?_
  cases r with
  | none => exact .pure fun d hd => by cases hd
  | some r =>
      refine .bind (closeDownload_sound dest _ r.2.1 (hr r rfl)) fun d hd => .pure ?_
      rintro _ ⟨⟩
      exact hd

end Downloads

/-! ### The verdict -/

/-- A download that reports success has every packet, and no write failed, neither one of
the callback nor the last flush and sync. -/
def Download.Truthful (d : Download) : Prop :=
  d.success = true → (∀ i, i < d.ctx.nofPackets → bitAt d.ctx.recvBitmap i = true) ∧
    (∀ call ∈ d.calls, ∀ x ∈ call.deliveries, x.failed = false) ∧ d.flushed = true

section Verdict

variable (env : Env) (lib : Libdtp) (dest : Path)

/-- This run of `dtp_download_file` reports the truth. -/
def ReportsTruly (expectedSize : UInt32) (expectedHash app : Option Bytes) (mtu : UInt16)
    (n : Nat) (s : Target) : Prop :=
  ∀ d, (dtpDownloadFile env lib dest expectedSize expectedHash app mtu n s).result =
    some (some d) → d.Truthful

/-- From call `n` on, the flush and the sync of a stream go through. -/
def WritesOut (n : Nat) : Prop :=
  env.fault n (.write dest) = none ∧ env.fault (n + 1) (.write dest) = none

/-- When the rounds have brought everything without an error, what is in the stream after
them can be written out. -/
def FlushHolds (plan : DownloadPlan) (n : Nat) (s : Target) : Prop :=
  ∀ ctx calls, (dtpReceive env lib dest plan n s).result = some (some (ctx, 0, calls)) →
    ctx.error = false → (∀ i, ¬ ctx.Missing i) →
    WritesOut env dest (dtpReceive env lib dest plan n s).calls

variable {env : Env} {lib : Libdtp} {dest : Path} {plan : DownloadPlan} {ctx : DownloadCtx}
  {hardError : Int} {calls : List TransferCall} {n : Nat} {s : Target}

instance (n : Nat) : Decidable (WritesOut env dest n) :=
  inferInstanceAs (Decidable (_ ∧ _))

/-- A flush says whether its call failed. -/
theorem fflush_tells : Prog.wp (fflush env dest) (fun _ => True)
    (fun flushed m _ => flushed = (env.fault n (.write dest)).isNone ∧ m = n + 1) n s := by
  unfold fflush
  rw [Prog.wp_call]
  refine ⟨fun _ _ => trivial, ?_, rfl⟩
  split
  next hfault => rw [hfault]; rfl
  next hfault _ => rw [hfault]; rfl
  next hfault _ => rw [hfault]; rfl

/-- What is returned does not depend on the flush. -/
theorem closeDownload_wp :
    Prog.wp (closeDownload env dest plan ctx hardError calls) (fun _ => True)
      (fun d _ _ => d = ⟨!ctx.error && hardError = 0 && ctx.full, ctx, calls,
        WritesOut env dest n⟩) n s := by
  unfold closeDownload fsync
  rw [Prog.wp_bind]
  refine Prog.wp_imp fflush_tells ?_
  rintro _ m t ⟨rfl, rfl⟩
  rw [Prog.wp_bind]
  refine Prog.wp_imp fflush_tells ?_
  rintro _ m t ⟨rfl, -⟩
  have hwritten : ((env.fault n (.write dest)).isNone &&
      (env.fault (n + 1) (.write dest)).isNone) = decide (WritesOut env dest n) := by
    rw [Bool.eq_iff_iff, decide_eq_true_iff]
    simp [WritesOut]
  rw [hwritten, Prog.wp_bind]
  refine Prog.wp_any _ fun _ m t => ?_
  rw [Prog.wp_bind]
  exact Prog.wp_any _ fun _ m t => (Prog.wp_pure _).mpr rfl

theorem reported_wp :
    Prog.wp (do return some (← closeDownload env dest plan ctx hardError calls)) (fun _ => True)
      (fun r _ _ => r = some ⟨!ctx.error && hardError = 0 && ctx.full, ctx, calls,
        WritesOut env dest n⟩) n s := by
  rw [Prog.wp_bind]
  refine Prog.wp_imp closeDownload_wp ?_
  rintro _ m t rfl
  exact (Prog.wp_pure _).mpr rfl

/-- A download that is complete ends by dropping its sidecar. -/
theorem closeDownload_ends (herror : ctx.error = false) (hfull : ctx.full = true) :
    Prog.Ends (closeDownload env dest plan ctx hardError calls)
      (fun d _ _ => d = ⟨!ctx.error && hardError = 0 && ctx.full, ctx, calls,
        WritesOut env dest n⟩) n s := by
  have hunlink (state : Option Path) : Prog.Total (unlinkState env state) := by
    unfold unlinkState
    cases state with
    | none => exact .pure _
    | some path => exact .bind (.call _) fun _ => .pure _
  have hsettle (got : Nat) :
      Prog.Total (settleSidecar env plan.state plan.key ctx got ctx.full) := by
    unfold settleSidecar
    rw [herror, hfull]
    cases plan.state with
    | none => exact .pure _
    | some path => simpa using hunlink (some path)
  have htotal : Prog.Total (closeDownload env dest plan ctx hardError calls) := by
    refine .bind (.call _) fun flushed => .bind (.call _) fun synced => ?_
    refine .bind ?_ fun _ => .bind (hsettle _) fun _ => .pure _
    exact .ite (.call _) (.call _)
  exact ((htotal n s).and_wp closeDownload_wp).imp fun _ _ _ hd => hd.2

/-- The report is true exactly when what is in the stream can be written out after it. -/
theorem reportsTruly_iff (expectedSize : UInt32) (expectedHash app : Option Bytes)
    (mtu : UInt16) :
    ReportsTruly env lib dest expectedSize expectedHash app mtu n s ↔
      FlushHolds env lib dest (downloadPlan expectedSize expectedHash app mtu) n s := by
  constructor
  · intro htruly ctx calls hreceived herror hnone
    have hfull := full_iff.mpr hnone
    generalize hm : (dtpReceive env lib dest (downloadPlan expectedSize expectedHash app mtu)
      n s).calls = m
    have hends : Prog.Ends (dtpDownloadFile env lib dest expectedSize expectedHash app mtu)
        (fun r _ _ => r = some ⟨true, ctx, calls, WritesOut env dest m⟩) n s := by
      unfold dtpDownloadFile
      rw [Prog.ends_bind]
      refine ⟨_, hreceived, ?_⟩
      rw [hm]
      dsimp only
      rw [Prog.ends_bind]
      refine (closeDownload_ends herror hfull).imp ?_
      rintro _ _ _ rfl
      rw [Prog.ends_pure, herror, hfull]
      rfl
    obtain ⟨r, hresult, rfl⟩ := hends
    exact of_decide_eq_true (htruly _ hresult rfl).2.2
  · intro hflush d hresult hsuccess
    have hsound := (@dtpDownloadFile_sound env lib dest expectedSize expectedHash app mtu n s).2
    rw [hresult] at hsound
    obtain ⟨hbits, hwrites⟩ := (hsound d rfl).complete hsuccess
    refine ⟨hbits, hwrites, ?_⟩
    unfold dtpDownloadFile at hresult
    change (Prog.andThen _ _ n s).result = _ at hresult
    generalize downloadPlan expectedSize expectedHash app mtu = plan at hflush hresult
    cases hreceived : (dtpReceive env lib dest plan n s).result with
    | none =>
        rw [Prog.andThen_died hreceived] at hresult
        cases hresult
    | some r =>
        rw [Prog.andThen_ended hreceived] at hresult
        cases r with
        | none => cases hresult
        | some r =>
            obtain ⟨ctx, hardError, calls⟩ := r
            have hend := (@reported_wp env dest plan ctx hardError calls
              (dtpReceive env lib dest plan n s).calls (dtpReceive env lib dest plan n s).state).2
            dsimp only at hresult
            rw [hresult] at hend
            rw [Option.some.inj hend] at hsuccess ⊢
            simp only [Bool.and_eq_true, Bool.not_eq_true', decide_eq_true_eq] at hsuccess
            obtain ⟨⟨herror, rfl⟩, hfull⟩ := hsuccess
            exact decide_eq_true (hflush _ _ hreceived herror (full_iff.mp hfull))

end Verdict

/-- A library that loses the second of three packets once. -/
def lossyLibdtp : Libdtp where
  ok := 0
  cancelled := 1
  prepares := true
  transfer := fun k _ =>
    if k = 0 then ([some ⟨9, 0, [7], 0⟩, some ⟨9, 2, [9], 2⟩], 0) else ([some ⟨9, 1, [8], 1⟩], 0)

/-- A disk that is full when what a stream holds is written out, at call `k`. -/
def fullDiskEnv (k : Nat) : Env :=
  { calmEnv demoTime with
    fault := fun n op => if n = k ∧ op = .write (ascii "/tmp/demo") then some 0 else none }

example : ((dtpDownloadFile (calmEnv demoTime) lossyLibdtp (ascii "/tmp/demo") 3 none none 9 0
    ⟨∅, none, .zero⟩).result.join.map fun d => (d.success, d.calls.map (·.request))) =
    some (true, [none, some [⟨1, 1⟩]]) := by
  decide +kernel

end SatDeploy.Agent
