import SatDeploy.Svu.Proto
import SatDeploy.Svu.Verdict

/-!
The satellite side of a transfer, `svu/svu_session.c`. libcsp is the
environment: what a connection delivers, which packets each drain of the data
socket finds, and whether buffers, allocations and the output file are to be
had. A run returns the C result together with everything it did in order: the
requests it sent, the hooks it called, its verdicts, and its writes to
`outfile`.
-/

namespace SatDeploy.Svu

open Lib

/-- What libcsp and the allocator do during one `ctrl_exchange`. `packets`
are the packets `csp_read` returns until it times out, and `stale` the memory
past the end of the `have` array, which is too short when the stride count
wraps. -/
structure CtrlIo where
  connected : Bool
  buffer : Bool
  allocated : Bool
  packets : List Bytes
  stale : Nat → Bool

/-- The outputs of a successful exchange. A manifest byte is `none` while no
chunk has written it. -/
structure CtrlReply where
  total : Nat
  block : Nat
  nblocks : Nat
  manifest : List (Option UInt8)
  deriving DecidableEq, Repr

/-- The manifest buffer, the `have` array and the byte counter. -/
structure Assembly where
  manifest : List (Option UInt8)
  marked : Nat → Bool
  got : Nat

def manChunk : Nat := 200

def assembleChunk (manBytes : Nat) (a : Assembly) (packet : Bytes) : Assembly :=
  if packet.length > 4 then
    let off := (svuGet32 packet 0).toNat
    let len := packet.length - 4
    if off < manBytes ∧ off % manChunk = 0 ∧ len ≤ manBytes - off then
      let idx := off / manChunk
      if a.marked idx = false then
        { manifest := splice a.manifest off ((packet.drop 4).map some)
          marked := Function.update a.marked idx true
          got := (a.got + len) % 2 ^ 32 }
      else a
    else a
  else a

def assembleLoop (manBytes : Nat) : List Bytes → Assembly → Option (List (Option UInt8))
  | [], a => if a.got < manBytes then none else some a.manifest
  | packet :: rest, a =>
      if a.got < manBytes then assembleLoop manBytes rest (assembleChunk manBytes a packet)
      else some a.manifest

/-- `none` is the return value -1. -/
def ctrlExchange (io : CtrlIo) : Option CtrlReply :=
  if !io.connected || !io.buffer then none
  else
    match io.packets with
    | [] => none
    | header :: rest =>
        if header.length < svuRespHdr ∨ svuGet32 header 0 ≠ svuMagicResp then none
        else
          let nblocks := (svuGet32 header 16).toNat
          let manBytes := nblocks * hashLen % 2 ^ 32
          let nchunks := (manBytes + manChunk - 1) % 2 ^ 32 / manChunk
          if !io.allocated then none
          else
            (assembleLoop manBytes rest
              ⟨List.replicate manBytes none, fun idx => decide (nchunks ≤ idx) && io.stale idx,
                0⟩).map fun manifest =>
              ⟨(svuGet32 header 8).toNat, (svuGet32 header 12).toNat, nblocks, manifest⟩

/-- The memory behind the manifest pointer: bytes no chunk wrote, and bytes
past the buffer, hold whatever the heap held. -/
def CtrlReply.memory (reply : CtrlReply) (heap : Nat → UInt8) (i : Nat) : UInt8 :=
  match reply.manifest[i]? with
  | some (some b) => b
  | _ => heap i

structure ClientConfig where
  blockSize : UInt32
  mtu : UInt32
  maxRounds : Nat
  deriving DecidableEq, Repr

/-- The environment of a whole run. `seed` is what the `restore` hook returns,
`ctrl round attempt` the exchange of that attempt, and `drains round` the
packets of the successive drains of that round, after which the link is
silent. Without hooks `seed` is `none` and the hook events mean nothing. -/
structure ClientEnv where
  seed : Option Bytes
  ctrl : Nat → Nat → CtrlIo
  drains : Nat → List (List Bytes)
  allocated : Bool
  heap : Nat → UInt8
  outfileOpens : Bool

/-- `buffer` is the reassembly buffer at the time of the hook call. -/
inductive ClientEvent where
  | request (round attempt : Nat) (req : SvuReq) (sent : Bool)
  | metaHook (total block : Nat) (buffer : Bytes)
  | dataHook (offset : Nat) (payload buffer : Bytes)
  | verdict (v : Verdict)
  | openOut (ok : Bool)
  | writeOut (payload : Bytes)
  | completeHook
  deriving DecidableEq, Repr

/-- Receiver, hook events and number of accepted frames after a drain. -/
def drainData : CiSvu → List Bytes → CiSvu × List ClientEvent × Nat
  | s, [] => (s, [], 0)
  | s, packet :: rest =>
      if packet.length > svuDataHdr then
        let off := (svuGet32 packet 0).toNat
        let payload := packet.drop svuDataHdr
        match ciSvuAccept s off payload with
        | some t =>
            let out := drainData t rest
            (out.1, .dataHook off payload (ciSvuData t) :: out.2.1, out.2.2 + 1)
        | none => drainData s rest
      else drainData s rest

/-- Drain and verify until the payload verifies or a drain finds nothing new. -/
def drainLoop : CiSvu → List (List Bytes) → CiSvu × Verdict × List ClientEvent
  | s, [] =>
      let v := ciSvuVerify s svuMaxIntervals
      (s, v, [.verdict v])
  | s, packets :: rest =>
      let out := drainData s packets
      let v := ciSvuVerify out.1 svuMaxIntervals
      if v.status = .completeVerified ∨ out.2.2 % 2 ^ 32 = 0 then
        (out.1, v, out.2.1 ++ [.verdict v])
      else
        let later := drainLoop out.1 rest
        (later.1, later.2.1, out.2.1 ++ .verdict v :: later.2.2)

/-- The retry form of a request: one empty interval. -/
def manifestOnly (req : SvuReq) : SvuReq :=
  { req with
    nofIntervals := 1
    intervals := req.intervals.set 0 ⟨0, 0⟩
    length_intervals := by rw [List.length_set, req.length_intervals] }

def ctrlAttempts (ctrl : Nat → CtrlIo) (round : Nat) :
    Nat → Nat → SvuReq → Option CtrlReply × List ClientEvent
  | 0, _, _ => (none, [])
  | left + 1, attempt, req =>
      let io := ctrl attempt
      let event := ClientEvent.request round attempt req (io.connected && io.buffer)
      match ctrlExchange io with
      | some reply => (some reply, [event])
      | none =>
          let later := ctrlAttempts ctrl round left (attempt + 1) (manifestOnly req)
          (later.1, event :: later.2)

def maxAttempts : Nat := 8

def wireInterval (v : Span) : SvuWireInterval :=
  ⟨UInt32.ofNat v.start, UInt32.ofNat v.stop⟩

structure ClientState where
  recv : Option CiSvu
  seed : Option Bytes
  ivs : List Span
  nreq : Nat

def buildRequest (cfg : ClientConfig) (st : ClientState) : SvuReq where
  magic := svuMagicReq
  sessionId := 1
  mtu := cfg.mtu
  blockSize := cfg.blockSize
  nofIntervals := UInt32.ofNat st.nreq
  clientAddr := 0
  intervals := fillIntervals ((st.ivs.take st.nreq).map wireInterval)
  length_intervals := length_fillIntervals _

/-- A seed of the payload's length is fed in one accept, any other dropped. -/
def seedReceiver (fresh : CiSvu) : Option Bytes → CiSvu
  | none => fresh
  | some seed =>
      if seed.length = fresh.total then (ciSvuAccept fresh 0 seed).getD fresh
      else fresh

/-- The receiver of this round and the hook call that announces a new one. -/
def attachReceiver (env : ClientEnv) (st : ClientState) (reply : CtrlReply) :
    Option (CiSvu × List ClientEvent) :=
  match st.recv with
  | some recv => some (recv, [])
  | none =>
      (ciSvuNew env.allocated reply.total reply.block (reply.memory env.heap)
        reply.nblocks).map fun fresh =>
        let recv := seedReceiver fresh st.seed
        (recv, [.metaHook reply.total reply.block (ciSvuData recv)])

/-- Writing the verified payload to `outfile`. -/
def finishRun (env : ClientEnv) (recv : CiSvu) : Int × List ClientEvent :=
  if env.outfileOpens then
    (0, [.openOut true, .writeOut ((ciSvuData recv).take recv.total), .completeHook])
  else
    (-1, [.openOut false])

/-- A further round re-requests what the verdict reported. -/
def nextState (recv : CiSvu) (v : Verdict) : ClientState where
  recv := some recv
  seed := none
  ivs := v.out
  nreq := if v.nout < svuMaxIntervals then v.nout else svuMaxIntervals

def roundLoop (cfg : ClientConfig) (env : ClientEnv) :
    Nat → Nat → ClientState → Int × List ClientEvent
  | 0, _, _ => (-1, [])
  | left + 1, round, st =>
      let exchange := ctrlAttempts (env.ctrl round) round maxAttempts 0 (buildRequest cfg st)
      match exchange.1 with
      | none => (-1, exchange.2)
      | some reply =>
          match attachReceiver env st reply with
          | none => (-1, exchange.2)
          | some (recv, hook) =>
              let drained := drainLoop recv (env.drains round)
              let events := exchange.2 ++ hook ++ drained.2.2
              if drained.2.1.status = .completeVerified then
                let fin := finishRun env drained.1
                (fin.1, events ++ fin.2)
              else
                let later := roundLoop cfg env left (round + 1)
                  (nextState drained.1 drained.2.1)
                (later.1, events ++ later.2)

/-- With a seed in hand the first request carries one empty interval. -/
def initialState (env : ClientEnv) : ClientState :=
  match env.seed with
  | none => ⟨none, none, [], 0⟩
  | some seed => ⟨none, some seed, [⟨0, 0⟩], 1⟩

def svuClientRunHooked (cfg : ClientConfig) (env : ClientEnv) : Int × List ClientEvent :=
  roundLoop cfg env cfg.maxRounds 1 (initialState env)

section Receiver

/-- Geometry and manifest of a receiver never change once it exists. -/
structure SameShape (s t : CiSvu) : Prop where
  total_eq : t.total = s.total
  block_eq : t.block = s.block
  nblocks_eq : t.nblocks = s.nblocks
  expected_eq : t.expected = s.expected

theorem SameShape.refl (s : CiSvu) : SameShape s s := ⟨rfl, rfl, rfl, rfl⟩

theorem SameShape.trans {s t u : CiSvu} (hst : SameShape s t)
    (htu : SameShape t u) : SameShape s u where
  total_eq := htu.total_eq.trans hst.total_eq
  block_eq := htu.block_eq.trans hst.block_eq
  nblocks_eq := htu.nblocks_eq.trans hst.nblocks_eq
  expected_eq := htu.expected_eq.trans hst.expected_eq

theorem Accepted.sameShape {s t : CiSvu} {offset : Nat} {buf : Bytes}
    (h : Accepted s t offset buf) : SameShape s t :=
  ⟨h.total_eq, h.block_eq, h.nblocks_eq, h.expected_eq⟩

theorem drainData_valid (packets : List Bytes) : ∀ {s : CiSvu}, s.Valid →
    (drainData s packets).1.Valid ∧ SameShape s (drainData s packets).1 := by
  induction packets with
  | nil =>
      intro s hs
      exact ⟨hs, SameShape.refl s⟩
  | cons packet rest ih =>
      intro s hs
      unfold drainData
      split
      · dsimp only
        split
        next t haccept =>
          have hstep := (ciSvuAccept_accepted hs haccept).sameShape
          obtain ⟨hvalid, hshape⟩ := ih (ciSvuAccept_valid hs haccept)
          exact ⟨hvalid, hstep.trans hshape⟩
        · exact ih hs
      · exact ih hs

/-- The drain loop keeps the receiver valid, and the verdict it ends with is
about the receiver it ends with. -/
theorem drainLoop_valid (drains : List (List Bytes)) : ∀ {s : CiSvu}, s.Valid →
    (drainLoop s drains).1.Valid ∧ SameShape s (drainLoop s drains).1 ∧
      (drainLoop s drains).2.1 =
        ciSvuVerify (drainLoop s drains).1 svuMaxIntervals := by
  induction drains with
  | nil =>
      intro s hs
      exact ⟨hs, SameShape.refl s, rfl⟩
  | cons packets rest ih =>
      intro s hs
      obtain ⟨hvalid, hshape⟩ := drainData_valid packets hs
      unfold drainLoop
      dsimp only
      split
      · exact ⟨hvalid, hshape, rfl⟩
      · obtain ⟨hvalid', hshape', hverdict⟩ := ih hvalid
        exact ⟨hvalid', hshape.trans hshape', hverdict⟩

/-- The events of a drain: data hooks and verdicts. -/
def ClientEvent.isDrain : ClientEvent → Bool
  | .dataHook .. => true
  | .verdict _ => true
  | _ => false

theorem drainData_isDrain (packets : List Bytes) : ∀ {s : CiSvu},
    ∀ e ∈ (drainData s packets).2.1, e.isDrain = true := by
  induction packets with
  | nil =>
      intro s e he
      simp [drainData] at he
  | cons packet rest ih =>
      intro s e he
      unfold drainData at he
      split at he
      · dsimp only at he
        split at he
        · rcases List.mem_cons.mp he with rfl | he
          · rfl
          · exact ih e he
        · exact ih e he
      · exact ih e he

/-- A drain loop ends with the verdict it returns. -/
theorem drainLoop_isDrain (drains : List (List Bytes)) : ∀ {s : CiSvu},
    ∃ before, (drainLoop s drains).2.2 = before ++ [.verdict (drainLoop s drains).2.1] ∧
      ∀ e ∈ before, e.isDrain = true := by
  induction drains with
  | nil =>
      intro s
      exact ⟨[], rfl, by simp⟩
  | cons packets rest ih =>
      intro s
      unfold drainLoop
      dsimp only
      split
      · exact ⟨_, rfl, drainData_isDrain packets⟩
      · obtain ⟨before, heq, hbefore⟩ := ih (s := (drainData s packets).1)
        refine ⟨(drainData s packets).2.1 ++
          .verdict (ciSvuVerify (drainData s packets).1 svuMaxIntervals) :: before, ?_, ?_⟩
        · rw [heq]
          simp
        · intro e he
          rcases List.mem_append.mp he with he | he
          · exact drainData_isDrain packets e he
          · rcases List.mem_cons.mp he with rfl | he
            · rfl
            · exact hbefore e he

theorem seedReceiver_valid {s : CiSvu} (hs : s.Valid) (seed : Option Bytes) :
    (seedReceiver s seed).Valid ∧ SameShape s (seedReceiver s seed) := by
  cases seed with
  | none => exact ⟨hs, SameShape.refl s⟩
  | some seed =>
      simp only [seedReceiver]
      split
      · cases haccept : ciSvuAccept s 0 seed with
        | none => exact ⟨hs, SameShape.refl s⟩
        | some t =>
            rw [Option.getD_some]
            exact ⟨ciSvuAccept_valid hs haccept,
              (ciSvuAccept_accepted hs haccept).sameShape⟩
      · exact ⟨hs, SameShape.refl s⟩

end Receiver

section Exchange

/-- The header fields of a reply are 32-bit words. -/
theorem ctrlExchange_lt {io : CtrlIo} {reply : CtrlReply}
    (h : ctrlExchange io = some reply) :
    reply.total < 2 ^ 32 ∧ reply.block < 2 ^ 32 ∧ reply.nblocks < 2 ^ 32 := by
  unfold ctrlExchange at h
  split at h
  · cases h
  · split at h
    · cases h
    · split at h
      · cases h
      · dsimp only at h
        split at h
        · cases h
        · obtain ⟨manifest, -, rfl⟩ := Option.map_eq_some_iff.mp h
          exact ⟨UInt32.toNat_lt _, UInt32.toNat_lt _, UInt32.toNat_lt _⟩

/-- The reply of the retry loop is that of its first successful exchange. -/
theorem ctrlAttempts_first {ctrl : Nat → CtrlIo} {round : Nat} (left : Nat) :
    ∀ {attempt : Nat} {req : SvuReq} {reply : CtrlReply} {events : List ClientEvent},
    ctrlAttempts ctrl round left attempt req = (some reply, events) →
    ∃ a, attempt ≤ a ∧ a < attempt + left ∧ ctrlExchange (ctrl a) = some reply ∧
      ∀ earlier, attempt ≤ earlier → earlier < a →
        ctrlExchange (ctrl earlier) = none := by
  induction left with
  | zero =>
      intro attempt req reply events h
      simp [ctrlAttempts] at h
  | succ left ih =>
      intro attempt req reply events h
      unfold ctrlAttempts at h
      cases hfirst : ctrlExchange (ctrl attempt) with
      | some found =>
          simp only [hfirst, Prod.mk.injEq, Option.some.injEq] at h
          refine ⟨attempt, Nat.le_refl _, by omega, by rw [hfirst, h.1], ?_⟩
          intro earlier hlow hhigh
          omega
      | none =>
          simp only [hfirst, Prod.mk.injEq] at h
          obtain ⟨a, hlow, hhigh, hreply, hearlier⟩ :=
            ih (Prod.ext h.1 rfl)
          refine ⟨a, by omega, by omega, hreply, ?_⟩
          intro earlier hge hlt
          rcases Nat.eq_or_lt_of_le hge with rfl | hgt
          · exact hfirst
          · exact hearlier earlier hgt hlt

theorem ctrlAttempts_answered {ctrl : Nat → CtrlIo} {round left attempt : Nat} {req : SvuReq}
    {reply : CtrlReply} (h : ctrlExchange (ctrl attempt) = some reply) :
    ctrlAttempts ctrl round (left + 1) attempt req = (some reply,
      [.request round attempt req ((ctrl attempt).connected && (ctrl attempt).buffer)]) := by
  simp only [ctrlAttempts, h]

/-- The two ways a round comes by its receiver. -/
theorem attachReceiver_cases {env : ClientEnv} {st : ClientState} {reply : CtrlReply}
    {recv : CiSvu} {hook : List ClientEvent}
    (h : attachReceiver env st reply = some (recv, hook)) :
    (st.recv = some recv ∧ hook = []) ∨
    (st.recv = none ∧ ∃ fresh,
      ciSvuNew env.allocated reply.total reply.block (reply.memory env.heap)
        reply.nblocks = some fresh ∧
      recv = seedReceiver fresh st.seed ∧
      hook = [.metaHook reply.total reply.block (ciSvuData recv)]) := by
  unfold attachReceiver at h
  cases hrecv : st.recv with
  | some old =>
      simp only [hrecv, Option.some.injEq, Prod.mk.injEq] at h
      exact Or.inl ⟨by rw [h.1], h.2.symm⟩
  | none =>
      simp only [hrecv] at h
      obtain ⟨fresh, hfresh, heq⟩ := Option.map_eq_some_iff.mp h
      simp only [Prod.mk.injEq] at heq
      refine Or.inr ⟨rfl, fresh, hfresh, heq.1.symm, ?_⟩
      rw [← heq.1, ← heq.2]

end Exchange

section Rounds

variable (cfg : ClientConfig) (env : ClientEnv)

/-- Every way the round loop can go on from `round` and `st`. -/
inductive RoundsFrom : Nat → ClientState → Int × List ClientEvent → Prop
  | gaveUp (round : Nat) (st : ClientState) : RoundsFrom round st (-1, [])
  | ctrlFailed {round : Nat} {st : ClientState} {events : List ClientEvent}
      (hctrl : ctrlAttempts (env.ctrl round) round maxAttempts 0
        (buildRequest cfg st) = (none, events)) :
      RoundsFrom round st (-1, events)
  | newFailed {round : Nat} {st : ClientState} {events : List ClientEvent}
      {reply : CtrlReply}
      (hctrl : ctrlAttempts (env.ctrl round) round maxAttempts 0
        (buildRequest cfg st) = (some reply, events))
      (hattach : attachReceiver env st reply = none) :
      RoundsFrom round st (-1, events)
  | verified {round : Nat} {st : ClientState} {events hook drained : List ClientEvent}
      {reply : CtrlReply} {recv recv' : CiSvu} {v : Verdict}
      (hctrl : ctrlAttempts (env.ctrl round) round maxAttempts 0
        (buildRequest cfg st) = (some reply, events))
      (hattach : attachReceiver env st reply = some (recv, hook))
      (hdrain : drainLoop recv (env.drains round) = (recv', v, drained))
      (hstatus : v.status = .completeVerified) :
      RoundsFrom round st ((finishRun env recv').1,
        events ++ hook ++ drained ++ (finishRun env recv').2)
  | again {round : Nat} {st : ClientState} {events hook drained : List ClientEvent}
      {reply : CtrlReply} {recv recv' : CiSvu} {v : Verdict}
      {later : Int × List ClientEvent}
      (hctrl : ctrlAttempts (env.ctrl round) round maxAttempts 0
        (buildRequest cfg st) = (some reply, events))
      (hattach : attachReceiver env st reply = some (recv, hook))
      (hdrain : drainLoop recv (env.drains round) = (recv', v, drained))
      (hstatus : v.status ≠ .completeVerified)
      (hlater : RoundsFrom (round + 1) (nextState recv' v) later) :
      RoundsFrom round st (later.1, events ++ hook ++ drained ++ later.2)

theorem roundLoop_roundsFrom (left : Nat) : ∀ round st,
    RoundsFrom cfg env round st (roundLoop cfg env left round st) := by
  induction left with
  | zero =>
      intro round st
      exact .gaveUp round st
  | succ left ih =>
      intro round st
      unfold roundLoop
      cases hctrl : ctrlAttempts (env.ctrl round) round maxAttempts 0
          (buildRequest cfg st) with
      | mk found events =>
          cases found with
          | none => exact .ctrlFailed hctrl
          | some reply =>
              dsimp only
              cases hattach : attachReceiver env st reply with
              | none => exact .newFailed hctrl hattach
              | some attached =>
                  obtain ⟨recv, hook⟩ := attached
                  dsimp only
                  split
                  next hstatus => exact .verified hctrl hattach rfl hstatus
                  next hstatus => exact .again hctrl hattach rfl hstatus (ih _ _)

/-- A round that verifies is the last one. -/
theorem roundLoop_verified (left : Nat) {round : Nat} {st : ClientState} {reply : CtrlReply}
    {recv recv' : CiSvu} {v : Verdict} {events hook drained : List ClientEvent}
    (hctrl : ctrlAttempts (env.ctrl round) round maxAttempts 0 (buildRequest cfg st) =
      (some reply, events))
    (hattach : attachReceiver env st reply = some (recv, hook))
    (hdrain : drainLoop recv (env.drains round) = (recv', v, drained))
    (hstatus : v.status = .completeVerified) :
    roundLoop cfg env (left + 1) round st = ((finishRun env recv').1,
      events ++ hook ++ drained ++ (finishRun env recv').2) := by
  simp only [roundLoop, hctrl, hattach, hdrain, hstatus, if_true]

theorem svuClientRunHooked_roundsFrom :
    RoundsFrom cfg env 1 (initialState env) (svuClientRunHooked cfg env) :=
  roundLoop_roundsFrom cfg env cfg.maxRounds 1 (initialState env)

end Rounds

end SatDeploy.Svu
