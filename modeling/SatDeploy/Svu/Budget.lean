import SatDeploy.Svu.Completion
import SatDeploy.Svu.Serve

/-!
Blast budget. Zero intervals ask for the whole file, so the run must never
send such a request by accident: it does so once at most, retries ask for
nothing, and later rounds ask for the ranges of the verdict before them. The
bytes the server sends for a round are bounded by what the round asked for.
-/

namespace SatDeploy.Svu

open Lib

def ClientEvent.asksWholeFile : ClientEvent → Bool
  | .request _ _ req _ => req.nofIntervals == 0
  | _ => false

/-- The last verdict of a trace. -/
def lastVerdict (events : List ClientEvent) : Option Verdict :=
  (events.filterMap fun
    | .verdict v => some v
    | _ => none).getLast?

theorem lastVerdict_append (before after : List ClientEvent) :
    lastVerdict (before ++ after) = (lastVerdict after).or (lastVerdict before) := by
  unfold lastVerdict
  rw [List.filterMap_append, List.getLast?_append]

/-- The requests of one round that left the client. -/
def sentInRound (round : Nat) (events : List ClientEvent) : List SvuReq :=
  events.filterMap fun
    | .request r _ req true => if r = round then some req else none
    | _ => none

/-- The ranges a request announces, as the server reads them. -/
def SvuReq.ranges (req : SvuReq) : List Span :=
  (req.intervals.take req.nofIntervals.toNat).map fun v => ⟨v.start.toNat, v.stop.toNat⟩

/-- The payload bytes of data packets. -/
def dataBytes (packets : List Bytes) : Nat :=
  (packets.map fun p => p.length - svuDataHdr).sum

/-- What one round may cost: the ranges its requests announce, or the file
where a run without a seed starts. -/
def roundBudget (env : ClientEnv) (src : Bytes) (events : List ClientEvent)
    (round : Nat) : Nat :=
  if round = 1 ∧ env.seed = none then src.length
  else ((sentInRound round events).map fun req => Span.totalLength req.ranges).sum

/-- A retry: it asks for the single empty range. -/
structure AsksNothing (req : SvuReq) : Prop where
  magic_eq : req.magic = svuMagicReq
  nof_eq : req.nofIntervals = 1
  cell_eq : req.intervals.take 1 = [⟨0, 0⟩]

theorem manifestOnly_asksNothing {req : SvuReq} (hmagic : req.magic = svuMagicReq) :
    AsksNothing (manifestOnly req) := by
  refine ⟨hmagic, rfl, ?_⟩
  have hlen := req.length_intervals
  unfold manifestOnly
  dsimp only
  cases hcells : req.intervals with
  | nil =>
      rw [hcells] at hlen
      cases hlen
  | cons v rest => rfl

/-- The requests of one round: the request itself, then retries. -/
theorem ctrlAttempts_requests (ctrl : Nat → CtrlIo) (round left : Nat) :
    ∀ (attempt : Nat) {req : SvuReq}, req.magic = svuMagicReq →
    left = 0 ∨ ∃ sent retries, (ctrlAttempts ctrl round left attempt req).2 =
        .request round attempt req sent :: retries ∧
      ∀ e ∈ retries, ∃ later req' sent', attempt < later ∧ AsksNothing req' ∧
        e = .request round later req' sent' := by
  induction left with
  | zero =>
      intro attempt req _
      exact Or.inl rfl
  | succ left ih =>
      intro attempt req hmagic
      refine Or.inr ⟨(ctrl attempt).connected && (ctrl attempt).buffer, ?_⟩
      unfold ctrlAttempts
      cases hfirst : ctrlExchange (ctrl attempt) with
      | some reply =>
          refine ⟨[], ?_, by simp⟩
          simp only [hfirst]
      | none =>
          simp only [hfirst]
          refine ⟨_, rfl, ?_⟩
          intro e he
          have hretry := manifestOnly_asksNothing hmagic
          rcases ih (attempt + 1) hretry.magic_eq with hzero | hsome
          · subst hzero
            simp [ctrlAttempts] at he
          · obtain ⟨sent, retries, heq, hretries⟩ := hsome
            rw [heq] at he
            rcases List.mem_cons.mp he with rfl | he
            · exact ⟨attempt + 1, _, sent, by omega, hretry, rfl⟩
            · obtain ⟨later, req', sent', hlater, hasks, rfl⟩ := hretries e he
              exact ⟨later, req', sent', by omega, hasks, rfl⟩

def ClientEvent.isRequest : ClientEvent → Bool
  | .request .. => true
  | _ => false

/-- Hook calls and verdicts ask the server for nothing, and the last verdict of
a round is the one its next request is built from. -/
theorem round_tail {env : ClientEnv} {st : ClientState} {reply : CtrlReply}
    {recv recv' : CiSvu} {v : Verdict} {round : Nat} {hook drained : List ClientEvent}
    (hattach : attachReceiver env st reply = some (recv, hook))
    (hdrain : drainLoop recv (env.drains round) = (recv', v, drained)) :
    ∃ before, hook ++ drained = before ++ [.verdict v] ∧
      ∀ e ∈ before, e.isRequest = false := by
  obtain ⟨before, heq, hbefore⟩ := drainLoop_isDrain (env.drains round) (s := recv)
  rw [hdrain] at heq
  refine ⟨hook ++ before, by rw [List.append_assoc, ← heq], ?_⟩
  intro e he
  rcases List.mem_append.mp he with he | he
  · rcases attachReceiver_cases hattach with ⟨-, rfl⟩ | ⟨-, fresh, -, -, rfl⟩
    · simp at he
    · rw [List.mem_singleton.mp he]
      rfl
  · have hkind := hbefore e he
    cases e with
    | dataHook offset payload buffer => rfl
    | verdict v => rfl
    | _ => cases hkind

/-- A retry of round `round`. -/
def IsRetry (round : Nat) (e : ClientEvent) : Prop :=
  ∃ attempt req sent, 0 < attempt ∧ AsksNothing req ∧ e = .request round attempt req sent

/-- The traces of runs, as far as requests go: from round `round` on, whose
first attempt carries `req`. -/
inductive RequestTrace (cfg : ClientConfig) : Nat → SvuReq → List ClientEvent → Prop
  | silent (round : Nat) (req : SvuReq) : RequestTrace cfg round req []
  | ends {round : Nat} {req : SvuReq} (sent : Bool) {retries tail : List ClientEvent}
      (hretries : ∀ e ∈ retries, IsRetry round e)
      (htail : ∀ e ∈ tail, e.isRequest = false) :
      RequestTrace cfg round req (.request round 0 req sent :: (retries ++ tail))
  | again {round : Nat} {req : SvuReq} (sent : Bool)
      {retries tail later : List ClientEvent} {s : CiSvu}
      (hretries : ∀ e ∈ retries, IsRetry round e)
      (htail : ∀ e ∈ tail, e.isRequest = false)
      (hs : s.Valid) (hstatus : verifyStatus s ≠ .completeVerified)
      (hlater : RequestTrace cfg (round + 1)
        (buildRequest cfg (nextState s (ciSvuVerify s svuMaxIntervals))) later) :
      RequestTrace cfg round req (.request round 0 req sent ::
        (retries ++ (tail ++ .verdict (ciSvuVerify s svuMaxIntervals) :: later)))

theorem RequestTrace.attempts {cfg : ClientConfig} {round : Nat} {req : SvuReq}
    (sent : Bool) {retries : List ClientEvent} (hretries : ∀ e ∈ retries, IsRetry round e) :
    RequestTrace cfg round req (.request round 0 req sent :: retries) := by
  have h : RequestTrace cfg round req (.request round 0 req sent :: (retries ++ [])) :=
    RequestTrace.ends sent hretries (by simp)
  rwa [List.append_nil] at h

theorem attachReceiver_valid {env : ClientEnv} {ctrl : Nat → CtrlIo} {round left : Nat}
    {st : ClientState} {req : SvuReq} {reply : CtrlReply} {recv : CiSvu}
    {events hook : List ClientEvent} (hrecv : ∀ s, st.recv = some s → s.Valid)
    (hctrl : ctrlAttempts ctrl round left 0 req = (some reply, events))
    (hattach : attachReceiver env st reply = some (recv, hook)) : recv.Valid := by
  obtain ⟨a, -, -, hreply, -⟩ := ctrlAttempts_first left hctrl
  rcases attachReceiver_cases hattach with ⟨hold, -⟩ | ⟨-, fresh, hnew, rfl, -⟩
  · exact hrecv recv hold
  · exact (seedReceiver_valid (ciSvuNew_valid (ctrlExchange_lt hreply).1 hnew) st.seed).1

theorem finishRun_noRequest {env : ClientEnv} {s : CiSvu} :
    ∀ e ∈ (finishRun env s).2, e.isRequest = false := by
  unfold finishRun
  split <;> simp [ClientEvent.isRequest]

theorem RoundsFrom.requestTrace {cfg : ClientConfig} {env : ClientEnv} {round : Nat}
    {st : ClientState} {out : Int × List ClientEvent} (h : RoundsFrom cfg env round st out)
    (hrecv : ∀ s, st.recv = some s → s.Valid) :
    RequestTrace cfg round (buildRequest cfg st) out.2 := by
  have hexchange : ∀ {round : Nat} {st : ClientState} {found : Option CtrlReply}
      {events : List ClientEvent},
      ctrlAttempts (env.ctrl round) round maxAttempts 0 (buildRequest cfg st) =
        (found, events) →
      ∃ sent retries, events = .request round 0 (buildRequest cfg st) sent :: retries ∧
        ∀ e ∈ retries, IsRetry round e := by
    intro round st found events hctrl
    have hmagic : (buildRequest cfg st).magic = svuMagicReq := rfl
    rcases ctrlAttempts_requests (env.ctrl round) round maxAttempts 0 hmagic with
      hzero | hsome
    · cases hzero
    · obtain ⟨sent, retries, heq, hretries⟩ := hsome
      rw [hctrl] at heq
      refine ⟨sent, retries, heq, ?_⟩
      intro e he
      obtain ⟨later, req, sent', hlater, hasks, rfl⟩ := hretries e he
      exact ⟨later, req, sent', hlater, hasks, rfl⟩
  induction h with
  | gaveUp round st => exact .silent round _
  | ctrlFailed hctrl =>
      obtain ⟨sent, retries, rfl, hretries⟩ := hexchange hctrl
      exact .attempts sent hretries
  | newFailed hctrl _ =>
      obtain ⟨sent, retries, rfl, hretries⟩ := hexchange hctrl
      exact .attempts sent hretries
  | verified hctrl hattach hdrain _ =>
      obtain ⟨sent, retries, rfl, hretries⟩ := hexchange hctrl
      obtain ⟨before, heq, hbefore⟩ := round_tail hattach hdrain
      rw [List.append_assoc (_ :: retries), heq, List.append_assoc, List.cons_append]
      refine .ends sent hretries ?_
      intro e he
      rcases List.mem_append.mp he with he | he
      · rcases List.mem_append.mp he with he | he
        · exact hbefore e he
        · rw [List.mem_singleton.mp he]
          rfl
      · exact finishRun_noRequest e he
  | again hctrl hattach hdrain hstatus _ ih =>
      obtain ⟨sent, retries, rfl, hretries⟩ := hexchange hctrl
      obtain ⟨before, heq, hbefore⟩ := round_tail hattach hdrain
      have hvalid := attachReceiver_valid hrecv hctrl hattach
      obtain ⟨hvalid', -, hverdict⟩ := drainLoop_valid (env.drains _) hvalid
      rw [hdrain] at hvalid' hverdict
      dsimp only at hvalid' hverdict
      rw [hverdict, ciSvuVerify_eq] at hstatus
      rw [List.append_assoc (_ :: retries), heq, List.append_assoc, List.append_assoc,
        List.singleton_append, List.cons_append, hverdict]
      refine .again sent hretries hbefore hvalid' hstatus ?_
      have hnext := ih (by
        intro s hs
        rw [← Option.some.inj hs]
        exact hvalid')
      rwa [hverdict] at hnext

section Traces

variable {cfg : ClientConfig}

theorem filter_eq_nil_of_not_request {events : List ClientEvent}
    (h : ∀ e ∈ events, e.isRequest = false) :
    events.filter ClientEvent.asksWholeFile = [] := by
  rw [List.filter_eq_nil_iff]
  intro e he
  have hkind := h e he
  cases e with
  | request round attempt req sent => cases hkind
  | _ => simp [ClientEvent.asksWholeFile]

theorem filter_eq_nil_of_retry {round : Nat} {events : List ClientEvent}
    (h : ∀ e ∈ events, IsRetry round e) :
    events.filter ClientEvent.asksWholeFile = [] := by
  rw [List.filter_eq_nil_iff]
  intro e he
  obtain ⟨attempt, req, sent, -, hasks, rfl⟩ := h e he
  simp [ClientEvent.asksWholeFile, hasks.nof_eq]

/-- A receiver that is not verified is asked about by at least one range. -/
theorem nextState_nof_ne {s : CiSvu} (hs : s.Valid)
    (hstatus : verifyStatus s ≠ .completeVerified) :
    (buildRequest cfg (nextState s (ciSvuVerify s svuMaxIntervals))).nofIntervals ≠ 0 := by
  obtain ⟨hnreq, -, hnof, -⟩ := nextState_request cfg s
  have hpos := List.length_pos_iff.mpr (verifyRanges_ne_nil hs hstatus)
  intro hzero
  rw [hzero, hnreq] at hnof
  have hlt : 0 < min (verifyRanges s).length svuMaxIntervals :=
    Nat.lt_min.mpr ⟨hpos, by decide⟩
  rw [← hnof] at hlt
  exact absurd hlt (by decide)

/-- Only the first request of a trace can ask for the whole file. -/
theorem RequestTrace.wholeFile {round : Nat} {req : SvuReq} {events : List ClientEvent}
    (h : RequestTrace cfg round req events) :
    events.filter ClientEvent.asksWholeFile = [] ∨
      req.nofIntervals = 0 ∧ ∃ sent, events.filter ClientEvent.asksWholeFile =
        [.request round 0 req sent] := by
  have hhead : ∀ (round : Nat) (req : SvuReq) (sent : Bool) (rest : List ClientEvent),
      rest.filter ClientEvent.asksWholeFile = [] →
      (ClientEvent.request round 0 req sent :: rest).filter
        ClientEvent.asksWholeFile = [] ∨
      req.nofIntervals = 0 ∧ ∃ sent', (ClientEvent.request round 0 req sent :: rest).filter
        ClientEvent.asksWholeFile = [.request round 0 req sent'] := by
    intro round req sent rest hrest
    by_cases hnof : req.nofIntervals = 0
    · refine Or.inr ⟨hnof, sent, ?_⟩
      rw [List.filter_cons, if_pos (by simp [ClientEvent.asksWholeFile, hnof]), hrest]
    · refine Or.inl ?_
      rw [List.filter_cons, if_neg (by simp [ClientEvent.asksWholeFile, hnof]), hrest]
  induction h with
  | silent round req => exact Or.inl rfl
  | ends sent hretries htail =>
      apply hhead
      rw [List.filter_append, filter_eq_nil_of_retry hretries,
        filter_eq_nil_of_not_request htail]
      rfl
  | again sent hretries htail hs hstatus _ ih =>
      apply hhead
      have hlater := ih.resolve_right (fun h => nextState_nof_ne hs hstatus h.1)
      rw [List.filter_append, List.filter_append, filter_eq_nil_of_retry hretries,
        filter_eq_nil_of_not_request htail, List.filter_cons, hlater]
      rfl

/-- Every further round opens with the ranges of the verdict before it. -/
theorem RequestTrace.firstAttempt {round : Nat} {req : SvuReq} {events : List ClientEvent}
    (h : RequestTrace cfg round req events) :
    ∀ {before after : List ClientEvent} {r : Nat} {req' : SvuReq} {sent : Bool},
    events = before ++ .request r 0 req' sent :: after →
    (r = round ∧ before = [] ∧ req' = req) ∨
    (round < r ∧ ∃ s, s.Valid ∧ verifyStatus s ≠ .completeVerified ∧
      lastVerdict before = some (ciSvuVerify s svuMaxIntervals) ∧
      req' = buildRequest cfg (nextState s (ciSvuVerify s svuMaxIntervals))) := by
  have hskip : ∀ {skipped rest before after : List ClientEvent} {r : Nat} {req' : SvuReq}
      {sent : Bool}, (∀ e ∈ skipped, ∀ r req' sent, e ≠ .request r 0 req' sent) →
      skipped ++ rest = before ++ .request r 0 req' sent :: after →
      ∃ before', before = skipped ++ before' ∧
        rest = before' ++ .request r 0 req' sent :: after := by
    intro skipped rest before after r req' sent hskipped heq
    rcases List.append_eq_append_iff.mp heq with ⟨mid, hbefore, hrest⟩ | ⟨mid, hskip, hmid⟩
    · exact ⟨mid, hbefore, hrest⟩
    · cases mid with
      | nil => exact ⟨[], by simpa using hskip.symm, by simpa using hmid.symm⟩
      | cons e mid =>
          rw [List.cons_append, List.cons.injEq] at hmid
          exact absurd hmid.1.symm (hskipped e (by simp [hskip]) r req' sent)
  have hretry : ∀ {round : Nat} {retries : List ClientEvent},
      (∀ e ∈ retries, IsRetry round e) →
      ∀ e ∈ retries, ∀ r req' sent, e ≠ .request r 0 req' sent := by
    intro round retries hretries e he r req' sent heq
    obtain ⟨attempt, req, sent', hpos, -, rfl⟩ := hretries e he
    rw [ClientEvent.request.injEq] at heq
    omega
  have htailSkip : ∀ {tail : List ClientEvent}, (∀ e ∈ tail, e.isRequest = false) →
      ∀ e ∈ tail, ∀ r req' sent, e ≠ .request r 0 req' sent := by
    intro tail htail e he r req' sent heq
    have := htail e he
    rw [heq] at this
    cases this
  induction h with
  | silent round req =>
      intro before after r req' sent heq
      simp at heq
  | ends sent hretries htail =>
      intro before after r req' sent' heq
      cases before with
      | nil =>
          rw [List.nil_append, List.cons.injEq, ClientEvent.request.injEq] at heq
          exact Or.inl ⟨heq.1.1.symm, rfl, heq.1.2.2.1.symm⟩
      | cons e before =>
          rw [List.cons_append, List.cons.injEq] at heq
          obtain ⟨before', -, hrest⟩ := hskip (hretry hretries) heq.2
          obtain ⟨before'', -, hnone⟩ :=
            hskip (htailSkip htail) ((List.append_nil _).trans hrest)
          simp at hnone
  | again sent hretries htail hs hstatus _ ih =>
      intro before after r req' sent' heq
      cases before with
      | nil =>
          rw [List.nil_append, List.cons.injEq, ClientEvent.request.injEq] at heq
          exact Or.inl ⟨heq.1.1.symm, rfl, heq.1.2.2.1.symm⟩
      | cons e before =>
          rw [List.cons_append, List.cons.injEq] at heq
          obtain ⟨before', rfl, hrest⟩ := hskip (hretry hretries) heq.2
          obtain ⟨before'', rfl, hrest'⟩ := hskip (htailSkip htail) hrest
          cases before'' with
          | nil => simp at hrest'
          | cons verdict before'' =>
              rw [List.cons_append, List.cons.injEq] at hrest'
              obtain ⟨rfl, hrest'⟩ := hrest'
              refine Or.inr ?_
              rcases ih hrest' with ⟨rfl, rfl, rfl⟩ | ⟨hlt, t, ht, htstatus, hlast, hreq⟩
              · refine ⟨by omega, _, hs, hstatus, ?_, rfl⟩
                rw [← List.append_assoc, ← List.cons_append, lastVerdict_append]
                rfl
              · refine ⟨by omega, t, ht, htstatus, ?_, hreq⟩
                rw [← List.append_assoc, ← List.cons_append, lastVerdict_append,
                  ← List.singleton_append, lastVerdict_append, hlast]
                rfl

theorem RequestTrace.retry {round : Nat} {req : SvuReq} {events : List ClientEvent}
    (h : RequestTrace cfg round req events) {r attempt : Nat} {req' : SvuReq} {sent : Bool}
    (hmem : .request r attempt req' sent ∈ events) (hpos : 0 < attempt) :
    AsksNothing req' := by
  have hretry : ∀ {round : Nat} {retries : List ClientEvent},
      (∀ e ∈ retries, IsRetry round e) → .request r attempt req' sent ∈ retries →
      AsksNothing req' := by
    intro round retries hretries hmem
    obtain ⟨_, _, _, -, hasks, heq⟩ := hretries _ hmem
    rw [ClientEvent.request.injEq] at heq
    rw [heq.2.2.1]
    exact hasks
  induction h with
  | silent round req => simp at hmem
  | ends sent hretries htail =>
      rcases List.mem_cons.mp hmem with heq | hmem
      · rw [ClientEvent.request.injEq] at heq
        omega
      · rcases List.mem_append.mp hmem with hmem | hmem
        · exact hretry hretries hmem
        · exact absurd (htail _ hmem) (by simp [ClientEvent.isRequest])
  | again sent hretries htail hs hstatus _ ih =>
      rcases List.mem_cons.mp hmem with heq | hmem
      · rw [ClientEvent.request.injEq] at heq
        omega
      · rcases List.mem_append.mp hmem with hmem | hmem
        · exact hretry hretries hmem
        · rcases List.mem_append.mp hmem with hmem | hmem
          · exact absurd (htail _ hmem) (by simp [ClientEvent.isRequest])
          · rcases List.mem_cons.mp hmem with heq | hmem
            · cases heq
            · exact ih hmem

theorem sentInRound_append (round : Nat) (left right : List ClientEvent) :
    sentInRound round (left ++ right) = sentInRound round left ++ sentInRound round right :=
  List.filterMap_append

theorem sentInRound_of_not_request (round : Nat) {events : List ClientEvent}
    (h : ∀ e ∈ events, e.isRequest = false) : sentInRound round events = [] := by
  unfold sentInRound
  rw [List.filterMap_eq_nil_iff]
  intro e he
  have hkind := h e he
  cases e with
  | request round attempt req sent => cases hkind
  | _ => rfl

theorem sentInRound_of_retry {r round : Nat} {events : List ClientEvent}
    (h : ∀ e ∈ events, IsRetry round e) :
    (r ≠ round → sentInRound r events = []) ∧
      ∀ q ∈ sentInRound r events, AsksNothing q := by
  constructor
  · intro hne
    unfold sentInRound
    rw [List.filterMap_eq_nil_iff]
    intro e he
    obtain ⟨attempt, req, sent, -, -, rfl⟩ := h e he
    cases sent with
    | true => exact if_neg (Ne.symm hne)
    | false => rfl
  · intro q hq
    obtain ⟨e, he, heq⟩ := List.mem_filterMap.mp hq
    obtain ⟨attempt, req, sent, -, hasks, rfl⟩ := h e he
    cases sent with
    | true =>
        dsimp only at heq
        split at heq
        · rw [← Option.some.inj heq]
          exact hasks
        · cases heq
    | false => cases heq

/-- The first request of a round counts if it was sent. -/
theorem sentInRound_cons {r round : Nat} {req : SvuReq} {sent : Bool}
    {rest : List ClientEvent} :
    sentInRound r (.request round 0 req sent :: rest) =
      (if sent = true ∧ round = r then [req] else []) ++ sentInRound r rest := by
  unfold sentInRound
  rw [List.filterMap_cons]
  cases sent with
  | true => by_cases hround : round = r <;> simp [hround]
  | false => simp

/-- The requests of one round: at most one that asks for anything, which is
the given one in the first round and one built from a verdict later. -/
def RoundRequests (cfg : ClientConfig) (round : Nat) (req : SvuReq) (r : Nat)
    (reqs : List SvuReq) : Prop :=
  ∃ first retries, reqs = first ++ retries ∧ (∀ q ∈ retries, AsksNothing q) ∧
    (first = [] ∨ (r = round ∧ first = [req]) ∨
      (round < r ∧ ∃ s, s.Valid ∧ verifyStatus s ≠ .completeVerified ∧
        first = [buildRequest cfg (nextState s (ciSvuVerify s svuMaxIntervals))]))

theorem RequestTrace.roundRequests {round : Nat} {req : SvuReq} {events : List ClientEvent}
    (h : RequestTrace cfg round req events) :
    (∀ r, r < round → sentInRound r events = []) ∧
      ∀ r, RoundRequests cfg round req r (sentInRound r events) := by
  have hown : ∀ {round : Nat} {req : SvuReq} {sent : Bool} {retries : List ClientEvent} {r : Nat},
      (∀ e ∈ retries, IsRetry round e) →
      (r ≠ round → sentInRound r (.request round 0 req sent :: retries) = []) ∧
      RoundRequests cfg round req r
        (sentInRound r (.request round 0 req sent :: retries)) := by
    intro round req sent retries r hretries
    obtain ⟨hnone, hasks⟩ := sentInRound_of_retry (r := r) hretries
    rw [sentInRound_cons]
    constructor
    · intro hne
      rw [hnone hne, if_neg (fun h => hne h.2.symm)]
      rfl
    · refine ⟨_, _, rfl, hasks, ?_⟩
      split
      next hsent => exact Or.inr (Or.inl ⟨hsent.2.symm, rfl⟩)
      next => exact Or.inl rfl
  induction h with
  | silent round req =>
      exact ⟨fun _ _ => rfl, fun _ => ⟨[], [], rfl, by simp, Or.inl rfl⟩⟩
  | ends sent hretries htail =>
      have htailNone := fun r => sentInRound_of_not_request r htail
      constructor
      · intro r hlt
        rw [← List.cons_append, sentInRound_append, htailNone, List.append_nil]
        exact (hown hretries).1 (by omega)
      · intro r
        rw [← List.cons_append, sentInRound_append, htailNone, List.append_nil]
        exact (hown hretries).2
  | @again round req sent retries tail later s hretries htail hs hstatus _ ih =>
      obtain ⟨hbefore, hround⟩ := ih
      have hskip : ∀ r, sentInRound r (tail ++
          .verdict (ciSvuVerify s svuMaxIntervals) :: later) = sentInRound r later := by
        intro r
        rw [sentInRound_append, sentInRound_of_not_request r htail, List.nil_append]
        rfl
      constructor
      · intro r hlt
        rw [← List.cons_append, sentInRound_append, hskip, hbefore r (by omega),
          List.append_nil]
        exact (hown hretries).1 (by omega)
      · intro r
        rw [← List.cons_append, sentInRound_append, hskip]
        by_cases hr : r ≤ round
        · rw [hbefore r (Nat.lt_succ_of_le hr), List.append_nil]
          exact (hown hretries).2
        · rw [(hown hretries).1 (by omega), List.nil_append]
          obtain ⟨first, retries', heq, hasks, hfirst⟩ := hround r
          refine ⟨first, retries', heq, hasks, ?_⟩
          rcases hfirst with hnil | ⟨-, hbuilt⟩ | ⟨-, t, ht, htstatus, hbuilt⟩
          · exact Or.inl hnil
          · exact Or.inr (Or.inr ⟨by omega, _, hs, hstatus, hbuilt⟩)
          · exact Or.inr (Or.inr ⟨by omega, t, ht, htstatus, hbuilt⟩)

end Traces

section Cost

variable {src : Bytes} {buffers : ServeBuffers} {blockSize : Nat}

theorem AsksNothing.serveData_eq {req : SvuReq} (h : AsksNothing req)
    (buffers : Nat → Nat → Bool) (src : Bytes) (total : Nat) :
    serveData buffers src total req = some [] := by
  unfold serveData
  rw [h.nof_eq, if_neg (by decide)]
  change serveIntervals buffers src total req.sessionId _ 0 (req.intervals.take 1) = some []
  rw [h.cell_eq]
  have hempty : ∀ mtu, serveInterval (buffers 0) src total req.sessionId mtu ⟨0, 0⟩ = some [] := by
    intro mtu
    unfold serveInterval
    exact if_neg (by simp)
  rw [serveIntervals, hempty]
  rfl

/-- The server sends no data packet for a retry. -/
theorem AsksNothing.svuServe_data {req : SvuReq} (h : AsksNothing req) {total : Nat}
    {reply : ServeReply}
    (hserve : svuServe buffers src total blockSize (svuReqEncode req) = some reply) :
    reply.data = [] := by
  have hdata := svuServe_encode h.magic_eq (by rw [h.nof_eq]; decide) hserve
  rw [h.serveData_eq] at hdata
  exact (Option.some.inj hdata).symm

theorem dataBytes_fragments {session : UInt32} {fragments : List Span}
    (h : ∀ f ∈ fragments, Fits src f) :
    dataBytes (fragments.map (blastPacket src session)) = Span.totalLength fragments := by
  unfold dataBytes Span.totalLength
  rw [List.map_map]
  congr 1
  apply List.map_congr_left
  intro f hf
  rw [Function.comp_apply, length_blastPacket (h f hf), Nat.add_sub_cancel_left]

theorem SvuReq.map_wireInterval_ranges (req : SvuReq) :
    req.ranges.map wireInterval = req.intervals.take req.nofIntervals.toNat := by
  unfold SvuReq.ranges
  rw [List.map_map]
  conv_rhs => rw [← List.map_id (req.intervals.take req.nofIntervals.toNat)]
  apply List.map_congr_left
  intro v _
  simp [wireInterval]

/-- What one request may cost. -/
def requestCost (src : Bytes) (req : SvuReq) : Nat :=
  if req.nofIntervals = 0 then src.length else Span.totalLength req.ranges

/-- The server sends no more than the request asks for. -/
theorem svuServe_cost {req : SvuReq} {reply : ServeReply}
    (hsrc : src.length + 1024 < 2 ^ 32) (hmtu : mtuAllowed req.mtu.toNat)
    (hmagic : req.magic = svuMagicReq) (hnof : req.nofIntervals.toNat ≤ svuMaxIntervals)
    (hserve : svuServe buffers src src.length blockSize (svuReqEncode req) = some reply) :
    dataBytes reply.data ≤ requestCost src req := by
  have hdata := svuServe_encode hmagic hnof hserve
  have hwide : req.mtu.toNat > svuDataHdr := lt_of_lt_of_le (by decide) hmtu.1
  unfold serveData at hdata
  unfold requestCost
  rw [if_pos hwide] at hdata
  by_cases hzero : req.nofIntervals = 0
  · rw [if_pos hzero] at hdata ⊢
    obtain ⟨fragments, hsent, hfits, hlength, -, -⟩ :=
      blastInterval_spec (buffers.data 0) req.sessionId hmtu hsrc 0
        (Nat.le_refl src.length)
    have hreply := Option.some.inj (hdata.symm.trans hsent)
    rw [hreply, dataBytes_fragments hfits]
    omega
  · rw [if_neg hzero] at hdata ⊢
    rw [← req.map_wireInterval_ranges] at hdata
    have hbounds : ∀ v ∈ req.ranges, v.start < 2 ^ 32 ∧ v.stop < 2 ^ 32 := by
      intro v hv
      obtain ⟨w, -, rfl⟩ := List.mem_map.mp hv
      exact ⟨UInt32.toNat_lt _, UInt32.toNat_lt _⟩
    obtain ⟨fragments, hsent, hfits, hlength, -, -⟩ :=
      serveIntervals_spec buffers.data req.sessionId hmtu hsrc
        req.ranges 0 hbounds
    have hreply := Option.some.inj (hdata.symm.trans hsent)
    rw [hreply, dataBytes_fragments hfits]
    exact hlength

theorem AsksNothing.requestCost_eq {req : SvuReq} (h : AsksNothing req) :
    requestCost src req = 0 := by
  have hnof : req.nofIntervals.toNat = 1 := by
    rw [h.nof_eq]
    rfl
  unfold requestCost SvuReq.ranges
  rw [if_neg (by rw [h.nof_eq]; decide), hnof, h.cell_eq]
  rfl

end Cost

/-- The request of a further round announces the ranges of the verdict. -/
theorem nextState_ranges (cfg : ClientConfig) {s : CiSvu} (hs : s.Valid) :
    (buildRequest cfg (nextState s (ciSvuVerify s svuMaxIntervals))).ranges =
      (verifyRanges s).take svuMaxIntervals := by
  obtain ⟨-, -, hnof, hcells⟩ := nextState_request cfg s
  unfold SvuReq.ranges
  rw [hnof, hcells, List.map_map]
  conv_rhs => rw [← List.map_id ((verifyRanges s).take svuMaxIntervals)]
  apply List.map_congr_left
  intro v hv
  have hle := hs.range_le (List.mem_of_mem_take hv)
  have htotal := hs.total_lt
  obtain ⟨hstart, hstop⟩ := wireInterval_toNat (v := v) (by omega) (by omega)
  rw [Function.comp_apply, hstart, hstop]
  rfl

/-- Whatever the server sends for a request of a round is covered by the cost
of that request. -/
theorem RoundRequests.cost {cfg : ClientConfig} {env : ClientEnv} {src : Bytes}
    {round : Nat} {reqs : List SvuReq}
    (h : RoundRequests cfg 1 (buildRequest cfg (initialState env)) round reqs)
    (hsrc : src.length + 1024 < 2 ^ 32) (hmtu : mtuAllowed cfg.mtu.toNat)
    {req : SvuReq} (hreq : req ∈ reqs) {buffers : ServeBuffers} {blockSize : Nat}
    {reply : ServeReply}
    (hserve : svuServe buffers src src.length blockSize (svuReqEncode req) = some reply) :
    dataBytes reply.data ≤ requestCost src req := by
  obtain ⟨first, retries, rfl, hretries, hfirst⟩ := h
  rcases List.mem_append.mp hreq with hreq | hreq
  · rcases hfirst with rfl | ⟨-, rfl⟩ | ⟨-, s, hs, -, rfl⟩
    · simp at hreq
    · rw [List.mem_singleton.mp hreq] at hserve ⊢
      apply svuServe_cost hsrc hmtu rfl ?_ hserve
      unfold initialState
      cases env.seed with
      | none => exact Nat.zero_le _
      | some seed => exact (by decide : (1 : UInt32).toNat ≤ svuMaxIntervals)
    · rw [List.mem_singleton.mp hreq] at hserve ⊢
      apply svuServe_cost hsrc hmtu rfl ?_ hserve
      obtain ⟨hnreq, -, hnof, -⟩ := nextState_request cfg s
      rw [hnof, hnreq]
      exact Nat.min_le_right _ _
  · rw [(hretries req hreq).svuServe_data hserve]
    exact Nat.zero_le _

theorem sum_replies_le {src : Bytes} {R : SvuReq → ServeReply → Prop}
    {served : List SvuReq} {replies : List ServeReply}
    (hreplies : List.Forall₂ R served replies)
    (hcost : ∀ req ∈ served, ∀ reply, R req reply →
      dataBytes reply.data ≤ requestCost src req) :
    (replies.map fun reply => dataBytes reply.data).sum ≤
      (served.map (requestCost src)).sum := by
  induction hreplies with
  | nil => exact Nat.le_refl _
  | cons hhead _ ih =>
      rw [List.map_cons, List.map_cons, List.sum_cons, List.sum_cons]
      exact Nat.add_le_add (hcost _ (by simp) _ hhead)
        (ih (fun req hreq => hcost req (by simp [hreq])))

/-- The requests of a round cost no more than the round's budget. -/
theorem roundBudget_of_requests {cfg : ClientConfig} {env : ClientEnv} {src : Bytes}
    {events : List ClientEvent} {round : Nat}
    (h : RoundRequests cfg 1 (buildRequest cfg (initialState env)) round
      (sentInRound round events)) :
    ((sentInRound round events).map (requestCost src)).sum ≤
      roundBudget env src events round := by
  obtain ⟨first, retries, heq, hretries, hfirst⟩ := h
  have hfree : (retries.map (requestCost src)).sum = 0 := by
    rw [List.sum_eq_zero]
    intro n hn
    obtain ⟨q, hq, rfl⟩ := List.mem_map.mp hn
    exact (hretries q hq).requestCost_eq
  unfold roundBudget
  split
  next hseedless =>
    rw [heq, List.map_append, List.sum_append, hfree, Nat.add_zero]
    rcases hfirst with rfl | ⟨-, rfl⟩ | ⟨hlt, -⟩
    · simp
    · have hzero : (buildRequest cfg (initialState env)).nofIntervals = 0 := by
        unfold initialState
        rw [hseedless.2]
        rfl
      simp [requestCost, hzero]
    · omega
  next hseeded =>
    apply le_of_eq
    congr 1
    apply List.map_congr_left
    intro q hq
    refine if_neg ?_
    rw [heq] at hq
    rcases List.mem_append.mp hq with hq | hq
    · rcases hfirst with rfl | ⟨hround, rfl⟩ | ⟨-, s, hs, hstatus, rfl⟩
      · simp at hq
      · rw [List.mem_singleton.mp hq]
        unfold initialState
        cases hseed : env.seed with
        | none => exact absurd ⟨hround, hseed⟩ hseeded
        | some seed => exact (by decide : (1 : UInt32) ≠ 0)
      · rw [List.mem_singleton.mp hq]
        exact nextState_nof_ne hs hstatus
    · rw [(hretries q hq).nof_eq]
      decide

/-- In every run, whatever the links lose or deliver: at most one request asks
for the whole file, the first of a run without a seed; the first request of a
further round announces the first 32 ranges of the verdict before it, which
are not none; retries announce the empty range, for which no data is sent.
Hence, where each request reaches the server once at most, the data bytes sent
for a round stay within its budget. -/
theorem blast_budget (cfg : ClientConfig) (env : ClientEnv) :
    let events := (svuClientRunHooked cfg env).2
    (events.filter ClientEvent.asksWholeFile = [] ∨
      env.seed = none ∧ ∃ req sent,
        events.filter ClientEvent.asksWholeFile = [.request 1 0 req sent]) ∧
    (∀ before after round req sent,
      events = before ++ .request round 0 req sent :: after → 1 < round →
      ∃ s, lastVerdict before = some (ciSvuVerify s svuMaxIntervals) ∧
        1 ≤ (ciSvuVerify s svuMaxIntervals).nout ∧
        req.nofIntervals.toNat = min 32 (ciSvuVerify s svuMaxIntervals).nout ∧
        req.ranges = (verifyRanges s).take (min 32 (ciSvuVerify s svuMaxIntervals).nout)) ∧
    (∀ round attempt req sent, .request round attempt req sent ∈ events → 0 < attempt →
      req.ranges = [⟨0, 0⟩] ∧
      ∀ buffers src total blockSize reply,
        svuServe buffers src total blockSize (svuReqEncode req) = some reply →
        reply.data = []) ∧
    (∀ src : Bytes, src.length + 1024 < 2 ^ 32 →
      64 ≤ cfg.mtu.toNat → cfg.mtu.toNat ≤ 1024 →
      ∀ round served replies, List.Subperm served (sentInRound round events) →
      List.Forall₂ (fun req (reply : ServeReply) => ∃ buffers blockSize,
        svuServe buffers src src.length blockSize (svuReqEncode req) = some reply)
        served replies →
      (replies.map fun reply => dataBytes reply.data).sum ≤
        roundBudget env src events round) := by
  intro events
  have htrace : RequestTrace cfg 1 (buildRequest cfg (initialState env)) events := by
    apply (svuClientRunHooked_roundsFrom cfg env).requestTrace
    intro s hs
    unfold initialState at hs
    split at hs <;> cases hs
  refine ⟨?_, ?_, ?_, ?_⟩
  · rcases htrace.wholeFile with hnone | ⟨hzero, sent, heq⟩
    · exact Or.inl hnone
    · refine Or.inr ⟨?_, _, sent, heq⟩
      unfold initialState at hzero
      cases hseed : env.seed with
      | none => rfl
      | some seed =>
          rw [hseed] at hzero
          exact absurd hzero (by decide : (1 : UInt32) ≠ 0)
  · intro before after round req sent heq hround
    rcases htrace.firstAttempt heq with ⟨rfl, -⟩ | ⟨-, s, hs, hstatus, hlast, rfl⟩
    · omega
    · have hnout : (ciSvuVerify s svuMaxIntervals).nout = (verifyRanges s).length := by
        rw [ciSvuVerify_eq]
      obtain ⟨hnreq, -, hnof, -⟩ := nextState_request cfg s
      refine ⟨s, hlast, ?_, ?_, ?_⟩
      · rw [hnout]
        exact List.length_pos_iff.mpr (verifyRanges_ne_nil hs hstatus)
      · rw [hnof, hnreq, hnout, Nat.min_comm]
        rfl
      · rw [nextState_ranges cfg hs, hnout, List.take_eq_take_iff]
        simp [svuMaxIntervals]
  · intro round attempt req sent hmem hpos
    have hasks := htrace.retry hmem hpos
    refine ⟨?_, fun _ _ _ _ _ hserve => hasks.svuServe_data hserve⟩
    have hnof : req.nofIntervals.toNat = 1 := by
      rw [hasks.nof_eq]
      rfl
    unfold SvuReq.ranges
    rw [hnof, hasks.cell_eq]
    rfl
  · intro src hsrc hlow hhigh round served replies hserved hreplies
    have hrequests := htrace.roundRequests.2 round
    obtain ⟨chosen, hperm, hsub⟩ := hserved
    calc (replies.map fun reply => dataBytes reply.data).sum
        ≤ (served.map (requestCost src)).sum := by
          apply sum_replies_le hreplies
          intro req hreq reply ⟨buffers, blockSize, hserve⟩
          exact hrequests.cost hsrc ⟨hlow, hhigh⟩ (hsub.subset (hperm.mem_iff.mpr hreq)) hserve
      _ = (chosen.map (requestCost src)).sum := (hperm.map _).sum_eq.symm
      _ ≤ ((sentInRound round events).map (requestCost src)).sum :=
          (hsub.map _).sum_le_sum (fun _ _ => Nat.zero_le _)
      _ ≤ roundBudget env src events round := roundBudget_of_requests hrequests

theorem blast_budget_small :
    dataBytes [svuPut32 0 ++ svuPut32 1 ++ smallArtifact] ≤
      roundBudget smallEnv smallArtifact
        (svuClientRunHooked ⟨4096, 1024, 24⟩ smallEnv).2 1 := by
  have hsent : sentInRound 1 (svuClientRunHooked ⟨4096, 1024, 24⟩ smallEnv).2 =
      [buildRequest ⟨4096, 1024, 24⟩ (initialState smallEnv)] := by
    decide +kernel
  have hserve : svuServe ⟨false, fun _ => true, fun _ _ => true⟩ smallArtifact 2 4096
      (svuReqEncode (buildRequest ⟨4096, 1024, 24⟩ (initialState smallEnv))) =
        some ⟨[], [svuPut32 0 ++ svuPut32 1 ++ smallArtifact]⟩ := by
    decide +kernel
  exact (blast_budget ⟨4096, 1024, 24⟩ smallEnv).2.2.2 smallArtifact (by decide)
    (by decide) (by decide) 1 [buildRequest ⟨4096, 1024, 24⟩ (initialState smallEnv)]
    [⟨[], [svuPut32 0 ++ svuPut32 1 ++ smallArtifact]⟩]
    (by rw [hsent]) (.cons ⟨_, 4096, hserve⟩ .nil)

end SatDeploy.Svu
