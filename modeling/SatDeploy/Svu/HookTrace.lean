import SatDeploy.Svu.DamageReport

/-!
The reassembly buffer as the hooks of one run see it: the meta hook is called
once, with the seed or with zeros, every data hook with its fragment written
over what the hook before it saw, and no other event changes the buffer.
-/

namespace SatDeploy.Svu

open Lib

/-- The reassembly buffer that a hook is called with. -/
def ClientEvent.buffer : ClientEvent → Option Bytes
  | .metaHook _ _ buffer => some buffer
  | .dataHook _ _ buffer => some buffer
  | _ => none

/-- The buffer of the last hook in `events`, or `found` without one. -/
def lastBuffer (found : Option Bytes) (events : List ClientEvent) : Option Bytes :=
  events.foldl (fun held event => event.buffer.or held) found

/-- The buffer a run starts with. -/
def startBuffer (seed : Option Bytes) (total : Nat) : Bytes :=
  match seed with
  | some bytes => if bytes.length = total then bytes else List.replicate total 0
  | none => List.replicate total 0

/-- What can follow the meta hook while `buffer` is in memory. -/
inductive Filling : Bytes → List ClientEvent → Prop
  | done (buffer : Bytes) : Filling buffer []
  | other {buffer : Bytes} {event : ClientEvent} {rest : List ClientEvent}
      (hevent : event.buffer = none) (hrest : Filling buffer rest) :
      Filling buffer (event :: rest)
  | data {buffer payload : Bytes} {offset : Nat} {rest : List ClientEvent}
      (hfits : offset + payload.length ≤ buffer.length)
      (hrest : Filling (splice buffer offset payload) rest) :
      Filling buffer (.dataHook offset payload (splice buffer offset payload) :: rest)

/-- What a run with `seed` can do from its start. -/
inductive Starting (seed : Option Bytes) : List ClientEvent → Prop
  | done : Starting seed []
  | other {event : ClientEvent} {rest : List ClientEvent} (hevent : event.buffer = none)
      (hrest : Starting seed rest) : Starting seed (event :: rest)
  | begun {total block : Nat} {rest : List ClientEvent} (hpos : 0 < total)
      (hlt : total < 2 ^ 32) (hrest : Filling (startBuffer seed total) rest) :
      Starting seed (.metaHook total block (startBuffer seed total) :: rest)

section Traces

variable {s : CiSvu} {seed : Option Bytes} {buffer : Bytes} {events rest : List ClientEvent}

theorem length_startBuffer (seed : Option Bytes) (total : Nat) :
    (startBuffer seed total).length = total := by
  unfold startBuffer
  split
  · split
    · assumption
    · exact List.length_replicate
  · exact List.length_replicate

theorem Filling.others (hevents : ∀ e ∈ events, e.buffer = none) (hrest : Filling buffer rest) :
    Filling buffer (events ++ rest) := by
  induction events with
  | nil => exact hrest
  | cons e events ih =>
      exact .other (hevents e (by simp)) (ih fun e' he' => hevents e' (by simp [he']))

theorem Starting.others (hevents : ∀ e ∈ events, e.buffer = none) (hrest : Starting seed rest) :
    Starting seed (events ++ rest) := by
  induction events with
  | nil => exact hrest
  | cons e events ih =>
      exact .other (hevents e (by simp)) (ih fun e' he' => hevents e' (by simp [he']))

theorem drainData_filling (packets : List Bytes) : ∀ {s : CiSvu}, s.Valid →
    Filling (ciSvuData (drainData s packets).1) rest →
    Filling (ciSvuData s) ((drainData s packets).2.1 ++ rest) := by
  induction packets with
  | nil => exact fun _ hrest => hrest
  | cons packet later ih =>
      intro s hs
      unfold drainData
      split
      · dsimp only
        split
        next t haccept =>
          intro hrest
          obtain ⟨hfits, heq⟩ := ciSvuAccept_eq_some haccept
          have hdata : ciSvuData t = splice (ciSvuData s) (svuGet32 packet 0).toNat
              (packet.drop svuDataHdr) := by
            rw [heq]
            rfl
          have hlater := ih (ciSvuAccept_valid hs haccept) hrest
          rw [hdata] at hlater
          rw [List.cons_append, hdata]
          exact .data (by rw [ciSvuData, hs.length_data]; exact hfits) hlater
        · exact ih hs
      · exact ih hs

theorem drainLoop_filling (drains : List (List Bytes)) (rest : List ClientEvent) :
    ∀ {s : CiSvu}, s.Valid →
    Filling (ciSvuData (drainLoop s drains).1) rest →
    Filling (ciSvuData s) ((drainLoop s drains).2.2 ++ rest) := by
  induction drains with
  | nil => exact fun _ hrest => .other rfl hrest
  | cons packets later ih =>
      intro s hs
      unfold drainLoop
      dsimp only
      split
      · intro hrest
        rw [List.append_assoc]
        exact drainData_filling packets hs (.other rfl hrest)
      · intro hrest
        rw [List.append_assoc, List.cons_append]
        exact drainData_filling packets hs
          (.other rfl (ih (drainData_valid packets hs).1 hrest))

theorem finishRun_filling (env : ClientEnv) (recv : CiSvu) :
    Filling (ciSvuData recv) (finishRun env recv).2 := by
  unfold finishRun
  split
  · exact .other rfl (.other rfl (.other rfl (.done _)))
  · exact .other rfl (.done _)

/-- The events of the retry loop are its requests. -/
theorem ctrlAttempts_events (ctrl : Nat → CtrlIo) (round left : Nat) : ∀ first req,
    ∀ e ∈ (ctrlAttempts ctrl round left first req).2,
      ∃ attempt asked sent, e = .request round attempt asked sent := by
  induction left with
  | zero =>
      intro first req e he
      cases he
  | succ left ih =>
      intro first req e he
      unfold ctrlAttempts at he
      dsimp only at he
      split at he
      · exact ⟨_, _, _, List.mem_singleton.mp he⟩
      · rcases List.mem_cons.mp he with rfl | he
        · exact ⟨_, _, _, rfl⟩
        · exact ih _ _ e he

theorem ctrlAttempts_others (ctrl : Nat → CtrlIo) (round left first : Nat) (req : SvuReq) :
    ∀ e ∈ (ctrlAttempts ctrl round left first req).2, e.buffer = none := by
  intro e he
  obtain ⟨_, _, _, rfl⟩ := ctrlAttempts_events ctrl round left first req e he
  rfl

/-- A run with a receiver only fills it. -/
theorem RoundsFrom.filling {cfg : ClientConfig} {env : ClientEnv} {round : Nat}
    {st : ClientState} {out : Int × List ClientEvent} (h : RoundsFrom cfg env round st out) :
    ∀ {s : CiSvu}, s.Valid → st.recv = some s → Filling (ciSvuData s) out.2 := by
  have hothers {round : Nat} {st : ClientState} {found : Option CtrlReply}
      {events : List ClientEvent} (hctrl : ctrlAttempts (env.ctrl round) round maxAttempts 0
        (buildRequest cfg st) = (found, events)) : ∀ e ∈ events, e.buffer = none := by
    have hall := ctrlAttempts_others (env.ctrl round) round maxAttempts 0 (buildRequest cfg st)
    rw [hctrl] at hall
    exact hall
  induction h with
  | gaveUp => exact fun _ _ => .done _
  | ctrlFailed hctrl =>
      intro s _ _
      simpa using Filling.others (hothers hctrl) (.done (ciSvuData s))
  | newFailed hctrl hattach =>
      intro s _ _
      simpa using Filling.others (hothers hctrl) (.done (ciSvuData s))
  | @verified round st events hook drained reply recv recv' v hctrl hattach hdrain hstatus =>
      intro s hs hrecv
      simp only [attachReceiver, hrecv, Option.some.injEq, Prod.mk.injEq] at hattach
      obtain ⟨rfl, rfl⟩ := hattach
      have hloop := drainLoop_filling (env.drains round) (finishRun env recv').2 hs
      rw [hdrain] at hloop
      rw [List.append_nil, List.append_assoc]
      exact .others (hothers hctrl) (hloop (finishRun_filling env recv'))
  | @again round st events hook drained reply recv recv' v later hctrl hattach hdrain hstatus
      hlater ih =>
      intro s hs hrecv
      simp only [attachReceiver, hrecv, Option.some.injEq, Prod.mk.injEq] at hattach
      obtain ⟨rfl, rfl⟩ := hattach
      have hloop := drainLoop_filling (env.drains round) later.2 hs
      have hvalid := (drainLoop_valid (env.drains round) hs).1
      rw [hdrain] at hloop hvalid
      rw [List.append_nil, List.append_assoc]
      exact .others (hothers hctrl) (hloop (ih hvalid rfl))

/-- A new receiver with its seed, as its meta hook sees it. -/
theorem seedReceiver_start {allocated : Bool} {total block nblocks : Nat}
    {expected : Nat → UInt8} {fresh : CiSvu} (htotal : total < 2 ^ 32)
    (hnew : ciSvuNew allocated total block expected nblocks = some fresh) (seed : Option Bytes) :
    0 < total ∧ ciSvuData (seedReceiver fresh seed) = startBuffer seed total := by
  obtain ⟨hne, -, heq⟩ := ciSvuNew_eq_some hnew
  have hzeros : ciSvuData fresh = List.replicate total 0 := by rw [heq, ciSvuData]
  have hlen : fresh.total = total := by rw [heq]
  refine ⟨(ciSvuNblocks_exact htotal hne).1, ?_⟩
  cases seed with
  | none => exact hzeros
  | some bytes =>
      simp only [seedReceiver, startBuffer, hlen]
      split
      case isTrue hsame =>
        have hroom : 0 + bytes.length ≤ fresh.total := by omega
        obtain ⟨t, ht⟩ := ciSvuAccept_isSome hroom
        obtain ⟨-, hdata⟩ := ciSvuAccept_eq_some ht
        rw [ht, Option.getD_some, hdata]
        exact splice_all (by rw [← ciSvuData, hzeros, List.length_replicate, hsame])
      case isFalse => exact hzeros

/-- A run without a receiver starts one, if it gets that far. -/
theorem RoundsFrom.starting {cfg : ClientConfig} {env : ClientEnv} {round : Nat}
    {st : ClientState} {out : Int × List ClientEvent} (h : RoundsFrom cfg env round st out)
    (hrecv : st.recv = none) : Starting st.seed out.2 := by
  have hothers {found : Option CtrlReply} {events : List ClientEvent}
      (hctrl : ctrlAttempts (env.ctrl round) round maxAttempts 0
        (buildRequest cfg st) = (found, events)) : ∀ e ∈ events, e.buffer = none := by
    have hall := ctrlAttempts_others (env.ctrl round) round maxAttempts 0 (buildRequest cfg st)
    rw [hctrl] at hall
    exact hall
  have hbegun {reply : CtrlReply} {recv recv' : CiSvu} {v : Verdict}
      {events hook drained rest : List ClientEvent}
      (hctrl : ctrlAttempts (env.ctrl round) round maxAttempts 0
        (buildRequest cfg st) = (some reply, events))
      (hattach : attachReceiver env st reply = some (recv, hook))
      (hdrain : drainLoop recv (env.drains round) = (recv', v, drained))
      (hrest : recv'.Valid → Filling (ciSvuData recv') rest) :
      Starting st.seed (events ++ hook ++ drained ++ rest) := by
    obtain ⟨a, -, -, hreply, -⟩ := ctrlAttempts_first maxAttempts hctrl
    have htotal := (ctrlExchange_lt hreply).1
    rcases attachReceiver_cases hattach with ⟨hold, -⟩ | ⟨-, fresh, hnew, rfl, rfl⟩
    · rw [hrecv] at hold
      cases hold
    · obtain ⟨hpos, hdata⟩ := seedReceiver_start htotal hnew st.seed
      have hs := (seedReceiver_valid (ciSvuNew_valid htotal hnew) st.seed).1
      have hloop := drainLoop_filling (env.drains round) rest hs
      have hvalid := (drainLoop_valid (env.drains round) hs).1
      rw [hdrain] at hloop hvalid
      rw [hdata] at hloop ⊢
      rw [List.append_assoc, List.append_assoc]
      exact .others (hothers hctrl) (.begun hpos htotal (hloop (hrest hvalid)))
  cases h with
  | gaveUp => exact .done
  | ctrlFailed hctrl => simpa using Starting.others (hothers hctrl) .done
  | newFailed hctrl hattach => simpa using Starting.others (hothers hctrl) .done
  | verified hctrl hattach hdrain hstatus =>
      exact hbegun hctrl hattach hdrain fun _ => finishRun_filling env _
  | again hctrl hattach hdrain hstatus hlater =>
      exact hbegun hctrl hattach hdrain fun hvalid => hlater.filling hvalid rfl

theorem svuClientRunHooked_starting (cfg : ClientConfig) (env : ClientEnv) :
    Starting env.seed (svuClientRunHooked cfg env).2 := by
  have hseed : (initialState env).seed = env.seed := by
    unfold initialState
    split <;> simp_all
  have hrecv : (initialState env).recv = none := by
    unfold initialState
    split <;> rfl
  rw [← hseed]
  exact (svuClientRunHooked_roundsFrom cfg env).starting hrecv

end Traces

/-! ### The first verification of a resumed run -/

/-- The reply a round goes on with, that of its first exchange to succeed. -/
def firstReply (env : ClientEnv) (round : Nat) : Option CtrlReply :=
  (List.range maxAttempts).findSome? fun attempt => ctrlExchange (env.ctrl round attempt)

/-- The digest that the memory behind the manifest pointer gives for block `b`. -/
def CtrlReply.digest (reply : CtrlReply) (heap : Nat → UInt8) (b : Nat) : Bytes :=
  (List.range hashLen).map fun k => reply.memory heap (b * hashLen + k)

/-- `bytes` with the fragments of the data hooks in `events` written over it. -/
def overlay (bytes : Bytes) (events : List ClientEvent) : Bytes :=
  events.foldl (fun held event =>
    match event with
    | .dataHook offset payload _ => splice held offset payload
    | _ => held) bytes

/-- Block `b` of `bytes` has another digest than `digest` gives. -/
def Differs (bytes : Bytes) (block : Nat) (digest : Nat → Bytes) (b : Nat) : Prop :=
  b * block < bytes.length ∧
    sha256 (slice bytes (b * block) (min ((b + 1) * block) bytes.length)) ≠ digest b

/-- `v` stores the first and counts all of the maximal runs of blocks that
differ. -/
def ReportsRuns (v : Verdict) (bytes : Bytes) (block : Nat) (digest : Nat → Bytes) : Prop :=
  ∃ ranges : List Span, Span.Separated ranges ∧ v.out = ranges.take svuMaxIntervals ∧
    v.nout = ranges.length ∧ ∀ span, span ∈ ranges ↔
      ∃ w, Span.MaximalRun (Differs bytes block digest) w ∧
        span = Span.ofBlocks bytes.length block w

section FirstVerdict

variable {s : CiSvu}

theorem ctrlAttempts_range (ctrl : Nat → CtrlIo) (round left : Nat) : ∀ attempt req,
    (ctrlAttempts ctrl round left attempt req).1 =
      (List.range' attempt left).findSome? fun attempt => ctrlExchange (ctrl attempt) := by
  induction left with
  | zero => exact fun _ _ => rfl
  | succ left ih =>
      intro attempt req
      cases hfirst : ctrlExchange (ctrl attempt) with
      | some reply => simp only [ctrlAttempts, hfirst, List.range'_succ, List.findSome?_cons]
      | none =>
          simp only [ctrlAttempts, hfirst, List.range'_succ, List.findSome?_cons]
          exact ih (attempt + 1) _

theorem ctrlAttempts_firstReply (env : ClientEnv) (round : Nat) (req : SvuReq) :
    (ctrlAttempts (env.ctrl round) round maxAttempts 0 req).1 = firstReply env round := by
  rw [ctrlAttempts_range, firstReply, List.range_eq_range']

theorem overlay_cons_data (bytes payload buffer : Bytes) (offset : Nat)
    (events : List ClientEvent) :
    overlay bytes (.dataHook offset payload buffer :: events) =
      overlay (splice bytes offset payload) events := rfl

theorem overlay_append (bytes : Bytes) (left right : List ClientEvent) :
    overlay bytes (left ++ right) = overlay (overlay bytes left) right :=
  List.foldl_append

/-- Without a fragment nothing is written over. -/
theorem overlay_of_others {events : List ClientEvent} :
    ∀ {bytes : Bytes}, (∀ offset payload buffer, .dataHook offset payload buffer ∉ events) →
    overlay bytes events = bytes := by
  induction events with
  | nil => exact fun _ => rfl
  | cons e events ih =>
      intro bytes h
      have hrest : overlay bytes events = bytes := ih fun offset payload buffer hmem =>
        h offset payload buffer (by simp [hmem])
      cases e with
      | dataHook offset payload buffer => exact absurd (by simp) (h offset payload buffer)
      | _ => exact hrest

theorem drainData_overlay (packets : List Bytes) : ∀ {s : CiSvu}, s.Valid →
    ciSvuData (drainData s packets).1 = overlay (ciSvuData s) (drainData s packets).2.1 ∧
      ((∀ i, ¬ s.Uncovered i) → ∀ i, ¬ (drainData s packets).1.Uncovered i) ∧
      ∀ v, .verdict v ∉ (drainData s packets).2.1 := by
  induction packets with
  | nil => exact fun _ => ⟨rfl, id, by simp [drainData]⟩
  | cons packet later ih =>
      intro s hs
      unfold drainData
      split
      · dsimp only
        split
        next t haccept =>
          obtain ⟨-, heq⟩ := ciSvuAccept_eq_some haccept
          obtain ⟨hdata, hcovered, hquiet⟩ := ih (ciSvuAccept_valid hs haccept)
          refine ⟨?_, fun hfull => hcovered fun i hi => ?_, by simpa using hquiet⟩
          · rw [overlay_cons_data, hdata, heq]
            rfl
          · have hget := (ciSvuAccept_accepted hs haccept).covered_get i
            rw [show t.covered[i]? = some false from hi] at hget
            split at hget
            · cases hget
            · exact hfull i hget.symm
        · exact ih hs
      · exact ih hs

/-- The first verdict of a drain loop is about what its first drain found. -/
theorem drainLoop_first (s : CiSvu) (drains : List (List Bytes)) :
    ∃ after, (drainLoop s drains).2.2 = (drainData s (drains.headD [])).2.1 ++
      .verdict (ciSvuVerify (drainData s (drains.headD [])).1 svuMaxIntervals) :: after := by
  cases drains with
  | nil => exact ⟨[], rfl⟩
  | cons packets rest =>
      unfold drainLoop
      dsimp only
      split
      · exact ⟨[], rfl⟩
      · exact ⟨_, rfl⟩

theorem length_ciSvuData (hs : s.Valid) : (ciSvuData s).length = s.total := hs.length_data

/-- What a full receiver reports, in terms of its bytes and its manifest. -/
theorem reportsRuns_of_full (hs : s.Valid) (hfull : ∀ i, ¬ s.Uncovered i) (digest : Nat → Bytes)
    (hdigest : ∀ b < s.nblocks, slice s.expected (b * hashLen) (b * hashLen + hashLen) = digest b) :
    ReportsRuns (ciSvuVerify s svuMaxIntervals) (ciSvuData s) s.block digest := by
  have hdiffers : s.FailingBlock = Differs (ciSvuData s) s.block digest := by
    funext b
    apply propext
    unfold CiSvu.FailingBlock Differs
    rw [length_ciSvuData hs]
    constructor
    · rintro ⟨hb, hfails⟩
      refine ⟨hs.block_start_lt hb, ?_⟩
      rw [← blockEnd_eq_min, ← hdigest b hb]
      simpa [blockFails, hashBlock, ciSvuData] using hfails
    · rintro ⟨hb, hne⟩
      have hdiv := hs.div_block_lt hb
      rw [Nat.mul_div_cancel _ hs.block_pos] at hdiv
      refine ⟨hdiv, ?_⟩
      rw [← blockEnd_eq_min, ← hdigest b hdiv] at hne
      simpa [blockFails, hashBlock, ciSvuData] using hne
  have hcount : ¬ s.coveredCount < s.total := by
    rw [hs.count_lt_iff]
    rintro ⟨i, hi⟩
    exact hfull i hi
  obtain ⟨hsep, hcovers⟩ := verifyRanges_of_covered hs hcount
  refine ⟨verifyRanges s, hsep, ?_, ?_, ?_⟩
  · rw [ciSvuVerify_eq]
  · rw [ciSvuVerify_eq]
  · intro span
    rw [hsep.mem_iff_maximalRun hcovers, hs.maximalRun_damaged_iff, hdiffers,
      length_ciSvuData hs]

/-- What a round does that gets a receiver. -/
theorem roundLoop_attached (cfg : ClientConfig) (left : Nat) {env : ClientEnv} {round : Nat}
    {st : ClientState} {reply : CtrlReply} {recv : CiSvu} {hook : List ClientEvent}
    (hctrl : (ctrlAttempts (env.ctrl round) round maxAttempts 0 (buildRequest cfg st)).1 =
      some reply)
    (hattach : attachReceiver env st reply = some (recv, hook)) :
    ∃ later, (roundLoop cfg env (left + 1) round st).2 =
      (ctrlAttempts (env.ctrl round) round maxAttempts 0 (buildRequest cfg st)).2 ++ hook ++
        (drainLoop recv (env.drains round)).2.2 ++ later := by
  unfold roundLoop
  simp only [hctrl, hattach]
  split
  · exact ⟨_, rfl⟩
  · exact ⟨_, rfl⟩

/-- A seed of the payload's length fills a new receiver. -/
theorem seedReceiver_full {allocated : Bool} {total block nblocks : Nat}
    {expected : Nat → UInt8} {fresh : CiSvu} {seed : Bytes} (htotal : total < 2 ^ 32)
    (hnew : ciSvuNew allocated total block expected nblocks = some fresh)
    (hlen : seed.length = total) :
    ciSvuData (seedReceiver fresh (some seed)) = seed ∧
      ∀ i, ¬ (seedReceiver fresh (some seed)).Uncovered i := by
  obtain ⟨-, -, heq⟩ := ciSvuNew_eq_some hnew
  have hvalid := ciSvuNew_valid htotal hnew
  have hfits : fresh.total = seed.length := by rw [heq, hlen]
  refine ⟨?_, ?_⟩
  · rw [(seedReceiver_start htotal hnew (some seed)).2, startBuffer, if_pos hlen]
  · have hroom : 0 + seed.length ≤ fresh.total := by omega
    obtain ⟨recv, hrecv⟩ := ciSvuAccept_isSome hroom
    have hstep := ciSvuAccept_accepted hvalid hrecv
    have hseeded : seedReceiver fresh (some seed) = recv := by
      simp only [seedReceiver, hfits, if_true, hrecv, Option.getD_some]
    rw [hseeded]
    intro i hi
    have hlt := (ciSvuAccept_valid hvalid hrecv).uncovered_lt hi
    have hget := hstep.covered_get i
    rw [hstep.total_eq] at hlt
    rw [if_pos ⟨Nat.zero_le i, by omega⟩] at hget
    rw [CiSvu.Uncovered, hget] at hi
    cases hi

/-- A new receiver expects the digests that the reply gives. -/
theorem ciSvuNew_digest {allocated : Bool} {reply : CtrlReply} {heap : Nat → UInt8}
    {fresh : CiSvu} (hnew : ciSvuNew allocated reply.total reply.block (reply.memory heap)
      reply.nblocks = some fresh) {b : Nat} (hb : b < fresh.nblocks) :
    slice fresh.expected (b * hashLen) (b * hashLen + hashLen) = reply.digest heap b := by
  obtain ⟨-, -, rfl⟩ := ciSvuNew_eq_some hnew
  have hroom : b * hashLen + hashLen ≤ reply.nblocks * hashLen := by
    rw [← Nat.succ_mul]
    exact Nat.mul_le_mul_right _ hb
  apply List.ext_getElem?
  intro i
  rw [getElem?_slice, CtrlReply.digest, List.getElem?_map, Nat.add_sub_cancel_left]
  by_cases hi : i < hashLen
  · rw [if_pos hi, List.getElem?_map, List.getElem?_range (by omega), List.getElem?_range hi]
    rfl
  · rw [if_neg hi, List.getElem?_eq_none (by simpa using hi)]

/-- A run that is resumed with a seed of the payload's length first verifies the
seed with the fragments written over it that came before. -/
theorem first_verdict {cfg : ClientConfig} (env : ClientEnv) {seed : Bytes} {reply : CtrlReply}
    (hrounds : cfg.maxRounds ≠ 0) (hseed : env.seed = some seed)
    (hreply : firstReply env 1 = some reply) (hsame : reply.total = seed.length)
    (hnew : (ciSvuNew env.allocated reply.total reply.block (reply.memory env.heap)
      reply.nblocks).isSome) :
    ∃ before v after, (svuClientRunHooked cfg env).2 = before ++ .verdict v :: after ∧
      (∀ w, .verdict w ∉ before) ∧
      ReportsRuns v (overlay seed before) reply.block (reply.digest env.heap) := by
  obtain ⟨fresh, hfresh⟩ := Option.isSome_iff_exists.mp hnew
  obtain ⟨left, hleft⟩ := Nat.exists_eq_add_one_of_ne_zero hrounds
  have hctrl := ctrlAttempts_firstReply env 1 (buildRequest cfg (initialState env))
  rw [hreply] at hctrl
  obtain ⟨a, -, -, hfound, -⟩ := ctrlAttempts_first maxAttempts (Prod.ext hctrl rfl)
  have htotal := (ctrlExchange_lt hfound).1
  obtain ⟨hs, hshape⟩ := seedReceiver_valid (ciSvuNew_valid htotal hfresh) (some seed)
  obtain ⟨hdata, hfull⟩ := seedReceiver_full htotal hfresh hsame.symm
  have hblock : fresh.block = reply.block := by
    obtain ⟨-, -, rfl⟩ := ciSvuNew_eq_some hfresh
    rfl
  have hinit : initialState env = ⟨none, some seed, [⟨0, 0⟩], 1⟩ := by
    rw [initialState, hseed]
  have hattach : attachReceiver env (initialState env) reply =
      some (seedReceiver fresh (some seed), [.metaHook reply.total reply.block seed]) := by
    simp only [attachReceiver, hinit, hfresh, Option.map_some, hdata]
  generalize seedReceiver fresh (some seed) = recv at hs hshape hdata hfull hattach
  -- the first drain and its verdict
  obtain ⟨hdrained, hkept⟩ := drainData_valid ((env.drains 1).headD []) hs
  obtain ⟨hover, hcovered, hquiet⟩ := drainData_overlay ((env.drains 1).headD []) hs
  have hreport := reportsRuns_of_full hdrained (hcovered hfull) (reply.digest env.heap) (by
      intro b hb
      rw [hkept.expected_eq, hshape.expected_eq]
      rw [hkept.nblocks_eq, hshape.nblocks_eq] at hb
      exact ciSvuNew_digest hfresh hb)
  rw [hkept.block_eq, hshape.block_eq, hblock, hover, hdata] at hreport
  -- the events of the run up to there
  obtain ⟨more, hloop⟩ := drainLoop_first recv (env.drains 1)
  obtain ⟨later, hrun⟩ := roundLoop_attached cfg left hctrl hattach
  have hrequests := ctrlAttempts_events (env.ctrl 1) 1 maxAttempts 0
    (buildRequest cfg (initialState env))
  rw [hloop, ← hleft] at hrun
  generalize (ctrlAttempts (env.ctrl 1) 1 maxAttempts 0
    (buildRequest cfg (initialState env))).2 = requests at hrun hrequests
  generalize drainData recv ((env.drains 1).headD []) = drained at hrun hreport hquiet
  refine ⟨requests ++ [.metaHook reply.total reply.block seed] ++ drained.2.1,
    ciSvuVerify drained.1 svuMaxIntervals, more ++ later, ?_, ?_, ?_⟩
  · rw [svuClientRunHooked, hrun]
    simp
  · intro w hmem
    simp only [List.mem_append, List.mem_singleton] at hmem
    rcases hmem with (hmem | hmem) | hmem
    · obtain ⟨_, _, _, heq⟩ := hrequests _ hmem
      cases heq
    · cases hmem
    · exact hquiet w hmem
  · have hbefore : overlay seed (requests ++ [.metaHook reply.total reply.block seed]) = seed := by
      apply overlay_of_others
      intro offset payload buffer hmem
      rcases List.mem_append.mp hmem with hmem | hmem
      · obtain ⟨_, _, _, heq⟩ := hrequests _ hmem
        cases heq
      · cases List.mem_singleton.mp hmem
    rw [overlay_append, hbefore]
    exact hreport

end FirstVerdict

end SatDeploy.Svu
