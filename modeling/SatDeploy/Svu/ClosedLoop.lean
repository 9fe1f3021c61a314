import SatDeploy.Svu.HonestLink
import SatDeploy.Svu.ManifestTrust
import SatDeploy.Lib.Runs

/-!
Progress of a transfer. A round in which everything the server sends arrives
leaves the ranges its request had no room for, so a run ends with the artifact
after as many rounds as its seed has damaged runs, 32 in each, and a run that has
lost packets recovers as soon as the link is good for long enough.
-/

namespace SatDeploy.Svu

open Lib

/-- A server that never wants for a libcsp buffer. -/
def allBuffers : ServeBuffers := ⟨true, fun _ => true, fun _ _ => true⟩

/-- The first exchange of a round carries `req`, and all that the server sends in
answer to it arrives: the header first, then chunks and data packets in any order and
number, in drains none of which finds nothing. -/
structure LossFree (src : Bytes) (env : ClientEnv) (round : Nat) (req : SvuReq) : Prop where
  opened : (env.ctrl round 0).connected = true ∧ (env.ctrl round 0).buffer = true ∧
    (env.ctrl round 0).allocated = true
  answered : ∃ header chunks data packets,
    svuServe allBuffers src src.length 4096 (svuReqEncode req) =
      some ⟨header :: chunks, data⟩ ∧
    (env.ctrl round 0).packets = header :: packets ∧ (∀ p, p ∈ packets ↔ p ∈ chunks) ∧
    ∀ p, p ∈ (env.drains round).flatten ↔ p ∈ data
  steady : ∀ packets ∈ env.drains round, packets ≠ [] ∧ packets.length < 2 ^ 32

section Round

variable {src : Bytes} {env : ClientEnv} {round : Nat} {req : SvuReq} {s : CiSvu}

theorem serveCtrl_whole (src : Bytes) (req : SvuReq) :
    ∃ chunks, serveCtrl allBuffers src src.length 4096 req =
        some (servedHeader src req.sessionId :: chunks) ∧
      ∀ p, p ∈ chunks ↔ IsChunk (servedManifest src) p := by
  obtain ⟨hbytes, hmax⟩ := servedManifest_bytes src
  obtain ⟨chunks, hsend, hall, hwhole⟩ := sendManifest_spec (fun _ => true) hmax
  refine ⟨chunks, ?_, fun p => ⟨hall p, hwhole (fun _ => rfl) p⟩⟩
  rw [← hbytes] at hsend
  exact congrArg (Option.map _) hsend

/-- What arrives in a loss-free round. -/
theorem LossFree.arrives (h : LossFree src env round req) (hmagic : req.magic = svuMagicReq)
    (hnof : req.nofIntervals.toNat ≤ svuMaxIntervals) :
    (∃ session packets, (env.ctrl round 0).packets = servedHeader src session :: packets ∧
      ∀ p, p ∈ packets ↔ IsChunk (servedManifest src) p) ∧
    ∃ reply, svuServe allBuffers src src.length 4096 (svuReqEncode req) = some reply ∧
      ∀ p, p ∈ (env.drains round).flatten ↔ p ∈ reply.data := by
  obtain ⟨header, chunks, data, packets, hserve, hpackets, hchunks, hdata⟩ := h.answered
  refine ⟨?_, _, hserve, hdata⟩
  have hdecode := svuReqDecode_encode req [] hmagic hnof
  rw [List.append_nil] at hdecode
  obtain ⟨stream, hctrl, hstream⟩ := serveCtrl_whole src req.trimmed
  unfold svuServe at hserve
  simp only [hdecode, hctrl, Option.bind_eq_bind, Option.bind_some, Option.bind_eq_some_iff]
    at hserve
  obtain ⟨sent, -, heq⟩ := hserve
  simp only [Option.pure_def, Option.some.injEq, ServeReply.mk.injEq, List.cons.injEq] at heq
  obtain ⟨⟨rfl, rfl⟩, -⟩ := heq
  exact ⟨_, packets, hpackets, fun p => (hchunks p).trans (hstream p)⟩

theorem LossFree.exchange (hsrc : src.length + 1024 < 2 ^ 32) (h : LossFree src env round req)
    (hmagic : req.magic = svuMagicReq) (hnof : req.nofIntervals.toNat ≤ svuMaxIntervals) :
    ctrlExchange (env.ctrl round 0) = some (servedReply src) := by
  obtain ⟨⟨session, packets, hpackets, hchunks⟩, -⟩ := h.arrives hmagic hnof
  refine (exchange_served hsrc ?_).2 h.opened session packets hpackets fun p => (hchunks p).mpr
  intro p hp
  rw [hpackets] at hp
  rcases List.mem_cons.mp hp with rfl | hp
  · exact Or.inl ⟨session, rfl⟩
  · exact Or.inr ((hchunks p).mp hp)

theorem LossFree.isData (hsrc : src.length + 1024 < 2 ^ 32) (h : LossFree src env round req)
    (hmagic : req.magic = svuMagicReq) (hmtu : mtuAllowed req.mtu.toNat)
    (hnof : req.nofIntervals.toNat ≤ svuMaxIntervals) :
    ∀ packets ∈ env.drains round, ∀ p ∈ packets, IsData src p := by
  intro packets hpackets p hp
  obtain ⟨-, reply, hserve, hdata⟩ := h.arrives hmagic hnof
  obtain ⟨reply', hserve', hserves⟩ := encoded_served hsrc hmagic hmtu hnof allBuffers
  rw [hserve] at hserve'
  obtain rfl := Option.some.inj hserve'
  exact hserves.isData hsrc ((hdata p).mp (List.mem_flatten.mpr ⟨packets, hpackets, hp⟩))

theorem drainData_append (left right : List Bytes) : ∀ s : CiSvu,
    (drainData s (left ++ right)).1 = (drainData (drainData s left).1 right).1 := by
  induction left with
  | nil => exact fun _ => rfl
  | cons p left ih =>
      intro s
      rw [List.cons_append]
      by_cases hlong : p.length > svuDataHdr
      · cases haccept : ciSvuAccept s (svuGet32 p 0).toNat (p.drop svuDataHdr) with
        | some t =>
            rw [drainData_cons_accepted hlong haccept, drainData_cons_accepted hlong haccept]
            exact ih t
        | none => simpa only [drainData, if_pos hlong, haccept] using ih s
      · simpa only [drainData, if_neg hlong] using ih s

/-- A drain loop stops early only when the payload verifies: every other drain finds
something. -/
theorem drainLoop_delivered (hsrc : src.length < 2 ^ 32) (drains : List (List Bytes)) :
    ∀ {s : CiSvu}, ReceiverFor src 4096 s →
    (∀ packets ∈ drains, ∀ p ∈ packets, IsData src p) →
    (∀ packets ∈ drains, packets ≠ [] ∧ packets.length < 2 ^ 32) →
    (drainLoop s drains).2.1.status = .completeVerified ∨
      (drainLoop s drains).1 = (drainData s drains.flatten).1 := by
  induction drains with
  | nil => exact fun _ _ _ => Or.inr rfl
  | cons packets rest ih =>
      intro s hs hall hsteady
      obtain ⟨hs', -, hcount, -⟩ := drainData_explained ⟨0, 0, 0⟩ (I := fun _ => True)
        (fun _ _ _ _ => trivial) hsrc packets hs trivial (hall packets (by simp))
      obtain ⟨hne, hlt⟩ := hsteady packets (by simp)
      have hfound : packets.length % 2 ^ 32 ≠ 0 := by
        rw [Nat.mod_eq_of_lt hlt]
        exact mt List.length_eq_zero_iff.mp hne
      rw [List.flatten_cons, drainData_append]
      unfold drainLoop
      dsimp only
      split
      next hstop =>
        rcases hstop with hverified | hzero
        · exact Or.inl hverified
        · rw [hcount] at hzero
          exact absurd hzero hfound
      next =>
          exact ih hs' (fun q hq => hall q (by simp [hq])) (fun q hq => hsteady q (by simp [hq]))

/-- The first thing a round does is to ask. -/
theorem roundLoop_asks (cfg : ClientConfig) (left : Nat) (st : ClientState) :
    ∃ sent, .request round 0 (buildRequest cfg st) sent ∈
      (roundLoop cfg env (left + 1) round st).2 := by
  refine ⟨(env.ctrl round 0).connected && (env.ctrl round 0).buffer, ?_⟩
  have hasks : .request round 0 (buildRequest cfg st)
      ((env.ctrl round 0).connected && (env.ctrl round 0).buffer) ∈
        (ctrlAttempts (env.ctrl round) round maxAttempts 0 (buildRequest cfg st)).2 := by
    rw [maxAttempts, ctrlAttempts]
    split
    · exact List.mem_singleton_self _
    · exact List.mem_cons_self
  unfold roundLoop
  dsimp only
  split
  · exact hasks
  · split
    · exact hasks
    · split
      · exact List.mem_append_left _ (List.mem_append_left _ (List.mem_append_left _ hasks))
      · exact List.mem_append_left _ (List.mem_append_left _ (List.mem_append_left _ hasks))

/-- What a round does whose first exchange is answered. -/
theorem roundLoop_answered (cfg : ClientConfig) (left : Nat) (st : ClientState)
    {reply : CtrlReply} {recv t : CiSvu} {v : Verdict} {hook drained : List ClientEvent}
    (hreply : ctrlExchange (env.ctrl round 0) = some reply)
    (hattach : attachReceiver env st reply = some (recv, hook))
    (hdrain : drainLoop recv (env.drains round) = (t, v, drained)) :
    ∃ sent quiet, (∀ e ∈ quiet, e.isRequest = false) ∧
      roundLoop cfg env (left + 1) round st =
        if v.status = .completeVerified then
          ((finishRun env t).1,
            .request round 0 (buildRequest cfg st) sent :: (quiet ++ (finishRun env t).2))
        else
          ((roundLoop cfg env left (round + 1) (nextState t v)).1,
            .request round 0 (buildRequest cfg st) sent ::
              (quiet ++ (roundLoop cfg env left (round + 1) (nextState t v)).2)) := by
  obtain ⟨before, heq, hquiet⟩ := round_tail hattach hdrain
  refine ⟨(env.ctrl round 0).connected && (env.ctrl round 0).buffer, hook ++ drained, ?_, ?_⟩
  · intro e he
    rw [heq] at he
    rcases List.mem_append.mp he with he | he
    · exact hquiet e he
    · rw [List.mem_singleton.mp he]
      rfl
  · have hctrl : ctrlAttempts (env.ctrl round) round maxAttempts 0 (buildRequest cfg st) = _ :=
      ctrlAttempts_answered hreply
    rw [roundLoop, hctrl]
    simp only [hattach, hdrain, List.append_assoc, List.cons_append, List.nil_append]

end Round

section Recovery

variable {src : Bytes} {cfg : ClientConfig} {env : ClientEnv}

/-- A receiver that further rounds can only improve: every byte that arrived is the
artifact's, or every byte is there. -/
def Recovering (src : Bytes) (s : CiSvu) : Prop :=
  Clean src s ∨ ¬ ∃ i, s.Uncovered i

theorem recovering_kept : Kept src (Recovering src) := by
  intro s t f hs hI hf haccept
  rcases hI with hclean | hfull
  · exact Or.inl (clean_kept hs hclean hf haccept)
  · right
    rintro ⟨i, hi⟩
    have hstep := accept_uncovered hs.valid f.start (slice src f.start f.stop) i
    rw [haccept, Option.getD_some] at hstep
    exact hfull ⟨i, (hstep.mp hi).1⟩

theorem Recovering.clean {s : CiSvu} (hI : Recovering src s) (hs : ReceiverFor src 4096 s)
    (hstatus : verifyStatus s = .incomplete) : Clean src s :=
  hI.resolve_right fun hfull => hfull ((verifyStatus_incomplete hs.valid).mp hstatus)

theorem Clean.verified {s : CiSvu} (hI : Clean src s) (hs : ReceiverFor src 4096 s)
    (hfull : ¬ ∃ i, s.Uncovered i) : verifyStatus s = .completeVerified := by
  cases hstatus : verifyStatus s with
  | incomplete => exact absurd ((verifyStatus_incomplete hs.valid).mp hstatus) hfull
  | corrupt => exact absurd hstatus (hI.not_corrupt hs)
  | completeVerified => rfl

/-- One loss-free round: the payload verifies, or 32 ranges are done with. -/
theorem LossFreeRound.improves {s t : CiSvu} (hs : ReceiverFor src 4096 s)
    (hI : Recovering src s) (hkept : Clean src s → Clean src t)
    (hsrc : src.length + 1024 < 2 ^ 32) (hmtu : mtuAllowed cfg.mtu.toNat)
    (hround : LossFreeRound allBuffers cfg src 4096 s t)
    (hstatus : verifyStatus s ≠ .completeVerified)
    (hother : verifyStatus t ≠ .completeVerified) :
    (verifyRanges t).length + svuMaxIntervals = (verifyRanges s).length := by
  have hrest : verifyRanges t = (verifyRanges s).drop svuMaxIntervals ∧
      svuMaxIntervals < (verifyRanges s).length := by
    cases hkind : verifyStatus s with
    | incomplete =>
        obtain ⟨ht, hfew, hmany⟩ := hround.incomplete_step hs hsrc hmtu (fun _ _ => rfl) hkind
        have hlt : svuMaxIntervals < (verifyRanges s).length := by
          by_contra hle
          exact hother ((hkept (hI.clean hs hkind)).verified ht (hfew (Nat.le_of_not_lt hle)))
        exact ⟨(hmany hlt).2, hlt⟩
    | corrupt =>
        obtain ⟨ht, hfew, hmany⟩ := hround.corrupt_step hs hsrc hmtu (fun _ _ => rfl) hkind
        have hlt : svuMaxIntervals < (verifyRanges s).length := by
          by_contra hle
          exact hother (hfew (Nat.le_of_not_lt hle))
        exact ⟨(hmany hlt).2, hlt⟩
    | completeVerified => exact absurd hkind hstatus
  have hlength := congrArg List.length hrest.1
  rw [List.length_drop] at hlength
  omega

/-- What is asked after a verdict. -/
def nextRequest (cfg : ClientConfig) (s : CiSvu) : SvuReq :=
  buildRequest cfg (nextState s (ciSvuVerify s svuMaxIntervals))

theorem nextRequest_nof (cfg : ClientConfig) (s : CiSvu) :
    (nextRequest cfg s).nofIntervals.toNat ≤ svuMaxIntervals :=
  buildRequest_nof (nextState_nreq _ _)

/-- The drains of a loss-free round. -/
theorem LossFree.step {s : CiSvu} {round : Nat} (hs : ReceiverFor src 4096 s)
    (hI : Recovering src s) (hsrc : src.length + 1024 < 2 ^ 32)
    (hmtu : mtuAllowed cfg.mtu.toNat) (hstatus : verifyStatus s ≠ .completeVerified)
    (h : LossFree src env round (nextRequest cfg s)) :
    ∃ t v drained, drainLoop s (env.drains round) = (t, v, drained) ∧
      ReceiverFor src 4096 t ∧ Recovering src t ∧ ciSvuVerify t svuMaxIntervals = v ∧
      (verifyStatus t ≠ .completeVerified →
        (verifyRanges t).length + svuMaxIntervals = (verifyRanges s).length) := by
  have hnof := nextRequest_nof cfg s
  have hdata := h.isData hsrc rfl hmtu hnof
  obtain ⟨hfor, hrecovering, -⟩ := drainLoop_explained cfg recovering_kept (by omega)
    (env.drains round) hs hI hdata
  obtain ⟨-, -, hverdict⟩ := drainLoop_valid (env.drains round) hs.valid
  refine ⟨_, _, _, rfl, hfor, hrecovering, hverdict.symm, fun hother => ?_⟩
  obtain ⟨-, reply, hserve, harrive⟩ := h.arrives rfl hnof
  rcases drainLoop_delivered (by omega) (env.drains round) hs hdata h.steady with
    hverified | hall
  · rw [hverdict, ciSvuVerify_eq] at hverified
    exact absurd hverified hother
  · have hround : LossFreeRound allBuffers cfg src 4096 s (drainLoop s (env.drains round)).1 :=
      ⟨reply, (env.drains round).flatten, hserve, harrive, hall⟩
    exact hround.improves hs hI (fun hclean => (drainLoop_explained cfg clean_kept (by omega)
      (env.drains round) hs hclean hdata).2.1) hsrc hmtu hstatus hother

theorem finishRun_opens {s : CiSvu} (hopens : env.outfileOpens = true) :
    (finishRun env s).1 = 0 := by
  rw [finishRun, if_pos hopens]

/-- The requests in `events` are answered in full. -/
def AllAnswered (src : Bytes) (env : ClientEnv) (events : List ClientEvent) : Prop :=
  ∀ round req sent, .request round 0 req sent ∈ events → LossFree src env round req

/-- No request comes after round `last`. -/
def EndsBy (last : Nat) (events : List ClientEvent) : Prop :=
  ∀ round attempt req sent, .request round attempt req sent ∈ events → round ≤ last

theorem endsBy_of_not_request {last : Nat} {events : List ClientEvent}
    (h : ∀ e ∈ events, e.isRequest = false) : EndsBy last events := by
  intro round attempt req sent hmem
  cases h _ hmem

theorem EndsBy.append {last : Nat} {left right : List ClientEvent} (hleft : EndsBy last left)
    (hright : EndsBy last right) : EndsBy last (left ++ right) := by
  intro round attempt req sent hmem
  rcases List.mem_append.mp hmem with hmem | hmem
  · exact hleft _ _ _ _ hmem
  · exact hright _ _ _ _ hmem

theorem EndsBy.request {last round attempt : Nat} {req : SvuReq} {sent : Bool}
    {rest : List ClientEvent} (hround : round ≤ last) (hrest : EndsBy last rest) :
    EndsBy last (.request round attempt req sent :: rest) := by
  intro round' attempt' req' sent' hmem
  rcases List.mem_cons.mp hmem with heq | hmem
  · cases heq
    exact hround
  · exact hrest _ _ _ _ hmem

theorem EndsBy.mono {last later : Nat} {events : List ClientEvent} (h : EndsBy last events)
    (hle : last ≤ later) : EndsBy later events :=
  fun _ _ _ _ hmem => Nat.le_trans (h _ _ _ _ hmem) hle

/-- After a round that ended with `s`, `need` loss-free rounds are enough for 32 ranges
each. -/
theorem recovers_within (hsrc : src.length + 1024 < 2 ^ 32) (hmtu : mtuAllowed cfg.mtu.toNat)
    (hopens : env.outfileOpens = true) (need : Nat) : ∀ {left round : Nat} {s : CiSvu},
    need ≤ left → ReceiverFor src 4096 s → Recovering src s →
    verifyStatus s ≠ .completeVerified → (verifyRanges s).length ≤ svuMaxIntervals * need →
    AllAnswered src env (roundLoop cfg env left round
      (nextState s (ciSvuVerify s svuMaxIntervals))).2 →
    (roundLoop cfg env left round (nextState s (ciSvuVerify s svuMaxIntervals))).1 = 0 ∧
      EndsBy (round + need - 1) (roundLoop cfg env left round
        (nextState s (ciSvuVerify s svuMaxIntervals))).2 := by
  induction need with
  | zero =>
      intro left round s _ hs _ hstatus hfew _
      exact absurd (List.length_eq_zero_iff.mp (Nat.le_zero.mp hfew))
        (verifyRanges_ne_nil hs.valid hstatus)
  | succ need ih =>
      intro left round s hneed hs hI hstatus hfew hall
      obtain ⟨left, rfl⟩ : ∃ later, left = later + 1 := ⟨left - 1, by omega⟩
      obtain ⟨sent, hasks⟩ := roundLoop_asks cfg left
        (nextState s (ciSvuVerify s svuMaxIntervals))
      have hfirst : LossFree src env round (nextRequest cfg s) := hall round _ sent hasks
      have hreply := hfirst.exchange hsrc rfl (nextRequest_nof cfg s)
      obtain ⟨t, v, drained, hdrain, ht, hIt, rfl, hless⟩ :=
        hfirst.step hs hI hsrc hmtu hstatus
      obtain ⟨sent, quiet, hquiet, hloop⟩ := roundLoop_answered cfg left
        (nextState s (ciSvuVerify s svuMaxIntervals)) hreply rfl hdrain
      rw [hloop] at hall ⊢
      split
      next hverified =>
        refine ⟨finishRun_opens hopens, .request (by omega) (.append ?_ ?_)⟩
        · exact endsBy_of_not_request hquiet
        · exact endsBy_of_not_request finishRun_noRequest
      next hother =>
        rw [if_neg hother] at hall
        have hother' : verifyStatus t ≠ .completeVerified := by
          rwa [ciSvuVerify_eq] at hother
        have hless := hless hother'
        rw [Nat.mul_succ] at hfew
        obtain ⟨hzero, hends⟩ := ih (by omega) ht hIt hother' (by omega)
          fun r req sent hmem => hall r req sent
            (List.mem_cons_of_mem _ (List.mem_append_right _ hmem))
        refine ⟨hzero, .request (by omega) (.append ?_ (hends.mono (by omega)))⟩
        exact endsBy_of_not_request hquiet

end Recovery

/-! ### The rounds of a whole run -/

/-- Block `b` of `seed` has another digest than the artifact's. -/
def seedDiffers (src seed : Bytes) (b : Nat) : Bool :=
  decide (b < ciSvuNblocks src.length 4096) &&
    (hashBlock seed src.length 4096 b != hashBlock src src.length 4096 b)

/-- The number of runs of such blocks. -/
def damagedRuns (src seed : Bytes) : Nat :=
  (Span.runStarts (seedDiffers src seed) (ciSvuNblocks src.length 4096)).length

/-- The rounds a run takes when nothing is lost. The first one asks for no data when
there is a seed. -/
def roundsNeeded (src : Bytes) : Option Bytes → Nat
  | none => 1
  | some seed =>
      if seed.length = src.length then 1 + (damagedRuns src seed + 31) / 32 else 2

section Whole

variable {src : Bytes} {cfg : ClientConfig} {env : ClientEnv}

theorem ReceiverFor.length_ranges {s : CiSvu} (hs : ReceiverFor src 4096 s)
    (hfull : ¬ ∃ i, s.Uncovered i) : (verifyRanges s).length = damagedRuns src s.data := by
  have hfails : s.FailingBlock = fun b => seedDiffers src s.data b = true := by
    funext b
    apply propext
    unfold CiSvu.FailingBlock seedDiffers blockFails
    rw [hs.nblocks_eq, hs.total_eq, hs.block_eq, hs.expected_eq, Bool.and_eq_true,
      decide_eq_true_eq]
    refine and_congr_right fun hb => ?_
    rw [slice_manifest src hb]
  obtain ⟨hsep, hcovers⟩ := verifyRanges_of_covered hs.valid
    (mt hs.valid.count_lt_iff.mp hfull)
  refine hsep.length_eq s.total hs.valid.block_pos ?_ fun v => ?_
  · intro b hb
    exact of_decide_eq_true (Bool.and_eq_true_iff.mp hb).1
  · rw [hsep.mem_iff_maximalRun hcovers, hs.valid.maximalRun_damaged_iff, hfails]

/-- An artifact of at most 1472 blocks takes no more rounds than the client has. -/
theorem roundsNeeded_le (hsmall : src.length ≤ 1472 * 4096) (seed : Option Bytes) :
    roundsNeeded src seed ≤ 24 := by
  have hblocks : ciSvuNblocks src.length 4096 ≤ 1472 := by
    unfold ciSvuNblocks
    split <;> omega
  cases seed with
  | none => exact (by decide : 1 ≤ 24)
  | some seed =>
      have hruns : damagedRuns src seed ≤ (ciSvuNblocks src.length 4096 + 1) / 2 :=
        Span.length_runStarts_le _ _
      rw [roundsNeeded]
      split <;> omega

/-- A new receiver misses one range, the whole artifact. -/
theorem verifyRanges_new {allocated : Bool} {total block nblocks : Nat} {expected : Nat → UInt8}
    {fresh : CiSvu} (htotal : total < 2 ^ 32)
    (hnew : ciSvuNew allocated total block expected nblocks = some fresh) :
    verifyStatus fresh = .incomplete ∧ verifyRanges fresh = [⟨0, total⟩] := by
  have hvalid := ciSvuNew_valid htotal hnew
  obtain ⟨hne, -, heq⟩ := ciSvuNew_eq_some hnew
  have hpos := (ciSvuNblocks_exact htotal hne).1
  have huncovered : ∀ i, fresh.Uncovered i ↔ i < total := by
    intro i
    rw [heq]
    simp [CiSvu.Uncovered, List.getElem?_replicate]
  have hmissing : ∃ i, fresh.Uncovered i := ⟨0, (huncovered 0).mpr hpos⟩
  refine ⟨(verifyStatus_incomplete hvalid).mpr hmissing, ?_⟩
  obtain ⟨hsep, hcovers⟩ := verifyRanges_of_missing hvalid (hvalid.count_lt_iff.mpr hmissing)
  refine hsep.ext ⟨by simpa using hpos, List.pairwise_singleton _ _⟩ fun i => ?_
  rw [hcovers, huncovered]
  simp

/-- The receiver of the first round, once it is answered. -/
theorem first_attached (hsrc : src.length + 4096 ≤ 2 ^ 32) (hne : src ≠ [])
    (halloc : env.allocated = true) :
    ∃ fresh, ciSvuNew env.allocated src.length 4096 ((servedReply src).memory env.heap)
        (ciSvuNblocks src.length 4096) = some fresh ∧
      ReceiverFor src 4096 fresh ∧
      ∃ hook, attachReceiver env (initialState env) (servedReply src) =
        some (seedReceiver fresh env.seed, hook) := by
  have hpos := List.length_pos_iff.mpr hne
  have hblocks : ciSvuNblocks src.length 4096 ≠ 0 := by
    unfold ciSvuNblocks
    rw [if_neg (by omega), Nat.mod_eq_of_lt (by omega)]
    omega
  obtain ⟨fresh, hnew⟩ := ciSvuNew_accepts ((servedReply src).memory env.heap) rfl hblocks
  have hdelivers : Delivers env (servedReply src) src 4096 := delivers_of_written rfl rfl rfl rfl
  rw [← halloc] at hnew
  refine ⟨fresh, hnew, hdelivers.receiverFor (by omega) hnew, ?_⟩
  have hserved : ciSvuNew env.allocated (servedReply src).total (servedReply src).block
      ((servedReply src).memory env.heap) (servedReply src).nblocks = some fresh := hnew
  unfold attachReceiver
  simp only [initialState_recv, initialState_seed, hserved, Option.map_some]
  exact ⟨_, rfl⟩

/-- With a seed the first request asks for no data. -/
theorem initial_asksNothing (cfg : ClientConfig) {seed : Bytes} (hseed : env.seed = some seed) :
    AsksNothing (buildRequest cfg (initialState env)) := by
  have hstate : initialState env = ⟨none, some seed, [⟨0, 0⟩], 1⟩ := by
    rw [initialState, hseed]
  rw [hstate]
  exact ⟨rfl, rfl, rfl⟩

/-- A round that asks for nothing and brings nothing leaves the receiver as it is. -/
theorem LossFree.quiet {round : Nat} {req : SvuReq} (h : LossFree src env round req)
    (hasks : AsksNothing req) : env.drains round = [] := by
  obtain ⟨-, reply, hserve, hdata⟩ := h.arrives hasks.magic_eq (by rw [hasks.nof_eq]; decide)
  rw [hasks.svuServe_data hserve] at hdata
  cases hdrains : env.drains round with
  | nil => rfl
  | cons packets rest =>
      rw [hdrains] at hdata
      obtain ⟨hne, -⟩ := h.steady packets (by rw [hdrains]; exact List.mem_cons_self)
      obtain ⟨p, hp⟩ := List.exists_mem_of_ne_nil _ hne
      exact absurd ((hdata p).mp (List.mem_flatten.mpr ⟨packets, List.mem_cons_self, hp⟩))
        List.not_mem_nil

/-- A request for the whole file that is answered in full completes the payload. -/
theorem LossFree.whole {round : Nat} {req : SvuReq} {s : CiSvu} (hs : ReceiverFor src 4096 s)
    (hI : Clean src s) (hsrc : src.length + 1024 < 2 ^ 32) (hmagic : req.magic = svuMagicReq)
    (hmtu : mtuAllowed req.mtu.toNat) (hnof : req.nofIntervals = 0)
    (h : LossFree src env round req) :
    (drainLoop s (env.drains round)).2.1.status = .completeVerified := by
  have hfew : req.nofIntervals.toNat ≤ svuMaxIntervals := by
    rw [hnof]
    decide
  have hdata := h.isData hsrc hmagic hmtu hfew
  rcases drainLoop_delivered (by omega) (env.drains round) hs hdata h.steady with
    hverified | hall
  · exact hverified
  obtain ⟨hfor, hclean, -⟩ := drainLoop_explained ⟨0, 0, 0⟩ clean_kept (by omega)
    (env.drains round) hs hI hdata
  obtain ⟨-, -, hverdict⟩ := drainLoop_valid (env.drains round) hs.valid
  rw [hverdict, ciSvuVerify_eq]
  refine hclean.verified hfor ?_
  -- the fragments of the answer cover the artifact
  obtain ⟨-, reply, hserve, harrive⟩ := h.arrives hmagic hfew
  have hsent := svuServe_encode hmagic hfew hserve
  have hwide : req.mtu.toNat > svuDataHdr := lt_of_lt_of_le (by decide) hmtu.1
  unfold serveData at hsent
  rw [if_pos hnof, if_pos hwide] at hsent
  obtain ⟨fragments, hblast, hfits, -, -, hcovers⟩ :=
    blastInterval_spec (allBuffers.data 0) req.sessionId hmtu hsrc 0 (Nat.le_refl src.length)
  have hreply := Option.some.inj (hsent.symm.trans hblast)
  rw [hreply] at harrive
  have hoverlaid := drainData_arrivals (by omega) hfits harrive hs.valid hs.total_eq
  rintro ⟨i, hi⟩
  rw [hall] at hi
  have hlt := hfor.valid.uncovered_lt (hall ▸ hi)
  rw [hfor.total_eq] at hlt
  exact ((LossFreeRound.uncovered hoverlaid i).mp hi).2
    (hcovers (fun _ => rfl) i (Nat.zero_le i) hlt)

theorem seedReceiver_unused {fresh : CiSvu} {seed : Option Bytes}
    (hseed : ∀ bytes, seed = some bytes → bytes.length ≠ fresh.total) :
    seedReceiver fresh seed = fresh := by
  cases seed with
  | none => rfl
  | some bytes => rw [seedReceiver, if_neg (hseed bytes rfl)]

/-- The first round of a run, answered in full. -/
theorem first_round {fresh : CiSvu} (hsrc : src.length + 4096 ≤ 2 ^ 32)
    (hmtu : mtuAllowed cfg.mtu.toNat)
    (hnew : ciSvuNew env.allocated src.length 4096 ((servedReply src).memory env.heap)
      (ciSvuNblocks src.length 4096) = some fresh)
    (hfor : ReceiverFor src 4096 fresh)
    (h : LossFree src env 1 (buildRequest cfg (initialState env))) :
    ∃ t v drained, drainLoop (seedReceiver fresh env.seed) (env.drains 1) = (t, v, drained) ∧
      ReceiverFor src 4096 t ∧ Recovering src t ∧ ciSvuVerify t svuMaxIntervals = v ∧
      (verifyStatus t ≠ .completeVerified →
        (verifyRanges t).length ≤ svuMaxIntervals * (roundsNeeded src env.seed - 1)) := by
  obtain ⟨hvalid, hshape⟩ := seedReceiver_valid hfor.valid env.seed
  have hs := hfor.of_sameShape hvalid hshape
  obtain ⟨-, -, hverdict⟩ := drainLoop_valid (env.drains 1) hvalid
  cases hseed : env.seed with
  | none =>
      rw [hseed] at hverdict hs
      have hstate : initialState env = ⟨none, none, [], 0⟩ := by rw [initialState, hseed]
      have hnof : (buildRequest cfg (initialState env)).nofIntervals = 0 := by
        rw [hstate]
        rfl
      have hdata := h.isData (by omega) rfl hmtu (by rw [hnof]; decide)
      have hverified := h.whole hfor (clean_new hnew) (by omega) rfl hmtu hnof
      obtain ⟨ht, hclean, -⟩ := drainLoop_explained cfg clean_kept (by omega) (env.drains 1)
        hfor (clean_new hnew) hdata
      refine ⟨_, _, _, rfl, ht, Or.inl hclean, hverdict.symm, fun hother => ?_⟩
      rw [seedReceiver] at hverdict
      rw [hverdict, ciSvuVerify_eq] at hverified
      exact absurd hverified hother
  | some seed =>
      have hquiet := h.quiet (initial_asksNothing cfg hseed)
      rw [hseed] at hs
      rw [hquiet]
      refine ⟨_, _, _, rfl, hs, ?_⟩
      by_cases hlen : seed.length = src.length
      · obtain ⟨hdata, hfull⟩ := seedReceiver_full (by omega) hnew hlen
        have hnone : ¬ ∃ i, (seedReceiver fresh (some seed)).Uncovered i := by
          rintro ⟨i, hi⟩
          exact hfull i hi
        refine ⟨Or.inr hnone, rfl, fun _ => ?_⟩
        rw [ciSvuData] at hdata
        rw [hs.length_ranges hnone, hdata, roundsNeeded, if_pos hlen, svuMaxIntervals]
        omega
      · have hunused : seedReceiver fresh (some seed) = fresh := by
          apply seedReceiver_unused
          intro bytes heq
          rw [← Option.some.inj heq, hfor.total_eq]
          exact hlen
        rw [hunused]
        refine ⟨Or.inl (clean_new hnew), rfl, fun _ => ?_⟩
        rw [(verifyRanges_new (by omega) hnew).2, roundsNeeded, if_neg hlen]
        exact (by decide : 1 ≤ 32 * 1)

theorem roundsNeeded_pos (src : Bytes) (seed : Option Bytes) : 0 < roundsNeeded src seed := by
  cases seed with
  | none => exact Nat.zero_lt_one
  | some seed =>
      rw [roundsNeeded]
      split <;> omega

theorem AllAnswered.first (hall : AllAnswered src env (svuClientRunHooked cfg env).2)
    (hrounds : 0 < cfg.maxRounds) :
    LossFree src env 1 (buildRequest cfg (initialState env)) := by
  obtain ⟨left, hleft⟩ : ∃ left, cfg.maxRounds = left + 1 := ⟨cfg.maxRounds - 1, by omega⟩
  obtain ⟨sent, hasks⟩ := roundLoop_asks cfg left (initialState env)
  refine hall 1 _ sent ?_
  rw [svuClientRunHooked, hleft]
  exact hasks

/-- A run with all its requests answered returns 0 in time. -/
theorem run_answered (hsrc : src.length + 4096 ≤ 2 ^ 32) (hne : src ≠ [])
    (hmtu : mtuAllowed cfg.mtu.toNat) (halloc : env.allocated = true)
    (hopens : env.outfileOpens = true)
    (hall : AllAnswered src env (svuClientRunHooked cfg env).2)
    (hrounds : roundsNeeded src env.seed ≤ cfg.maxRounds) :
    (svuClientRunHooked cfg env).1 = 0 ∧
      EndsBy (roundsNeeded src env.seed) (svuClientRunHooked cfg env).2 := by
  have hpos := roundsNeeded_pos src env.seed
  have hfirst := hall.first (by omega)
  have hreply := hfirst.exchange (by omega) rfl (buildRequest_nof (initialState_nreq env))
  obtain ⟨left, hleft⟩ : ∃ left, cfg.maxRounds = left + 1 := ⟨cfg.maxRounds - 1, by omega⟩
  have hrun : svuClientRunHooked cfg env = roundLoop cfg env (left + 1) 1 (initialState env) := by
    rw [svuClientRunHooked, hleft]
  rw [hrun] at hall ⊢
  obtain ⟨fresh, hnew, hfor, hook, hattach⟩ := first_attached hsrc hne halloc
  obtain ⟨t, v, drained, hdrain, ht, hIt, rfl, hfew⟩ := first_round hsrc hmtu hnew hfor hfirst
  obtain ⟨sent, quiet, hquiet, hloop⟩ := roundLoop_answered cfg left _ hreply hattach hdrain
  rw [hloop] at hall ⊢
  split
  next hverified =>
    refine ⟨finishRun_opens hopens, .request hpos (.append ?_ ?_)⟩
    · exact endsBy_of_not_request hquiet
    · exact endsBy_of_not_request finishRun_noRequest
  next hother =>
    rw [if_neg hother] at hall
    rw [ciSvuVerify_eq] at hother
    obtain ⟨hzero, hends⟩ := recovers_within (by omega) hmtu hopens
      (roundsNeeded src env.seed - 1) (by omega) ht hIt hother (hfew hother)
      fun r req sent hmem => hall r req sent
        (List.mem_cons_of_mem _ (List.mem_append_right _ hmem))
    refine ⟨hzero, .request hpos (.append ?_ (hends.mono (by omega)))⟩
    exact endsBy_of_not_request hquiet

/-- A run whose requests are all answered in full ends well after the rounds its seed
makes necessary. 1472 blocks never need more rounds than the client has. -/
theorem transfer_completes (cfg : ClientConfig) (env : ClientEnv) (src : Bytes)
    (hsrc : src.length + 4096 ≤ 2 ^ 32) (hne : src ≠ []) (hmtu : mtuAllowed cfg.mtu.toNat)
    (halloc : env.allocated = true) (hopens : env.outfileOpens = true)
    (hall : AllAnswered src env (svuClientRunHooked cfg env).2)
    (hrounds : roundsNeeded src env.seed ≤ cfg.maxRounds) :
    (svuClientRunHooked cfg env).1 = 0 ∧
    EndsBy (roundsNeeded src env.seed) (svuClientRunHooked cfg env).2 ∧
    (∃ data, written (svuClientRunHooked cfg env).2 = [data] ∧ Matches src data) ∧
    (src.length ≤ 1472 * 4096 → roundsNeeded src env.seed ≤ 24) := by
  have hends := run_answered hsrc hne hmtu halloc hopens hall hrounds
  have hpos := roundsNeeded_pos src env.seed
  have hreply := (hall.first (by omega)).exchange (by omega) rfl
    (buildRequest_nof (initialState_nreq env))
  refine ⟨hends.1, hends.2, ?_, fun hsmall => roundsNeeded_le hsmall env.seed⟩
  have hwrites : Ends src 4096 (svuClientRunHooked cfg env) := by
    refine (svuClientRunHooked_roundsFrom cfg env).ends (by omega) ?_ ?_
    · intro s hs
      rw [initialState_recv] at hs
      cases hs
    · intro _ reply events hctrl
      have hanswer : ctrlAttempts (env.ctrl 1) 1 maxAttempts 0
          (buildRequest cfg (initialState env)) = _ := ctrlAttempts_answered hreply
      obtain rfl := Option.some.inj (Prod.mk.inj (hctrl.symm.trans hanswer)).1
      exact delivers_of_written rfl rfl rfl rfl
  rcases hwrites with ⟨-, s, hs, hverified, hwritten⟩ | ⟨hfailed, -⟩
  · exact ⟨s.data, hwritten, hs.matches (by omega) hverified⟩
  · rw [hends.1] at hfailed
    cases hfailed

/-- A seed with one damaged block, repaired in the second round. -/
def repairEnv : ClientEnv :=
  { smallEnv with
    seed := some (ascii "ha")
    drains := fun round => if round = 1 then [] else [[smallPacket]] }

/-- What the client asks for when it misses or mistrusts the two bytes. -/
def bothBytes : SvuReq := buildRequest ⟨4096, 1024, 24⟩ ⟨none, none, [⟨0, 2⟩], 1⟩

theorem allAnswered_of_requests {events : List ClientEvent} (requests : List ClientEvent)
    (h : events.filter ClientEvent.isRequest = requests)
    (hall : ∀ round req sent, .request round 0 req sent ∈ requests →
      LossFree src env round req) : AllAnswered src env events := by
  intro round req sent hmem
  refine hall round req sent ?_
  rw [← h]
  exact List.mem_filter.mpr ⟨hmem, rfl⟩

theorem bothBytes_answered {env : ClientEnv} {drain : List Bytes}
    (hctrl : env.ctrl = smallEnv.ctrl) (hdrains : env.drains 2 = [drain])
    (hdrain : drain ≠ [] ∧ drain.length < 2 ^ 32) (hmem : ∀ p, p ∈ drain ↔ p ∈ [smallPacket]) :
    LossFree smallArtifact env 2 bothBytes where
  opened := by
    rw [hctrl]
    exact ⟨rfl, rfl, rfl⟩
  answered := by
    rw [hctrl, hdrains]
    refine ⟨_, _, [smallPacket], _, ?_, rfl, fun _ => Iff.rfl, by simpa using hmem⟩
    decide +kernel
  steady := by
    rw [hdrains]
    simpa using hdrain

theorem transfer_completes_repair :
    (svuClientRunHooked ⟨4096, 1024, 24⟩ repairEnv).1 = 0 ∧
      EndsBy 2 (svuClientRunHooked ⟨4096, 1024, 24⟩ repairEnv).2 := by
  have hneeded : roundsNeeded smallArtifact repairEnv.seed = 2 := by decide +kernel
  have hall : AllAnswered smallArtifact repairEnv
      (svuClientRunHooked ⟨4096, 1024, 24⟩ repairEnv).2 := by
    refine allAnswered_of_requests [.request 1 0 (buildRequest ⟨4096, 1024, 24⟩
      (initialState repairEnv)) true, .request 2 0 bothBytes true] (by decide +kernel) ?_
    intro round req sent hmem
    simp only [List.mem_cons, List.not_mem_nil, or_false, ClientEvent.request.injEq] at hmem
    rcases hmem with ⟨rfl, -, rfl, -⟩ | ⟨rfl, -, rfl, -⟩
    · refine ⟨⟨rfl, rfl, rfl⟩, ⟨_, _, [], _, ?_, rfl, fun _ => Iff.rfl, by simp [repairEnv]⟩, ?_⟩
      · decide +kernel
      · simp [repairEnv]
    · exact bothBytes_answered rfl rfl (by decide) fun _ => Iff.rfl
  obtain ⟨hzero, hends, -⟩ := transfer_completes ⟨4096, 1024, 24⟩ repairEnv smallArtifact
    (by decide) (by decide) (by exact (by decide : 64 ≤ 1024 ∧ 1024 ≤ 1024)) rfl rfl hall
    (by rw [hneeded]; decide)
  rw [hneeded] at hends
  exact ⟨hzero, hends⟩

end Whole

/-! ### Recovery in the middle of a run -/

section Resumption

variable {src : Bytes} {cfg : ClientConfig} {env : ClientEnv}

/-- A request that opens a round. -/
def ClientEvent.opensRound : ClientEvent → Bool
  | .request _ 0 _ _ => true
  | _ => false

/-- A round over a link that makes nothing up: it is the last one, or it ends with a
receiver the next one goes on with. -/
inductive RoundEnds (cfg : ClientConfig) (env : ClientEnv) (src : Bytes) (left round : Nat)
    (st : ClientState) : Int × List ClientEvent → Prop
  | last {code : Int} {sent : Bool} {quiet : List ClientEvent}
      (hquiet : ∀ e ∈ quiet, e.opensRound = false) :
      RoundEnds cfg env src left round st
        (code, .request round 0 (buildRequest cfg st) sent :: quiet)
  | again {sent : Bool} {quiet : List ClientEvent} {s : CiSvu} (hs : ReceiverFor src 4096 s)
      (hI : Recovering src s) (hstatus : verifyStatus s ≠ .completeVerified)
      (hquiet : ∀ e ∈ quiet, e.opensRound = false) :
      RoundEnds cfg env src left round st
        ((roundLoop cfg env left (round + 1) (nextState s (ciSvuVerify s svuMaxIntervals))).1,
          .request round 0 (buildRequest cfg st) sent ::
            (quiet ++ .verdict (ciSvuVerify s svuMaxIntervals) :: (roundLoop cfg env left
              (round + 1) (nextState s (ciSvuVerify s svuMaxIntervals))).2))

theorem opensRound_of_not_request {events : List ClientEvent}
    (h : ∀ e ∈ events, e.isRequest = false) : ∀ e ∈ events, e.opensRound = false := by
  intro e he
  have hkind := h e he
  cases e with
  | request round attempt req sent => cases hkind
  | _ => rfl

theorem roundLoop_ends (cfg : ClientConfig) (hsrc : src.length + 1024 < 2 ^ 32)
    (hlink : Honest src env) (left round : Nat) (st : ClientState)
    (hrecv : ∀ s, st.recv = some s → ReceiverFor src 4096 s ∧ Recovering src s)
    (hfresh : st.recv = none → ∀ expected fresh, ciSvuNew env.allocated src.length 4096
      expected (ciSvuNblocks src.length 4096) = some fresh →
        Recovering src (seedReceiver fresh st.seed)) :
    RoundEnds cfg env src left round st (roundLoop cfg env (left + 1) round st) := by
  obtain ⟨sent, retries, hevents, hretries⟩ := (ctrlAttempts_requests (env.ctrl round) round
    maxAttempts 0 (rfl : (buildRequest cfg st).magic = svuMagicReq)).resolve_left (by decide)
  have hlater : ∀ e ∈ retries, e.opensRound = false := by
    intro e he
    obtain ⟨later, req', sent', hpos, -, rfl⟩ := hretries e he
    obtain ⟨n, rfl⟩ : ∃ n, later = n + 1 := ⟨later - 1, by omega⟩
    rfl
  unfold roundLoop
  cases hctrl : ctrlAttempts (env.ctrl round) round maxAttempts 0 (buildRequest cfg st) with
  | mk found events =>
      rw [hctrl] at hevents
      obtain rfl : events = _ := hevents
      cases found with
      | none => exact .last hlater
      | some reply =>
          dsimp only
          cases hattach : attachReceiver env st reply with
          | none => exact .last hlater
          | some attached =>
              obtain ⟨recv, hook⟩ := attached
              obtain ⟨hs, hI, -⟩ := hlink.attached hsrc hctrl hattach hrecv hfresh
              obtain ⟨ht, hIt, -⟩ := drainLoop_explained cfg recovering_kept (by omega)
                (env.drains round) hs hI (hlink.isData hsrc round)
              obtain ⟨-, -, hverdict⟩ := drainLoop_valid (env.drains round) hs.valid
              generalize hdrain : drainLoop recv (env.drains round) = out at ht hIt hverdict
              obtain ⟨t, v, drained⟩ := out
              obtain rfl : v = ciSvuVerify t svuMaxIntervals := hverdict
              obtain ⟨before, heq, hbefore⟩ := round_tail hattach hdrain
              have hquiet : ∀ e ∈ retries ++ before, e.opensRound = false := by
                intro e he
                rcases List.mem_append.mp he with he | he
                · exact hlater e he
                · exact opensRound_of_not_request hbefore e he
              have hround : ClientEvent.request round 0 (buildRequest cfg st) sent :: retries ++
                  hook ++ drained = .request round 0 (buildRequest cfg st) sent ::
                    (retries ++ before ++ [.verdict (ciSvuVerify t svuMaxIntervals)]) := by
                rw [List.append_assoc, heq]
                simp
              simp only [hdrain]
              rw [hround]
              split
              next hverified =>
                rw [List.cons_append, List.append_assoc, List.singleton_append]
                refine .last ?_
                intro e he
                rcases List.mem_append.mp he with he | he
                · exact hquiet e he
                · rcases List.mem_cons.mp he with rfl | he
                  · rfl
                  · exact opensRound_of_not_request finishRun_noRequest e he
              next hother =>
                rw [ciSvuVerify_eq] at hother
                rw [List.cons_append, List.append_assoc, List.singleton_append]
                exact .again ht hIt hother hquiet

theorem quiet_opens {quiet before after : List ClientEvent} {first e : ClientEvent} {round : Nat}
    {req : SvuReq} {sent : Bool} (hquiet : ∀ e ∈ quiet, e.opensRound = false)
    (h : first :: quiet = before ++ e :: .request round 0 req sent :: after) : False := by
  cases before with
  | nil =>
      obtain ⟨-, rfl⟩ := List.cons.inj h
      cases hquiet _ List.mem_cons_self
  | cons found before =>
      obtain ⟨-, rfl⟩ := List.cons.inj h
      cases hquiet (.request round 0 req sent) (by simp)

/-- Where a run of rounds stands when a verdict is followed by the request of a new
round. -/
theorem roundLoop_resumes (hsrc : src.length + 1024 < 2 ^ 32) (hlink : Honest src env)
    {later : Nat} {req : SvuReq} {sent : Bool} {v : Verdict} {after : List ClientEvent}
    (left : Nat) : ∀ (round : Nat) (st : ClientState) (before : List ClientEvent),
    (∀ s, st.recv = some s → ReceiverFor src 4096 s ∧ Recovering src s) →
    (st.recv = none → ∀ expected fresh, ciSvuNew env.allocated src.length 4096
      expected (ciSvuNblocks src.length 4096) = some fresh →
        Recovering src (seedReceiver fresh st.seed)) →
    (roundLoop cfg env left round st).2 =
      before ++ .verdict v :: .request later 0 req sent :: after →
    ∃ rest s, rest + later = left + round ∧ ReceiverFor src 4096 s ∧ Recovering src s ∧
      verifyStatus s ≠ .completeVerified ∧ v = ciSvuVerify s svuMaxIntervals ∧
      (roundLoop cfg env left round st).1 = (roundLoop cfg env rest later (nextState s v)).1 ∧
      (roundLoop cfg env rest later (nextState s v)).2 = .request later 0 req sent :: after := by
  induction left with
  | zero =>
      intro round st before _ _ h
      simp [roundLoop] at h
  | succ left ih =>
      intro round st before hrecv hfresh h
      have hends := roundLoop_ends cfg hsrc hlink left round st hrecv hfresh
      generalize roundLoop cfg env (left + 1) round st = out at h hends ⊢
      cases hends with
      | last hquiet => exact (quiet_opens hquiet h).elim
      | @again sent' quiet s hs hI hstatus hquiet =>
          have hquiet' : ∀ e ∈ quiet ++ [.verdict (ciSvuVerify s svuMaxIntervals)],
              e.opensRound = false := by
            intro e he
            rcases List.mem_append.mp he with he | he
            · exact hquiet e he
            · rw [List.mem_singleton.mp he]
              rfl
          -- the new round is the next one
          have hnext : .request round 0 (buildRequest cfg st) sent' ::
                (quiet ++ [.verdict (ciSvuVerify s svuMaxIntervals)]) = before ++ [.verdict v] →
              (roundLoop cfg env left (round + 1)
                (nextState s (ciSvuVerify s svuMaxIntervals))).2 =
                  .request later 0 req sent :: after →
              v = ciSvuVerify s svuMaxIntervals ∧ later = round + 1 := by
            intro hround htail
            rw [← List.cons_append] at hround
            have hsame := List.append_inj_right' hround rfl
            refine ⟨by cases hsame; rfl, ?_⟩
            cases left with
            | zero => cases htail
            | succ left =>
                have hafter := roundLoop_ends cfg hsrc hlink left (round + 1)
                  (nextState s (ciSvuVerify s svuMaxIntervals))
                  (fun t ht => Option.some.inj ht ▸ ⟨hs, hI⟩) (fun hnone => by cases hnone)
                generalize roundLoop cfg env (left + 1) (round + 1) _ = out at htail hafter
                cases hafter with
                | last _ => cases htail; rfl
                | again _ _ _ _ => cases htail; rfl
          have hsplit : (ClientEvent.request round 0 (buildRequest cfg st) sent' ::
              (quiet ++ [.verdict (ciSvuVerify s svuMaxIntervals)])) ++
                (roundLoop cfg env left (round + 1)
                  (nextState s (ciSvuVerify s svuMaxIntervals))).2 =
              (before ++ [.verdict v]) ++ .request later 0 req sent :: after := by
            simpa using h
          rcases List.append_eq_append_iff.mp hsplit with ⟨skipped, hbefore, htail⟩ |
            ⟨extra, hround, hafter⟩
          · rcases List.eq_nil_or_concat skipped with rfl | ⟨skipped, e, rfl⟩
            · obtain ⟨rfl, rfl⟩ := hnext (by simpa using hbefore.symm) htail
              exact ⟨left, s, by omega, hs, hI, hstatus, rfl, rfl, htail⟩
            · rw [List.concat_eq_append, ← List.append_assoc] at hbefore
              have hsame := List.append_inj_right' hbefore rfl
              obtain ⟨rest, t, hsum, hlater⟩ := ih (round + 1) (nextState s (ciSvuVerify s
                svuMaxIntervals)) skipped
                (fun t ht => Option.some.inj ht ▸ ⟨hs, hI⟩) (fun hnone => by cases hnone) (by
                  rw [htail]
                  cases hsame
                  simp)
              exact ⟨rest, t, by omega, hlater⟩
          · cases extra with
            | nil =>
                obtain ⟨rfl, rfl⟩ := hnext (by simpa using hround) (by simpa using hafter.symm)
                exact ⟨left, s, by omega, hs, hI, hstatus, rfl, rfl, by simpa using hafter.symm⟩
            | cons e extra =>
                obtain ⟨rfl, -⟩ := List.cons.inj hafter
                exact (quiet_opens hquiet' (by simpa using hround)).elim

theorem recovering_seeded {allocated : Bool} {total block nblocks : Nat}
    {expected : Nat → UInt8} {fresh : CiSvu} (htotal : total < 2 ^ 32)
    (hnew : ciSvuNew allocated total block expected nblocks = some fresh) (seed : Option Bytes) :
    Recovering src (seedReceiver fresh seed) := by
  have hlen : fresh.total = total := by rw [(ciSvuNew_eq_some hnew).2.2]
  by_cases hused : ∃ bytes, seed = some bytes ∧ bytes.length = total
  · obtain ⟨bytes, rfl, hsame⟩ := hused
    exact Or.inr fun ⟨i, hi⟩ => (seedReceiver_full htotal hnew hsame).2 i hi
  · rw [seedReceiver_unused fun bytes hseed heq => hused ⟨bytes, hseed, heq.trans hlen⟩]
    exact Or.inl (clean_new hnew)

/-- Wherever a run stands, over a link that lost and repeated what it liked: when a round
ends with a verdict of at most 32 ranges for each of the next `need` rounds, and the run
has so many left, it ends well if the link is good from there on. -/
theorem transfer_recovers (cfg : ClientConfig) (env : ClientEnv) (src : Bytes)
    (hsrc : src.length + 1024 < 2 ^ 32) (hmtu : mtuAllowed cfg.mtu.toNat)
    (hopens : env.outfileOpens = true) (hlink : Honest src env)
    {before after : List ClientEvent} {v : Verdict} {round : Nat} {req : SvuReq} {sent : Bool}
    (hrun : (svuClientRunHooked cfg env).2 =
      before ++ .verdict v :: .request round 0 req sent :: after)
    (need : Nat) (hneed : round + need ≤ cfg.maxRounds + 1)
    (hfew : v.nout ≤ svuMaxIntervals * need)
    (hall : AllAnswered src env (.request round 0 req sent :: after)) :
    (svuClientRunHooked cfg env).1 = 0 ∧ EndsBy (round + need - 1) after ∧
      ∃ data, written (svuClientRunHooked cfg env).2 = [data] ∧ Matches src data := by
  obtain ⟨rest, s, hsum, hs, hI, hstatus, rfl, hcode, hrest⟩ := roundLoop_resumes hsrc hlink
    cfg.maxRounds 1 (initialState env) before
    (fun s hs => by rw [initialState_recv] at hs; cases hs)
    (fun _ expected fresh hnew => recovering_seeded (by omega) hnew _) hrun
  rw [ciSvuVerify_eq] at hfew
  have hleft : need ≤ rest := by omega
  rw [← hrest] at hall
  obtain ⟨hzero, hends⟩ := recovers_within hsrc hmtu hopens need hleft hs hI hstatus hfew hall
  have hrun' : (svuClientRunHooked cfg env).1 = 0 := hcode.trans hzero
  refine ⟨hrun', ?_, ?_⟩
  · intro r attempt req' sent' hmem
    exact hends r attempt req' sent' (by rw [hrest]; exact List.mem_cons_of_mem _ hmem)
  · rcases hlink.ends hsrc cfg with ⟨-, t, ht, hverified, hwritten⟩ | ⟨hfailed, -⟩
    · exact ⟨t.data, hwritten, ht.matches (by omega) hverified⟩
    · rw [hrun'] at hfailed
      cases hfailed

theorem transfer_recovers_late : (svuClientRunHooked ⟨4096, 1024, 24⟩ lateEnv).1 = 0 := by
  have hrun : (svuClientRunHooked ⟨4096, 1024, 24⟩ lateEnv).2 =
      (svuClientRunHooked ⟨4096, 1024, 24⟩ lateEnv).2.take 2 ++
        .verdict ⟨.incomplete, [⟨0, 2⟩], 1⟩ :: .request 2 0 bothBytes true ::
          (svuClientRunHooked ⟨4096, 1024, 24⟩ lateEnv).2.drop 4 := by
    decide +kernel
  refine (transfer_recovers ⟨4096, 1024, 24⟩ lateEnv smallArtifact (by decide)
    (by exact (by decide : 64 ≤ 1024 ∧ 1024 ≤ 1024)) rfl lateEnv_honest hrun 1 (by decide)
    (by decide) ?_).1
  refine allAnswered_of_requests [.request 2 0 bothBytes true] (by decide +kernel) ?_
  intro round req sent hmem
  simp only [List.mem_singleton, ClientEvent.request.injEq] at hmem
  obtain ⟨rfl, -, rfl, -⟩ := hmem
  exact bothBytes_answered rfl rfl (by decide) fun p => by simp

end Resumption

/-! ### What a delivered run does -/

/-- The events before a payload is verified: requests, hooks and verdicts. -/
def ClientEvent.transfers : ClientEvent → Bool
  | .openOut _ => false
  | .writeOut _ => false
  | .completeHook => false
  | _ => true

/-- A run that returns 0 ends with opening the output file, writing one payload and the
complete hook, and does none of this before. -/
def Closes (out : Int × List ClientEvent) : Prop :=
  out.1 = 0 → ∃ events data,
    out.2 = events ++ [.openOut true, .writeOut data, .completeHook] ∧
      ∀ e ∈ events, e.transfers = true

/-- The digests tell the artifact from every payload that has its bytes or zeros. -/
def Telling (src : Bytes) : Prop :=
  ∀ data, Matches src data → (∀ i < src.length, data[i]? = src[i]? ∨ data[i]? = some 0) →
    data = src

section Closing

variable {src : Bytes} {cfg : ClientConfig} {env : ClientEnv}

theorem Closes.prepend {before : List ClientEvent} {out : Int × List ClientEvent}
    (hbefore : ∀ e ∈ before, e.transfers = true) (h : Closes out) :
    Closes (out.1, before ++ out.2) := by
  intro hzero
  obtain ⟨events, data, heq, hevents⟩ := h hzero
  refine ⟨before ++ events, data, ?_, ?_⟩
  · change before ++ out.2 = _
    rw [heq, List.append_assoc]
  · intro e he
    rcases List.mem_append.mp he with he | he
    · exact hbefore e he
    · exact hevents e he

theorem finishRun_closes (env : ClientEnv) (recv : CiSvu) : Closes (finishRun env recv) := by
  unfold finishRun
  split
  · exact fun _ => ⟨[], _, rfl, by simp⟩
  · intro hfailed
    cases hfailed

theorem RoundsFrom.closes {round : Nat} {st : ClientState} {out : Int × List ClientEvent}
    (h : RoundsFrom cfg env round st out) : Closes out := by
  have hround {round : Nat} {st : ClientState} {reply : CtrlReply} {recv recv' : CiSvu}
      {v : Verdict} {events hook drained : List ClientEvent}
      (hctrl : ctrlAttempts (env.ctrl round) round maxAttempts 0 (buildRequest cfg st) =
        (some reply, events)) (hattach : attachReceiver env st reply = some (recv, hook))
      (hdrain : drainLoop recv (env.drains round) = (recv', v, drained)) :
      ∀ e ∈ events ++ hook ++ drained, e.transfers = true := by
    have hasked := ctrlAttempts_events (env.ctrl round) round maxAttempts 0 (buildRequest cfg st)
    obtain ⟨before, hfilled, hbefore⟩ := drainLoop_isDrain (env.drains round) (s := recv)
    rw [hctrl] at hasked
    rw [hdrain] at hfilled
    intro e he
    rcases List.mem_append.mp he with he | he
    · rcases List.mem_append.mp he with he | he
      · obtain ⟨_, _, _, rfl⟩ := hasked e he
        rfl
      · rcases attachReceiver_cases hattach with ⟨-, rfl⟩ | ⟨-, fresh, -, -, rfl⟩
        · cases he
        · rw [List.mem_singleton.mp he]
          rfl
    · rw [show drained = _ from hfilled] at he
      rcases List.mem_append.mp he with he | he
      · have hdrain := hbefore e he
        cases e with
        | dataHook | verdict => rfl
        | _ => cases hdrain
      · rw [List.mem_singleton.mp he]
        rfl
  induction h with
  | gaveUp | ctrlFailed | newFailed =>
      intro hfailed
      cases hfailed
  | verified hctrl hattach hdrain hstatus =>
      exact (finishRun_closes env _).prepend (hround hctrl hattach hdrain)
  | again hctrl hattach hdrain hstatus hlater ih => exact ih.prepend (hround hctrl hattach hdrain)

/-- Everything a run asks for arrives, and its seed is nothing but the artifact's bytes
and zeros: it writes the artifact. -/
theorem run_delivers (hsrc : src.length + 4096 ≤ 2 ^ 32) (hne : src ≠ [])
    (hmtu : mtuAllowed cfg.mtu.toNat) (halloc : env.allocated = true)
    (hopens : env.outfileOpens = true) (hlink : Honest src env)
    (hall : AllAnswered src env (svuClientRunHooked cfg env).2)
    (hrounds : roundsNeeded src env.seed ≤ cfg.maxRounds)
    (hseed : env.seed = none ∨ Telling src ∧ ∀ seed, env.seed = some seed →
      ∀ i < src.length, seed[i]? = src[i]? ∨ seed[i]? = some 0) :
    ∃ events, svuClientRunHooked cfg env =
        (0, events ++ [.openOut true, .writeOut src, .completeHook]) ∧
      ∀ e ∈ events, e.transfers = true := by
  have hzero := (run_answered hsrc hne hmtu halloc hopens hall hrounds).1
  obtain ⟨events, data, heq, hevents⟩ := (svuClientRunHooked_roundsFrom cfg env).closes hzero
  have hmem : .writeOut data ∈ (svuClientRunHooked cfg env).2 := by simp [heq]
  have hdata : data = src := by
    rcases hseed with hnone | ⟨htells, hzeros⟩
    · have hclean : Explained cfg src (Clean src) (.writeOut data) := by
        refine run_explained clean_kept (by omega) hlink (fun expected fresh hnew => ?_) _ hmem
        rw [hnone]
        exact clean_new hnew
      generalize hpayload : data = payload at hclean
      cases hclean with
      | writeOut hs hI hverified =>
          exact hI.data_eq hs ((verifyStatus_verified hs.valid).mp hverified).1
    · have hmixed : Explained cfg src (Mixed src (startBuffer env.seed src.length))
          (.writeOut data) := by
        refine run_explained (mixed_kept _) (by omega) hlink (fun expected fresh hnew i => ?_)
          _ hmem
        have hstart := (seedReceiver_start (by omega) hnew env.seed).2
        rw [ciSvuData] at hstart
        exact Or.inr (by rw [hstart])
      generalize hpayload : data = payload at hmixed
      cases hmixed with
      | writeOut hs hI hverified =>
          refine htells _ (hs.matches (by omega) hverified) fun i hi => ?_
          rcases hI i with hsame | hold
          · exact Or.inl hsame
          · rw [hold]
            unfold startBuffer
            split
            next seed hheld =>
              split
              · exact hzeros seed hheld i hi
              · exact Or.inr (List.getElem?_replicate_of_lt hi)
            next => exact Or.inr (List.getElem?_replicate_of_lt hi)
  refine ⟨events, ?_, hevents⟩
  rw [← hdata, ← heq, ← hzero]

end Closing

end SatDeploy.Svu
