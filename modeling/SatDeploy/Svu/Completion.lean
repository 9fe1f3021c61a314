import SatDeploy.Svu.Session

/-!
Verified completion. A run that returns 0 has written a payload whose every
block carries the manifest's digest, whatever seed and packets it met; a run
that returns -1 has not touched `outfile`.
-/

namespace SatDeploy.Svu

open Lib

/-- The payloads a run wrote to `outfile`. -/
def written (events : List ClientEvent) : List Bytes :=
  events.filterMap fun
    | .writeOut payload => some payload
    | _ => none

/-- Opening `outfile` truncates it, so an open counts as a write. -/
def ClientEvent.touchesOutfile : ClientEvent → Bool
  | .openOut ok => ok
  | .writeOut _ => true
  | _ => false

/-- The exchange delivered the length of `src`, the block size, and the
digests `ci_svu_manifest` makes of it. -/
structure Delivers (env : ClientEnv) (reply : CtrlReply) (src : Bytes)
    (block : Nat) : Prop where
  total_eq : reply.total = src.length
  block_eq : reply.block = block
  nblocks_eq : reply.nblocks = (ciSvuManifest src src.length block).1
  digests : ∀ i, i < reply.nblocks * hashLen →
    (ciSvuManifest src src.length block).2[i]? = some (reply.memory env.heap i)

/-- A receiver for the artifact `src`. -/
structure ReceiverFor (src : Bytes) (block : Nat) (s : CiSvu) : Prop where
  valid : s.Valid
  total_eq : s.total = src.length
  block_eq : s.block = block
  expected_eq : s.expected = (ciSvuManifest src src.length block).2

section Artifact

variable {src : Bytes} {block : Nat}

theorem ReceiverFor.of_sameShape {s t : CiSvu} (hs : ReceiverFor src block s)
    (ht : t.Valid) (hshape : SameShape s t) : ReceiverFor src block t where
  valid := ht
  total_eq := hshape.total_eq.trans hs.total_eq
  block_eq := hshape.block_eq.trans hs.block_eq
  expected_eq := hshape.expected_eq.trans hs.expected_eq

theorem ReceiverFor.nblocks_eq {s : CiSvu} (hs : ReceiverFor src block s) :
    s.nblocks = ciSvuNblocks src.length block := by
  rw [hs.valid.nblocks_eq, hs.total_eq, hs.block_eq]

theorem receiverFor_new {allocated : Bool} {expected : Nat → UInt8} {fresh : CiSvu}
    (hsrc : src.length < 2 ^ 32)
    (hdigests : ∀ i, i < ciSvuNblocks src.length block * hashLen →
      (ciSvuManifest src src.length block).2[i]? = some (expected i))
    (hnew : ciSvuNew allocated src.length block expected
      (ciSvuManifest src src.length block).1 = some fresh) :
    ReceiverFor src block fresh := by
  have hvalid : fresh.Valid := ciSvuNew_valid hsrc hnew
  obtain ⟨-, -, rfl⟩ := ciSvuNew_eq_some hnew
  refine ⟨hvalid, rfl, rfl, ?_⟩
  change (List.range (ciSvuNblocks src.length block * hashLen)).map expected = _
  apply List.ext_getElem?
  intro i
  rcases Nat.lt_or_ge i (ciSvuNblocks src.length block * hashLen) with hi | hi
  · rw [hdigests i hi, List.getElem?_map, List.getElem?_range hi]
    rfl
  · rw [List.getElem?_eq_none (by simpa using hi),
      List.getElem?_eq_none (by rw [length_manifest]; exact hi)]

theorem Delivers.receiverFor {env : ClientEnv} {reply : CtrlReply} {fresh : CiSvu}
    (hsrc : src.length < 2 ^ 32) (hdelivers : Delivers env reply src block)
    (hnew : ciSvuNew env.allocated reply.total reply.block
      (reply.memory env.heap) reply.nblocks = some fresh) :
    ReceiverFor src block fresh := by
  have hdigests := hdelivers.digests
  rw [hdelivers.nblocks_eq] at hdigests hnew
  rw [hdelivers.total_eq, hdelivers.block_eq] at hnew
  exact receiverFor_new hsrc hdigests hnew

/-- A manifest buffer written in full delivers its digests. -/
theorem delivers_of_written {env : ClientEnv} {reply : CtrlReply}
    (htotal : reply.total = src.length) (hblock : reply.block = block)
    (hnblocks : reply.nblocks = (ciSvuManifest src src.length block).1)
    (hmanifest : reply.manifest =
      (ciSvuManifest src src.length block).2.map some) :
    Delivers env reply src block := by
  refine ⟨htotal, hblock, hnblocks, ?_⟩
  intro i hi
  have hlen : i < (ciSvuManifest src src.length block).2.length := by
    rw [length_manifest]
    simpa [hnblocks, ciSvuManifest] using hi
  unfold CtrlReply.memory
  rw [hmanifest, List.getElem?_map, List.getElem?_eq_getElem hlen]
  rfl

/-- Payloads of one length that agree on every block are equal. -/
theorem eq_of_blocks {data : Bytes} (hsrc : src.length < 2 ^ 32)
    (hne : ciSvuNblocks src.length block ≠ 0) (hlen : data.length = src.length)
    (hblocks : ∀ b, b < ciSvuNblocks src.length block →
      slice data (b * block) (blockEnd src.length block b) =
        slice src (b * block) (blockEnd src.length block b)) : data = src := by
  have hpos := (ciSvuNblocks_exact hsrc hne).2.1
  apply List.ext_getElem?
  intro i
  rcases Nat.lt_or_ge i src.length with hi | hi
  · have hb := div_block_lt hsrc hne hi
    obtain ⟨hlow, hhigh⟩ :=
      (mem_block_iff hpos (i / block) i).mpr ⟨hi, rfl⟩
    have hslice := congrArg (fun xs => xs[i - i / block * block]?)
      (hblocks (i / block) hb)
    simp only [getElem?_slice] at hslice
    rw [if_pos (by omega), if_pos (by omega), Nat.add_sub_cancel' hlow] at hslice
    exact hslice
  · rw [List.getElem?_eq_none (by omega), List.getElem?_eq_none hi]

/-- The digest check of a verified receiver, block by block. -/
theorem ReceiverFor.digest_of_verified {s : CiSvu} (hs : ReceiverFor src block s)
    (hverified : verifyStatus s = .completeVerified) {b : Nat}
    (hb : b < ciSvuNblocks src.length block) :
    sha256 (slice s.data (b * block) (blockEnd src.length block b)) =
      hashBlock src src.length block b := by
  have hdamage := ((verifyStatus_verified hs.valid).mp hverified).2
  have hpass : blockFails s b = false := by
    by_contra hfails
    apply hdamage
    exact ⟨_, hs.valid.damaged_of_fails (by rw [hs.nblocks_eq]; exact hb)
      (by simpa using hfails)⟩
  unfold blockFails at hpass
  rw [hs.expected_eq, slice_manifest src hb, hs.total_eq, hs.block_eq] at hpass
  unfold hashBlock at hpass ⊢
  simpa using hpass

end Artifact

section Outfile

/-- Control attempts, hooks and drains leave `outfile` alone. -/
theorem ctrlAttempts_untouched {ctrl : Nat → CtrlIo} {round : Nat} (left : Nat) :
    ∀ {attempt : Nat} {req : SvuReq}, ∀ e ∈ (ctrlAttempts ctrl round left attempt req).2,
    e.touchesOutfile = false := by
  induction left with
  | zero =>
      intro attempt req e he
      simp [ctrlAttempts] at he
  | succ left ih =>
      intro attempt req e he
      unfold ctrlAttempts at he
      cases hfirst : ctrlExchange (ctrl attempt) with
      | some reply =>
          simp only [hfirst, List.mem_singleton] at he
          rw [he]
          rfl
      | none =>
          simp only [hfirst] at he
          rcases List.mem_cons.mp he with rfl | he
          · rfl
          · exact ih e he

theorem drainLoop_untouched (drains : List (List Bytes)) {s : CiSvu} :
    ∀ e ∈ (drainLoop s drains).2.2, e.touchesOutfile = false := by
  intro e he
  obtain ⟨before, heq, hbefore⟩ := drainLoop_isDrain drains (s := s)
  rw [heq] at he
  rcases List.mem_append.mp he with he | he
  · have hdrain := hbefore e he
    cases e with
    | dataHook offset payload buffer => rfl
    | verdict v => rfl
    | _ => cases hdrain
  · rw [List.mem_singleton.mp he]
    rfl

theorem attachReceiver_untouched {env : ClientEnv} {st : ClientState}
    {reply : CtrlReply} {recv : CiSvu} {hook : List ClientEvent}
    (h : attachReceiver env st reply = some (recv, hook)) :
    ∀ e ∈ hook, e.touchesOutfile = false := by
  intro e he
  rcases attachReceiver_cases h with ⟨-, rfl⟩ | ⟨-, fresh, -, -, rfl⟩
  · simp at he
  · rw [List.mem_singleton.mp he]
    rfl

theorem written_untouched {events : List ClientEvent}
    (h : ∀ e ∈ events, e.touchesOutfile = false) : written events = [] := by
  unfold written
  rw [List.filterMap_eq_nil_iff]
  intro e he
  have htouch := h e he
  cases e with
  | writeOut payload => cases htouch
  | _ => rfl

end Outfile

/-- How a run ends: it wrote one verified payload and returns 0, or it never
touched `outfile` and returns -1. -/
def Ends (src : Bytes) (block : Nat) (out : Int × List ClientEvent) : Prop :=
  (out.1 = 0 ∧ ∃ s, ReceiverFor src block s ∧
    verifyStatus s = .completeVerified ∧ written out.2 = [s.data]) ∨
  (out.1 = -1 ∧ ∀ e ∈ out.2, e.touchesOutfile = false)

/-- Events that leave `outfile` alone, put in front of a run, do not change how
it ends. -/
theorem Ends.prepend {src : Bytes} {block : Nat} {before : List ClientEvent}
    {out : Int × List ClientEvent}
    (hbefore : ∀ e ∈ before, e.touchesOutfile = false) (h : Ends src block out) :
    Ends src block (out.1, before ++ out.2) := by
  rcases h with ⟨hresult, s, hs, hverified, hwritten⟩ | ⟨hresult, huntouched⟩
  · refine Or.inl ⟨hresult, s, hs, hverified, ?_⟩
    have hnone := written_untouched hbefore
    unfold written at hnone hwritten ⊢
    rw [List.filterMap_append, hnone, hwritten]
    rfl
  · refine Or.inr ⟨hresult, ?_⟩
    intro e he
    rcases List.mem_append.mp he with he | he
    · exact hbefore e he
    · exact huntouched e he

theorem finishRun_ends {src : Bytes} {block : Nat} {env : ClientEnv} {s : CiSvu}
    (hs : ReceiverFor src block s) (hverified : verifyStatus s = .completeVerified) :
    Ends src block (finishRun env s) := by
  unfold finishRun
  split
  · refine Or.inl ⟨rfl, s, hs, hverified, ?_⟩
    have hwhole : s.data.take s.total = s.data :=
      List.take_of_length_le (by rw [hs.valid.length_data])
    simp [written, ciSvuData, hwhole]
  · refine Or.inr ⟨rfl, ?_⟩
    intro e he
    rw [List.mem_singleton.mp he]
    rfl

/-- The invariant of the round loop: any receiver it holds is one for `src`,
and while it holds none the next successful exchange delivers `src`. -/
theorem RoundsFrom.ends {cfg : ClientConfig} {env : ClientEnv} {src : Bytes}
    {block : Nat} (hsrc : src.length < 2 ^ 32) {round : Nat} {st : ClientState}
    {out : Int × List ClientEvent} (h : RoundsFrom cfg env round st out)
    (hrecv : ∀ s, st.recv = some s → ReceiverFor src block s)
    (hfresh : st.recv = none → ∀ reply events,
      ctrlAttempts (env.ctrl round) round maxAttempts 0 (buildRequest cfg st) =
        (some reply, events) → Delivers env reply src block) :
    Ends src block out := by
  have hattached : ∀ {round : Nat} {st : ClientState} {reply : CtrlReply}
      {recv : CiSvu} {events hook : List ClientEvent},
      (∀ s, st.recv = some s → ReceiverFor src block s) →
      (st.recv = none → ∀ reply events,
        ctrlAttempts (env.ctrl round) round maxAttempts 0 (buildRequest cfg st) =
          (some reply, events) → Delivers env reply src block) →
      ctrlAttempts (env.ctrl round) round maxAttempts 0 (buildRequest cfg st) =
        (some reply, events) →
      attachReceiver env st reply = some (recv, hook) →
      ReceiverFor src block recv := by
    intro round st reply recv events hook hrecv hfresh hctrl hattach
    rcases attachReceiver_cases hattach with ⟨hold, -⟩ | ⟨hnone, fresh, hnew, rfl, -⟩
    · exact hrecv recv hold
    · have hgood := (hfresh hnone reply events hctrl).receiverFor hsrc hnew
      obtain ⟨hvalid, hshape⟩ := seedReceiver_valid hgood.valid st.seed
      exact hgood.of_sameShape hvalid hshape
  have hdrained : ∀ {s t : CiSvu} {v : Verdict} {drains : List (List Bytes)}
      {drained : List ClientEvent}, ReceiverFor src block s →
      drainLoop s drains = (t, v, drained) →
      ReceiverFor src block t ∧ v.status = verifyStatus t := by
    intro s t v drains drained hs hdrain
    obtain ⟨hvalid, hshape, hverdict⟩ := drainLoop_valid drains hs.valid
    rw [hdrain] at hvalid hshape hverdict
    refine ⟨hs.of_sameShape hvalid hshape, ?_⟩
    dsimp only at hverdict
    rw [hverdict, ciSvuVerify_eq]
  have hquiet : ∀ {round : Nat} {st : ClientState} {reply : CtrlReply}
      {recv recv' : CiSvu} {v : Verdict} {events hook drained : List ClientEvent},
      ctrlAttempts (env.ctrl round) round maxAttempts 0 (buildRequest cfg st) =
        (some reply, events) →
      attachReceiver env st reply = some (recv, hook) →
      drainLoop recv (env.drains round) = (recv', v, drained) →
      ∀ e ∈ events ++ hook ++ drained, e.touchesOutfile = false := by
    intro round st reply recv recv' v events hook drained hctrl hattach hdrain e he
    rcases List.mem_append.mp he with he | he
    · rcases List.mem_append.mp he with he | he
      · apply ctrlAttempts_untouched maxAttempts e
        rw [hctrl]
        exact he
      · exact attachReceiver_untouched hattach e he
    · apply drainLoop_untouched (env.drains round) e
      rw [hdrain]
      exact he
  induction h with
  | gaveUp round st => exact Or.inr ⟨rfl, by simp⟩
  | ctrlFailed hctrl =>
      refine Or.inr ⟨rfl, ?_⟩
      intro e he
      apply ctrlAttempts_untouched maxAttempts e
      rw [hctrl]
      exact he
  | newFailed hctrl _ =>
      refine Or.inr ⟨rfl, ?_⟩
      intro e he
      apply ctrlAttempts_untouched maxAttempts e
      rw [hctrl]
      exact he
  | verified hctrl hattach hdrain hstatus =>
      have hgood := hattached hrecv hfresh hctrl hattach
      obtain ⟨hgood', hverdict⟩ := hdrained hgood hdrain
      exact (finishRun_ends hgood' (hverdict ▸ hstatus)).prepend
        (hquiet hctrl hattach hdrain)
  | again hctrl hattach hdrain hstatus _ ih =>
      have hgood := hattached hrecv hfresh hctrl hattach
      obtain ⟨hgood', -⟩ := hdrained hgood hdrain
      apply (ih ?_ ?_).prepend (hquiet hctrl hattach hdrain)
      · intro s hs
        rw [← Option.some.inj hs]
        exact hgood'
      · intro hnone
        cases hnone

/-- If the first successful control exchange delivers the manifest of `src`,
a run that returns 0 has written a payload of that length whose every block
has the manifest's digest, hence `src` itself unless two different blocks
collide; a run that returns -1 has not touched `outfile`. -/
theorem run_verified_completion (cfg : ClientConfig) (env : ClientEnv)
    (src : Bytes) (block : Nat) (hhigh : src.length < 2 ^ 32)
    (hfirst : ∀ attempt reply, attempt < maxAttempts →
      (∀ earlier < attempt, ctrlExchange (env.ctrl 1 earlier) = none) →
      ctrlExchange (env.ctrl 1 attempt) = some reply →
      Delivers env reply src block) :
    let run := svuClientRunHooked cfg env
    (run.1 = 0 ∨ run.1 = -1) ∧
    (run.1 = 0 → ∃ data, written run.2 = [data] ∧ data.length = src.length ∧
      (∀ b, b * block < src.length →
        sha256 (slice data (b * block) (min ((b + 1) * block) src.length)) =
          slice (ciSvuManifest src src.length block).2 (b * 32) (b * 32 + 32)) ∧
      (data = src ∨ ∃ b, b * block < src.length ∧
        slice data (b * block) (min ((b + 1) * block) src.length) ≠
          slice src (b * block) (min ((b + 1) * block) src.length) ∧
        sha256 (slice data (b * block) (min ((b + 1) * block) src.length)) =
          sha256 (slice src (b * block) (min ((b + 1) * block) src.length)))) ∧
    (run.1 = -1 → ∀ e ∈ run.2, e.touchesOutfile = false) := by
  intro run
  have hends : Ends src block run := by
    apply (svuClientRunHooked_roundsFrom cfg env).ends hhigh
    · intro s hs
      unfold initialState at hs
      split at hs <;> cases hs
    · intro _ reply events hctrl
      obtain ⟨a, -, ha, hreply, hearlier⟩ := ctrlAttempts_first maxAttempts hctrl
      exact hfirst a reply (by omega)
        (fun earlier hlt => hearlier earlier (Nat.zero_le _) hlt) hreply
  rcases hends with ⟨hzero, s, hs, hverified, hwritten⟩ | ⟨hfail, huntouched⟩
  · refine ⟨Or.inl hzero, ?_, ?_⟩
    · intro _
      have hlen : s.data.length = src.length :=
        hs.valid.length_data.trans hs.total_eq
      have hne : ciSvuNblocks src.length block ≠ 0 := by
        rw [← hs.nblocks_eq]
        exact hs.valid.nblocks_ne
      have hblock : ∀ b, b * block < src.length →
          b < ciSvuNblocks src.length block := by
        intro b hb
        have hpos := (ciSvuNblocks_exact hhigh hne).2.1
        have hlt := div_block_lt hhigh hne hb
        rwa [Nat.mul_div_cancel _ hpos] at hlt
      refine ⟨s.data, hwritten, hlen, ?_, ?_⟩
      · intro b hb
        rw [← blockEnd_eq_min, hs.digest_of_verified hverified (hblock b hb)]
        exact (slice_manifest src (hblock b hb)).symm
      · by_cases hsame : ∀ b, b < ciSvuNblocks src.length block →
            slice s.data (b * block) (blockEnd src.length block b) =
              slice src (b * block) (blockEnd src.length block b)
        · exact Or.inl (eq_of_blocks hhigh hne hlen hsame)
        · push Not at hsame
          obtain ⟨b, hb, hdiffer⟩ := hsame
          refine Or.inr ⟨b, block_start_lt hhigh hb, ?_, ?_⟩
          · rw [← blockEnd_eq_min]
            exact hdiffer
          · rw [← blockEnd_eq_min, hs.digest_of_verified hverified hb]
            rfl
    · intro hfail
      rw [hzero] at hfail
      cases hfail
  · refine ⟨Or.inr hfail, ?_, fun _ => huntouched⟩
    intro hzero
    rw [hfail] at hzero
    cases hzero

/-- A two-byte artifact, delivered by one exchange and one data packet. -/
def smallArtifact : Bytes := ascii "hi"

def smallCtrl : CtrlIo where
  connected := true
  buffer := true
  allocated := true
  packets :=
    [svuPut32 svuMagicResp ++ svuPut32 1 ++ svuPut32 2 ++ svuPut32 4096 ++ svuPut32 1,
     svuPut32 0 ++ (ciSvuManifest smallArtifact 2 4096).2]
  stale := fun _ => false

def smallEnv : ClientEnv where
  seed := none
  ctrl := fun _ _ => smallCtrl
  drains := fun _ => [[svuPut32 0 ++ svuPut32 1 ++ smallArtifact]]
  allocated := true
  heap := fun _ => 0
  outfileOpens := true

theorem smallCtrl_reply : ctrlExchange smallCtrl =
    some ⟨2, 4096, 1, (ciSvuManifest smallArtifact 2 4096).2.map some⟩ := by
  decide +kernel

theorem run_verified_completion_small :
    (svuClientRunHooked ⟨4096, 1024, 24⟩ smallEnv).1 = 0 ∧
    ∃ data, written (svuClientRunHooked ⟨4096, 1024, 24⟩ smallEnv).2 = [data] ∧
      data.length = 2 ∧
      sha256 (slice data (0 * 4096) (min ((0 + 1) * 4096) 2)) =
        slice (ciSvuManifest smallArtifact 2 4096).2 (0 * 32) (0 * 32 + 32) := by
  have hrun : (svuClientRunHooked ⟨4096, 1024, 24⟩ smallEnv).1 = 0 := by
    decide +kernel
  refine ⟨hrun, ?_⟩
  have hall := run_verified_completion ⟨4096, 1024, 24⟩ smallEnv smallArtifact 4096
    (by decide) (by
      intro attempt reply _ _ hreply
      have heq := Option.some.inj (hreply.symm.trans smallCtrl_reply)
      rw [heq]
      exact delivers_of_written rfl rfl (by decide) rfl)
  obtain ⟨data, hwritten, hlen, hdigests, -⟩ := hall.2.1 hrun
  exact ⟨data, hwritten, hlen, hdigests 0 (by decide)⟩

end SatDeploy.Svu
