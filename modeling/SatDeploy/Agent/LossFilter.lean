import SatDeploy.Lib.Replay

/-!
The loss filter of test builds, `satdeploy-agent/src/loss_filter.c`: a recorded pass
as timed events, applied by whichever call comes next, and the decision about each
packet. A call carries the offset of the clock at which it is made, in any linear
order; probabilities and delays are the exact values of the numbers the pattern
file holds. Reading the text of that file is left out: a pattern is its events, and
`none` stands for a file that cannot be opened or parsed.
-/

namespace SatDeploy.Agent

open Lib

structure GilbertParams where
  pGG : ℚ
  pBB : ℚ
  dropG : ℚ
  dropB : ℚ
  deriving DecidableEq

inductive LossAction where
  | up
  | down
  | prob (p : ℚ)
  | clear
  | latency (ms : ℚ)
  | gilbert (params : GilbertParams)
  deriving DecidableEq

structure LossEvent (T : Type) where
  tOffset : T
  action : LossAction
  deriving DecidableEq

structure LossFilter (T : Type) where
  initialized : Bool
  enabled : Bool
  events : List (LossEvent T)
  linkUp : Bool
  dropProb : ℚ
  currentIdx : Nat
  latencyMs : UInt32
  gilbertActive : Bool
  gilbertInBad : Bool
  gilbert : GilbertParams
  packetsSeen : UInt32
  packetsDropped : UInt32
  rngState : UInt64

section Model

variable {T : Type} [LinearOrder T]

/-- The module before its first call. -/
def LossFilter.static : LossFilter T where
  initialized := false
  enabled := false
  events := []
  linkUp := true
  dropProb := 0
  currentIdx := 0
  latencyMs := 0
  gilbertActive := false
  gilbertInBad := false
  gilbert := ⟨0, 0, 0, 0⟩
  packetsSeen := 0
  packetsDropped := 0
  rngState := 0x12345678

/-- The check at the end of `load_pattern_file`. -/
def timestampsMonotonic : List (LossEvent T) → Bool
  | first :: second :: rest =>
      !(second.tOffset < first.tOffset) && timestampsMonotonic (second :: rest)
  | _ => true

/-- `loss_filter_init`: `pattern` is `none` when no file is named, and the seed is
`none` when the environment has none. -/
def lossFilterInit (g : LossFilter T) (pattern : Option (Option (List (LossEvent T))))
    (seed : Option UInt64) : Bool × LossFilter T :=
  if g.initialized then (true, g)
  else
    match pattern with
    | none => (true, { g with initialized := true, enabled := false })
    | some none => (false, g)
    | some (some events) =>
        if timestampsMonotonic events then
          let rng := match seed with
            | none => g.rngState
            | some seed => if seed = 0 then 1 else seed
          (true, { g with
            events := events
            rngState := rng
            initialized := true
            enabled := true
            linkUp := true
            dropProb := 0
            currentIdx := 0 })
        else (false, { g with events := [] })

namespace LossFilter

def xorshift64 (f : LossFilter T) : UInt64 × LossFilter T :=
  let x := f.rngState
  let x := x ^^^ (x <<< 13)
  let x := x ^^^ (x >>> 7)
  let x := x ^^^ (x <<< 17)
  (x, { f with rngState := x })

/-- The top 53 bits over `2 ^ 53`, which a double holds exactly. -/
def randUnit (f : LossFilter T) : ℚ × LossFilter T :=
  let (x, f) := f.xorshift64
  (((x >>> 11).toNat : ℚ) / 2 ^ 53, f)

/-- The conversion to `uint32_t` of a delay, which the parser keeps between 0 and
60000. -/
def delayMs (ms : ℚ) : UInt32 := UInt32.ofNat ms.floor.toNat

def applyAction (f : LossFilter T) : LossAction → LossFilter T
  | .up => { f with linkUp := true, dropProb := 0, gilbertActive := false }
  | .down => { f with linkUp := false, dropProb := 0, gilbertActive := false }
  | .clear => { f with linkUp := true, dropProb := 0, gilbertActive := false }
  | .prob p => { f with linkUp := true, dropProb := p, gilbertActive := false }
  | .latency ms => { f with latencyMs := delayMs ms }
  | .gilbert params =>
      { f with
        linkUp := true
        dropProb := 0
        gilbertActive := true
        gilbertInBad := false
        gilbert := params }

/-- One round of the loop in `advance_state_locked`. -/
def applyEvent (f : LossFilter T) (ev : LossEvent T) : LossFilter T :=
  let f := f.applyAction ev.action
  { f with currentIdx := f.currentIdx + 1 }

def advanceStateLocked (now : T) (f : LossFilter T) : LossFilter T :=
  advance LossEvent.tOffset applyEvent now (f.events.drop f.currentIdx) f

/-- What `loss_filter_should_drop` decides once the state is up to date. -/
def dropDecision (f : LossFilter T) : Bool × LossFilter T :=
  if !f.linkUp then (true, f)
  else if f.gilbertActive then
    if f.gilbertInBad then
      let (draw, f) := f.randUnit
      let drop : Bool := draw < f.gilbert.dropB
      let (draw, f) := f.randUnit
      (drop, if draw ≥ f.gilbert.pBB then { f with gilbertInBad := false } else f)
    else
      let (draw, f) := f.randUnit
      let drop : Bool := draw < f.gilbert.dropG
      let (draw, f) := f.randUnit
      (drop, if draw ≥ f.gilbert.pGG then { f with gilbertInBad := true } else f)
  else if f.dropProb > 0 then
    let (draw, f) := f.randUnit
    (draw < f.dropProb, f)
  else (false, f)

def shouldDrop (now : T) (f : LossFilter T) : Bool × LossFilter T :=
  if !f.initialized || !f.enabled then (false, f)
  else
    let f := { f with packetsSeen := f.packetsSeen + 1 }
    let (drop, f) := (f.advanceStateLocked now).dropDecision
    (drop, if drop then { f with packetsDropped := f.packetsDropped + 1 } else f)

/-- `loss_filter_apply_latency`: the milliseconds to sleep. -/
def applyLatency (now : T) (f : LossFilter T) : UInt32 × LossFilter T :=
  if f.initialized && f.enabled then
    let f := f.advanceStateLocked now
    (f.latencyMs, f)
  else (0, f)

end LossFilter

/-- The two calls that look at the clock. -/
inductive LossQuery where
  | shouldDrop
  | applyLatency
  deriving DecidableEq, Repr

def runQuery (f : LossFilter T) (query : LossQuery × T) : LossFilter T :=
  match query.1 with
  | .shouldDrop => (f.shouldDrop query.2).2
  | .applyLatency => (f.applyLatency query.2).2

/-! ### What the events say -/

def LossAction.isMode : LossAction → Bool
  | .latency _ => false
  | _ => true

/-- The last of `up`, `down`, `clear`, `prob` and `gilbert` up to time `t`. -/
def lastMode (events : List (LossEvent T)) (t : T) : Option LossAction :=
  ((due LossEvent.tOffset t events).map LossEvent.action |>.filter LossAction.isMode).getLast?

def LossAction.gilbert? : LossAction → Option GilbertParams
  | .gilbert params => some params
  | _ => none

def LossAction.latency? : LossAction → Option UInt32
  | .latency ms => some (LossFilter.delayMs ms)
  | _ => none

def lastGilbert (events : List (LossEvent T)) (t : T) : Option GilbertParams :=
  ((due LossEvent.tOffset t events).filterMap fun ev => ev.action.gilbert?).getLast?

def lastLatency (events : List (LossEvent T)) (t : T) : Option UInt32 :=
  ((due LossEvent.tOffset t events).filterMap fun ev => ev.action.latency?).getLast?

/-- `link_up`, `drop_prob` and `gilbert_active` of a mode; the initial state is
`up`. -/
def modeFields : Option LossAction → Bool × ℚ × Bool
  | some .down => (false, 0, false)
  | some (.prob p) => (true, p, false)
  | some (.gilbert _) => (true, 0, true)
  | _ => (true, 0, false)

theorem timestampsMonotonic_timed {events : List (LossEvent T)}
    (h : timestampsMonotonic events = true) : Timed LossEvent.tOffset events := by
  have hchain : events.IsChain fun a b => a.tOffset ≤ b.tOffset := by
    fun_induction timestampsMonotonic events with
    | case1 first second rest ih =>
        obtain ⟨hle, hrest⟩ : first.tOffset ≤ second.tOffset ∧
            timestampsMonotonic (second :: rest) = true := by simpa using h
        exact List.IsChain.cons_cons hle (ih hrest)
    | case2 events hshort =>
        match events with
        | [] => exact List.IsChain.nil
        | [_] => exact List.IsChain.singleton _
        | first :: second :: rest => exact absurd rfl (hshort first second rest)
  exact List.isChain_iff_pairwise.mp hchain

theorem timestampsMonotonic_of_timed {events : List (LossEvent T)}
    (h : Timed LossEvent.tOffset events) : timestampsMonotonic events = true := by
  fun_induction timestampsMonotonic events with
  | case1 first second rest ih =>
      obtain ⟨hfirst, hrest⟩ := List.pairwise_cons.mp h
      have hle : first.tOffset ≤ second.tOffset := hfirst second List.mem_cons_self
      simp [not_lt.mpr hle, ih hrest]
  | case2 events hshort => rfl

end Model

namespace LossFilter

section Agreement

variable {T : Type}

/-- What the events decide about the link. -/
structure Settings where
  linkUp : Bool
  dropProb : ℚ
  gilbertActive : Bool
  gilbert : GilbertParams
  latencyMs : UInt32

def settings (f : LossFilter T) : Settings :=
  ⟨f.linkUp, f.dropProb, f.gilbertActive, f.gilbert, f.latencyMs⟩

/-- The draws and counters apart, two filters agree. -/
structure Agree (f f' : LossFilter T) : Prop where
  settings : f.settings = f'.settings
  events : f.events = f'.events
  currentIdx : f.currentIdx = f'.currentIdx
  running : (f.initialized && f.enabled) = (f'.initialized && f'.enabled)

theorem Agree.refl (f : LossFilter T) : Agree f f := ⟨rfl, rfl, rfl, rfl⟩

theorem Agree.trans {f f' f'' : LossFilter T} (h : Agree f f') (h' : Agree f' f'') :
    Agree f f'' :=
  ⟨h.settings.trans h'.settings, h.events.trans h'.events, h.currentIdx.trans h'.currentIdx,
    h.running.trans h'.running⟩

theorem randUnit_agree (f : LossFilter T) : Agree f.randUnit.2 f := ⟨rfl, rfl, rfl, rfl⟩

/-- A draw is below one, from every state of the generator. -/
theorem randUnit_lt_one (f : LossFilter T) : f.randUnit.1 < 1 := by
  have hbits : (f.xorshift64.1 >>> 11).toNat < 2 ^ 53 := by
    have hlt := f.xorshift64.1.toNat_lt
    have hshift : (f.xorshift64.1 >>> 11).toNat = f.xorshift64.1.toNat / 2 ^ 11 := by
      rw [UInt64.toNat_shiftRight, Nat.shiftRight_eq_div_pow]
      rfl
    omega
  have hcast : ((f.xorshift64.1 >>> 11).toNat : ℚ) < 2 ^ 53 := by exact_mod_cast hbits
  show ((f.xorshift64.1 >>> 11).toNat : ℚ) / 2 ^ 53 < 1
  rw [div_lt_one (by norm_num)]
  exact hcast

theorem dropDecision_agree (f : LossFilter T) : Agree f.dropDecision.2 f := by
  unfold dropDecision
  split
  · exact .refl f
  · split
    · split
      · dsimp only
        split
        · exact ⟨rfl, rfl, rfl, rfl⟩
        · exact ⟨rfl, rfl, rfl, rfl⟩
      · dsimp only
        split
        · exact ⟨rfl, rfl, rfl, rfl⟩
        · exact ⟨rfl, rfl, rfl, rfl⟩
    · split
      · exact randUnit_agree f
      · exact .refl f

/-- Events act on agreeing filters alike. -/
theorem Agree.applyEvent {f f' : LossFilter T} (h : Agree f f') (ev : LossEvent T) :
    Agree (f.applyEvent ev) (f'.applyEvent ev) := by
  obtain ⟨hsettings, hevents, hidx, hrunning⟩ := h
  simp only [LossFilter.settings, Settings.mk.injEq] at hsettings
  obtain ⟨hup, hprob, hactive, hgilbert, hlatency⟩ := hsettings
  unfold LossFilter.applyEvent
  cases ev.action <;>
    exact ⟨by simp [LossFilter.settings, applyAction, *], hevents, by simp [applyAction, hidx],
      hrunning⟩

theorem Agree.replay {f f' : LossFilter T} (h : Agree f f') (events : List (LossEvent T)) :
    Agree (events.foldl LossFilter.applyEvent f) (events.foldl LossFilter.applyEvent f') := by
  induction events generalizing f f' with
  | nil => exact h
  | cons ev events ih => exact ih (h.applyEvent ev)

/-- A replay moves the index and leaves the pattern. -/
theorem replay_frame (f : LossFilter T) (events : List (LossEvent T)) :
    (events.foldl applyEvent f).currentIdx = f.currentIdx + events.length ∧
      (events.foldl applyEvent f).events = f.events ∧
      ((events.foldl applyEvent f).initialized && (events.foldl applyEvent f).enabled) =
        (f.initialized && f.enabled) := by
  induction events generalizing f with
  | nil => exact ⟨rfl, rfl, rfl⟩
  | cons ev events ih =>
      obtain ⟨hidx, hevents, hrunning⟩ := ih (f.applyEvent ev)
      have hone : (f.applyEvent ev).currentIdx = f.currentIdx + 1 ∧
          (f.applyEvent ev).events = f.events ∧
          ((f.applyEvent ev).initialized && (f.applyEvent ev).enabled) =
            (f.initialized && f.enabled) := by
        unfold applyEvent
        cases ev.action <;> exact ⟨rfl, rfl, rfl⟩
      rw [List.foldl_cons, hidx, hevents, hrunning, hone.1, hone.2.1, hone.2.2, List.length_cons]
      exact ⟨by omega, rfl, rfl⟩

/-- A filter at the beginning of its pattern. -/
structure Begins (start : LossFilter T) (events : List (LossEvent T)) : Prop where
  events : start.events = events
  currentIdx : start.currentIdx = 0
  running : (start.initialized && start.enabled) = true

theorem Agree.isRunning {start f : LossFilter T} {events applied : List (LossEvent T)}
    (hstart : start.Begins events) (h : Agree f (applied.foldl LossFilter.applyEvent start)) :
    (f.initialized && f.enabled) = true := by
  rw [h.running, (replay_frame start applied).2.2, hstart.running]

def mode (f : LossFilter T) : Bool × ℚ × Bool := (f.linkUp, f.dropProb, f.gilbertActive)

/-- The fields an action sets, if it is one of the modes. -/
def mode? (action : LossAction) : Option (Bool × ℚ × Bool) :=
  if action.isMode then some (modeFields (some action)) else none

theorem Agree.mode {f f' : LossFilter T} (h : Agree f f') : f.mode = f'.mode :=
  congrArg (fun s : Settings => (s.linkUp, s.dropProb, s.gilbertActive)) h.settings

theorem Agree.gilbert {f f' : LossFilter T} (h : Agree f f') : f.gilbert = f'.gilbert :=
  congrArg Settings.gilbert h.settings

theorem Agree.latencyMs {f f' : LossFilter T} (h : Agree f f') : f.latencyMs = f'.latencyMs :=
  congrArg Settings.latencyMs h.settings

theorem filterMap_mode (events : List (LossEvent T)) :
    (events.filterMap fun ev => mode? ev.action) =
      ((events.map LossEvent.action).filter LossAction.isMode).map
        fun action => modeFields (some action) := by
  induction events with
  | nil => rfl
  | cons ev events ih =>
      by_cases hmode : ev.action.isMode = true
      · simp [mode?, hmode] at ih ⊢
        exact ih
      · simp [mode?, hmode] at ih ⊢
        exact ih

end Agreement

section Runs

variable {T : Type} [LinearOrder T] {events : List (LossEvent T)} {now later : T}

/-- Bringing the state up to date replays what has become due. -/
theorem advanceStateLocked_eq {f : LossFilter T} (hevents : Timed LossEvent.tOffset f.events) :
    f.advanceStateLocked now =
      (due LossEvent.tOffset now (f.events.drop f.currentIdx)).foldl applyEvent f :=
  advance_eq applyEvent (hevents.sublist (List.drop_sublist _ _)) f

/-- The events applied so far are the first of those due at `now`. -/
def Reaches (events applied : List (LossEvent T)) (now : T) : Prop :=
  due LossEvent.tOffset now events =
    applied ++ due LossEvent.tOffset now (events.drop applied.length)

variable {start f : LossFilter T} {applied : List (LossEvent T)}

/-- Bringing the state up to date replays the pattern from its beginning up to
now. -/
theorem Agree.advance (hevents : Timed LossEvent.tOffset events) (hstart : start.Begins events)
    (h : Agree f (applied.foldl LossFilter.applyEvent start))
    (hreach : Reaches events applied now) :
    Agree (f.advanceStateLocked now)
      ((due LossEvent.tOffset now events).foldl LossFilter.applyEvent start) := by
  obtain ⟨hat, hframe, -⟩ := replay_frame start applied
  have hf : f.events = events := h.events.trans (hframe.trans hstart.events)
  have hidx : f.currentIdx = applied.length := by
    rw [h.currentIdx, hat, hstart.currentIdx, Nat.zero_add]
  have htimed : Timed LossEvent.tOffset f.events := by rwa [hf]
  rw [advanceStateLocked_eq htimed, hf, hidx, hreach, List.foldl_append]
  exact h.replay _

/-- Either call leaves the state of its own time. -/
theorem runQuery_agree (hevents : Timed LossEvent.tOffset events) (hstart : start.Begins events)
    (h : Agree f (applied.foldl applyEvent start)) (hreach : Reaches events applied now)
    (query : LossQuery) :
    Agree (runQuery f (query, now))
      ((due LossEvent.tOffset now events).foldl applyEvent start) := by
  have hrunning := h.isRunning hstart
  cases query with
  | applyLatency =>
      simp only [runQuery, applyLatency, hrunning, if_true]
      exact h.advance hevents hstart hreach
  | shouldDrop =>
      have hseen : Agree { f with packetsSeen := f.packetsSeen + 1 } f := ⟨rfl, rfl, rfl, rfl⟩
      have hadvanced := (hseen.trans h).advance hevents hstart hreach
      have hstopped : (!f.initialized || !f.enabled) = false := by
        simpa using hrunning
      simp only [runQuery, shouldDrop, hstopped, Bool.false_eq_true, if_false]
      refine Agree.trans ?_ ((dropDecision_agree _).trans hadvanced)
      split
      · exact ⟨rfl, rfl, rfl, rfl⟩
      · exact .refl _

/-- However often and when the filter is asked, it stands where the pattern
leads. -/
theorem runQueries_agree (hevents : Timed LossEvent.tOffset events)
    (hstart : start.Begins events) (queries : List (LossQuery × T))
    (htimes : (queries.map Prod.snd ++ [now]).Pairwise (· ≤ ·)) :
    ∀ (f : LossFilter T) (applied : List (LossEvent T)),
      Agree f (applied.foldl applyEvent start) →
      (∀ t ∈ queries.map Prod.snd ++ [now], Reaches events applied t) →
      ∃ applied', Agree (queries.foldl runQuery f) (applied'.foldl applyEvent start) ∧
        Reaches events applied' now := by
  induction queries with
  | nil =>
      intro f applied h hreach
      exact ⟨applied, h, hreach now (by simp)⟩
  | cons query queries ih =>
      intro f applied h hreach
      obtain ⟨hfirst, hrest⟩ := List.pairwise_cons.mp htimes
      have hnext := runQuery_agree hevents hstart h (hreach query.2 (by simp)) query.1
      refine ih hrest (runQuery f query) _ hnext fun t ht => ?_
      exact due_later hevents (hfirst t ht)

end Runs

section Replayed

variable {T : Type} [LinearOrder T] {start : LossFilter T}

/-- The mode a replay ends in is that of the last event that sets one. -/
theorem replay_mode (hstart : start.mode = (true, 0, false)) (events : List (LossEvent T))
    (t : T) :
    ((due LossEvent.tOffset t events).foldl applyEvent start).mode =
      modeFields (lastMode events t) := by
  have hwrite (f : LossFilter T) (ev : LossEvent T) :
      (f.applyEvent ev).mode = (mode? ev.action).getD f.mode := by
    unfold applyEvent
    cases ev.action <;> rfl
  rw [foldl_last_write hwrite, filterMap_mode, List.getLast?_map, hstart]
  unfold lastMode
  cases ((due LossEvent.tOffset t events).map LossEvent.action |>.filter
      LossAction.isMode).getLast? with
  | none => rfl
  | some action => rfl

theorem replay_gilbert (events : List (LossEvent T)) (t : T) :
    ((due LossEvent.tOffset t events).foldl applyEvent start).gilbert =
      (lastGilbert events t).getD start.gilbert := by
  have hwrite (f : LossFilter T) (ev : LossEvent T) :
      (f.applyEvent ev).gilbert = ev.action.gilbert?.getD f.gilbert := by
    unfold applyEvent
    cases ev.action <;> rfl
  exact foldl_last_write hwrite _ start

theorem replay_latency (events : List (LossEvent T)) (t : T) :
    ((due LossEvent.tOffset t events).foldl applyEvent start).latencyMs =
      (lastLatency events t).getD start.latencyMs := by
  have hwrite (f : LossFilter T) (ev : LossEvent T) :
      (f.applyEvent ev).latencyMs = ev.action.latency?.getD f.latencyMs := by
    unfold applyEvent
    cases ev.action <;> rfl
  exact foldl_last_write hwrite _ start

/-- When the last mode is Gilbert's, the last parameters are its own. -/
theorem lastGilbert_of_lastMode {events : List (LossEvent T)} {t : T} {params : GilbertParams}
    (h : lastMode events t = some (.gilbert params)) : lastGilbert events t = some params := by
  unfold lastMode at h
  obtain ⟨front, hfront⟩ := List.getLast?_eq_some_iff.mp h
  have hsame : ((due LossEvent.tOffset t events).filterMap fun ev => ev.action.gilbert?) =
      (((due LossEvent.tOffset t events).map LossEvent.action).filter
        LossAction.isMode).filterMap LossAction.gilbert? := by
    rw [List.filterMap_filter, List.filterMap_map]
    apply List.filterMap_congr
    intro ev _
    dsimp only [Function.comp]
    cases ev.action <;> rfl
  rw [lastGilbert, hsame, hfront, List.filterMap_append]
  simp [LossAction.gilbert?]

end Replayed

section Decisions

variable {T : Type} {f : LossFilter T}

theorem dropDecision_down (h : f.linkUp = false) : f.dropDecision.1 = true := by
  simp [dropDecision, h]

theorem dropDecision_prob {p : ℚ} (h : f.mode = (true, p, false)) :
    f.dropDecision.1 = decide (0 < p ∧ f.randUnit.1 < p) := by
  have hup : f.linkUp = true := congrArg Prod.fst h
  have hprob : f.dropProb = p := congrArg (fun m => m.2.1) h
  have hactive : f.gilbertActive = false := congrArg (fun m => m.2.2) h
  have hkept : f.randUnit.2.dropProb = p := hprob
  by_cases hp : 0 < p
  · simp [dropDecision, hup, hprob, hactive, hp, hkept]
  · simp [dropDecision, hup, hprob, hactive, hp]

/-- Up, and no mode active. -/
theorem dropDecision_clear (h : f.mode = (true, 0, false)) : f.dropDecision.1 = false := by
  rw [dropDecision_prob h]
  simp

theorem dropDecision_certain (h : f.mode = (true, 1, false)) : f.dropDecision.1 = true := by
  rw [dropDecision_prob h]
  simp [randUnit_lt_one f]

end Decisions

end LossFilter

section Following

open LossFilter

variable {T : Type} [LinearOrder T]

theorem lossFilterInit_begins {events : List (LossEvent T)}
    (hmono : timestampsMonotonic events = true) (seed : Option UInt64) :
    let start := (lossFilterInit LossFilter.static (some (some events)) seed).2
    start.Begins events ∧ start.mode = (true, 0, false) ∧ start.gilbert = ⟨0, 0, 0, 0⟩ ∧
      start.latencyMs = 0 := by
  refine ⟨⟨?_, ?_, ?_⟩, ?_, ?_, ?_⟩ <;>
    simp [lossFilterInit, LossFilter.static, hmono, LossFilter.mode]

/-- For every pattern the loader accepts and every run of calls at non-decreasing
times, the state after the last call is that of the events up to its time, and says
what becomes of a packet whatever the generator's state is. -/
theorem filter_follows_time {events : List (LossEvent T)}
    (hmono : timestampsMonotonic events = true) (seed : Option UInt64)
    {queries : List (LossQuery × T)} {t : T} (last : LossQuery)
    (htimes : (queries.map Prod.snd ++ [t]).Pairwise (· ≤ ·)) :
    let start := (lossFilterInit LossFilter.static (some (some events)) seed).2
    let before := queries.foldl runQuery start
    let f := runQuery before (last, t)
    (f.linkUp, f.dropProb, f.gilbertActive) = modeFields (lastMode events t) ∧
    (∀ params, lastMode events t = some (.gilbert params) → f.gilbert = params) ∧
    f.gilbert = (lastGilbert events t).getD ⟨0, 0, 0, 0⟩ ∧
    f.latencyMs = (lastLatency events t).getD 0 ∧
    ∀ rng, let packet := ({ before with rngState := rng }.shouldDrop t).1
      (f.linkUp = false → packet = true) ∧
      (f.linkUp = true → f.dropProb = 0 → f.gilbertActive = false → packet = false) ∧
      (lastMode events t = some (.prob 1) → packet = true) ∧
      (lastMode events t = some (.prob 0) → packet = false) := by
  intro start before f
  have hevents := timestampsMonotonic_timed hmono
  obtain ⟨hbegins, hmode, hgilbert, hlatency⟩ := lossFilterInit_begins hmono seed
  have hnone : ∀ t' ∈ queries.map Prod.snd ++ [t], Reaches events [] t' := by
    intro t' _
    simp [Reaches]
  obtain ⟨applied, hbefore, hreach⟩ :=
    runQueries_agree hevents hbegins queries htimes start [] (.refl start) hnone
  have hf : Agree f ((due LossEvent.tOffset t events).foldl applyEvent start) :=
    runQuery_agree hevents hbegins hbefore hreach last
  have hfmode : f.mode = modeFields (lastMode events t) := by
    rw [hf.mode, replay_mode hmode]
  have hfgilbert : f.gilbert = (lastGilbert events t).getD ⟨0, 0, 0, 0⟩ := by
    rw [hf.gilbert, ← hgilbert]
    exact replay_gilbert events t
  refine ⟨hfmode, fun params hparams => ?_, hfgilbert, ?_, fun rng => ?_⟩
  · rw [hfgilbert, lastGilbert_of_lastMode hparams]
    rfl
  · rw [hf.latencyMs, ← hlatency]
    exact replay_latency events t
  -- A packet is judged in the state of its own time, wherever the generator stands.
  let asked : LossFilter T :=
    { before with rngState := rng, packetsSeen := before.packetsSeen + 1 }
  have hsame : Agree asked before := ⟨rfl, rfl, rfl, rfl⟩
  have hasked : Agree asked (applied.foldl applyEvent start) := hsame.trans hbefore
  have hjudged : (asked.advanceStateLocked t).mode = f.mode := by
    rw [hf.mode]
    exact (hasked.advance hevents hbegins hreach).mode
  have hpacket : ({ before with rngState := rng }.shouldDrop t).1 =
      (asked.advanceStateLocked t).dropDecision.1 := by
    have hrunning := hbefore.isRunning hbegins
    have hstopped : (!before.initialized || !before.enabled) = false := by simpa using hrunning
    simp only [shouldDrop, hstopped, Bool.false_eq_true, if_false, asked]
  dsimp only
  rw [hpacket]
  refine ⟨fun hdown => ?_, fun hup hprob hactive => ?_, fun hone => ?_, fun hzero => ?_⟩
  · apply dropDecision_down
    exact (congrArg Prod.fst hjudged).trans hdown
  · apply dropDecision_clear
    rw [hjudged, LossFilter.mode, hup, hprob, hactive]
  · apply dropDecision_certain
    rw [hjudged, hfmode, hone]
    rfl
  · apply dropDecision_clear
    rw [hjudged, hfmode, hzero]
    rfl

/-- A pass with a lock loss and a stretch of bursts. -/
def marginalPass : List (LossEvent Nat) :=
  [⟨0, .latency 1268⟩, ⟨0, .up⟩, ⟨12, .down⟩, ⟨13, .up⟩, ⟨30, .gilbert ⟨1, 1, 0, 1⟩⟩, ⟨60, .clear⟩]

theorem filter_follows_marginalPass :
    timestampsMonotonic marginalPass = true ∧
    ∀ rng, ({ ([(.applyLatency, 3), (.shouldDrop, 5)] : List (LossQuery × Nat)).foldl runQuery
      (lossFilterInit LossFilter.static (some (some marginalPass)) none).2 with
        rngState := rng }.shouldDrop 12).1 = true := by
  have hmono : timestampsMonotonic marginalPass = true := by decide
  have htimes : (([(.applyLatency, 3), (.shouldDrop, 5)] : List (LossQuery × Nat)).map Prod.snd ++
      [12]).Pairwise (· ≤ ·) := by decide
  have hdown : lastMode marginalPass 12 = some .down := by decide
  obtain ⟨hmode, -, -, -, hpacket⟩ := filter_follows_time hmono none .shouldDrop htimes
  rw [hdown] at hmode
  exact ⟨hmono, fun rng => (hpacket rng).1 (congrArg Prod.fst hmode)⟩

end Following

end SatDeploy.Agent
