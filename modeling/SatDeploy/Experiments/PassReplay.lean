import SatDeploy.Experiments.Patterns

/-!
From the attempts of a recorded pass to a loss pattern and back: what
`attempts_to_pattern` writes, played by the agent's loss filter, lets a packet pass
at the time of an attempt exactly if the attempt was answered. Of the statistics of a
pass, those that the pattern uses are modelled; how numbers are printed into the
header is a parameter.
-/

namespace SatDeploy.Experiments

open SatDeploy.Lib SatDeploy.Agent

inductive Outcome where
  | ok
  | fail
  deriving DecidableEq, Repr

/-- The fields of an attempt that the statistics and the pattern read. -/
structure Attempt where
  idx : Nat
  tOffset : ℚ
  outcome : Outcome
  rttMs : Option Nat
  deriving DecidableEq

/-! ### The statistics -/

inductive Quality where
  | excellent
  | good
  | marginal
  | blackout
  | failed
  deriving DecidableEq, Repr

def Quality.text : Quality → String
  | .excellent => "excellent"
  | .good => "good"
  | .marginal => "marginal"
  | .blackout => "blackout"
  | .failed => "failed"

structure CommWindow where
  firstOkIdx : Nat
  firstOkT : ℚ
  lastOkIdx : Nat
  lastOkT : ℚ
  duration : ℚ
  attemptsInside : Nat
  successesInside : Nat
  successRateInside : ℚ
  deriving DecidableEq

structure PassStats where
  attempts : Nat
  successes : Nat
  rttMedian : Option ℚ
  commWindow : Option CommWindow
  maxFailRun : Nat
  quality : Quality
  deriving DecidableEq

def isOk (a : Attempt) : Bool := a.outcome = .ok

/-- The attempts from the first to the last that was answered. -/
def inWindow (first last : ℚ) (a : Attempt) : Bool := first ≤ a.tOffset && a.tOffset ≤ last

def commWindow (attempts : List Attempt) : Option CommWindow :=
  match attempts.find? isOk, attempts.reverse.find? isOk with
  | some first, some last =>
      let inside := attempts.filter (inWindow first.tOffset last.tOffset)
      let answered := (inside.filter isOk).length
      some {
        firstOkIdx := first.idx
        firstOkT := first.tOffset
        lastOkIdx := last.idx
        lastOkT := last.tOffset
        duration := last.tOffset - first.tOffset
        attemptsInside := inside.length
        successesInside := answered
        successRateInside := if inside = [] then 0 else (answered : ℚ) / inside.length }
  | _, _ => none

/-- The lengths of the runs of failures, with `cur` of them just before. -/
def failRuns : Nat → List Attempt → List Nat
  | cur, [] => if cur > 0 then [cur] else []
  | cur, a :: rest =>
      if a.outcome = .fail then failRuns (cur + 1) rest
      else (if cur > 0 then [cur] else []) ++ failRuns 0 rest

/-- `statistics.median` of a non-empty list. -/
def median (xs : List Nat) : ℚ :=
  let data := xs.mergeSort
  let n := data.length
  if n % 2 = 1 then data.getD (n / 2) 0
  else ((data.getD (n / 2 - 1) 0 + data.getD (n / 2) 0 : Nat) : ℚ) / 2

def passQuality (duration rate : ℚ) (successes : Nat) : Quality :=
  if duration ≥ 60 ∧ rate ≥ 3 / 10 then .excellent
  else if duration ≥ 30 ∧ rate ≥ 15 / 100 then .good
  else if duration ≥ 10 then .marginal
  else if successes = 0 then .blackout
  else .failed

/-- An empty log has no quality of its own; the pattern takes it for a blackout. -/
def attemptsToStats (attempts : List Attempt) : PassStats :=
  let answered := attempts.filter isOk
  let rtts := answered.filterMap Attempt.rttMs
  let window := commWindow attempts
  { attempts := attempts.length
    successes := answered.length
    rttMedian := if rtts = [] then none else some (median rtts)
    commWindow := window
    maxFailRun := (failRuns 0 attempts).foldl max 0
    quality := passQuality ((window.map CommWindow.duration).getD 0)
      ((window.map CommWindow.successRateInside).getD 0) answered.length }

/-! ### The pattern -/

/-- How Python prints numbers into the header. -/
structure PyFormat where
  str : ℚ → String
  fixed : Nat → ℚ → String

def LinkState.action : LinkState → PatternAction
  | .up => .up
  | .down => .down

def attemptState (a : Attempt) : LinkState := if a.outcome = .ok then .up else .down

section Generator

variable (timeCompress : ℚ)

/-- `push`: a state that is the last one already is not written again. -/
def pushEvent (events : List PatternEvent) (t : ℚ) (action : PatternAction)
    (prob : Option ℚ) : List PatternEvent :=
  match events.getLast? with
  | some last =>
      if last.action = action ∧ last.prob = prob then events
      else events ++ [⟨t * timeCompress, action, prob⟩]
  | none => events ++ [⟨t * timeCompress, action, prob⟩]

/-- An attempt in either loop: a new state is pushed at its time. -/
def toggle (time : Attempt → ℚ) (s : List PatternEvent × LinkState) (a : Attempt) :
    List PatternEvent × LinkState :=
  if attemptState a ≠ s.2 then
    (pushEvent timeCompress s.1 (time a) (attemptState a).action none, attemptState a)
  else s

def windowEvents (attempts : List Attempt) (first last : ℚ) : List PatternEvent :=
  let events := pushEvent timeCompress [] 0 .up none
  (attempts.foldl (fun s a =>
    if a.tOffset < first ∨ a.tOffset > last then s
    else toggle timeCompress (fun a => a.tOffset - first) s a) (events, .up)).1

/-- `none` for an empty log, which has no last attempt. -/
def fullEvents (attempts : List Attempt) : Option (List PatternEvent) :=
  let events := pushEvent timeCompress [] 0 .down none
  let (events, prevState) := attempts.foldl (toggle timeCompress Attempt.tOffset) (events, .down)
  match attempts.getLast? with
  | none => none
  | some final =>
      if prevState ≠ .down then
        some (pushEvent timeCompress events (final.tOffset + 5) .down none)
      else some events

variable (fmt : PyFormat) (sourceLabel : String)

def blackoutPattern (stats : PassStats) : Pattern where
  events := [⟨0, .down, none⟩]
  metadata := [("source_log", sourceLabel), ("quality", stats.quality.text)]
  headerComments := ["Derived from bird log: " ++ sourceLabel,
    "No successful attempts in log — entire pass dead."]

def passMetadata (stats : PassStats) (win : CommWindow) (windowOnly : Bool) :
    List (String × String) :=
  [("source_log", sourceLabel), ("quality", stats.quality.text),
    ("attempts", toString stats.attempts), ("successes", toString stats.successes),
    ("window_duration_s", fmt.fixed 1 win.duration),
    ("window_success_rate", fmt.fixed 3 win.successRateInside),
    ("max_fail_run", toString stats.maxFailRun), ("time_compress", fmt.str timeCompress),
    ("scope", if windowOnly then "window_only" else "full_pass")] ++
  match stats.rttMedian with
  | none => []
  | some rtt => [("rtt_median_ms", fmt.str rtt)]

def passHeader (stats : PassStats) (win : CommWindow) : List String :=
  ["Derived from bird log: " ++ sourceLabel,
    "Pass quality: " ++ stats.quality.text,
    "Comm window: " ++ fmt.fixed 0 win.duration ++ " s, " ++
      fmt.fixed 0 (win.successRateInside * 100) ++ "% success rate inside",
    "WARNING: current loss_filter has no latency injection. Real RTT median was " ++
      (stats.rttMedian.map fmt.str).getD "?" ++
      " ms; simulator RTT is microseconds. Retry-timeout tests over " ++
      "this pattern will under-stress libdtp."]

def attemptsToPattern (attempts : List Attempt) (stats : PassStats) (windowOnly : Bool) :
    Option Pattern :=
  match stats.commWindow with
  | none => some (blackoutPattern sourceLabel stats)
  | some win =>
      let events :=
        if windowOnly then some (windowEvents timeCompress attempts win.firstOkT win.lastOkT)
        else fullEvents timeCompress attempts
      events.map fun events => {
        events := events
        metadata := passMetadata timeCompress fmt sourceLabel stats win windowOnly
        headerComments := passHeader fmt sourceLabel stats win }

end Generator

/-! ### What the generator writes -/

/-- The event that switches to a state. -/
def stateEvent (e : ℚ × LinkState) : PatternEvent := ⟨e.1, e.2.action, none⟩

section Written

variable {timeCompress : ℚ}

/-- The attempts as samples of the link, on the time scale of the pattern. -/
def samples (timeCompress : ℚ) (time : Attempt → ℚ) (attempts : List Attempt) :
    List (ℚ × LinkState) :=
  attempts.map fun a => (time a * timeCompress, attemptState a)

theorem action_injective {s s' : LinkState} (h : s.action = s'.action) : s = s' := by
  cases s <;> cases s' <;> first | rfl | cases h

/-- A state that differs from the last one is pushed. -/
theorem pushEvent_state (timeCompress : ℚ) {events : List PatternEvent}
    {last : ℚ × LinkState} {state : LinkState}
    (hlast : events.getLast? = some (stateEvent last)) (hne : state ≠ last.2) (t : ℚ) :
    pushEvent timeCompress events t state.action none =
      events ++ [stateEvent (t * timeCompress, state)] := by
  have hnew : ¬ ((stateEvent last).action = state.action ∧ (stateEvent last).prob = none) :=
    fun h => hne (action_injective h.1.symm)
  simp only [pushEvent, hlast, if_neg hnew]
  rfl

/-- Both loops write the changes of the link and end in its last state. -/
theorem toggles_eq (timeCompress : ℚ) (time : Attempt → ℚ) (attempts : List Attempt) :
    ∀ (events : List PatternEvent) (last : ℚ × LinkState),
      events.getLast? = some (stateEvent last) →
      let s := attempts.foldl (toggle timeCompress time) (events, last.2)
      let written := changes last.2 (samples timeCompress time attempts)
      s.1 = events ++ written.map stateEvent ∧
        s.2 = ((samples timeCompress time attempts).map Prod.snd).getLast?.getD last.2 ∧
        ∃ e : ℚ × LinkState, s.1.getLast? = some (stateEvent e) ∧ e.2 = s.2 := by
  induction attempts with
  | nil =>
      intro events last hlast
      exact ⟨by simp [samples, changes], rfl, last, hlast, rfl⟩
  | cons a attempts ih =>
      intro events last hlast
      by_cases hsame : attemptState a = last.2
      · have hstep : toggle timeCompress time (events, last.2) a = (events, last.2) := by
          simp [toggle, hsame]
        obtain ⟨hevents, hstate, hend⟩ := ih events last hlast
        simp only [List.foldl_cons, hstep]
        refine ⟨?_, ?_, hend⟩
        · rw [hevents]
          simp [samples, changes, hsame]
        · rw [hstate]
          simp [samples, List.getLast?_cons, hsame]
      · have hpush := pushEvent_state timeCompress hlast hsame (time a)
        have hstep : toggle timeCompress time (events, last.2) a =
            (events ++ [stateEvent (time a * timeCompress, attemptState a)], attemptState a) := by
          simp [toggle, hsame, hpush]
        obtain ⟨hevents, hstate, hend⟩ :=
          ih (events ++ [stateEvent (time a * timeCompress, attemptState a)])
            (time a * timeCompress, attemptState a) (by simp)
        simp only [List.foldl_cons, hstep]
        refine ⟨?_, ?_, hend⟩
        · rw [hevents]
          simp [samples, changes, hsame]
        · rw [hstate]
          simp [samples, List.getLast?_cons]

/-- The window: up, then the changes. -/
theorem windowEvents_eq (attempts : List Attempt) (first last : ℚ) :
    windowEvents timeCompress attempts first last =
      ((0, .up) :: changes .up (samples timeCompress (fun a => a.tOffset - first)
        (attempts.filter (inWindow first last)))).map stateEvent := by
  have hskip : (fun (s : List PatternEvent × LinkState) a =>
      if a.tOffset < first ∨ a.tOffset > last then s
      else toggle timeCompress (fun a => a.tOffset - first) s a) =
      fun s a => if inWindow first last a then
        toggle timeCompress (fun a => a.tOffset - first) s a else s := by
    funext s a
    by_cases hin : first ≤ a.tOffset ∧ a.tOffset ≤ last
    · have hnot : ¬ (a.tOffset < first ∨ a.tOffset > last) := by
        rintro (hlow | hhigh)
        · exact absurd hin.1 (not_le.mpr hlow)
        · exact absurd hin.2 (not_le.mpr hhigh)
      simp [hnot, inWindow, hin]
    · have hout : a.tOffset < first ∨ a.tOffset > last := by
        rcases not_and_or.mp hin with hlow | hhigh
        · exact Or.inl (not_le.mp hlow)
        · exact Or.inr (not_le.mp hhigh)
      have hfalse : inWindow first last a = false := by simpa [inWindow] using hin
      simp only [if_pos hout, hfalse, Bool.false_eq_true, if_false]
  have hstart : pushEvent timeCompress [] 0 .up none = [stateEvent (0, .up)] := by
    simp [pushEvent, stateEvent, LinkState.action]
  obtain ⟨hevents, -, -⟩ := toggles_eq timeCompress (fun a => a.tOffset - first)
    (attempts.filter (inWindow first last)) [stateEvent (0, .up)] (0, .up) rfl
  unfold windowEvents
  rw [hskip, hstart]
  dsimp only
  rw [← List.foldl_filter]
  exact hevents

/-- The whole pass: down, then the changes, up to five seconds after the last
attempt. -/
theorem fullEvents_eq {attempts : List Attempt} {final : Attempt}
    (hfinal : attempts.getLast? = some final) :
    fullEvents timeCompress attempts =
      some (((0, .down) :: changes .down (samples timeCompress Attempt.tOffset attempts ++
        [((final.tOffset + 5) * timeCompress, .down)])).map stateEvent) := by
  have hstart : pushEvent timeCompress [] 0 .down none = [stateEvent (0, .down)] := by
    simp [pushEvent, stateEvent, LinkState.action]
  obtain ⟨hevents, hstate, e, hlast, he⟩ := toggles_eq timeCompress Attempt.tOffset attempts
    [stateEvent (0, .down)] (0, .down) rfl
  rw [changes_append_singleton, ← hstate]
  unfold fullEvents
  rw [hstart, hfinal]
  dsimp only at hevents hlast he ⊢
  generalize attempts.foldl (toggle timeCompress Attempt.tOffset)
    ([stateEvent (0, .down)], LinkState.down) = s at hevents hlast he ⊢
  obtain ⟨events, state⟩ := s
  dsimp only at hevents hlast he ⊢
  cases state with
  | up =>
      have hne : LinkState.down ≠ e.2 := by
        rw [he]
        decide
      have hpush : pushEvent timeCompress events (final.tOffset + 5) .down none =
          events ++ [stateEvent ((final.tOffset + 5) * timeCompress, .down)] :=
        pushEvent_state timeCompress hlast hne _
      rw [if_pos (by decide), if_neg (by decide), hpush, hevents]
      simp
  | down =>
      rw [if_neg (by decide), if_pos rfl, hevents]
      simp

end Written

/-! ### What the filter makes of it -/

def LinkState.lossAction : LinkState → LossAction
  | .up => .up
  | .down => .down

def stateLoss (e : ℚ × LinkState) : LossEvent ℚ := ⟨e.1, e.2.lossAction⟩

/-- The link at time `t`, with all events up to then applied to a filter that has
just been started. -/
def linkUpAt (loaded : List (LossEvent ℚ)) (t : ℚ) : Bool :=
  ((lossFilterInit LossFilter.static (some (some loaded)) none).2.advanceStateLocked t).linkUp

section Replay

variable {states : List (ℚ × LinkState)}

theorem load_states (states : List (ℚ × LinkState)) :
    (states.map stateEvent).mapM toLossEvent = some (states.map stateLoss) := by
  induction states with
  | nil => rfl
  | cons e states ih =>
      obtain ⟨t, state⟩ := e
      cases state <;>
        simp [List.mapM_cons, ih, stateEvent, stateLoss, toLossEvent, LinkState.action,
          LinkState.lossAction]

theorem timed_stateLoss (htimed : Timed Prod.fst states) :
    Timed LossEvent.tOffset (states.map stateLoss) :=
  List.pairwise_map.mpr htimed

/-- The filter follows the states. -/
theorem linkUpAt_states (htimed : Timed Prod.fst states) (t : ℚ) :
    linkUpAt (states.map stateLoss) t = (valueAt .up states t == .up) := by
  have hloss := timed_stateLoss htimed
  obtain ⟨hbegins, hmode, -, -⟩ :=
    lossFilterInit_begins (timestampsMonotonic_of_timed hloss) none
  have hstart := congrArg Prod.fst hmode
  have hwrite (f : LossFilter ℚ) (e : ℚ × LinkState) :
      (f.applyEvent (stateLoss e)).linkUp = (some (e.2 == .up)).getD f.linkUp := by
    obtain ⟨t, state⟩ := e
    cases state <;> rfl
  have hdue : due LossEvent.tOffset t (states.map stateLoss) =
      (due Prod.fst t states).map stateLoss := by
    rw [due, List.filter_map]
    rfl
  unfold linkUpAt
  rw [LossFilter.advanceStateLocked_eq (by rw [hbegins.events]; exact hloss), hbegins.events,
    hbegins.currentIdx, List.drop_zero, hdue, List.foldl_map, foldl_last_write hwrite]
  have hvalues : ((due Prod.fst t states).filterMap fun e => some (e.2 == LinkState.up)) =
      ((due Prod.fst t states).map Prod.snd).map (· == .up) := by
    rw [List.filterMap_eq_map', List.map_map]
    rfl
  rw [hvalues, List.getLast?_map, valueAt]
  cases ((due Prod.fst t states).map Prod.snd).getLast? with
  | none => exact hstart
  | some state => rfl

/-- The pattern loads, keeps its order and never repeats a state. -/
structure Playable (events : List PatternEvent) (loaded : List (LossEvent ℚ)) : Prop where
  loads : events.mapM toLossEvent = some loaded
  monotonic : timestampsMonotonic loaded = true
  ordered : events.Pairwise fun a b => a.tOffset ≤ b.tOffset
  differ : events.IsChain fun a b => a.action ≠ b.action

/-- A first state at time zero and the changes of later samples replay the
samples. -/
theorem changes_replay {record : List (ℚ × LinkState)} {first : LinkState}
    (hrecord : record.Pairwise fun a b => a.1 < b.1) (hnonneg : ∀ e ∈ record, 0 ≤ e.1) :
    ∃ loaded, Playable (((0, first) :: changes first record).map stateEvent) loaded ∧
      ∀ t, 0 ≤ t → linkUpAt loaded t = (valueAt first record t == .up) := by
  have hsub := changes_sublist first record
  have hle : Timed Prod.fst record := hrecord.imp fun h => le_of_lt h
  have htimed : Timed Prod.fst ((0, first) :: changes first record) :=
    List.pairwise_cons.mpr ⟨fun e he => hnonneg e (hsub.subset he), hle.sublist hsub⟩
  refine ⟨((0, first) :: changes first record).map stateLoss,
    ⟨load_states _, timestampsMonotonic_of_timed (timed_stateLoss htimed),
      List.pairwise_map.mpr htimed, ?_⟩, ?_⟩
  · apply List.isChain_map_of_isChain stateEvent _ (changes_differ 0 first record)
    intro a b hne heq
    exact hne (action_injective heq)
  · intro t ht
    rw [linkUpAt_states htimed, valueAt_cons_of_le ht, valueAt_changes hle]

theorem attemptState_up (a : Attempt) : (attemptState a == .up) = isOk a := by
  unfold attemptState isOk
  cases a.outcome <;> rfl

/-- A recorded pass: attempts at increasing times from zero on, and at least one of
them answered. -/
structure Recorded (attempts : List Attempt) : Prop where
  begins : attempts.head?.map Attempt.tOffset = some 0
  increasing : attempts.Pairwise fun a b => a.tOffset < b.tOffset
  answered : ∃ a ∈ attempts, a.outcome = .ok

variable {attempts : List Attempt} {timeCompress : ℚ}

theorem Recorded.nonneg (h : Recorded attempts) : ∀ a ∈ attempts, 0 ≤ a.tOffset := by
  intro a ha
  obtain ⟨hbegins, hincreasing, -⟩ := h
  cases attempts with
  | nil => cases ha
  | cons first rest =>
      have hzero : first.tOffset = 0 := by simpa using hbegins
      rcases List.mem_cons.mp ha with rfl | ha
      · exact ge_of_eq hzero
      · have hlt := (List.pairwise_cons.mp hincreasing).1 a ha
        linarith

/-- Samples at times that grow with those of the attempts. -/
theorem samples_increasing {time : Attempt → ℚ}
    (htime : ∀ a b : Attempt, a.tOffset < b.tOffset → time a < time b)
    (hcompress : 0 < timeCompress)
    (hincreasing : attempts.Pairwise fun a b => a.tOffset < b.tOffset) :
    (samples timeCompress time attempts).Pairwise fun a b => a.1 < b.1 := by
  apply List.pairwise_map.mpr
  exact hincreasing.imp fun {a b} h => mul_lt_mul_of_pos_right (htime a b h) hcompress

theorem le_final {final : Attempt}
    (hincreasing : attempts.Pairwise fun a b => a.tOffset < b.tOffset)
    (hfinal : attempts.getLast? = some final) :
    ∀ a ∈ attempts, a.tOffset ≤ final.tOffset := by
  obtain ⟨front, rfl⟩ := List.getLast?_eq_some_iff.mp hfinal
  intro a ha
  rcases List.mem_append.mp ha with ha | ha
  · exact le_of_lt ((List.pairwise_append.mp hincreasing).2.2 a ha final (by simp))
  · rw [List.mem_singleton.mp ha]

/-- The samples of the whole pass, its end five seconds after the last attempt being
the last of them. -/
def passRecord (timeCompress : ℚ) (attempts : List Attempt) (final : Attempt) :
    List (ℚ × LinkState) :=
  samples timeCompress Attempt.tOffset attempts ++
    [((final.tOffset + 5) * timeCompress, .down)]

theorem passRecord_increasing {final : Attempt} (h : Recorded attempts)
    (hcompress : 0 < timeCompress) (hfinal : attempts.getLast? = some final) :
    (passRecord timeCompress attempts final).Pairwise fun a b => a.1 < b.1 := by
  refine List.pairwise_append.mpr ⟨samples_increasing (fun _ _ h => h) hcompress h.increasing,
    List.pairwise_singleton _ _, ?_⟩
  intro e he e' he'
  obtain ⟨a, ha, rfl⟩ := List.mem_map.mp he
  rw [List.mem_singleton.mp he']
  have hlt : a.tOffset < final.tOffset + 5 := by linarith [le_final h.increasing hfinal a ha]
  exact mul_lt_mul_of_pos_right hlt hcompress

theorem passRecord_nonneg {final : Attempt} (h : Recorded attempts)
    (hcompress : 0 < timeCompress) (hfinal : attempts.getLast? = some final) :
    ∀ e ∈ passRecord timeCompress attempts final, 0 ≤ e.1 := by
  intro e he
  rcases List.mem_append.mp he with he | he
  · obtain ⟨a, ha, rfl⟩ := List.mem_map.mp he
    exact mul_nonneg (h.nonneg a ha) (le_of_lt hcompress)
  · have hend := h.nonneg final (List.mem_of_getLast? hfinal)
    rw [List.mem_singleton.mp he]
    exact mul_nonneg (by linarith) (le_of_lt hcompress)

/-- The whole pass. -/
theorem fullEvents_replay (h : Recorded attempts) (hcompress : 0 < timeCompress)
    {final : Attempt} (hfinal : attempts.getLast? = some final) :
    ∃ events loaded, fullEvents timeCompress attempts = some events ∧ Playable events loaded ∧
      (∀ a ∈ attempts, linkUpAt loaded (timeCompress * a.tOffset) = isOk a) ∧
      ∀ t, timeCompress * (final.tOffset + 5) ≤ t → linkUpAt loaded t = false := by
  have hrecord := passRecord_increasing h hcompress hfinal
  have hpos := passRecord_nonneg h hcompress hfinal
  obtain ⟨loaded, hplayable, hlink⟩ := changes_replay hrecord hpos
  refine ⟨_, loaded, fullEvents_eq hfinal, hplayable, fun a ha => ?_, fun t ht => ?_⟩
  · have hmem : (a.tOffset * timeCompress, attemptState a) ∈
        passRecord timeCompress attempts final :=
      List.mem_append_left _ (List.mem_map.mpr ⟨a, ha, rfl⟩)
    rw [mul_comm, hlink _ (hpos _ hmem), valueAt_sample hrecord hmem, attemptState_up]
  · have hend : 0 ≤ (final.tOffset + 5) * timeCompress :=
      hpos _ (List.mem_append_right _ (List.mem_singleton_self _))
    rw [mul_comm] at ht
    have hdown : valueAt LinkState.down (passRecord timeCompress attempts final) t = .down :=
      valueAt_last (hrecord.imp fun h => le_of_lt h) ht
    rw [hlink t (le_trans hend ht), hdown]
    rfl

/-- The window, with its origin at the first answer. -/
theorem windowEvents_replay (hincreasing : attempts.Pairwise fun a b => a.tOffset < b.tOffset)
    (hcompress : 0 < timeCompress) (first last : ℚ) :
    ∃ loaded, Playable (windowEvents timeCompress attempts first last) loaded ∧
      ∀ a ∈ attempts, first ≤ a.tOffset → a.tOffset ≤ last →
        linkUpAt loaded (timeCompress * (a.tOffset - first)) = isOk a := by
  have hrecord : (samples timeCompress (fun a => a.tOffset - first)
      (attempts.filter (inWindow first last))).Pairwise fun a b => a.1 < b.1 :=
    samples_increasing (fun _ _ h => sub_lt_sub_right h first) hcompress
      (hincreasing.sublist List.filter_sublist)
  have hpos : ∀ e ∈ samples timeCompress (fun a => a.tOffset - first)
      (attempts.filter (inWindow first last)), 0 ≤ e.1 := by
    intro e he
    obtain ⟨a, ha, rfl⟩ := List.mem_map.mp he
    have hin : first ≤ a.tOffset ∧ a.tOffset ≤ last := by
      simpa [inWindow] using (List.mem_filter.mp ha).2
    exact mul_nonneg (sub_nonneg.mpr hin.1) (le_of_lt hcompress)
  obtain ⟨loaded, hplayable, hlink⟩ := changes_replay hrecord hpos
  rw [← windowEvents_eq] at hplayable
  refine ⟨loaded, hplayable, fun a ha hfirst hlast => ?_⟩
  have hmem : ((a.tOffset - first) * timeCompress, attemptState a) ∈
      samples timeCompress (fun a => a.tOffset - first)
        (attempts.filter (inWindow first last)) :=
    List.mem_map.mpr ⟨a, List.mem_filter.mpr ⟨ha, by simp [inWindow, hfirst, hlast]⟩, rfl⟩
  rw [mul_comm, hlink _ (hpos _ hmem), valueAt_sample hrecord hmem, attemptState_up]

/-- The pattern of a pass with a window. -/
theorem attemptsToPattern_window (fmt : PyFormat) (sourceLabel : String) {stats : PassStats}
    {win : CommWindow} {events : List PatternEvent} (windowOnly : Bool)
    (hwin : stats.commWindow = some win)
    (hevents : (if windowOnly then
        some (windowEvents timeCompress attempts win.firstOkT win.lastOkT)
      else fullEvents timeCompress attempts) = some events) :
    ∃ pat, attemptsToPattern timeCompress fmt sourceLabel attempts stats windowOnly = some pat ∧
      pat.events = events := by
  simp only [attemptsToPattern, hwin, hevents, Option.map_some]
  exact ⟨_, rfl, rfl⟩

theorem find_isOk {attempts : List Attempt} (h : ∃ a ∈ attempts, a.outcome = .ok) :
    ∃ first, attempts.find? isOk = some first := by
  obtain ⟨a, ha, hok⟩ := h
  apply Option.isSome_iff_exists.mp
  exact List.find?_isSome.mpr ⟨a, ha, by simp [isOk, hok]⟩

/-- A recorded pass replays: in the pattern of the whole pass the link is up at the
time of an attempt exactly if it was answered, and down from five seconds after the
last one on; in the pattern of the window so from the first to the last answer, with
the first at time zero. Both patterns load, keep their order and never repeat a
state. -/
theorem recorded_pass_replays (fmt : PyFormat) (sourceLabel : String) (h : Recorded attempts)
    (hcompress : 0 < timeCompress) :
    (∃ pat loaded,
      attemptsToPattern timeCompress fmt sourceLabel attempts (attemptsToStats attempts) false =
        some pat ∧
      Playable pat.events loaded ∧
      (∀ a ∈ attempts, linkUpAt loaded (timeCompress * a.tOffset) = decide (a.outcome = .ok)) ∧
      ∀ final, attempts.getLast? = some final →
        ∀ t, timeCompress * (final.tOffset + 5) ≤ t → linkUpAt loaded t = false) ∧
    ∃ pat loaded first last,
      attemptsToPattern timeCompress fmt sourceLabel attempts (attemptsToStats attempts) true =
        some pat ∧
      Playable pat.events loaded ∧
      attempts.find? (fun a => a.outcome = .ok) = some first ∧
      attempts.reverse.find? (fun a => a.outcome = .ok) = some last ∧
      ∀ a ∈ attempts, first.tOffset ≤ a.tOffset → a.tOffset ≤ last.tOffset →
        linkUpAt loaded (timeCompress * (a.tOffset - first.tOffset)) =
          decide (a.outcome = .ok) := by
  obtain ⟨first, hfirst⟩ := find_isOk h.answered
  obtain ⟨last, hlast⟩ : ∃ last, attempts.reverse.find? isOk = some last := by
    obtain ⟨a, ha, hok⟩ := h.answered
    exact find_isOk ⟨a, List.mem_reverse.mpr ha, hok⟩
  obtain ⟨win, hwin, hfirstT, hlastT⟩ : ∃ win, (attemptsToStats attempts).commWindow = some win ∧
      win.firstOkT = first.tOffset ∧ win.lastOkT = last.tOffset := by
    simp only [attemptsToStats, commWindow, hfirst, hlast]
    exact ⟨_, rfl, rfl, rfl⟩
  constructor
  · obtain ⟨final, hfinal⟩ : ∃ final, attempts.getLast? = some final := by
      obtain ⟨a, ha, -⟩ := h.answered
      exact Option.isSome_iff_exists.mp (List.getLast?_isSome.mpr (List.ne_nil_of_mem ha))
    obtain ⟨events, loaded, hevents, hplayable, hlink, hend⟩ :=
      fullEvents_replay h hcompress hfinal
    obtain ⟨pat, hpat, rfl⟩ := attemptsToPattern_window fmt sourceLabel false hwin hevents
    refine ⟨pat, loaded, hpat, hplayable, hlink, ?_⟩
    intro final' hfinal'
    rw [hfinal] at hfinal'
    cases hfinal'
    exact hend
  · obtain ⟨loaded, hplayable, hlink⟩ :=
      windowEvents_replay h.increasing hcompress first.tOffset last.tOffset
    rw [← hfirstT, ← hlastT] at hplayable
    obtain ⟨pat, hpat, hevents⟩ := attemptsToPattern_window fmt sourceLabel true hwin rfl
    rw [← hevents] at hplayable
    exact ⟨pat, loaded, first, last, hpat, hplayable, hfirst, hlast, hlink⟩

/-- Four pings, the second and the last answered. -/
def fourPings : List Attempt :=
  [⟨0, 0, .fail, none⟩, ⟨1, 5, .ok, some 1265⟩, ⟨2, 10, .fail, none⟩, ⟨3, 15, .ok, some 1267⟩]

theorem fourPings_recorded : Recorded fourPings where
  begins := by decide +kernel
  increasing := by decide +kernel
  answered := ⟨⟨1, 5, .ok, some 1265⟩, by decide +kernel, rfl⟩

/-- Numbers as their integer part. -/
def wholeNumbers : PyFormat where
  str q := toString q.floor
  fixed _ q := toString q.floor

theorem fourPings_replay : Recorded fourPings ∧ (0 : ℚ) < 1 ∧
    ∃ pat loaded, attemptsToPattern 1 wholeNumbers "demo.log" fourPings
      (attemptsToStats fourPings) false = some pat ∧ Playable pat.events loaded ∧
      linkUpAt loaded (1 * 5) = true ∧ linkUpAt loaded (1 * 10) = false ∧
      linkUpAt loaded 20 = false := by
  obtain ⟨⟨pat, loaded, hpat, hplayable, hlink, hend⟩, -⟩ :=
    recorded_pass_replays wholeNumbers "demo.log" fourPings_recorded one_pos
  refine ⟨fourPings_recorded, one_pos, pat, loaded, hpat, hplayable, ?_, ?_, ?_⟩
  · exact hlink ⟨1, 5, .ok, some 1265⟩ (by decide +kernel)
  · exact hlink ⟨2, 10, .fail, none⟩ (by decide +kernel)
  · exact hend ⟨3, 15, .ok, some 1267⟩ rfl 20 (by norm_num)

end Replay

end SatDeploy.Experiments
