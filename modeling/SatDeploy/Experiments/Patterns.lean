import SatDeploy.Agent.LossFilter

/-!
Loss patterns of the experiment harness, `experiments/lib/parse_pass_log.py`: the
check of a pattern, the transformations that derive one from another, and what the
agent's loader makes of the result. Times, factors and probabilities are exact.
Errors keep the values their texts are made from; how a number is printed is a
parameter, and reading and writing the file is left out.
-/

namespace SatDeploy.Experiments

open SatDeploy.Lib SatDeploy.Agent

/-- The word behind the timestamp; a file may hold any. -/
inductive PatternAction where
  | up
  | down
  | prob
  | clear
  | other (word : String)
  deriving DecidableEq, Repr

structure PatternEvent where
  tOffset : ℚ
  action : PatternAction
  prob : Option ℚ
  deriving DecidableEq

structure Pattern where
  events : List PatternEvent
  metadata : List (String × String)
  headerComments : List String
  deriving DecidableEq

/-! ### The check -/

inductive PatternError where
  | negative (i : Nat) (t : ℚ)
  | notMonotonic (i : Nat) (t previous : ℚ)
  | unknownAction (i : Nat) (word : PatternAction)
  | badProb (i : Nat) (prob : Option ℚ)
  deriving DecidableEq

def PatternAction.known : PatternAction → Bool
  | .other _ => false
  | _ => true

def probInRange : Option ℚ → Bool
  | none => false
  | some p => 0 ≤ p && p ≤ 1

/-- The errors of event `i`, with the latest time before it. -/
def eventErrors (i : Nat) (last : ℚ) (ev : PatternEvent) : List PatternError :=
  (if ev.tOffset < 0 then [.negative i ev.tOffset] else []) ++
  (if ev.tOffset < last then [.notMonotonic i ev.tOffset last] else []) ++
  (if !ev.action.known then [.unknownAction i ev.action] else []) ++
  (if ev.action = .prob then
    if !probInRange ev.prob then [.badProb i ev.prob] else []
  else [])

def validateLoop : Nat → ℚ → List PatternEvent → List PatternError
  | _, _, [] => []
  | i, last, ev :: rest =>
      eventErrors i last ev ++ validateLoop (i + 1) (max last ev.tOffset) rest

def validate (pat : Pattern) : List PatternError := validateLoop 0 (-1) pat.events

/-! ### The transformations -/

/-- `dict[key] = value`. -/
def setEntry (dict : List (String × String)) (key value : String) : List (String × String) :=
  if dict.any (·.1 == key) then dict.map fun e => if e.1 = key then (key, value) else e
  else dict ++ [(key, value)]

inductive LinkState where
  | up
  | down
  deriving DecidableEq, Repr

/-- The loop of `scale`, with the state of the recorded link and the start of its
last down interval. -/
def scaleLoop (factor : ℚ) : LinkState → ℚ → List PatternEvent → List PatternEvent
  | _, _, [] => []
  | state, start, ev :: rest =>
      if ev.action = .down then
        ⟨ev.tOffset, .down, none⟩ :: scaleLoop factor .down ev.tOffset rest
      else if ev.action = .up ∧ state = .down then
        ⟨start + (ev.tOffset - start) * factor, .up, none⟩ :: scaleLoop factor .up start rest
      else if ev.action = .prob then
        ⟨ev.tOffset, .prob, some (max 0 (min 1 (ev.prob.getD 0 * factor)))⟩ ::
          scaleLoop factor state start rest
      else ⟨ev.tOffset, ev.action, ev.prob⟩ :: scaleLoop factor state start rest

section Transformations

variable (fmt : ℚ → String)

/-- The texts of the two refusals. -/
def scaleRefused : String := "scale factor must be non-negative"

def shiftRefused : String := "negative shift not supported"

def scale (pat : Pattern) (factor : ℚ) : Except String Pattern :=
  if factor < 0 then .error scaleRefused
  else .ok {
    events := scaleLoop factor .up 0 pat.events
    metadata := setEntry pat.metadata "scaled_by" (fmt factor)
    headerComments := pat.headerComments ++ ["Derived: scaled by " ++ fmt factor ++ "x"] }

def shift (pat : Pattern) (dt : ℚ) : Except String Pattern :=
  if dt < 0 then .error shiftRefused
  else .ok {
    events := pat.events.map fun ev => ⟨ev.tOffset + dt, ev.action, ev.prob⟩
    metadata := setEntry pat.metadata "shifted_by_s" (fmt dt)
    headerComments := pat.headerComments ++ ["Derived: shifted by " ++ fmt dt ++ " s"] }

end Transformations

/-! ### The loader -/

/-- What the agent's `parse_pattern_line` makes of an event; `latency` and `gilbert`
have parameters that an event of the harness does not carry. -/
def toLossEvent (ev : PatternEvent) : Option (LossEvent ℚ) :=
  match ev.action with
  | .up => some ⟨ev.tOffset, .up⟩
  | .down => some ⟨ev.tOffset, .down⟩
  | .clear => some ⟨ev.tOffset, .clear⟩
  | .prob =>
      match ev.prob with
      | none => none
      | some p => if p < 0 ∨ p > 1 then none else some ⟨ev.tOffset, .prob p⟩
  | .other _ => none

/-- The agent starts with the pattern. -/
def loaderAccepts (events : List PatternEvent) : Bool :=
  match events.mapM toLossEvent with
  | none => false
  | some loaded => timestampsMonotonic loaded

/-! ### What a valid pattern is -/

/-- One event on its own. -/
structure PatternEvent.Sound (ev : PatternEvent) : Prop where
  nonneg : 0 ≤ ev.tOffset
  known : ev.action.known = true
  range : ev.action = .prob → probInRange ev.prob = true

theorem eventErrors_eq_nil {i : Nat} {last : ℚ} {ev : PatternEvent} :
    eventErrors i last ev = [] ↔ ev.Sound ∧ last ≤ ev.tOffset := by
  constructor
  · intro h
    simp only [eventErrors, List.append_eq_nil_iff, ite_eq_right_iff, imp_false, not_lt,
      List.cons_ne_nil, Bool.not_eq_true', Bool.not_eq_false] at h
    exact ⟨⟨h.1.1.1, h.1.2, h.2⟩, h.1.1.2⟩
  · rintro ⟨⟨hnonneg, hknown, hrange⟩, hlast⟩
    simp only [eventErrors, not_lt.mpr hnonneg, not_lt.mpr hlast, hknown, if_false,
      Bool.not_true, Bool.false_eq_true, List.nil_append, List.append_nil]
    split
    case isTrue hprob => simp [hrange hprob]
    case isFalse => rfl

theorem validateLoop_eq_nil (events : List PatternEvent) : ∀ (i : Nat) (last : ℚ),
    validateLoop i last events = [] ↔
      (∀ ev ∈ events, ev.Sound ∧ last ≤ ev.tOffset) ∧ Timed PatternEvent.tOffset events := by
  induction events with
  | nil => exact fun _ _ => by simp [validateLoop, Timed]
  | cons ev events ih =>
      intro i last
      rw [validateLoop, List.append_eq_nil_iff, eventErrors_eq_nil, ih]
      constructor
      · rintro ⟨hev, hrest, htimed⟩
        refine ⟨?_, List.pairwise_cons.mpr ⟨fun ev' hev' => ?_, htimed⟩⟩
        · intro ev' hev'
          rcases List.mem_cons.mp hev' with rfl | hev'
          · exact hev
          · exact ⟨(hrest ev' hev').1, le_trans (le_max_left _ _) (hrest ev' hev').2⟩
        · exact le_trans (le_max_right _ _) (hrest ev' hev').2
      · rintro ⟨hall, htimed⟩
        obtain ⟨hfirst, htimed⟩ := List.pairwise_cons.mp htimed
        refine ⟨hall ev List.mem_cons_self, fun ev' hev' => ?_, htimed⟩
        have hev := hall ev' (List.mem_cons_of_mem _ hev')
        exact ⟨hev.1, max_le hev.2 (hfirst ev' hev')⟩

/-- A pattern without errors has sound events in the order of their times. -/
theorem validate_eq_nil {pat : Pattern} :
    validate pat = [] ↔
      (∀ ev ∈ pat.events, ev.Sound) ∧ Timed PatternEvent.tOffset pat.events := by
  rw [validate, validateLoop_eq_nil]
  constructor
  · rintro ⟨hall, htimed⟩
    exact ⟨fun ev hev => (hall ev hev).1, htimed⟩
  · rintro ⟨hall, htimed⟩
    refine ⟨fun ev hev => ⟨hall ev hev, ?_⟩, htimed⟩
    have hnonneg := (hall ev hev).nonneg
    linarith

theorem toLossEvent_of_sound {ev : PatternEvent} (h : ev.Sound) :
    ∃ loaded, toLossEvent ev = some loaded ∧ loaded.tOffset = ev.tOffset := by
  unfold toLossEvent
  cases haction : ev.action with
  | up => exact ⟨_, rfl, rfl⟩
  | down => exact ⟨_, rfl, rfl⟩
  | clear => exact ⟨_, rfl, rfl⟩
  | other word =>
      have hknown := h.known
      rw [haction] at hknown
      cases hknown
  | prob =>
      have hrange := h.range haction
      cases hprob : ev.prob with
      | none =>
          rw [hprob] at hrange
          cases hrange
      | some p =>
          rw [hprob] at hrange
          obtain ⟨hlow, hhigh⟩ : 0 ≤ p ∧ p ≤ 1 := by simpa [probInRange] using hrange
          have hin : ¬ (p < 0 ∨ p > 1) := by
            rintro (hneg | hbig)
            · exact absurd hlow (not_le.mpr hneg)
            · exact absurd hhigh (not_le.mpr hbig)
          exact ⟨⟨ev.tOffset, .prob p⟩, if_neg hin, rfl⟩

/-- The agent loads every valid pattern. -/
theorem loaderAccepts_of_valid {events : List PatternEvent} (hsound : ∀ ev ∈ events, ev.Sound)
    (htimed : Timed PatternEvent.tOffset events) : loaderAccepts events = true := by
  have hload : ∃ loaded, events.mapM toLossEvent = some loaded ∧
      loaded.map LossEvent.tOffset = events.map PatternEvent.tOffset := by
    induction events with
    | nil => exact ⟨[], rfl, rfl⟩
    | cons ev events ih =>
        obtain ⟨first, hfirst, htime⟩ := toLossEvent_of_sound (hsound ev List.mem_cons_self)
        obtain ⟨rest, hrest, htimes⟩ :=
          ih (fun ev' hev' => hsound ev' (List.mem_cons_of_mem _ hev'))
            (List.pairwise_cons.mp htimed).2
        exact ⟨first :: rest, by simp [List.mapM_cons, hfirst, hrest], by simp [htime, htimes]⟩
  obtain ⟨loaded, hloaded, htimes⟩ := hload
  rw [loaderAccepts, hloaded]
  apply timestampsMonotonic_of_timed
  have hpair : (loaded.map LossEvent.tOffset).Pairwise (· ≤ ·) := by
    rw [htimes]
    exact List.pairwise_map.mpr htimed
  exact List.pairwise_map.mp hpair

/-! ### Scaling -/

def nextSince (since : Option ℚ) (ev : PatternEvent) : Option ℚ :=
  match ev.action with
  | .down => some ev.tOffset
  | .up => none
  | _ => since

/-- Since when the link has been down after these events. -/
def downSince (events : List PatternEvent) : Option ℚ := events.foldl nextSince none

/-- What scaling makes of one event, with the link down since `since` before it. -/
def scaleEvent (factor : ℚ) (since : Option ℚ) (ev : PatternEvent) : PatternEvent :=
  match ev.action, since with
  | .up, some start => ⟨start + (ev.tOffset - start) * factor, .up, none⟩
  | .down, _ => ⟨ev.tOffset, .down, none⟩
  | .prob, _ => ⟨ev.tOffset, .prob, some (max 0 (min 1 (ev.prob.getD 0 * factor)))⟩
  | _, _ => ev

/-- The interval the loop's two variables stand for. -/
def LinkState.since : LinkState → ℚ → Option ℚ
  | .down, start => some start
  | .up, _ => none

section Scaling

variable {factor : ℚ} {events : List PatternEvent}

theorem scaleLoop_cons (factor : ℚ) (state : LinkState) (start : ℚ) (ev : PatternEvent)
    (rest : List PatternEvent) :
    ∃ state' start', state'.since start' = nextSince (state.since start) ev ∧
      scaleLoop factor state start (ev :: rest) =
        scaleEvent factor (state.since start) ev :: scaleLoop factor state' start' rest := by
  obtain ⟨t, action, prob⟩ := ev
  cases action with
  | down => exact ⟨.down, t, rfl, by simp [scaleLoop, scaleEvent]⟩
  | up =>
      cases state with
      | up => exact ⟨.up, start, rfl, by simp [scaleLoop, scaleEvent, LinkState.since]⟩
      | down => exact ⟨.up, start, rfl, by simp [scaleLoop, scaleEvent, LinkState.since]⟩
  | prob => exact ⟨state, start, rfl, by simp [scaleLoop, scaleEvent]⟩
  | clear => exact ⟨state, start, rfl, by simp [scaleLoop, scaleEvent]⟩
  | other word => exact ⟨state, start, rfl, by simp [scaleLoop, scaleEvent]⟩

/-- Event by event: the loop treats the one at `i` by the interval open before
it. -/
theorem scaleLoop_getElem? (events : List PatternEvent) :
    ∀ (state : LinkState) (start : ℚ) (i : Nat),
      (scaleLoop factor state start events)[i]? =
        events[i]?.map
          (scaleEvent factor ((events.take i).foldl nextSince (state.since start))) := by
  induction events with
  | nil => exact fun _ _ _ => by simp [scaleLoop]
  | cons ev events ih =>
      intro state start i
      obtain ⟨state', start', hsince, hloop⟩ := scaleLoop_cons factor state start ev events
      rw [hloop]
      cases i with
      | zero => simp
      | succ i => simp [ih, hsince]

/-- An interval has been open since the time of an event. -/
theorem mem_of_downSince {start : ℚ} (h : downSince events = some start) :
    ∃ ev ∈ events, ev.tOffset = start := by
  induction events using List.reverseRecOn with
  | nil => cases h
  | append_singleton events ev ih =>
      rw [downSince, List.foldl_append, List.foldl_cons, List.foldl_nil, ← downSince] at h
      unfold nextSince at h
      split at h
      · exact ⟨ev, by simp, Option.some.inj h⟩
      · cases h
      · obtain ⟨ev', hev', htime⟩ := ih h
        exact ⟨ev', List.mem_append_left _ hev', htime⟩

/-- Where a down interval ends when it is stretched. -/
def stretchedEnd (factor start stop : ℚ) : ℚ := start + (stop - start) * factor

/-- The stretched end of every down interval stays between the events next to the
recorded one. -/
def StretchFits (factor : ℚ) (events : List PatternEvent) : Prop :=
  ∀ i ev start, events[i]? = some ev → ev.action = .up →
    downSince (events.take i) = some start →
    (∀ before, 0 < i → events[i - 1]? = some before →
      before.tOffset ≤ stretchedEnd factor start ev.tOffset) ∧
    (∀ after, events[i + 1]? = some after → stretchedEnd factor start ev.tOffset ≤ after.tOffset)

/-- The scaled event at `i`. -/
theorem scaled_getElem? (i : Nat) :
    (scaleLoop factor .up 0 events)[i]? =
      events[i]?.map (scaleEvent factor (downSince (events.take i))) :=
  scaleLoop_getElem? events .up 0 i

theorem scaleEvent_closing {start : ℚ} {ev : PatternEvent} (hup : ev.action = .up) :
    (scaleEvent factor (some start) ev).tOffset = stretchedEnd factor start ev.tOffset := by
  obtain ⟨t, action, prob⟩ := ev
  cases hup
  rfl

/-- Only the end of a down interval moves. -/
theorem scaleEvent_kept {since : Option ℚ} {ev : PatternEvent}
    (h : ev.action = .up → since = none) : (scaleEvent factor since ev).tOffset = ev.tOffset := by
  obtain ⟨t, action, prob⟩ := ev
  cases action with
  | up =>
      rw [h rfl]
      rfl
  | down => simp [scaleEvent]
  | prob => simp [scaleEvent]
  | clear => simp [scaleEvent]
  | other word => simp [scaleEvent]

theorem downSince_take_succ {i : Nat} {ev : PatternEvent} (h : events[i]? = some ev) :
    downSince (events.take (i + 1)) = nextSince (downSince (events.take i)) ev := by
  rw [List.take_add_one, h, downSince, List.foldl_append]
  rfl

/-- The times of a list are in order if neighbours are. -/
theorem timed_iff_neighbours {events : List PatternEvent} :
    Timed PatternEvent.tOffset events ↔ ∀ i a b, events[i]? = some a →
      events[i + 1]? = some b → a.tOffset ≤ b.tOffset := by
  rw [Timed, ← List.isChain_iff_pairwise, List.isChain_iff_getElem]
  constructor
  · intro h i a b ha hb
    obtain ⟨hi, rfl⟩ := List.getElem?_eq_some_iff.mp ha
    obtain ⟨hi', rfl⟩ := List.getElem?_eq_some_iff.mp hb
    exact h i hi'
  · intro h i hi
    exact h i _ _ (List.getElem?_eq_getElem (by omega)) (List.getElem?_eq_getElem hi)

/-- Behind the end of a down interval no interval is open. -/
theorem downSince_after_up {i : Nat} {ev : PatternEvent} (h : events[i]? = some ev)
    (hup : ev.action = .up) : downSince (events.take (i + 1)) = none := by
  rw [downSince_take_succ h, nextSince, hup]

/-- The scaled times are in order exactly if every stretched end fits. -/
theorem timed_scaled_iff (htimed : Timed PatternEvent.tOffset events) :
    Timed PatternEvent.tOffset (scaleLoop factor .up 0 events) ↔ StretchFits factor events := by
  rw [timed_iff_neighbours] at htimed ⊢
  constructor
  · intro h i ev start hev hup hsince
    have hscaled : (scaleLoop factor .up 0 events)[i]? =
        some (scaleEvent factor (some start) ev) := by
      rw [scaled_getElem?, hev, hsince]
      rfl
    constructor
    · intro before hpos hbefore
      obtain ⟨j, rfl⟩ : ∃ j, i = j + 1 := ⟨i - 1, by omega⟩
      rw [Nat.add_sub_cancel] at hbefore
      have hkept : before.action = .up → downSince (events.take j) = none := by
        intro hbup
        rw [downSince_after_up hbefore hbup] at hsince
        cases hsince
      have hle := h j _ _ (by rw [scaled_getElem?, hbefore]; rfl) hscaled
      rwa [scaleEvent_kept hkept, scaleEvent_closing hup] at hle
    · intro after hafter
      have hkept : after.action = .up → downSince (events.take (i + 1)) = none :=
        fun _ => downSince_after_up hev hup
      have hle := h i _ _ hscaled (by rw [scaled_getElem?, hafter]; rfl)
      rwa [scaleEvent_kept hkept, scaleEvent_closing hup] at hle
  · intro hfits i a' b' ha' hb'
    rw [scaled_getElem?, Option.map_eq_some_iff] at ha' hb'
    obtain ⟨a, ha, rfl⟩ := ha'
    obtain ⟨b, hb, rfl⟩ := hb'
    by_cases haup : a.action = .up
    · have hbkept : b.action = .up → downSince (events.take (i + 1)) = none :=
        fun _ => downSince_after_up ha haup
      rw [scaleEvent_kept hbkept]
      cases hsince : downSince (events.take i) with
      | none =>
          rw [scaleEvent_kept fun _ => rfl]
          exact htimed i a b ha hb
      | some start =>
          rw [scaleEvent_closing haup]
          exact (hfits i a start ha haup hsince).2 b hb
    · rw [scaleEvent_kept fun h => absurd h haup]
      by_cases hbup : b.action = .up
      · cases hsince : downSince (events.take (i + 1)) with
        | none =>
            rw [scaleEvent_kept fun _ => rfl]
            exact htimed i a b ha hb
        | some start =>
            rw [scaleEvent_closing hbup]
            exact (hfits (i + 1) b start hb hbup hsince).1 a (by omega) ha
      · rw [scaleEvent_kept fun h => absurd h hbup]
        exact htimed i a b ha hb

/-- An interval that ends has begun before. -/
theorem downSince_le {i : Nat} {ev : PatternEvent} {start : ℚ}
    (hsound : ∀ ev ∈ events, ev.Sound) (htimed : Timed PatternEvent.tOffset events)
    (hev : events[i]? = some ev) (hsince : downSince (events.take i) = some start) :
    0 ≤ start ∧ start ≤ ev.tOffset := by
  obtain ⟨first, hfirst, rfl⟩ := mem_of_downSince hsince
  refine ⟨(hsound first (List.mem_of_mem_take hfirst)).nonneg, ?_⟩
  obtain ⟨hi, rfl⟩ := List.getElem?_eq_some_iff.mp hev
  have hsplit : events = events.take i ++ events.drop i := (List.take_append_drop i events).symm
  rw [Timed, hsplit, List.pairwise_append] at htimed
  exact htimed.2.2 first hfirst _ (List.mem_drop_iff_getElem.mpr ⟨0, by omega, by simp⟩)

theorem scaleEvent_sound {since : Option ℚ} {ev : PatternEvent} (hfactor : 0 ≤ factor)
    (hev : ev.Sound) (hsince : ∀ start, since = some start → 0 ≤ start ∧ start ≤ ev.tOffset) :
    (scaleEvent factor since ev).Sound := by
  obtain ⟨t, action, prob⟩ := ev
  cases action with
  | up =>
      cases since with
      | none => exact hev
      | some start =>
          obtain ⟨hstart, hle⟩ := hsince start rfl
          have hlen : 0 ≤ (t - start) * factor := mul_nonneg (by simpa using hle) hfactor
          exact ⟨add_nonneg hstart hlen, rfl, nofun⟩
  | down => exact ⟨hev.nonneg, rfl, nofun⟩
  | prob =>
      refine ⟨hev.nonneg, rfl, fun _ => ?_⟩
      simp [scaleEvent, probInRange]
  | clear => exact hev
  | other word => exact hev

theorem scaled_sound (hfactor : 0 ≤ factor) (hsound : ∀ ev ∈ events, ev.Sound)
    (htimed : Timed PatternEvent.tOffset events) :
    ∀ ev ∈ scaleLoop factor .up 0 events, ev.Sound := by
  intro ev' hev'
  obtain ⟨i, hi⟩ := List.mem_iff_getElem?.mp hev'
  rw [scaled_getElem?, Option.map_eq_some_iff] at hi
  obtain ⟨ev, hev, rfl⟩ := hi
  exact scaleEvent_sound hfactor (hsound ev (List.mem_of_getElem? hev))
    fun start hsince => downSince_le hsound htimed hev hsince

end Scaling

/-- A scaled pattern is valid, and loaded by the agent, exactly if no stretched
interval runs into an event next to it. -/
theorem scale_valid_iff (fmt : ℚ → String) {pat : Pattern} {factor : ℚ}
    (hvalid : validate pat = []) (hfactor : 0 ≤ factor) :
    ∃ scaled, scale fmt pat factor = .ok scaled ∧
      (validate scaled = [] ∧ loaderAccepts scaled.events = true ↔
        StretchFits factor pat.events) := by
  obtain ⟨hsound, htimed⟩ := validate_eq_nil.mp hvalid
  have hscaled := scaled_sound hfactor hsound htimed
  refine ⟨_, if_neg (not_lt.mpr hfactor), ?_⟩
  rw [validate_eq_nil, ← timed_scaled_iff htimed]
  constructor
  · rintro ⟨⟨-, hordered⟩, -⟩
    exact hordered
  · intro hordered
    exact ⟨⟨hscaled, hordered⟩, loaderAccepts_of_valid hscaled hordered⟩

/-- Two fades with two seconds between them. -/
def twoFades : Pattern where
  events := [⟨0, .down, none⟩, ⟨10, .up, none⟩, ⟨12, .down, none⟩, ⟨13, .up, none⟩]
  metadata := []
  headerComments := []

theorem twoFades_valid : validate twoFades = [] := by
  decide +kernel

/-- Half as long they stay apart. -/
theorem scale_twoFades_half :
    validate twoFades = [] ∧ (0 : ℚ) ≤ 1 / 2 ∧
    ∃ scaled, scale (fun _ => "0.5") twoFades (1 / 2) = .ok scaled ∧ validate scaled = [] := by
  have hhalf : (0 : ℚ) ≤ 1 / 2 := by norm_num
  have hfits : StretchFits (1 / 2) twoFades.events := by
    rw [← timed_scaled_iff (validate_eq_nil.mp twoFades_valid).2, Timed]
    decide +kernel
  obtain ⟨scaled, hscale, hiff⟩ := scale_valid_iff (fun _ => "0.5") twoFades_valid hhalf
  exact ⟨twoFades_valid, hhalf, scaled, hscale, (hiff.mpr hfits).1⟩

/-- Twice as long the first runs past the beginning of the second. -/
theorem scale_twoFades_double :
    validate twoFades = [] ∧ (0 : ℚ) ≤ 2 ∧
    ∃ scaled, scale (fun _ => "2.0") twoFades 2 = .ok scaled ∧
      validate scaled = [.notMonotonic 2 12 20, .notMonotonic 3 14 20] ∧
      loaderAccepts scaled.events = false := by
  refine ⟨twoFades_valid, by norm_num, _, rfl, ?_, ?_⟩
  · decide +kernel
  · decide +kernel

/-- A shift moves every event alike, so it keeps a pattern valid. -/
theorem shift_valid (fmt : ℚ → String) {pat : Pattern} {dt : ℚ} (hvalid : validate pat = [])
    (hdt : 0 ≤ dt) :
    ∃ shifted, shift fmt pat dt = .ok shifted ∧ validate shifted = [] ∧
      loaderAccepts shifted.events = true := by
  obtain ⟨hsound, htimed⟩ := validate_eq_nil.mp hvalid
  have hmoved : ∀ ev ∈ pat.events.map fun ev => (⟨ev.tOffset + dt, ev.action, ev.prob⟩ :
      PatternEvent), ev.Sound := by
    intro ev' hev'
    obtain ⟨ev, hev, rfl⟩ := List.mem_map.mp hev'
    exact ⟨add_nonneg (hsound ev hev).nonneg hdt, (hsound ev hev).known, (hsound ev hev).range⟩
  have hordered : Timed PatternEvent.tOffset
      (pat.events.map fun ev => (⟨ev.tOffset + dt, ev.action, ev.prob⟩ : PatternEvent)) := by
    apply List.pairwise_map.mpr
    exact htimed.imp fun hle => add_le_add_left hle dt
  exact ⟨_, if_neg (not_lt.mpr hdt), validate_eq_nil.mpr ⟨hmoved, hordered⟩,
    loaderAccepts_of_valid hmoved hordered⟩

end SatDeploy.Experiments
