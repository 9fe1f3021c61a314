import Mathlib.Tactic

/-!
Timed events that are applied when somebody asks. A list in the order of its times
splits at every moment into the events that are due and the rest, so applying the
due ones bit by bit is applying them at once; and a part of the state that events
only overwrite is as the last of them left it.
-/

namespace SatDeploy.Lib

variable {T ε σ π α : Type}

section Due

variable [LinearOrder T] (time : ε → T)

/-- In the order of their times. -/
def Timed (events : List ε) : Prop := events.Pairwise fun a b => time a ≤ time b

/-- The events of a time up to `now`. -/
def due (now : T) (events : List ε) : List ε := events.filter fun e => time e ≤ now

/-- Applies events until one is not due. -/
def advance (apply : σ → ε → σ) (now : T) : List ε → σ → σ
  | [], s => s
  | e :: rest, s => if time e ≤ now then advance apply now rest (apply s e) else s

end Due

section Laws

variable [LinearOrder T] {time : ε → T} {events : List ε} {now later : T}

theorem due_eq_nil (h : ∀ e ∈ events, now < time e) : due time now events = [] := by
  apply List.filter_eq_nil_iff.mpr
  intro e he
  simpa using h e he

theorem due_cons_of_lt {e : ε} (hevents : Timed time (e :: events)) (h : now < time e) :
    due time now (e :: events) = [] := by
  apply due_eq_nil
  intro e' he'
  rcases List.mem_cons.mp he' with rfl | he'
  · exact h
  · exact lt_of_lt_of_le h ((List.pairwise_cons.mp hevents).1 e' he')

theorem due_cons_of_le {e : ε} (h : time e ≤ now) :
    due time now (e :: events) = e :: due time now events :=
  List.filter_cons_of_pos (by simpa using h)

/-- The due events come first. -/
theorem due_append_drop (hevents : Timed time events) (now : T) :
    due time now events ++ events.drop (due time now events).length = events := by
  induction events with
  | nil => rfl
  | cons e events ih =>
      by_cases h : time e ≤ now
      · rw [due_cons_of_le h, List.length_cons, List.drop_succ_cons, List.cons_append,
          ih (List.pairwise_cons.mp hevents).2]
      · rw [due_cons_of_lt hevents (not_le.mp h)]
        rfl

/-- What becomes due later comes behind what is due already. -/
theorem due_later (hevents : Timed time events) (h : now ≤ later) :
    due time later events =
      due time now events ++ due time later (events.drop (due time now events).length) := by
  have hkept : due time later (due time now events) = due time now events := by
    apply List.filter_eq_self.mpr
    intro e he
    have hnow : time e ≤ now := by simpa using (List.mem_filter.mp he).2
    simpa using le_trans hnow h
  calc due time later events
      = due time later (due time now events ++ events.drop (due time now events).length) := by
        rw [due_append_drop hevents]
    _ = due time now events ++ due time later (events.drop (due time now events).length) := by
        rw [due, List.filter_append]
        exact congrArg (· ++ _) hkept

theorem advance_eq (apply : σ → ε → σ) (hevents : Timed time events) (s : σ) :
    advance time apply now events s = (due time now events).foldl apply s := by
  induction events generalizing s with
  | nil => rfl
  | cons e events ih =>
      rw [advance]
      split
      case isTrue h =>
        rw [ih (List.pairwise_cons.mp hevents).2, due_cons_of_le h]
        rfl
      case isFalse h =>
        rw [due_cons_of_lt hevents (not_le.mp h)]
        rfl

end Laws

/-- A part of the state that events overwrite is what the last that wrote it
left. -/
theorem foldl_last_write {apply : σ → ε → σ} {get : σ → π} {sets : ε → Option π}
    (h : ∀ s e, get (apply s e) = (sets e).getD (get s)) (events : List ε) (s : σ) :
    get (events.foldl apply s) = (events.filterMap sets).getLast?.getD (get s) := by
  induction events generalizing s with
  | nil => rfl
  | cons e events ih =>
      rw [List.foldl_cons, ih, h]
      cases hset : sets e with
      | none => rw [List.filterMap_cons_none hset, Option.getD_none]
      | some v =>
          rw [List.filterMap_cons_some hset, List.getLast?_cons, Option.getD_some,
            Option.getD_some]

/-! ### Sampled values -/

section Changes

variable [DecidableEq α]

/-- The samples at which the value changes. -/
def changes : α → List (T × α) → List (T × α)
  | _, [] => []
  | last, e :: rest => if e.2 = last then changes last rest else e :: changes e.2 rest

theorem changes_sublist (last : α) (samples : List (T × α)) :
    (changes last samples).Sublist samples := by
  fun_induction changes last samples with
  | case1 => exact .refl _
  | case2 e rest ih => exact ih.cons e
  | case3 last e rest h ih => exact ih.cons_cons e

/-- Neighbouring changes differ, the first from what was before. -/
theorem changes_differ (start : T) (last : α) (samples : List (T × α)) :
    ((start, last) :: changes last samples).IsChain fun a b => a.2 ≠ b.2 := by
  fun_induction changes last samples generalizing start with
  | case1 last => exact List.IsChain.singleton _
  | case2 e rest ih => exact ih start
  | case3 last e rest h ih => exact List.IsChain.cons_cons (Ne.symm h) (ih e.1)

theorem changes_append_singleton (last : α) (samples : List (T × α)) (e : T × α) :
    changes last (samples ++ [e]) =
      changes last samples ++
        if e.2 = (samples.map Prod.snd).getLast?.getD last then [] else [e] := by
  induction samples generalizing last with
  | nil => simp [changes]
  | cons first samples ih =>
      rw [List.cons_append, changes, changes, List.map_cons, List.getLast?_cons, Option.getD_some]
      split
      case isTrue hsame => rw [ih, hsame]
      case isFalse => rw [ih, List.cons_append]

end Changes

section Samples

variable [LinearOrder T]

/-- The value at time `t` of what is `initial` before the first sample. -/
def valueAt (initial : α) (samples : List (T × α)) (t : T) : α :=
  ((due Prod.fst t samples).map Prod.snd).getLast?.getD initial

variable {initial : α} {samples : List (T × α)} {t : T}

theorem valueAt_cons_of_le {e : T × α} (h : e.1 ≤ t) :
    valueAt initial (e :: samples) t = valueAt e.2 samples t := by
  rw [valueAt, due_cons_of_le h, List.map_cons, List.getLast?_cons]
  rfl

theorem valueAt_of_lt (h : ∀ e ∈ samples, t < e.1) : valueAt initial samples t = initial := by
  rw [valueAt, due_eq_nil h]
  rfl

/-- A sample is the value at its own time. -/
theorem valueAt_sample (hsamples : samples.Pairwise fun a b => a.1 < b.1) {e : T × α}
    (he : e ∈ samples) : valueAt initial samples e.1 = e.2 := by
  induction samples generalizing initial with
  | nil => cases he
  | cons first samples ih =>
      obtain ⟨hfirst, hrest⟩ := List.pairwise_cons.mp hsamples
      rcases List.mem_cons.mp he with rfl | he
      · rw [valueAt_cons_of_le (le_refl _)]
        exact valueAt_of_lt hfirst
      · rw [valueAt_cons_of_le (le_of_lt (hfirst e he))]
        exact ih hrest he

/-- From the time of the last sample on, it is the value. -/
theorem valueAt_last {e : T × α} (hsamples : Timed Prod.fst (samples ++ [e])) (h : e.1 ≤ t) :
    valueAt initial (samples ++ [e]) t = e.2 := by
  have hall : due Prod.fst t (samples ++ [e]) = samples ++ [e] := by
    apply List.filter_eq_self.mpr
    intro e' he'
    rcases List.mem_append.mp he' with he' | he'
    · have hle := (List.pairwise_append.mp hsamples).2.2 e' he' e (by simp)
      simpa using le_trans hle h
    · rw [List.mem_singleton.mp he']
      simpa using h
  rw [valueAt, hall]
  simp

/-- Recording the changes alone loses nothing. -/
theorem valueAt_changes [DecidableEq α] (hsamples : Timed Prod.fst samples) (last : α) (t : T) :
    valueAt last (changes last samples) t = valueAt last samples t := by
  induction samples generalizing last with
  | nil => rfl
  | cons e samples ih =>
      have hrest : Timed Prod.fst samples := (List.pairwise_cons.mp hsamples).2
      by_cases hdue : e.1 ≤ t
      · rw [valueAt_cons_of_le hdue, ← ih hrest, changes]
        split
        case isTrue hsame => rw [hsame]
        case isFalse => exact valueAt_cons_of_le hdue
      · have hlater : ∀ e' ∈ e :: samples, t < e'.1 := by
          intro e' he'
          rcases List.mem_cons.mp he' with rfl | he'
          · exact not_le.mp hdue
          · exact lt_of_lt_of_le (not_le.mp hdue) ((List.pairwise_cons.mp hsamples).1 e' he')
        rw [valueAt_of_lt hlater, valueAt_of_lt]
        exact fun e' he' => hlater e' ((changes_sublist last (e :: samples)).subset he')

end Samples

end SatDeploy.Lib
