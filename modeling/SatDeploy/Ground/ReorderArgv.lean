import SatDeploy.Lib.Bytes

/-!
How the commands reorder their arguments before the option parser sees them,
`satdeploy_reorder_argv`. The entries of `out` are written from the front without
gaps, so the array is the list of what was written to it; the returned count is
computed apart from that.
-/

namespace SatDeploy.Ground

open Lib

/-- `SATDEPLOY_VALUE_OPTS`. -/
def satdeployValueOpts : List Bytes :=
  [ascii "-f", ascii "--local", ascii "--file", ascii "-r", ascii "--remote", ascii "-n",
    ascii "--node", ascii "-m", ascii "--mtu", ascii "-l", ascii "--lines", ascii "-H",
    ascii "--hash"]

def isOption (arg : Bytes) : Bool := arg.head? == some '-'.toUInt8

def takesValue (arg : Bytes) : Bool := satdeployValueOpts.contains arg

/-- The entries of `positional`. -/
def positionalMax : Nat := 8

/-- The first loop, with the entries written to `out` and to `positional` so far.
It stops when `nopt` has reached `max`. -/
def reorderLoop (max : Int) : List Bytes → List Bytes → List Bytes → List Bytes × List Bytes
  | [], out, positional => (out, positional)
  | arg :: rest, out, positional =>
      if (out.length : Int) < max then
        if isOption arg then
          match rest with
          | [] => (out ++ [arg], positional)
          | value :: later =>
              if takesValue arg ∧ ((out ++ [arg]).length : Int) < max then
                reorderLoop max later (out ++ [arg] ++ [value]) positional
              else reorderLoop max (value :: later) (out ++ [arg]) positional
        else if positional.length < positionalMax then
          reorderLoop max rest out (positional ++ [arg])
        else reorderLoop max rest out positional
      else (out, positional)

structure Reordered where
  out : List Bytes
  count : Nat
  deriving DecidableEq, Repr

/-- `satdeploy_reorder_argv`: the entries written to `out`, and what it returns. -/
def satdeployReorderArgv (argv : List Bytes) (max : Int) : Reordered :=
  let (out, positional) := reorderLoop max argv [] []
  { out := out ++ positional.take (max - out.length).toNat
    count := out.length + positional.length }

/-! ### What the arguments are -/

/-- An argument as the option parser means it: an option that takes a value goes
with the next token, and has none when it is the last. -/
inductive Arg where
  | flag (option : Bytes)
  | valued (option value : Bytes)
  | bare (option : Bytes)
  | positional (text : Bytes)
  deriving DecidableEq, Repr

def parseArgs : List Bytes → List Arg
  | [] => []
  | arg :: rest =>
      if isOption arg then
        if takesValue arg then
          match rest with
          | [] => [.bare arg]
          | value :: later => .valued arg value :: parseArgs later
        else .flag arg :: parseArgs rest
      else .positional arg :: parseArgs rest

def Arg.optionTokens : Arg → List Bytes
  | .flag option | .bare option => [option]
  | .valued option value => [option, value]
  | .positional _ => []

def Arg.positionalTokens : Arg → List Bytes
  | .positional text => [text]
  | _ => []

/-- The options with their values, in order. -/
def optionTokens (argv : List Bytes) : List Bytes := (parseArgs argv).flatMap Arg.optionTokens

def positionals (argv : List Bytes) : List Bytes := (parseArgs argv).flatMap Arg.positionalTokens

/-- The last token is an option that takes a value. -/
def EndsBare (argv : List Bytes) : Prop := ∃ option, Arg.bare option ∈ parseArgs argv

example : satdeployReorderArgv [ascii "hello", ascii "-n", ascii "5425"] 32 =
    ⟨[ascii "-n", ascii "5425", ascii "hello"], 3⟩ := by decide

section Parsing

variable {arg : Bytes}

theorem parseArgs_positional (rest : List Bytes) (harg : isOption arg = false) :
    parseArgs (arg :: rest) = .positional arg :: parseArgs rest := by
  cases rest <;> simp [parseArgs, harg]

theorem parseArgs_flag (rest : List Bytes) (harg : isOption arg = true)
    (hvalue : takesValue arg = false) :
    parseArgs (arg :: rest) = .flag arg :: parseArgs rest := by
  cases rest <;> simp [parseArgs, harg, hvalue]

theorem parse_positional (rest : List Bytes) (harg : isOption arg = false) :
    optionTokens (arg :: rest) = optionTokens rest ∧
      positionals (arg :: rest) = arg :: positionals rest := by
  simp [optionTokens, positionals, parseArgs_positional rest harg, Arg.optionTokens,
    Arg.positionalTokens]

theorem parse_flag (rest : List Bytes) (harg : isOption arg = true)
    (hvalue : takesValue arg = false) :
    optionTokens (arg :: rest) = arg :: optionTokens rest ∧
      positionals (arg :: rest) = positionals rest := by
  simp [optionTokens, positionals, parseArgs_flag rest harg hvalue, Arg.optionTokens,
    Arg.positionalTokens]

theorem parse_valued (value : Bytes) (later : List Bytes) (harg : isOption arg = true)
    (hvalue : takesValue arg = true) :
    optionTokens (arg :: value :: later) = arg :: value :: optionTokens later ∧
      positionals (arg :: value :: later) = positionals later := by
  simp [optionTokens, positionals, parseArgs, harg, hvalue, Arg.optionTokens,
    Arg.positionalTokens]

/-- A last option stands alone, whether it takes a value or not. -/
theorem parse_last (harg : isOption arg = true) :
    optionTokens [arg] = [arg] ∧ positionals [arg] = [] := by
  cases hvalue : takesValue arg with
  | false => exact parse_flag [] harg hvalue
  | true =>
      simp [optionTokens, positionals, parseArgs, harg, hvalue, Arg.optionTokens,
        Arg.positionalTokens]

/-- The options and the positionals are all the tokens. -/
theorem parse_perm (argv : List Bytes) : (optionTokens argv ++ positionals argv).Perm argv := by
  fun_induction parseArgs argv with
  | case1 => exact .refl _
  | case2 arg harg hvalue =>
      obtain ⟨hopt, hpos⟩ := parse_last harg
      rw [hopt, hpos]
      exact .refl _
  | case3 arg harg hvalue value later ih =>
      obtain ⟨hopt, hpos⟩ := parse_valued value later harg hvalue
      rw [hopt, hpos]
      exact (ih.cons value).cons arg
  | case4 arg rest harg hvalue ih =>
      obtain ⟨hopt, hpos⟩ := parse_flag rest harg (by simpa using hvalue)
      rw [hopt, hpos]
      exact ih.cons arg
  | case5 arg rest harg ih =>
      obtain ⟨hopt, hpos⟩ := parse_positional rest (Bool.eq_false_iff.mpr harg)
      rw [hopt, hpos]
      exact List.perm_middle.trans (ih.cons arg)

end Parsing

/-! ### The first loop -/

section Loop

variable {max : Int}

/-- The loop only adds to what it has. -/
theorem reorderLoop_grows (max : Int) (argv out positional : List Bytes) :
    out.length ≤ (reorderLoop max argv out positional).1.length ∧
      positional.length ≤ (reorderLoop max argv out positional).2.length := by
  fun_induction reorderLoop max argv out positional <;> simp_all <;> omega

/-- While there is room for every token, or for more than all the options, every
token is seen. -/
theorem reorderLoop_full (argv out positional : List Bytes)
    (hroom : (out.length + (optionTokens argv).length : Int) < max ∨
      (out.length + argv.length : Int) ≤ max) (hpos : positional.length ≤ positionalMax) :
    reorderLoop max argv out positional =
      (out ++ optionTokens argv, (positional ++ positionals argv).take positionalMax) := by
  fun_induction reorderLoop max argv out positional with
  | case1 out positional =>
      simp [optionTokens, positionals, parseArgs, List.take_of_length_le hpos]
  | case2 arg out positional hlt harg =>
      simp [(parse_last harg).1, (parse_last harg).2, List.take_of_length_le hpos]
  | case3 arg out positional hlt harg value later hvalue ih =>
      obtain ⟨hopt, hrest⟩ := parse_valued value later harg hvalue.1
      rw [hopt] at hroom
      simp only [List.length_cons, List.length_append, List.length_nil] at hroom ih
      rw [ih (by omega) hpos, hopt, hrest]
      simp
  | case4 arg out positional hlt harg value later hvalue ih =>
      simp only [List.length_cons, List.length_append, List.length_nil, not_and] at hroom hvalue ih
      -- A value is left for the next round only if the option takes none.
      have hflag : takesValue arg = false := by
        by_contra hval
        have hval : takesValue arg = true := by simpa using hval
        rw [(parse_valued value later harg hval).1] at hroom
        simp only [List.length_cons] at hroom
        exact hvalue hval (by omega)
      obtain ⟨hopt, hrest⟩ := parse_flag (value :: later) harg hflag
      rw [hopt] at hroom
      simp only [List.length_cons] at hroom
      rw [ih (by omega) hpos, hopt, hrest]
      simp
  | case5 arg rest out positional hlt harg hfull ih =>
      obtain ⟨hopt, hrest⟩ := parse_positional rest (Bool.eq_false_iff.mpr harg)
      rw [hopt] at hroom ⊢
      simp only [List.length_cons, List.length_append, List.length_nil] at hroom ih
      rw [ih (by omega) (by omega), hrest]
      simp
  | case6 arg rest out positional hlt harg hfull ih =>
      obtain ⟨hopt, hrest⟩ := parse_positional rest (Bool.eq_false_iff.mpr harg)
      have height : positional.length = positionalMax := by omega
      rw [hopt] at hroom ⊢
      simp only [List.length_cons] at hroom
      rw [ih (by omega) hpos, hrest, ← height, List.take_left, List.take_left]
  | case7 arg rest out positional hfull =>
      simp only [List.length_cons] at hroom
      omega

theorem reorderLoop_le (argv out positional : List Bytes) (hout : (out.length : Int) ≤ max) :
    ((reorderLoop max argv out positional).1.length : Int) ≤ max := by
  fun_induction reorderLoop max argv out positional with
  | case1 out positional => exact hout
  | case2 arg out positional hlt harg =>
      simp only [List.length_append, List.length_cons, List.length_nil]
      omega
  | case3 arg out positional hlt harg value later hvalue ih =>
      apply ih
      simp only [List.length_append, List.length_cons, List.length_nil] at hvalue ⊢
      omega
  | case4 arg out positional hlt harg value later hvalue ih =>
      apply ih
      simp only [List.length_append, List.length_cons, List.length_nil]
      omega
  | case5 arg rest out positional hlt harg hfull ih => exact ih hout
  | case6 arg rest out positional hlt harg hfull ih => exact ih hout
  | case7 arg rest out positional hfull => exact hout

/-- A loop that ends with room left has seen every token. -/
theorem optionTokens_lt_of_room (argv out positional : List Bytes)
    (hroom : ((reorderLoop max argv out positional).1.length : Int) < max) :
    (out.length + (optionTokens argv).length : Int) < max := by
  fun_induction reorderLoop max argv out positional with
  | case1 out positional => simpa [optionTokens, parseArgs] using hroom
  | case2 arg out positional hlt harg =>
      rw [(parse_last harg).1]
      simpa using hroom
  | case3 arg out positional hlt harg value later hvalue ih =>
      have hlater := ih hroom
      rw [(parse_valued value later harg hvalue.1).1]
      simp only [List.length_append, List.length_cons, List.length_nil] at hlater ⊢
      omega
  | case4 arg out positional hlt harg value later hvalue ih =>
      have hlater := ih hroom
      have hgrows := (reorderLoop_grows max (value :: later) (out ++ [arg]) positional).1
      simp only [List.length_append, List.length_cons, List.length_nil] at hlater hgrows hvalue
      have hflag : takesValue arg = false := by
        by_contra hval
        exact hvalue ⟨by simpa using hval, by omega⟩
      rw [(parse_flag (value :: later) harg hflag).1]
      simp only [List.length_cons]
      omega
  | case5 arg rest out positional hlt harg hfull ih =>
      rw [(parse_positional rest (Bool.eq_false_iff.mpr harg)).1]
      exact ih hroom
  | case6 arg rest out positional hlt harg hfull ih =>
      rw [(parse_positional rest (Bool.eq_false_iff.mpr harg)).1]
      exact ih hroom
  | case7 arg rest out positional hfull => exact absurd hroom hfull

/-- The tokens the loop can still see. -/
def ahead (max : Int) (argv out : List Bytes) : List Bytes :=
  argv.take (max - out.length).toNat

theorem ahead_cons {arg : Bytes} {rest out : List Bytes} (hlt : (out.length : Int) < max) :
    ahead max (arg :: rest) out = arg :: ahead max rest (out ++ [arg]) := by
  have hsucc : (max - out.length).toNat = (max - (out ++ [arg]).length).toNat + 1 := by
    simp only [List.length_append, List.length_cons, List.length_nil]
    omega
  rw [ahead, hsucc, List.take_succ_cons, ahead]

theorem ahead_full {argv out : List Bytes} (hfull : ¬ (out.length : Int) < max) :
    ahead max argv out = [] := by
  have hzero : (max - out.length).toNat = 0 := by omega
  rw [ahead, hzero, List.take_zero]

/-- After an option whose value does not fit, nothing more is seen. -/
theorem positionals_ahead_next {arg value : Bytes} {later out : List Bytes}
    (hlt : (out.length : Int) < max) (harg : isOption arg = true)
    (hvalue : ¬ (takesValue arg = true ∧ ((out ++ [arg]).length : Int) < max)) :
    positionals (ahead max (arg :: value :: later) out) =
      positionals (ahead max (value :: later) (out ++ [arg])) := by
  rw [ahead_cons hlt]
  by_cases hroom : ((out ++ [arg]).length : Int) < max
  · have hflag : takesValue arg = false := Bool.eq_false_iff.mpr fun hval => hvalue ⟨hval, hroom⟩
    exact (parse_flag _ harg hflag).2
  · rw [ahead_full hroom, (parse_last harg).2]
    rfl

theorem positionals_ahead_valued {arg value : Bytes} {later out : List Bytes}
    (hlt : (out.length : Int) < max) (harg : isOption arg = true)
    (hvalue : takesValue arg = true ∧ ((out ++ [arg]).length : Int) < max) :
    positionals (ahead max (arg :: value :: later) out) =
      positionals (ahead max later (out ++ [arg] ++ [value])) := by
  rw [ahead_cons hlt, ahead_cons hvalue.2]
  exact (parse_valued _ _ harg hvalue.1).2

/-- A positional among the tokens the loop can see is kept. -/
theorem reorderLoop_keeps_positional (argv out positional : List Bytes)
    (hsome : positionals (ahead max argv out) ≠ []) :
    (reorderLoop max argv out positional).2 ≠ [] := by
  fun_induction reorderLoop max argv out positional with
  | case1 out positional => simp [ahead, positionals, parseArgs] at hsome
  | case2 arg out positional hlt harg =>
      have hnil : ahead max [] (out ++ [arg]) = [] := List.take_nil
      rw [ahead_cons hlt, hnil, (parse_last harg).2] at hsome
      exact absurd rfl hsome
  | case3 arg out positional hlt harg value later hvalue ih =>
      rw [positionals_ahead_valued hlt harg hvalue] at hsome
      exact ih hsome
  | case4 arg out positional hlt harg value later hvalue ih =>
      rw [positionals_ahead_next hlt harg hvalue] at hsome
      exact ih hsome
  | case5 arg rest out positional hlt harg hfull ih =>
      have hgrows := (reorderLoop_grows max rest out (positional ++ [arg])).2
      apply List.ne_nil_of_length_pos
      rw [List.length_append, List.length_cons] at hgrows
      omega
  | case6 arg rest out positional hlt harg hfull ih =>
      have hgrows := (reorderLoop_grows max rest out positional).2
      have height : positionalMax = 8 := rfl
      apply List.ne_nil_of_length_pos
      omega
  | case7 arg rest out positional hfull =>
      rw [ahead_full hfull] at hsome
      exact absurd rfl hsome

/-- With none among them, the loop fills `out`. -/
theorem reorderLoop_fills (argv out positional : List Bytes)
    (hnone : positionals (ahead max argv out) = []) (hlong : max ≤ out.length + argv.length)
    (hout : (out.length : Int) ≤ max) :
    ((reorderLoop max argv out positional).1.length : Int) = max ∧
      (reorderLoop max argv out positional).2 = positional := by
  fun_induction reorderLoop max argv out positional with
  | case1 out positional =>
      rw [List.length_nil] at hlong
      exact ⟨le_antisymm hout (by simpa using hlong), rfl⟩
  | case2 arg out positional hlt harg =>
      refine ⟨?_, rfl⟩
      simp only [List.length_cons, List.length_nil, List.length_append] at hlong ⊢
      omega
  | case3 arg out positional hlt harg value later hvalue ih =>
      rw [positionals_ahead_valued hlt harg hvalue] at hnone
      simp only [List.length_cons, List.length_append, List.length_nil] at hlong hvalue ih
      exact ih hnone (by omega) (by omega)
  | case4 arg out positional hlt harg value later hvalue ih =>
      rw [positionals_ahead_next hlt harg hvalue] at hnone
      simp only [List.length_cons, List.length_append, List.length_nil] at hlong ih
      exact ih hnone (by omega) (by omega)
  | case5 arg rest out positional hlt harg hfull ih =>
      rw [ahead_cons hlt, (parse_positional _ (Bool.eq_false_iff.mpr harg)).2] at hnone
      cases hnone
  | case6 arg rest out positional hlt harg hfull ih =>
      rw [ahead_cons hlt, (parse_positional _ (Bool.eq_false_iff.mpr harg)).2] at hnone
      cases hnone
  | case7 arg rest out positional hfull => exact ⟨le_antisymm hout (not_lt.mp hfull), rfl⟩

end Loop

/-! ### What the commands need of it -/

/-- All of the arguments, the options with their values first and the positionals
after them, each in their order; and behind an option that has lost its value
comes nothing that could be taken for it. -/
structure Faithful (argv out : List Bytes) : Prop where
  perm : out.Perm argv
  order : out = optionTokens argv ++ positionals argv
  bare : ∀ option, Arg.bare option ∈ parseArgs argv → out.getLast? = some option

/-- No more than `max` entries are counted and all of them are written; when the
arguments fit, they are all there. -/
structure Reorders (argv : List Bytes) (max : Int) (r : Reordered) : Prop where
  count_le : (r.count : Int) ≤ max
  written : r.count ≤ r.out.length
  faithful : (argv.length : Int) ≤ max → Faithful argv (r.out.take r.count)

/-- Arguments that fit have at most eight positionals, and none if the last of
them is an option that has lost its value; arguments that do not fit leave room for
the positionals that are kept, or have none in reach. -/
def FitsReorder (argv : List Bytes) (max : Int) : Prop :=
  0 ≤ max ∧
  ((argv.length : Int) ≤ max →
    (positionals argv).length ≤ positionalMax ∧ (EndsBare argv → positionals argv = [])) ∧
  (max < argv.length →
    ((optionTokens argv).length + min (positionals argv).length positionalMax : Int) ≤ max ∨
    positionals (argv.take max.toNat) = [])

section Reordering

variable {argv : List Bytes} {max : Int}

theorem length_tokens (argv : List Bytes) :
    (optionTokens argv).length + (positionals argv).length = argv.length := by
  have hlen := (parse_perm argv).length_eq
  rwa [List.length_append] at hlen

theorem mem_positionals {text : Bytes} (h : text ∈ positionals argv) : isOption text = false := by
  fun_induction parseArgs argv with
  | case1 => cases h
  | case2 arg harg hvalue =>
      rw [(parse_last harg).2] at h
      cases h
  | case3 arg harg hvalue value later ih =>
      rw [(parse_valued value later harg hvalue).2] at h
      exact ih h
  | case4 arg rest harg hvalue ih =>
      rw [(parse_flag rest harg (by simpa using hvalue)).2] at h
      exact ih h
  | case5 arg rest harg ih =>
      have hfalse := Bool.eq_false_iff.mpr harg
      rw [(parse_positional rest hfalse).2] at h
      rcases List.mem_cons.mp h with rfl | hlater
      · exact hfalse
      · exact ih hlater

/-- An option without its value is the last of the options. -/
theorem optionTokens_of_bare {option : Bytes} (h : Arg.bare option ∈ parseArgs argv) :
    isOption option = true ∧ (optionTokens argv).getLast? = some option := by
  fun_induction parseArgs argv with
  | case1 => cases h
  | case2 arg harg hvalue =>
      have heq : option = arg := by simpa using h
      rw [heq, (parse_last harg).1]
      exact ⟨harg, rfl⟩
  | case3 arg harg hvalue value later ih =>
      obtain ⟨hoption, hlast⟩ := ih (by simpa using h)
      rw [(parse_valued value later harg hvalue).1, List.getLast?_cons_cons, List.getLast?_cons,
        hlast]
      exact ⟨hoption, rfl⟩
  | case4 arg rest harg hvalue ih =>
      obtain ⟨hoption, hlast⟩ := ih (by simpa using h)
      rw [(parse_flag rest harg (by simpa using hvalue)).1, List.getLast?_cons, hlast]
      exact ⟨hoption, rfl⟩
  | case5 arg rest harg ih =>
      obtain ⟨hoption, hlast⟩ := ih (by simpa using h)
      rw [(parse_positional rest (Bool.eq_false_iff.mpr harg)).1]
      exact ⟨hoption, hlast⟩

/-- Whatever is behind the options, it is not taken for the value of one only if
it is nothing. -/
theorem bare_last_iff :
    (∀ option, Arg.bare option ∈ parseArgs argv →
      (optionTokens argv ++ positionals argv).getLast? = some option) ↔
    (EndsBare argv → positionals argv = []) := by
  constructor
  · rintro hlast ⟨option, hbare⟩
    by_contra hne
    have hend := hlast option hbare
    rw [List.getLast?_append_of_ne_nil _ hne] at hend
    have hfalse := mem_positionals (List.mem_of_getLast? hend)
    rw [(optionTokens_of_bare hbare).1] at hfalse
    cases hfalse
  · intro hnone option hbare
    rw [hnone ⟨option, hbare⟩, List.append_nil]
    exact (optionTokens_of_bare hbare).2

theorem satdeployReorderArgv_fits (hfits : (argv.length : Int) ≤ max) :
    satdeployReorderArgv argv max =
      ⟨optionTokens argv ++ (positionals argv).take positionalMax,
        (optionTokens argv ++ (positionals argv).take positionalMax).length⟩ := by
  have hloop : reorderLoop max argv [] [] =
      ([] ++ optionTokens argv, ([] ++ positionals argv).take positionalMax) :=
    reorderLoop_full argv [] [] (Or.inr (by simpa using hfits)) (Nat.zero_le _)
  have hlen := length_tokens argv
  rw [List.nil_append, List.nil_append] at hloop
  have htake : ((positionals argv).take positionalMax).length ≤
      (max - (optionTokens argv).length).toNat := by
    have hle : ((positionals argv).take positionalMax).length ≤ (positionals argv).length :=
      List.length_take_le' _ _
    omega
  simp only [satdeployReorderArgv, hloop, List.take_of_length_le htake, List.length_append]

theorem faithful_iff :
    Faithful argv (optionTokens argv ++ (positionals argv).take positionalMax) ↔
      (positionals argv).length ≤ positionalMax ∧ (EndsBare argv → positionals argv = []) := by
  constructor
  · intro h
    have hall : (positionals argv).take positionalMax = positionals argv :=
      List.append_cancel_left h.order
    have hbare := h.bare
    rw [hall] at hbare
    exact ⟨List.take_eq_self_iff _ |>.mp hall, bare_last_iff.mp hbare⟩
  · rintro ⟨height, hbare⟩
    rw [List.take_of_length_le height]
    exact ⟨parse_perm argv, rfl, bare_last_iff.mpr hbare⟩

/-- What is counted is written as long as it fits. -/
theorem written_of_count_le (h : ((satdeployReorderArgv argv max).count : Int) ≤ max) :
    (satdeployReorderArgv argv max).count ≤ (satdeployReorderArgv argv max).out.length := by
  simp only [satdeployReorderArgv, List.length_append, List.length_take] at h ⊢
  omega

/-- The count when there are more arguments than entries. -/
theorem count_le_iff (hmax : 0 ≤ max) (hlong : max < argv.length) :
    ((satdeployReorderArgv argv max).count : Int) ≤ max ↔
      ((optionTokens argv).length + min (positionals argv).length positionalMax : Int) ≤ max ∨
      positionals (argv.take max.toNat) = [] := by
  have hlen := length_tokens argv
  have height : positionalMax = 8 := rfl
  have hfull (hroom : ((optionTokens argv).length : Int) < max) :
      reorderLoop max argv [] [] =
        ([] ++ optionTokens argv, ([] ++ positionals argv).take positionalMax) :=
    reorderLoop_full argv [] [] (Or.inl (by simpa using hroom)) (Nat.zero_le _)
  have hahead : ahead max argv [] = argv.take max.toNat := by simp [ahead]
  have hle : ((reorderLoop max argv [] []).1.length : Int) ≤ max :=
    reorderLoop_le argv [] [] (by simpa using hmax)
  constructor
  · intro hcount
    by_cases hroom : ((reorderLoop max argv [] []).1.length : Int) < max
    · left
      have hopts := optionTokens_lt_of_room argv [] [] hroom
      simp only [List.length_nil, Int.natCast_zero, Int.zero_add] at hopts
      simp only [satdeployReorderArgv, hfull hopts, List.nil_append, List.length_take] at hcount
      omega
    · right
      by_contra hsome
      rw [← hahead] at hsome
      have hpos := List.length_pos_of_ne_nil (reorderLoop_keeps_positional argv [] [] hsome)
      simp only [satdeployReorderArgv] at hcount
      omega
  · rintro (hroom | hnone)
    · have hopts : ((optionTokens argv).length : Int) < max := by omega
      simp only [satdeployReorderArgv, hfull hopts, List.nil_append, List.length_take]
      omega
    · rw [← hahead] at hnone
      obtain ⟨hfills, hkept⟩ := reorderLoop_fills argv [] [] hnone (by simp; omega)
        (by simpa using hmax)
      simp only [satdeployReorderArgv, hkept, List.length_nil]
      omega

/-- The arguments come out right exactly under `FitsReorder`. -/
theorem reorders_iff (argv : List Bytes) (max : Int) :
    Reorders argv max (satdeployReorderArgv argv max) ↔ FitsReorder argv max := by
  constructor
  · intro h
    refine ⟨le_trans (Int.natCast_nonneg _) h.count_le, fun hfits => ?_, fun hlong => ?_⟩
    · have hfaithful := h.faithful hfits
      rw [satdeployReorderArgv_fits hfits, List.take_length] at hfaithful
      exact faithful_iff.mp hfaithful
    · have hmax : 0 ≤ max := le_trans (Int.natCast_nonneg _) h.count_le
      exact (count_le_iff hmax hlong).mp h.count_le
  · rintro ⟨hmax, hfits, hlong⟩
    by_cases hle : (argv.length : Int) ≤ max
    · have hcount : ((satdeployReorderArgv argv max).count : Int) ≤ max := by
        have hlen := length_tokens argv
        rw [satdeployReorderArgv_fits hle]
        simp only [List.length_append, List.length_take]
        omega
      refine ⟨hcount, written_of_count_le hcount, fun _ => ?_⟩
      rw [satdeployReorderArgv_fits hle, List.take_length]
      exact faithful_iff.mpr (hfits hle)
    · have hcount := (count_le_iff hmax (not_le.mp hle)).mpr (hlong (not_le.mp hle))
      exact ⟨hcount, written_of_count_le hcount, fun hfit => absurd hfit hle⟩

/-- An option that has lost its value takes the app name for it; of nine positionals
the last is dropped; and of 32 flags behind a positional 33 are counted, one more
than there are entries. -/
theorem reorder_goes_wrong :
    ¬ Reorders [ascii "hello", ascii "-n"] 32
      (satdeployReorderArgv [ascii "hello", ascii "-n"] 32) ∧
    ¬ Reorders (List.replicate 9 (ascii "a")) 32
      (satdeployReorderArgv (List.replicate 9 (ascii "a")) 32) ∧
    ¬ Reorders (ascii "a" :: List.replicate 32 (ascii "-F")) 32
      (satdeployReorderArgv (ascii "a" :: List.replicate 32 (ascii "-F")) 32) := by
  refine ⟨fun h => ?_, fun h => ?_, fun h => ?_⟩
  · have hlast := (h.faithful (by decide)).bare (ascii "-n") (by decide)
    exact absurd hlast (by decide)
  · have hlen := (h.faithful (by decide)).perm.length_eq
    exact absurd hlen (by decide)
  · exact absurd h.count_le (by decide)

end Reordering

end SatDeploy.Ground
