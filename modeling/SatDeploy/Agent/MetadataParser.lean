import SatDeploy.Agent.MetadataStore
import SatDeploy.Lib.Loop

/-!
The parser of `load_metadata` with every access to the text checked. A position
is what is left of the text before the terminating NUL; going beyond the NUL and
reading through the null pointer are traps, and the loops are the loops of the
source, without a bound on their rounds. The parser never leaves the text, and
it reads through the null pointer exactly when a field of an entry is not
quoted: the field loop then leaves with the null pointer, and the entry loop
looks for a closing brace there.
-/

namespace SatDeploy.Agent

open Lib

inductive Trap where
  | null
  | pastEnd
  deriving DecidableEq, Repr

section Checked

/-- `p++`. -/
def advance : Bytes → Except Trap Bytes
  | [] => .error .pastEnd
  | _ :: rest => .ok rest

def skipWsRound (p : Bytes) : Except Trap (Bytes ⊕ Bytes) := do
  if peek p ≠ 0 ∧ jsonSpace (peek p) then return .inl (← advance p)
  else return .inr p

/-- One round of the loop of `parse_string` for a buffer of `size` bytes; what is
stored so far counts as `i`. -/
def stringRound (size : Nat) : Bytes × Bytes → Except Trap (Bytes × Bytes ⊕ Bytes × Bytes)
  | (p, out) => do
      if peek p ≠ 0 ∧ peek p ≠ '"'.toUInt8 ∧ out.length < size - 1 then
        let p ← if peek p = '\\'.toUInt8 then do
            let q ← advance p
            pure (if peek q ≠ 0 then q else p)
          else pure p
        return .inl (← advance p, out ++ [peek p])
      else return .inr (p, out)

theorem ne_nil_of_peek {p : Bytes} (h : peek p ≠ 0) : ∃ rest, p = peek p :: rest := by
  cases p with
  | nil => exact absurd rfl h
  | cons c rest => exact ⟨rest, rfl⟩

theorem advance_of_peek {p : Bytes} {c : UInt8} (hc : c ≠ 0) (hp : peek p = c) :
    advance p = .ok (p.drop 1) := by
  obtain ⟨rest, hrest⟩ := ne_nil_of_peek (hp ▸ hc)
  rw [hrest]
  rfl

theorem skipWsRound_shrinks (p p' : Bytes) (h : skipWsRound p = .ok (.inl p')) :
    p'.length < p.length := by
  cases p with
  | nil => simp [skipWsRound] at h
  | cons c p =>
      have hp : p = p' := by
        simp only [skipWsRound, advance] at h
        split at h
        · simpa using h
        · cases h
      simp [hp]

def skipWsAt : Bytes → Except Trap Bytes := loop skipWsRound List.length skipWsRound_shrinks

theorem skipWsAt_eq (p : Bytes) : skipWsAt p = .ok (skipWs p) := by
  induction p with
  | nil => exact loop_leave rfl
  | cons c p ih =>
      by_cases hc : jsonSpace c = true
      · have hzero : c ≠ 0 := by
          rintro rfl
          revert hc
          decide
        have hround : skipWsRound (c :: p) = .ok (.inl p) := by
          simp [skipWsRound, advance, hc, hzero]
        have hskip : skipWs (c :: p) = skipWs p := by simp [skipWs, hc]
        rw [hskip, ← ih]
        exact loop_next hround
      · have hround : skipWsRound (c :: p) = .ok (.inr (c :: p)) := by simp [skipWsRound, hc]
        rw [skipWs_cons (by simpa using hc)]
        exact loop_leave hround

/-- Inside a string a round stores one byte and goes on behind it. -/
theorem stringRound_inside {size : Nat} {c : UInt8} {p out : Bytes} (hzero : c ≠ 0)
    (hquote : c ≠ '"'.toUInt8) (hroom : out.length < size - 1) :
    stringRound size (c :: p, out) = .ok (.inl
      (if c = '\\'.toUInt8 ∧ peek p ≠ 0 then (p.drop 1, out ++ [peek p])
        else (p, out ++ [c]))) := by
  have hmarks : ¬ '\\'.toUInt8 = 0 ∧ ¬ '\\'.toUInt8 = '"'.toUInt8 := by decide
  by_cases hslash : c = '\\'.toUInt8
  · cases p with
    | nil => simp [stringRound, advance, hslash, hroom, hmarks]
    | cons d p =>
        by_cases hd : d = 0
        · simp [stringRound, advance, hslash, hroom, hmarks, hd]
        · simp [stringRound, advance, hslash, hroom, hmarks, hd]
  · simp [stringRound, advance, hslash, hroom, hzero, hquote]

theorem stringRound_outside {size : Nat} {p out : Bytes}
    (h : ¬ (peek p ≠ 0 ∧ peek p ≠ '"'.toUInt8 ∧ out.length < size - 1)) :
    stringRound size (p, out) = .ok (.inr (p, out)) := by
  simp only [stringRound, if_neg h, except_pure]

theorem stringRound_shrinks (size : Nat) (s s' : Bytes × Bytes)
    (h : stringRound size s = .ok (.inl s')) : s'.1.length < s.1.length := by
  obtain ⟨p, out⟩ := s
  by_cases hin : peek p ≠ 0 ∧ peek p ≠ '"'.toUInt8 ∧ out.length < size - 1
  · obtain ⟨hzero, hquote, hroom⟩ := hin
    obtain ⟨rest, hp⟩ := ne_nil_of_peek hzero
    rw [hp] at h
    rw [stringRound_inside hzero hquote hroom] at h
    rw [hp, ← Sum.inl.inj (Except.ok.inj h)]
    split
    · simp
    · simp
  · rw [stringRound_outside hin] at h
    cases h

def stringLoop (size : Nat) : Bytes × Bytes → Except Trap (Bytes × Bytes) :=
  loop (stringRound size) (fun s => s.1.length) (stringRound_shrinks size)

theorem stringLoop_eq (size : Nat) (room : Nat) : ∀ p out : Bytes,
    room = size - 1 - out.length →
    stringLoop size (p, out) = .ok ((stringBody room p).2, out ++ (stringBody room p).1) := by
  induction room with
  | zero =>
      intro p out hroom
      have hfull : ¬ (peek p ≠ 0 ∧ peek p ≠ '"'.toUInt8 ∧ out.length < size - 1) := by
        rintro ⟨-, -, hlt⟩
        omega
      simp only [stringBody, List.append_nil]
      exact loop_leave (stringRound_outside hfull)
  | succ room ih =>
      intro p out hroom
      have hlater : ∀ d, room = size - 1 - (out ++ [d]).length := by
        intro d
        rw [List.length_append, List.length_singleton]
        omega
      cases p with
      | nil =>
          have hend : stringRound size ([], out) = .ok (.inr ([], out)) :=
            stringRound_outside (by simp)
          simp only [stringBody, List.append_nil]
          exact loop_leave hend
      | cons c rest =>
          by_cases hstop : c = 0 ∨ c = '"'.toUInt8
          · have hend : stringRound size (c :: rest, out) = .ok (.inr (c :: rest, out)) := by
              refine stringRound_outside fun h => ?_
              exact hstop.elim h.1 h.2.1
            have hbody : stringBody (room + 1) (c :: rest) = ([], c :: rest) := by
              cases rest <;> simp [stringBody, hstop]
            rw [hbody, List.append_nil]
            exact loop_leave hend
          · have hzero : c ≠ 0 := fun h => hstop (Or.inl h)
            have hquote : c ≠ '"'.toUInt8 := fun h => hstop (Or.inr h)
            have hround := stringRound_inside (p := rest) hzero hquote
              (show out.length < size - 1 by omega)
            rw [stringLoop, loop_next hround, ← stringLoop]
            cases rest with
            | nil =>
                have hempty : stringBody room [] = ([], []) := by cases room <;> rfl
                have hplain : ¬ (c = '\\'.toUInt8 ∧ peek [] ≠ 0) := by simp
                rw [if_neg hplain, ih _ _ (hlater c), hempty]
                simp [stringBody, hstop]
            | cons d rest =>
                rw [peek_cons, stringBody, if_neg hstop]
                split
                · rw [ih _ _ (hlater d)]
                  simp
                · rw [ih _ _ (hlater c)]
                  simp

/-- `parse_string`; `none` is the null pointer. -/
def parseStringAt (p : Bytes) (outSize : Nat) : Except Trap (Option (Bytes × Bytes)) := do
  let p ← skipWsAt p
  if peek p ≠ '"'.toUInt8 then return none
  else
    let p ← advance p
    let (p, out) ← stringLoop outSize (p, [])
    if peek p = '"'.toUInt8 then return some (out, ← advance p)
    else return some (out, p)

theorem parseStringAt_eq (p : Bytes) (outSize : Nat) :
    parseStringAt p outSize = .ok (parseString p outSize) := by
  unfold parseStringAt parseString
  rw [skipWsAt_eq, except_ok_bind]
  dsimp only
  by_cases hopen : peek (skipWs p) = '"'.toUInt8
  · have hnot : ¬ peek (skipWs p) ≠ '"'.toUInt8 := by simp [hopen]
    obtain ⟨rest, hrest⟩ : ∃ rest, skipWs p = peek (skipWs p) :: rest :=
      ne_nil_of_peek (by rw [hopen]; decide)
    rw [if_neg hnot, if_neg hnot, hrest, advance, except_ok_bind,
      stringLoop_eq outSize (outSize - 1) rest [] rfl, except_ok_bind, List.drop_one,
      List.tail_cons, List.nil_append]
    split
    next hclose =>
      obtain ⟨after, hafter⟩ : ∃ after, (stringBody (outSize - 1) rest).2 = _ :: after :=
        ne_nil_of_peek (by rw [hclose]; decide)
      rw [hafter]
      simp [advance]
    next => rfl
  · rw [if_pos hopen, if_pos hopen, except_pure]

/-- One round of the field loop. -/
def fieldRound : Bytes × AppEntry → Except Trap (Bytes × AppEntry ⊕ AppEntry × Option Bytes)
  | (p, entry) => do
      if peek p = 0 ∨ peek p = '\x7d'.toUInt8 then return .inr (entry, some p)
      else
        let p ← skipWsAt p
        if peek p = ','.toUInt8 then return .inl (← advance p, entry)
        else if peek p = '\x7d'.toUInt8 then return .inr (entry, some p)
        else
          match ← parseStringAt p 64 with
          | none => return .inr (entry, none)
          | some (key, p) =>
              let p ← skipWsAt p
              if peek p ≠ ':'.toUInt8 then return .inr (entry, some p)
              else
                match ← parseStringAt (← advance p) maxPathLen with
                | none => return .inr (entry, none)
                | some (value, p) => return .inl (p, entry.setField key value)

/-- The field loop stays inside the text: its rounds with the checks gone. -/
theorem fieldRound_eq (p : Bytes) (entry : AppEntry) :
    fieldRound (p, entry) = .ok (
      if peek p = 0 ∨ peek p = '\x7d'.toUInt8 then .inr (entry, some p)
      else if peek (skipWs p) = ','.toUInt8 then .inl ((skipWs p).drop 1, entry)
      else if peek (skipWs p) = '\x7d'.toUInt8 then .inr (entry, some (skipWs p))
      else
        match parseString (skipWs p) 64 with
        | none => .inr (entry, none)
        | some (key, q) =>
            if peek (skipWs q) ≠ ':'.toUInt8 then .inr (entry, some (skipWs q))
            else
              match parseString ((skipWs q).drop 1) maxPathLen with
              | none => .inr (entry, none)
              | some (value, r) => .inl (r, entry.setField key value)) := by
  unfold fieldRound
  simp only [skipWsAt_eq, parseStringAt_eq, except_ok_bind, except_pure]
  split
  · rfl
  split
  next hcomma => rw [advance_of_peek (by decide) hcomma, except_ok_bind]
  split
  · rfl
  cases parseString (skipWs p) 64 with
  | none => rfl
  | some found =>
      dsimp only
      split
      · rfl
      next hcolon =>
        rw [advance_of_peek (by decide) (not_not.mp hcolon), except_ok_bind]
        cases parseString ((skipWs found.2).drop 1) maxPathLen <;> rfl

theorem length_stringBody (room : Nat) : ∀ p : Bytes,
    (stringBody room p).1.length ≤ room ∧ (stringBody room p).2.length ≤ p.length := by
  induction room with
  | zero =>
      intro p
      simp [stringBody]
  | succ room ih =>
      intro p
      cases p with
      | nil => simp [stringBody]
      | cons c rest =>
          cases rest with
          | nil => by_cases hstop : c = 0 ∨ c = '"'.toUInt8 <;> simp [stringBody, hstop]
          | cons d rest =>
              have hshort := ih rest
              have hlong := ih (d :: rest)
              rw [stringBody]
              split
              · simp
              · split <;> simp only [List.length_cons] at * <;> omega

theorem skipWs_suffix (p : Bytes) : skipWs p <:+ p := List.dropWhile_suffix _

/-- A string is cut to its buffer, and reading it takes at least its quote. -/
theorem parseString_bounds {p out rest : Bytes} {size : Nat}
    (h : parseString p size = some (out, rest)) :
    out.length ≤ size - 1 ∧ rest.length < p.length := by
  unfold parseString at h
  dsimp only at h
  split at h
  · cases h
  next hopen =>
    obtain ⟨body, hbody⟩ : ∃ body, skipWs p = peek (skipWs p) :: body :=
      ne_nil_of_peek (by rw [not_not.mp hopen]; decide)
    obtain ⟨hout, hrest⟩ := length_stringBody (size - 1) body
    have hlen := (skipWs_suffix p).length_le
    rw [hbody] at h hlen
    simp only [List.drop_one, List.tail_cons, List.length_cons] at h hlen
    obtain ⟨rfl, rfl⟩ := Prod.mk.inj (Option.some.inj h)
    refine ⟨hout, ?_⟩
    split
    · rw [List.length_tail]
      omega
    · omega

/-- What a round of the field loop can do. -/
inductive FieldCase (p : Bytes) (entry : AppEntry) :
    Bytes × AppEntry ⊕ AppEntry × Option Bytes → Prop where
  | stop (h : peek p = 0 ∨ peek p = '\x7d'.toUInt8) : FieldCase p entry (.inr (entry, some p))
  | comma (hin : ¬ (peek p = 0 ∨ peek p = '\x7d'.toUInt8)) (h : peek (skipWs p) = ','.toUInt8) :
      FieldCase p entry (.inl ((skipWs p).drop 1, entry))
  | close (hin : ¬ (peek p = 0 ∨ peek p = '\x7d'.toUInt8))
      (h : peek (skipWs p) = '\x7d'.toUInt8) : FieldCase p entry (.inr (entry, some (skipWs p)))
  | unquoted (hin : ¬ (peek p = 0 ∨ peek p = '\x7d'.toUInt8)) :
      FieldCase p entry (.inr (entry, none))
  | noColon {key q : Bytes} (hin : ¬ (peek p = 0 ∨ peek p = '\x7d'.toUInt8))
      (hkey : parseString (skipWs p) 64 = some (key, q)) (h : peek (skipWs q) ≠ ':'.toUInt8) :
      FieldCase p entry (.inr (entry, some (skipWs q)))
  | field {key q value r : Bytes} (hin : ¬ (peek p = 0 ∨ peek p = '\x7d'.toUInt8))
      (hkey : parseString (skipWs p) 64 = some (key, q)) (h : peek (skipWs q) = ':'.toUInt8)
      (hvalue : parseString ((skipWs q).drop 1) maxPathLen = some (value, r)) :
      FieldCase p entry (.inl (r, entry.setField key value))

theorem fieldRound_case {p : Bytes} {entry : AppEntry}
    {round : Bytes × AppEntry ⊕ AppEntry × Option Bytes}
    (h : fieldRound (p, entry) = .ok round) : FieldCase p entry round := by
  rw [fieldRound_eq] at h
  rw [← Except.ok.inj h]
  split
  next hstop => exact .stop hstop
  next hin =>
  split
  next hcomma => exact .comma hin hcomma
  split
  next hclose => exact .close hin hclose
  split
  · exact .unquoted hin
  next key q hkey =>
  split
  next hcolon => exact .noColon hin hkey hcolon
  next hcolon =>
  split
  · exact .unquoted hin
  next value r hvalue => exact .field hin hkey (not_not.mp hcolon) hvalue

theorem fieldRound_shrinks (s s' : Bytes × AppEntry) (h : fieldRound s = .ok (.inl s')) :
    s'.1.length < s.1.length := by
  obtain ⟨p, entry⟩ := s
  have hlen := (skipWs_suffix p).length_le
  cases fieldRound_case h with
  | comma hin hcomma =>
      obtain ⟨rest, hrest⟩ : ∃ rest, skipWs p = peek (skipWs p) :: rest :=
        ne_nil_of_peek (by rw [hcomma]; decide)
      rw [hrest] at hlen ⊢
      simp at hlen ⊢
      omega
  | @field key q value r hin hkey hcolon hvalue =>
      have hq := (parseString_bounds hkey).2
      have hr := (parseString_bounds hvalue).2
      have hskip := (skipWs_suffix q).length_le
      rw [List.length_drop] at hr
      show r.length < p.length
      omega

/-- The field loop: the entry and the position where it stops, the null pointer
included. -/
def fieldsLoop : Bytes × AppEntry → Except Trap (AppEntry × Option Bytes) :=
  loop fieldRound (fun s => s.1.length) fieldRound_shrinks

theorem parseFields_loop (fuel : Nat) : ∀ (p : Bytes) (entry : AppEntry), p.length < fuel →
    fieldsLoop (p, entry) = .ok (parseFields fuel p entry) := by
  induction fuel with
  | zero =>
      intro p entry hfuel
      omega
  | succ fuel ih =>
      intro p entry hfuel
      have hround := fieldRound_eq p entry
      rw [parseFields]
      split
      next hstop =>
        rw [if_pos hstop] at hround
        exact loop_leave hround
      next hstop =>
        rw [if_neg hstop] at hround
        dsimp only
        split
        next hcomma =>
          rw [if_pos hcomma] at hround
          have hless := fieldRound_shrinks _ _ hround
          rw [← ih _ _ (by dsimp only at hless; omega)]
          exact loop_next hround
        next hcomma =>
          rw [if_neg hcomma] at hround
          split
          next hclose =>
            rw [if_pos hclose] at hround
            exact loop_leave hround
          next hclose =>
            rw [if_neg hclose] at hround
            cases hkey : parseString (skipWs p) 64 with
            | none =>
                rw [hkey] at hround
                exact loop_leave hround
            | some found =>
                rw [hkey] at hround
                dsimp only at hround ⊢
                split
                next hcolon =>
                  rw [if_pos hcolon] at hround
                  exact loop_leave hround
                next hcolon =>
                  rw [if_neg hcolon] at hround
                  cases hvalue : parseString ((skipWs found.2).drop 1) maxPathLen with
                  | none =>
                      rw [hvalue] at hround
                      exact loop_leave hround
                  | some read =>
                      rw [hvalue] at hround
                      have hless := fieldRound_shrinks _ _ hround
                      rw [← ih _ _ (by dsimp only at hless ⊢; omega)]
                      exact loop_next hround

end Checked

/-! ### Which texts are read -/

/-- The fields from `p` on have quoted keys and quoted values, and the field loop
stops at `q`: at the end of the text, at a brace, or at a key without its colon. -/
inductive FieldsTo : Bytes → Bytes → Prop where
  | stop {p : Bytes} (h : peek p = 0 ∨ peek p = '\x7d'.toUInt8) : FieldsTo p p
  | close {p : Bytes} (hin : ¬ (peek p = 0 ∨ peek p = '\x7d'.toUInt8))
      (h : peek (skipWs p) = '\x7d'.toUInt8) : FieldsTo p (skipWs p)
  | comma {p q : Bytes} (hin : ¬ (peek p = 0 ∨ peek p = '\x7d'.toUInt8))
      (h : peek (skipWs p) = ','.toUInt8) (hlater : FieldsTo ((skipWs p).drop 1) q) : FieldsTo p q
  | noColon {p key q : Bytes} (hin : ¬ (peek p = 0 ∨ peek p = '\x7d'.toUInt8))
      (hkey : parseString (skipWs p) 64 = some (key, q)) (h : peek (skipWs q) ≠ ':'.toUInt8) :
      FieldsTo p (skipWs q)
  | field {p key q value r t : Bytes} (hin : ¬ (peek p = 0 ∨ peek p = '\x7d'.toUInt8))
      (hkey : parseString (skipWs p) 64 = some (key, q)) (h : peek (skipWs q) = ':'.toUInt8)
      (hvalue : parseString ((skipWs q).drop 1) maxPathLen = some (value, r))
      (hlater : FieldsTo r t) : FieldsTo p t

section Fields

variable {p q : Bytes} {entry entry' : AppEntry}

/-- A string begins with a quote. -/
theorem peek_of_parseString {size : Nat} {out rest : Bytes}
    (h : parseString p size = some (out, rest)) : peek (skipWs p) = '"'.toUInt8 := by
  unfold parseString at h
  dsimp only at h
  split at h
  · cases h
  next hopen => exact not_not.mp hopen

theorem skipWs_skipWs (p : Bytes) : skipWs (skipWs p) = skipWs p := by
  induction p with
  | nil => rfl
  | cons c p ih =>
      by_cases hc : jsonSpace c = true
      · have hskip : skipWs (c :: p) = skipWs p := by simp [skipWs, hc]
        rw [hskip, ih]
      · have hskip : skipWs (c :: p) = c :: p := skipWs_cons (by simpa using hc)
        rw [hskip, hskip]

/-- Before a key there is neither a comma nor a brace. -/
theorem key_marks {size : Nat} {out rest : Bytes}
    (h : parseString (skipWs p) size = some (out, rest)) :
    ¬ peek (skipWs p) = ','.toUInt8 ∧ ¬ peek (skipWs p) = '\x7d'.toUInt8 := by
  have hquote := peek_of_parseString h
  rw [skipWs_skipWs] at hquote
  rw [hquote]
  decide

/-- The loop leaves with a position exactly where the fields are quoted. -/
theorem FieldsTo.loop (h : FieldsTo p q) (entry : AppEntry) :
    ∃ entry', fieldsLoop (p, entry) = .ok (entry', some q) := by
  induction h generalizing entry with
  | @stop p h =>
      have hround := fieldRound_eq p entry
      rw [if_pos h] at hround
      exact ⟨entry, loop_leave hround⟩
  | @close p hin h =>
      have hround := fieldRound_eq p entry
      have hcomma : ¬ peek (skipWs p) = ','.toUInt8 := by
        rw [h]
        decide
      rw [if_neg hin, if_neg hcomma, if_pos h] at hround
      exact ⟨entry, loop_leave hround⟩
  | @comma p q hin h hlater ih =>
      have hround := fieldRound_eq p entry
      rw [if_neg hin, if_pos h] at hround
      obtain ⟨entry', hloop⟩ := ih entry
      exact ⟨entry', (loop_next hround).trans hloop⟩
  | @noColon p key q hin hkey h =>
      have hround := fieldRound_eq p entry
      rw [if_neg hin, if_neg (key_marks hkey).1, if_neg (key_marks hkey).2, hkey] at hround
      dsimp only at hround
      rw [if_pos h] at hround
      exact ⟨entry, loop_leave hround⟩
  | @field p key q value r t hin hkey h hvalue hlater ih =>
      have hround := fieldRound_eq p entry
      rw [if_neg hin, if_neg (key_marks hkey).1, if_neg (key_marks hkey).2, hkey] at hround
      dsimp only at hround
      rw [if_neg (not_not.mpr h), hvalue] at hround
      obtain ⟨entry', hloop⟩ := ih (entry.setField key value)
      exact ⟨entry', (loop_next hround).trans hloop⟩

theorem fieldsTo_of_loop (h : fieldsLoop (p, entry) = .ok (entry', some q)) : FieldsTo p q := by
  suffices hall : ∀ s : Bytes × AppEntry, ∀ e' q', fieldsLoop s = .ok (e', some q') →
      FieldsTo s.1 q' from hall _ _ _ h
  refine loop_induction (P := fun (s : Bytes × AppEntry) r =>
    ∀ e' q', r = .ok (e', some q') → FieldsTo s.1 q') ?_ ?_ ?_
  · rintro ⟨p, entry⟩ s' r hround hlater e' q' hr
    have hto := hlater e' q' hr
    cases fieldRound_case hround with
    | comma hin hcomma => exact .comma hin hcomma hto
    | field hin hkey hcolon hvalue => exact .field hin hkey hcolon hvalue hto
  · rintro ⟨p, entry⟩ b hround e' q' hr
    rw [Except.ok.inj hr] at hround
    cases fieldRound_case hround with
    | stop h => exact .stop h
    | close hin h => exact .close hin h
    | noColon hin hkey h => exact .noColon hin hkey h
  · intro s e hround e' q' hr
    cases hr

theorem FieldsTo.length_le (h : FieldsTo p q) : q.length ≤ p.length := by
  induction h with
  | stop => exact le_refl _
  | close => exact (skipWs_suffix _).length_le
  | @comma p q hin h hlater ih =>
      have hlen := (skipWs_suffix p).length_le
      rw [List.length_drop] at ih
      omega
  | @noColon p key q hin hkey h =>
      have hlen := (skipWs_suffix p).length_le
      have hq := (parseString_bounds hkey).2
      have hskip := (skipWs_suffix q).length_le
      omega
  | @field p key q value r t hin hkey h hvalue hlater ih =>
      have hlen := (skipWs_suffix p).length_le
      have hq := (parseString_bounds hkey).2
      have hskip := (skipWs_suffix q).length_le
      have hr := (parseString_bounds hvalue).2
      rw [List.length_drop] at hr
      omega

end Fields

/-- `p` begins with a name, a colon and a brace, and `r` is what follows them. -/
def ObjectAt (p appName r : Bytes) : Prop :=
  ∃ q, parseString p maxAppNameLen = some (appName, q) ∧ peek (skipWs q) = ':'.toUInt8 ∧
    peek (skipWs ((skipWs q).drop 1)) = '\x7b'.toUInt8 ∧ r = (skipWs ((skipWs q).drop 1)).drop 1

/-- What follows the fields of an entry. -/
def afterFields (q : Bytes) : Bytes := if peek q = '\x7d'.toUInt8 then q.drop 1 else q

/-- With `n` entries read, every entry that is read from `p` on has quoted
fields. The parser stops at the end of the text, at the 65th entry, and quietly
where no entry begins. -/
inductive EntriesQuoted : Nat → Bytes → Prop where
  | stop {n : Nat} {p : Bytes} (h : peek p = 0 ∨ maxApps ≤ n) : EntriesQuoted n p
  | comma {n : Nat} {p : Bytes} (h : peek (skipWs p) = ','.toUInt8)
      (hlater : EntriesQuoted n ((skipWs p).drop 1)) : EntriesQuoted n p
  | quiet {n : Nat} {p : Bytes} (hcomma : peek (skipWs p) ≠ ','.toUInt8)
      (h : ∀ appName r, ¬ ObjectAt (skipWs p) appName r) : EntriesQuoted n p
  | entry {n : Nat} {p appName r q : Bytes} (h : ObjectAt (skipWs p) appName r)
      (hfields : FieldsTo r q) (hlater : EntriesQuoted (n + 1) (afterFields q)) :
      EntriesQuoted n p

/-- A text whose entries have quoted fields, as far as the parser reads it. -/
def QuotedText (json : Bytes) : Prop :=
  peek (skipWs json) = '\x7b'.toUInt8 → EntriesQuoted 0 ((skipWs json).drop 1)

/-- One round of the entry loop. -/
def entryRound : Bytes × List AppEntry → Except Trap (Bytes × List AppEntry ⊕ List AppEntry)
  | (p, entries) => do
      if peek p = 0 ∨ entries.length ≥ maxApps then return .inr entries
      else
        let p ← skipWsAt p
        if peek p = '\x7d'.toUInt8 then return .inr entries
        else if peek p = ','.toUInt8 then return .inl (← advance p, entries)
        else
          match ← parseStringAt p maxAppNameLen with
          | none => return .inr entries
          | some (appName, p) =>
              let p ← skipWsAt p
              if peek p ≠ ':'.toUInt8 then return .inr entries
              else
                let p ← skipWsAt (← advance p)
                if peek p ≠ '\x7b'.toUInt8 then return .inr entries
                else
                  let (entry, p) ← fieldsLoop (← advance p, ⟨appName, [], [], []⟩)
                  match p with
                  | none => throw .null
                  | some p =>
                      if peek p = '\x7d'.toUInt8 then
                        return .inl (← advance p, entries ++ [entry])
                      else return .inl (p, entries ++ [entry])

section Entries

variable {p q r appName : Bytes} {entries : List AppEntry} {entry : AppEntry}

theorem entryRound_stop (h : peek p = 0 ∨ entries.length ≥ maxApps) :
    entryRound (p, entries) = .ok (.inr entries) := by
  simp only [entryRound, if_pos h, except_pure]

theorem entryRound_comma (hin : ¬ (peek p = 0 ∨ entries.length ≥ maxApps))
    (h : peek (skipWs p) = ','.toUInt8) :
    entryRound (p, entries) = .ok (.inl ((skipWs p).drop 1, entries)) := by
  have hclose : ¬ peek (skipWs p) = '\x7d'.toUInt8 := by
    rw [h]
    decide
  simp only [entryRound, if_neg hin, skipWsAt_eq, except_ok_bind, if_neg hclose, if_pos h,
    advance_of_peek (by decide) h, except_pure]

theorem entryRound_quiet (hin : ¬ (peek p = 0 ∨ entries.length ≥ maxApps))
    (hcomma : peek (skipWs p) ≠ ','.toUInt8) (h : ∀ appName r, ¬ ObjectAt (skipWs p) appName r) :
    entryRound (p, entries) = .ok (.inr entries) := by
  simp only [entryRound, if_neg hin, skipWsAt_eq, parseStringAt_eq, except_ok_bind, if_neg hcomma,
    except_pure]
  split
  · rfl
  split
  · rfl
  next appName q hname =>
  split
  · rfl
  next hcolon =>
  rw [advance_of_peek (by decide) (not_not.mp hcolon), except_ok_bind]
  split
  · rfl
  next hbrace =>
    exact absurd ⟨q, hname, not_not.mp hcolon, not_not.mp hbrace, rfl⟩ (h appName _)

/-- An entry that begins is read with its fields; without a position after them
the process dies. -/
theorem entryRound_entry (hin : ¬ (peek p = 0 ∨ entries.length ≥ maxApps))
    (h : ObjectAt (skipWs p) appName r) {after : Option Bytes}
    (hfields : fieldsLoop (r, ⟨appName, [], [], []⟩) = .ok (entry, after)) :
    entryRound (p, entries) =
      match after with
      | none => .error .null
      | some q => .ok (.inl (afterFields q, entries ++ [entry])) := by
  obtain ⟨q, hname, hcolon, hbrace, rfl⟩ := h
  simp only [entryRound, if_neg hin, skipWsAt_eq, parseStringAt_eq, except_ok_bind,
    if_neg (key_marks hname).1, if_neg (key_marks hname).2, hname, if_neg (not_not.mpr hcolon),
    advance_of_peek (by decide) hcolon, if_neg (not_not.mpr hbrace),
    advance_of_peek (by decide) hbrace, hfields, except_pure]
  cases after with
  | none => rfl
  | some q =>
      dsimp only
      unfold afterFields
      split
      next hclose => rw [advance_of_peek (by decide) hclose, except_ok_bind]
      next => rfl

theorem fieldsLoop_ok (p : Bytes) (entry : AppEntry) :
    ∃ entry' after, fieldsLoop (p, entry) = .ok (entry', after) :=
  ⟨_, _, parseFields_loop _ p entry (Nat.lt_succ_self _)⟩

/-- What a round of the entry loop finds. -/
theorem entry_cases (p : Bytes) (entries : List AppEntry) :
    (peek p = 0 ∨ entries.length ≥ maxApps) ∨
    ¬ (peek p = 0 ∨ entries.length ≥ maxApps) ∧ (peek (skipWs p) = ','.toUInt8 ∨
      peek (skipWs p) ≠ ','.toUInt8 ∧ (∀ appName r, ¬ ObjectAt (skipWs p) appName r) ∨
      ∃ appName r, ObjectAt (skipWs p) appName r) := by
  by_cases hstop : peek p = 0 ∨ entries.length ≥ maxApps
  · exact Or.inl hstop
  refine Or.inr ⟨hstop, ?_⟩
  by_cases hcomma : peek (skipWs p) = ','.toUInt8
  · exact Or.inl hcomma
  by_cases hobject : ∃ appName r, ObjectAt (skipWs p) appName r
  · exact Or.inr (Or.inr hobject)
  · exact Or.inr (Or.inl ⟨hcomma, fun appName r h => hobject ⟨appName, r, h⟩⟩)

theorem ObjectAt.length_lt (h : ObjectAt p appName r) : r.length < p.length := by
  obtain ⟨q, hname, -, -, rfl⟩ := h
  have hq := (parseString_bounds hname).2
  have hskip := (skipWs_suffix q).length_le
  have hskip' := (skipWs_suffix ((skipWs q).drop 1)).length_le
  rw [List.length_drop] at *
  omega

/-- A round that goes on: at a comma, or behind an entry. -/
theorem entryRound_next {s' : Bytes × List AppEntry}
    (h : entryRound (p, entries) = .ok (.inl s')) :
    ¬ (peek p = 0 ∨ entries.length ≥ maxApps) ∧
    (peek (skipWs p) = ','.toUInt8 ∧ s' = ((skipWs p).drop 1, entries) ∨
      ∃ appName r entry q, ObjectAt (skipWs p) appName r ∧
        fieldsLoop (r, ⟨appName, [], [], []⟩) = .ok (entry, some q) ∧ FieldsTo r q ∧
        s' = (afterFields q, entries ++ [entry])) := by
  rcases entry_cases p entries with hstop | ⟨hin, hcomma | ⟨hcomma, hquiet⟩ | ⟨appName, r, hobject⟩⟩
  · rw [entryRound_stop hstop] at h
    cases h
  · rw [entryRound_comma hin hcomma] at h
    exact ⟨hin, Or.inl ⟨hcomma, (Sum.inl.inj (Except.ok.inj h)).symm⟩⟩
  · rw [entryRound_quiet hin hcomma hquiet] at h
    cases h
  · obtain ⟨entry, after, hfields⟩ := fieldsLoop_ok r ⟨appName, [], [], []⟩
    rw [entryRound_entry hin hobject hfields] at h
    cases after with
    | none => cases h
    | some q =>
        exact ⟨hin, Or.inr ⟨appName, r, entry, q, hobject, hfields, fieldsTo_of_loop hfields,
          (Sum.inl.inj (Except.ok.inj h)).symm⟩⟩

theorem entryRound_shrinks (s s' : Bytes × List AppEntry) (h : entryRound s = .ok (.inl s')) :
    s'.1.length < s.1.length := by
  obtain ⟨p, entries⟩ := s
  have hlen := (skipWs_suffix p).length_le
  rcases (entryRound_next h).2 with ⟨hcomma, rfl⟩ | ⟨appName, r, entry, q, hobject, -, hto, rfl⟩
  · obtain ⟨rest, hrest⟩ : ∃ rest, skipWs p = peek (skipWs p) :: rest :=
      ne_nil_of_peek (by rw [hcomma]; decide)
    rw [hrest] at hlen ⊢
    simp at hlen ⊢
    omega
  · have hr := hobject.length_lt
    have hq := hto.length_le
    have hafter : (afterFields q).length ≤ q.length := by
      unfold afterFields
      split
      · simp
      · exact le_refl _
    dsimp only
    omega

/-- The entry loop. -/
def entriesLoop : Bytes × List AppEntry → Except Trap (List AppEntry) :=
  loop entryRound (fun s => s.1.length) entryRound_shrinks

/-- The parser of `load_metadata`. -/
def parseMetadataAt (json : Bytes) : Except Trap (List AppEntry) := do
  let p ← skipWsAt json
  if peek p ≠ '\x7b'.toUInt8 then return []
  else entriesLoop (← advance p, [])

theorem EntriesQuoted.loop {n : Nat} (h : EntriesQuoted n p) :
    ∀ entries : List AppEntry, entries.length = n → ∃ es, entriesLoop (p, entries) = .ok es := by
  induction h with
  | @stop n p h =>
      rintro entries rfl
      exact ⟨entries, loop_leave (entryRound_stop h)⟩
  | @comma n p h hlater ih =>
      rintro entries rfl
      by_cases hin : peek p = 0 ∨ entries.length ≥ maxApps
      · exact ⟨entries, loop_leave (entryRound_stop hin)⟩
      · obtain ⟨es, hes⟩ := ih entries rfl
        exact ⟨es, (loop_next (entryRound_comma hin h)).trans hes⟩
  | @quiet n p hcomma h =>
      rintro entries rfl
      by_cases hin : peek p = 0 ∨ entries.length ≥ maxApps
      · exact ⟨entries, loop_leave (entryRound_stop hin)⟩
      · exact ⟨entries, loop_leave (entryRound_quiet hin hcomma h)⟩
  | @entry n p appName r q h hfields hlater ih =>
      rintro entries rfl
      by_cases hin : peek p = 0 ∨ entries.length ≥ maxApps
      · exact ⟨entries, loop_leave (entryRound_stop hin)⟩
      · obtain ⟨entry, hloop⟩ := hfields.loop ⟨appName, [], [], []⟩
        obtain ⟨es, hes⟩ := ih (entries ++ [entry]) (by simp)
        exact ⟨es, (loop_next (entryRound_entry hin h hloop)).trans hes⟩

theorem entriesQuoted_of_loop {es : List AppEntry} (h : entriesLoop (p, entries) = .ok es) :
    EntriesQuoted entries.length p := by
  suffices hall : ∀ s : Bytes × List AppEntry, ∀ es, entriesLoop s = .ok es →
      EntriesQuoted s.2.length s.1 from hall _ _ h
  refine loop_induction (P := fun (s : Bytes × List AppEntry) r =>
    ∀ es, r = .ok es → EntriesQuoted s.2.length s.1) ?_ ?_ ?_
  · rintro ⟨p, entries⟩ s' r hround hlater es hr
    have hnext := hlater es hr
    rcases (entryRound_next hround).2 with
      ⟨hcomma, rfl⟩ | ⟨appName, r, entry, q, hobject, -, hto, rfl⟩
    · exact .comma hcomma hnext
    · rw [List.length_append, List.length_singleton] at hnext
      exact .entry hobject hto hnext
  · rintro ⟨p, entries⟩ b hround es -
    rcases entry_cases p entries with
      hstop | ⟨hin, hcomma | ⟨hcomma, hquiet⟩ | ⟨appName, r, hobject⟩⟩
    · exact .stop hstop
    · rw [entryRound_comma hin hcomma] at hround
      cases hround
    · exact .quiet hcomma hquiet
    · obtain ⟨entry, after, hfields⟩ := fieldsLoop_ok r ⟨appName, [], [], []⟩
      rw [entryRound_entry hin hobject hfields] at hround
      cases after <;> cases hround
  · intro s e _ es hr
    cases hr

theorem parseEntries_quiet {fuel : Nat} (hin : ¬ (peek p = 0 ∨ entries.length ≥ maxApps))
    (hcomma : peek (skipWs p) ≠ ','.toUInt8) (h : ∀ appName r, ¬ ObjectAt (skipWs p) appName r) :
    parseEntries (fuel + 1) p entries = some entries := by
  rw [parseEntries, if_neg hin]
  dsimp only
  rw [if_neg hcomma]
  split
  · rfl
  split
  · rfl
  next appName q hname =>
  split
  · rfl
  next hcolon =>
  split
  · rfl
  next hbrace =>
    exact absurd ⟨q, hname, not_not.mp hcolon, not_not.mp hbrace, rfl⟩ (h appName _)

theorem parseEntries_object {fuel : Nat} (hin : ¬ (peek p = 0 ∨ entries.length ≥ maxApps))
    (h : ObjectAt (skipWs p) appName r) {after : Option Bytes}
    (hfields : fieldsLoop (r, ⟨appName, [], [], []⟩) = .ok (entry, after)) :
    parseEntries (fuel + 1) p entries =
      match after with
      | none => none
      | some q => parseEntries fuel (afterFields q) (entries ++ [entry]) := by
  obtain ⟨q, hname, hcolon, hbrace, rfl⟩ := h
  have hread := parseFields_loop ((skipWs ((skipWs q).drop 1)).length + 1)
    ((skipWs ((skipWs q).drop 1)).drop 1) ⟨appName, [], [], []⟩ (by rw [List.length_drop]; omega)
  rw [hfields] at hread
  have hfound := Except.ok.inj hread
  simp only [parseEntries, if_neg hin, if_neg (key_marks hname).1, if_neg (key_marks hname).2,
    hname, if_neg (not_not.mpr hcolon), if_neg (not_not.mpr hbrace), ← hfound]
  cases after <;> rfl

/-- The checked parser and the parser of the model read the same: the only trap
is the null pointer. -/
theorem parseEntries_loop (fuel : Nat) : ∀ (p : Bytes) (entries : List AppEntry),
    p.length < fuel → entriesLoop (p, entries) =
      match parseEntries fuel p entries with
      | none => .error .null
      | some es => .ok es := by
  induction fuel with
  | zero =>
      intro p entries hfuel
      omega
  | succ fuel ih =>
      intro p entries hfuel
      rcases entry_cases p entries with
        hstop | ⟨hin, hcomma | ⟨hcomma, hquiet⟩ | ⟨appName, r, hobject⟩⟩
      · rw [parseEntries, if_pos hstop]
        exact loop_leave (entryRound_stop hstop)
      · have hround := entryRound_comma hin hcomma
        have hclose : ¬ peek (skipWs p) = '\x7d'.toUInt8 := by
          rw [hcomma]
          decide
        have hless := entryRound_shrinks _ _ hround
        rw [parseEntries, if_neg hin]
        dsimp only at hless ⊢
        rw [if_neg hclose, if_pos hcomma, ← ih _ _ (by omega)]
        exact loop_next hround
      · rw [parseEntries_quiet hin hcomma hquiet]
        exact loop_leave (entryRound_quiet hin hcomma hquiet)
      · obtain ⟨entry, after, hfields⟩ := fieldsLoop_ok r ⟨appName, [], [], []⟩
        have hround := entryRound_entry hin hobject hfields
        rw [parseEntries_object hin hobject hfields]
        cases after with
        | none => exact loop_fail hround
        | some q =>
            have hless := entryRound_shrinks _ _ hround
            dsimp only at hless ⊢
            rw [← ih _ _ (by omega)]
            exact loop_next hround

theorem parseMetadataAt_eq (json : Bytes) :
    parseMetadataAt json =
      match parseMetadata json with
      | none => .error .null
      | some es => .ok es := by
  unfold parseMetadataAt parseMetadata
  rw [skipWsAt_eq, except_ok_bind]
  dsimp only
  by_cases hopen : peek (skipWs json) = '\x7b'.toUInt8
  · have hlen := (skipWs_suffix json).length_le
    rw [if_neg (not_not.mpr hopen), if_neg (not_not.mpr hopen),
      advance_of_peek (by decide) hopen, except_ok_bind]
    exact parseEntries_loop _ _ _ (by rw [List.length_drop]; omega)
  · rw [if_pos hopen, if_pos hopen, except_pure]

theorem parseMetadataAt_ok (json : Bytes) :
    (∃ es, parseMetadataAt json = .ok es) ↔ QuotedText json := by
  unfold parseMetadataAt QuotedText
  rw [skipWsAt_eq, except_ok_bind]
  by_cases hopen : peek (skipWs json) = '\x7b'.toUInt8
  · rw [if_neg (not_not.mpr hopen), advance_of_peek (by decide) hopen, except_ok_bind]
    constructor
    · rintro ⟨es, hes⟩ -
      exact entriesQuoted_of_loop hes
    · exact fun h => (h hopen).loop [] rfl
  · rw [if_pos hopen]
    exact ⟨fun _ h => absurd h hopen, fun _ => ⟨[], rfl⟩⟩

end Entries

/-- Every field of the entry is terminated within its buffer. -/
structure AppEntry.Fits (e : AppEntry) : Prop where
  name : e.appName.length < maxAppNameLen
  remote : e.remotePath.length < maxPathLen
  hash : e.fileHash.length < 65
  time : e.deployedAt.length < 32

section Bounds

variable {p key value : Bytes} {entry : AppEntry}

theorem AppEntry.Fits.setField (h : entry.Fits) : (entry.setField key value).Fits := by
  have hclip : ∀ size, 0 < size → (clip size value).length < size := by
    intro size hsize
    simp only [clip, List.length_take]
    omega
  unfold AppEntry.setField
  split
  · exact { h with remote := hclip _ (by decide) }
  split
  · exact { h with hash := hclip _ (by decide) }
  split
  · exact { h with time := hclip _ (by decide) }
  · exact h

theorem fieldsLoop_fits (hfits : entry.Fits) {entry' : AppEntry} {after : Option Bytes}
    (h : fieldsLoop (p, entry) = .ok (entry', after)) : entry'.Fits := by
  suffices hall : ∀ s : Bytes × AppEntry, s.2.Fits → ∀ e' after', fieldsLoop s = .ok (e', after') →
      e'.Fits from hall _ hfits _ _ h
  refine loop_induction (P := fun (s : Bytes × AppEntry) r =>
    s.2.Fits → ∀ (e' : AppEntry) after', r = .ok (e', after') → e'.Fits) ?_ ?_ ?_
  · rintro ⟨p, entry⟩ s' r hround hlater hfits e' after' hr
    refine hlater ?_ e' after' hr
    cases fieldRound_case hround with
    | comma => exact hfits
    | field => exact hfits.setField
  · rintro ⟨p, entry⟩ b hround hfits e' after' hr
    rw [Except.ok.inj hr] at hround
    cases fieldRound_case hround <;> exact hfits
  · intro s e _ _ e' after' hr
    cases hr

theorem entriesLoop_fits {entries es : List AppEntry} (hroom : entries.length ≤ maxApps)
    (hfits : ∀ e ∈ entries, e.Fits) (h : entriesLoop (p, entries) = .ok es) :
    es.length ≤ maxApps ∧ ∀ e ∈ es, e.Fits := by
  suffices hall : ∀ s : Bytes × List AppEntry, s.2.length ≤ maxApps → (∀ e ∈ s.2, e.Fits) →
      ∀ es, entriesLoop s = .ok es → es.length ≤ maxApps ∧ ∀ e ∈ es, e.Fits from
    hall _ hroom hfits _ h
  refine loop_induction (P := fun (s : Bytes × List AppEntry) r => s.2.length ≤ maxApps →
    (∀ e ∈ s.2, e.Fits) → ∀ es : List AppEntry, r = .ok es →
    es.length ≤ maxApps ∧ ∀ e ∈ es, e.Fits) ?_ ?_ ?_
  · rintro ⟨p, entries⟩ s' r hround hlater hroom hfits es hr
    obtain ⟨hin, hnext⟩ := entryRound_next hround
    rcases hnext with ⟨-, rfl⟩ | ⟨appName, r, entry, q, hobject, hfields, -, rfl⟩
    · exact hlater hroom hfits es hr
    · have hname : (⟨appName, [], [], []⟩ : AppEntry).Fits := by
        obtain ⟨k, hname, -⟩ := hobject
        refine ⟨?_, Nat.zero_lt_succ _, Nat.zero_lt_succ _, Nat.zero_lt_succ _⟩
        exact Nat.lt_of_le_of_lt (parseString_bounds hname).1 (by decide)
      refine hlater ?_ ?_ es hr
      · rw [List.length_append, List.length_singleton]
        exact Nat.lt_of_not_le fun hfull => hin (Or.inr hfull)
      · intro e he
        rcases List.mem_append.mp he with he | he
        · exact hfits e he
        · rw [List.mem_singleton.mp he]
          exact fieldsLoop_fits hname hfields
  · rintro ⟨p, entries⟩ b hround hroom hfits es hr
    have hsame : b = entries := by
      rcases entry_cases p entries with
        hstop | ⟨hin, hcomma | ⟨hcomma, hquiet⟩ | ⟨appName, r, hobject⟩⟩
      · rw [entryRound_stop hstop] at hround
        exact (Sum.inr.inj (Except.ok.inj hround)).symm
      · rw [entryRound_comma hin hcomma] at hround
        cases hround
      · rw [entryRound_quiet hin hcomma hquiet] at hround
        exact (Sum.inr.inj (Except.ok.inj hround)).symm
      · obtain ⟨entry, after, hfields⟩ := fieldsLoop_ok r ⟨appName, [], [], []⟩
        rw [entryRound_entry hin hobject hfields] at hround
        cases after <;> cases hround
    rw [← Except.ok.inj hr, hsame]
    exact ⟨hroom, hfits⟩
  · intro s e _ _ _ es hr
    cases hr

theorem parseMetadataAt_fits {json : Bytes} {es : List AppEntry}
    (h : parseMetadataAt json = .ok es) : es.length ≤ maxApps ∧ ∀ e ∈ es, e.Fits := by
  unfold parseMetadataAt at h
  rw [skipWsAt_eq, except_ok_bind] at h
  split at h
  · rw [← Except.ok.inj h]
    simp
  next hopen =>
    rw [advance_of_peek (by decide) (not_not.mp hopen), except_ok_bind] at h
    exact entriesLoop_fits (by simp) (by simp) h

end Bounds

/-- `load_metadata` gets through a file with the text `json`: the parser makes no
bad access, and what it leaves in the cache fits the cache. -/
structure LoadsSafely (json : Bytes) : Prop where
  parses : ∃ entries, parseMetadataAt json = .ok entries ∧ entries.length ≤ maxApps ∧
    ∀ e ∈ entries, e.Fits
  loads : ∀ (env : Env) (n : Nat) (s : Target), env.Reliable → s.cache = none →
    s.content metadataFile = some json →
    Prog.Ends (loadMetadata env) (fun entries _ t => t.cache = some entries ∧
      entries.length ≤ maxApps ∧ ∀ e ∈ entries, e.Fits) n s

/-- A file is loaded safely exactly when the fields of its entries are quoted. -/
theorem loadsSafely_iff {json : Bytes} (hsize : json.length ≤ 1024 * 1024) :
    LoadsSafely json ↔ QuotedText json := by
  rw [← parseMetadataAt_ok]
  constructor
  · rintro ⟨⟨entries, hparse, -⟩, -⟩
    exact ⟨entries, hparse⟩
  rintro ⟨entries, hparse⟩
  obtain ⟨hroom, hfits⟩ := parseMetadataAt_fits hparse
  refine ⟨⟨entries, hparse, hroom, hfits⟩, fun env n s henv hcache hfile => ?_⟩
  have hread : parseMetadata json = some entries := by
    rw [parseMetadataAt_eq] at hparse
    split at hparse
    · cases hparse
    next hsome => rw [hsome, Except.ok.inj hparse]
  have hmeta : s.metadata = some entries := by
    simp only [Target.metadata, hcache, hfile]
    split
    next hlimit =>
      have hempty : json = [] := List.length_eq_zero_iff.mp (by omega)
      rw [hempty] at hread
      exact hread
    next => exact hread
  refine (loadMetadata_ends (fun _ => henv _ _) (fun _ => henv _ _) hmeta).imp ?_
  rintro _ m _ ⟨rfl, rfl⟩
  exact ⟨rfl, hroom, hfits⟩

section Demo

theorem loadsSafely_demo : LoadsSafely (ascii "\x7b\"a\": \x7b\"remote_path\": \"/opt/a\"") := by
  refine (loadsSafely_iff (by decide)).mpr ((parseMetadataAt_ok _).mp ?_)
  have hread : parseMetadata (ascii "\x7b\"a\": \x7b\"remote_path\": \"/opt/a\"") =
      some [⟨ascii "a", ascii "/opt/a", [], []⟩] := by decide +kernel
  rw [parseMetadataAt_eq, hread]
  exact ⟨_, rfl⟩

/-- A number for a value sends the parser through the null pointer. -/
theorem not_loadsSafely_number :
    (ascii "\x7b\"a\": \x7b\"size\": 1\x7d\x7d").length ≤ 1024 * 1024 ∧
    parseMetadataAt (ascii "\x7b\"a\": \x7b\"size\": 1\x7d\x7d") = .error .null ∧
    ¬ LoadsSafely (ascii "\x7b\"a\": \x7b\"size\": 1\x7d\x7d") := by
  have htrap : parseMetadataAt (ascii "\x7b\"a\": \x7b\"size\": 1\x7d\x7d") = .error .null := by
    have hread : parseMetadata (ascii "\x7b\"a\": \x7b\"size\": 1\x7d\x7d") = none := by
      decide +kernel
    rw [parseMetadataAt_eq, hread]
  refine ⟨by decide, htrap, ?_⟩
  rintro ⟨⟨entries, hparse, -⟩, -⟩
  rw [htrap] at hparse
  cases hparse

end Demo

end SatDeploy.Agent
