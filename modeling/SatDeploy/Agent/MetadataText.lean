import SatDeploy.Agent.AppMetadata

/-!
What the parser of `app_metadata.c` makes of the text `save_metadata` writes,
and of the parts of it that an interrupted save leaves. Names and values are
written without escapes, so all of this is for texts without a quote, a
backslash or a NUL. `ReadsFields` and `Reads` say what the two loops make of a
text, whatever fuel covers it.
-/

namespace SatDeploy.Agent

open Lib

/-- A text that is written and read back without escapes. -/
def Plain (text : Bytes) : Prop :=
  ∀ c ∈ text, c ≠ 0 ∧ c ≠ '"'.toUInt8 ∧ c ≠ '\\'.toUInt8

instance (text : Bytes) : Decidable (Plain text) :=
  List.decidableBAll (fun c => c ≠ 0 ∧ c ≠ '"'.toUInt8 ∧ c ≠ '\\'.toUInt8) text

/-- An entry as the cache holds it: every field fits its buffer and is plain. -/
structure AppEntry.Stored (e : AppEntry) : Prop where
  name : Plain e.appName
  remote : Plain e.remotePath
  hash : Plain e.fileHash
  time : Plain e.deployedAt
  name_fits : e.appName.length < maxAppNameLen
  remote_fits : e.remotePath.length < maxPathLen
  hash_fits : e.fileHash.length < 65
  time_fits : e.deployedAt.length < 32

/-- White space of the text. -/
def Blank (w : Bytes) : Prop := ∀ c ∈ w, jsonSpace c = true

instance (w : Bytes) : Decidable (Blank w) :=
  List.decidableBAll (fun c => jsonSpace c = true) w

section Strings

variable {text u w p rest : Bytes} {size : Nat}

theorem Plain.part (h : Plain text) (hpart : u <+: text) : Plain u :=
  fun c hc => h c (hpart.subset hc)

theorem Plain.clip (h : Plain text) : Plain (clip size text) :=
  h.part (List.take_prefix _ _)

theorem Blank.part (h : Blank w) (hpart : u <+: w) : Blank u :=
  fun c hc => h c (hpart.subset hc)

theorem Blank.append {v : Bytes} (hw : Blank w) (hv : Blank v) : Blank (w ++ v) :=
  fun c hc => (List.mem_append.mp hc).elim (hw c) (hv c)

theorem skipWs_append (hw : Blank w) : skipWs (w ++ p) = skipWs p := by
  induction w with
  | nil => rfl
  | cons c w ih =>
      have hc : jsonSpace c = true := hw c List.mem_cons_self
      rw [List.cons_append, skipWs, List.dropWhile_cons_of_pos hc]
      exact ih fun d hd => hw d (List.mem_cons_of_mem _ hd)

theorem skipWs_cons {c : UInt8} (hc : jsonSpace c = false) : skipWs (c :: p) = c :: p := by
  rw [skipWs, List.dropWhile_cons_of_neg (by simp [hc])]

/-- White space before a byte that is none is skipped. -/
theorem skipWs_before {c : UInt8} (hw : Blank w) (hc : jsonSpace c = false) :
    skipWs (w ++ c :: p) = c :: p := by
  rw [skipWs_append hw, skipWs_cons hc]

theorem skipWs_quote (hw : Blank w) : skipWs (w ++ '"'.toUInt8 :: p) = '"'.toUInt8 :: p :=
  skipWs_before hw (by decide)

theorem skipWs_blank (hw : Blank w) : skipWs w = [] := by
  have h := skipWs_append (p := []) hw
  rwa [List.append_nil] at h

@[simp] theorem peek_cons (c : UInt8) : peek (c :: p) = c := rfl

@[simp] theorem peek_nil : peek [] = 0 := rfl

/-- The loop of `parse_string` reads a plain text up to its quote, or up to the
end of the input. -/
theorem stringBody_plain (h : Plain text) : ∀ {room : Nat}, text.length ≤ room →
    (rest = [] ∨ peek rest = '"'.toUInt8) → stringBody room (text ++ rest) = (text, rest) := by
  induction text with
  | nil =>
      intro room _ hrest
      cases room with
      | zero => rfl
      | succ room =>
          cases rest with
          | nil => rfl
          | cons c rest =>
              have hc : c = '"'.toUInt8 := hrest.resolve_left (List.cons_ne_nil _ _)
              subst hc
              simp only [List.nil_append, stringBody, or_true, if_true]
  | cons c text ih =>
      intro room hroom hrest
      cases room with
      | zero => simp at hroom
      | succ room =>
          obtain ⟨hnul, hquote, hslash⟩ := h c List.mem_cons_self
          have hlater := ih (fun d hd => h d (List.mem_cons_of_mem _ hd))
            (Nat.le_of_succ_le_succ hroom) hrest
          have hstop : ¬ (c = 0 ∨ c = '"'.toUInt8) := fun hc => hc.elim hnul hquote
          cases hnext : text ++ rest with
          | nil =>
              obtain ⟨htext, hrest⟩ := List.append_eq_nil_iff.mp hnext
              subst htext hrest
              simp only [List.append_nil, stringBody, if_neg hstop]
          | cons d later =>
              rw [hnext] at hlater
              rw [List.cons_append, hnext]
              simp only [stringBody, if_neg hstop, hslash, false_and, if_false, hlater]

/-- A quoted string is read back. -/
theorem parseString_quoted (hw : Blank w) (h : Plain text) (hsize : text.length < size) :
    parseString (w ++ '"'.toUInt8 :: (text ++ '"'.toUInt8 :: rest)) size = some (text, rest) := by
  have hbody : stringBody (size - 1) (text ++ '"'.toUInt8 :: rest) =
      (text, '"'.toUInt8 :: rest) :=
    stringBody_plain h (by omega) (Or.inr rfl)
  simp only [parseString, skipWs_quote hw, peek_cons, ne_eq, not_true, if_false,
    List.drop_succ_cons, List.drop_zero, hbody, if_true]

/-- A string that is cut is read up to the cut. -/
theorem parseString_cut (hw : Blank w) (h : Plain text) (hsize : text.length < size) :
    parseString (w ++ '"'.toUInt8 :: text) size = some (text, []) := by
  have hbody : stringBody (size - 1) (text ++ []) = (text, []) :=
    stringBody_plain h (by omega) (Or.inl rfl)
  rw [List.append_nil] at hbody
  have hend : ¬ (0 : UInt8) = '"'.toUInt8 := by decide
  simp only [parseString, skipWs_quote hw, peek_cons, ne_eq, not_true, if_false,
    List.drop_succ_cons, List.drop_zero, hbody, peek_nil, hend]

theorem parseString_blank (hw : Blank w) : parseString w size = none := by
  have hend : ¬ (0 : UInt8) = '"'.toUInt8 := by decide
  simp only [parseString, skipWs_blank hw, peek_nil, ne_eq, hend, not_false_iff, if_true]

/-- A name that is cut before or after its quote. -/
theorem parseString_part (hw : Blank w) (h : Plain text) (hsize : text.length < size)
    (hpart : u <+: text ++ ['"'.toUInt8]) :
    ∃ name, parseString (w ++ '"'.toUInt8 :: u) size = some (name, []) := by
  rcases List.prefix_concat_iff.mp hpart with rfl | hpart
  · exact ⟨text, parseString_quoted hw h hsize⟩
  · have hlen := hpart.length_le
    exact ⟨u, parseString_cut hw (h.part hpart) (by omega)⟩

/-- A text that starts with a byte other than `d`, white space apart, does not
start with `d`. -/
theorem peek_ne {c d : UInt8} (hw : Blank w) (hd : jsonSpace d = false) (hcd : c ≠ d) :
    ¬ peek (w ++ c :: p) = d := by
  cases w with
  | nil => exact hcd
  | cons b w =>
      rintro rfl
      exact absurd (hw _ List.mem_cons_self) (by simpa using hd)

end Strings
section Fields

variable {w p rest key value u : Bytes} {entry entry' : AppEntry}

/-- The field loop, started with `entry` at the text `p`, ends with `entry'` at
`rest`. -/
def ReadsFields (p : Bytes) (entry entry' : AppEntry) (rest : Bytes) : Prop :=
  ∀ fuel, p.length ≤ fuel → parseFields (fuel + 1) p entry = (entry', some rest)

/-- A field as `save_metadata` writes it. -/
def fieldText (key value : Bytes) : Bytes :=
  '"'.toUInt8 :: (key ++ '"'.toUInt8 :: (ascii ": " ++ '"'.toUInt8 :: (value ++ ['"'.toUInt8])))

theorem ReadsFields.stop : ReadsFields [] entry entry [] := by
  intro fuel _
  simp [parseFields]

theorem ReadsFields.comma (h : ReadsFields p entry entry' rest) :
    ReadsFields (','.toUInt8 :: p) entry entry' rest := by
  intro fuel hfuel
  cases fuel with
  | zero => simp at hfuel
  | succ fuel =>
      have hgo : ¬ (','.toUInt8 = 0 ∨ ','.toUInt8 = '\x7d'.toUInt8) := by decide
      rw [parseFields, peek_cons, if_neg hgo]
      simp only [skipWs_cons (by decide : jsonSpace ','.toUInt8 = false), peek_cons, if_true,
        List.drop_succ_cons, List.drop_zero]
      exact h fuel (Nat.le_of_succ_le_succ hfuel)

theorem ReadsFields.close (hw : Blank w) :
    ReadsFields (w ++ '\x7d'.toUInt8 :: rest) entry entry ('\x7d'.toUInt8 :: rest) := by
  intro fuel _
  have hcomma : ¬ '\x7d'.toUInt8 = ','.toUInt8 := by decide
  rw [parseFields]
  split
  next hstop =>
    -- no white space is left before the brace
    cases w with
    | nil => rfl
    | cons c w =>
        have hc := hw c List.mem_cons_self
        rcases hstop with rfl | rfl <;> exact absurd hc (by decide)
  next =>
    simp only [skipWs_before hw (by decide : jsonSpace '\x7d'.toUInt8 = false), peek_cons,
      if_neg hcomma, if_true]

/-- The loop at the quote of a key. -/
theorem parseFields_key (hw : Blank w) (fuel : Nat) :
    parseFields (fuel + 1) (w ++ '"'.toUInt8 :: p) entry =
      match parseString ('"'.toUInt8 :: p) 64 with
      | none => (entry, none)
      | some (key, p) =>
          if peek (skipWs p) ≠ ':'.toUInt8 then (entry, some (skipWs p))
          else
            match parseString ((skipWs p).drop 1) maxPathLen with
            | none => (entry, none)
            | some (value, p) => parseFields fuel p (entry.setField key value) := by
  have hnul := peek_ne (p := p) hw (by decide : jsonSpace 0 = false)
    (by decide : '"'.toUInt8 ≠ 0)
  have hclose := peek_ne (p := p) hw (by decide : jsonSpace '\x7d'.toUInt8 = false)
    (by decide : '"'.toUInt8 ≠ '\x7d'.toUInt8)
  have hcomma : ¬ '"'.toUInt8 = ','.toUInt8 := by decide
  have hclose' : ¬ '"'.toUInt8 = '\x7d'.toUInt8 := by decide
  rw [parseFields, if_neg (by simp only [hnul, hclose, or_self, not_false_iff])]
  rw [skipWs_quote hw]
  exact (if_neg hcomma).trans (if_neg hclose')

theorem ReadsFields.field (hw : Blank w) (hkey : Plain key) (hkeySize : key.length < 64)
    (hvalue : Plain value) (hvalueSize : value.length < maxPathLen)
    (h : ReadsFields p (entry.setField key value) entry' rest) :
    ReadsFields (w ++ (fieldText key value ++ p)) entry entry' rest := by
  have htext : fieldText key value ++ p = '"'.toUInt8 :: (key ++ '"'.toUInt8 ::
      (':'.toUInt8 :: (ascii " " ++ '"'.toUInt8 :: (value ++ '"'.toUInt8 :: p)))) := by
    simp [fieldText, ascii]
  intro fuel hfuel
  have hlong : p.length < fuel := by
    have hlen := congrArg List.length htext
    simp only [List.length_append, List.length_cons] at hlen hfuel
    omega
  obtain ⟨fuel, rfl⟩ : ∃ m, fuel = m + 1 := ⟨fuel - 1, by omega⟩
  have hparse : parseString ('"'.toUInt8 :: (key ++ '"'.toUInt8 ::
      (':'.toUInt8 :: (ascii " " ++ '"'.toUInt8 :: (value ++ '"'.toUInt8 :: p))))) 64 =
      some (key, ':'.toUInt8 :: (ascii " " ++ '"'.toUInt8 :: (value ++ '"'.toUInt8 :: p))) :=
    parseString_quoted (w := []) (by decide) hkey hkeySize
  have hparse' : parseString (ascii " " ++ '"'.toUInt8 :: (value ++ '"'.toUInt8 :: p))
      maxPathLen = some (value, p) := parseString_quoted (by decide) hvalue hvalueSize
  rw [htext, parseFields_key hw, hparse]
  simp only [skipWs_cons (by decide : jsonSpace ':'.toUInt8 = false), peek_cons, ne_eq, not_true,
    if_false, List.drop_succ_cons, List.drop_zero, hparse']
  exact h fuel (by omega)

/-- A cut in a key leaves the entry as it is. -/
theorem ReadsFields.cutKey (hw : Blank w) (hkey : Plain key) (hkeySize : key.length < 64)
    (hu : u <+: key ++ ['"'.toUInt8]) :
    ReadsFields (w ++ '"'.toUInt8 :: u) entry entry [] := by
  intro fuel _
  obtain ⟨name, hparse⟩ := parseString_part (w := []) (by decide) hkey hkeySize hu
  rw [List.nil_append] at hparse
  have hend : ¬ (0 : UInt8) = ':'.toUInt8 := by decide
  rw [parseFields_key hw, hparse]
  simp only [skipWs, List.dropWhile_nil, peek_nil, ne_eq, hend, not_false_iff, if_true]

/-- A cut in a value leaves what is written of it. -/
theorem ReadsFields.cutValue (hw : Blank w) (hkey : Plain key) (hkeySize : key.length < 64)
    (hvalue : Plain value) (hvalueSize : value.length < maxPathLen) (hu : u <+: value) :
    ReadsFields (w ++ '"'.toUInt8 :: (key ++ '"'.toUInt8 :: (ascii ": " ++ '"'.toUInt8 :: u)))
      entry (entry.setField key u) [] := by
  intro fuel hfuel
  obtain ⟨fuel, rfl⟩ : ∃ m, fuel = m + 1 := by
    simp only [List.length_append, List.length_cons] at hfuel
    exact ⟨fuel - 1, by omega⟩
  have hshort := hu.length_le
  have hparse : parseString ('"'.toUInt8 :: (key ++ '"'.toUInt8 ::
      (':'.toUInt8 :: (ascii " " ++ '"'.toUInt8 :: u)))) 64 =
      some (key, ':'.toUInt8 :: (ascii " " ++ '"'.toUInt8 :: u)) :=
    parseString_quoted (w := []) (by decide) hkey hkeySize
  have hparse' : parseString (ascii " " ++ '"'.toUInt8 :: u) maxPathLen = some (u, []) :=
    parseString_cut (by decide) (hvalue.part hu) (by omega)
  have hcolon : ascii ": " ++ '"'.toUInt8 :: u = ':'.toUInt8 :: (ascii " " ++ '"'.toUInt8 :: u) :=
    rfl
  rw [hcolon, parseFields_key hw, hparse]
  simp only [skipWs_cons (by decide : jsonSpace ':'.toUInt8 = false), peek_cons, ne_eq, not_true,
    if_false, List.drop_succ_cons, List.drop_zero, hparse']
  exact ReadsFields.stop fuel (Nat.zero_le _)

end Fields

section Entry

variable {e e' entry entry' : AppEntry} {w p rest key value u : Bytes}

theorem AppEntry.Stored.setField (h : entry.Stored) (hvalue : Plain value) :
    (entry.setField key value).Stored := by
  have hfits : ∀ size, 0 < size → (clip size value).length < size := by
    intro size hsize
    simp only [clip, List.length_take]
    omega
  unfold AppEntry.setField
  split
  · exact { h with remote := hvalue.clip, remote_fits := hfits _ (by decide) }
  · split
    · exact { h with hash := hvalue.clip, hash_fits := hfits _ (by decide) }
    · split
      · exact { h with time := hvalue.clip, time_fits := hfits _ (by decide) }
      · exact h

@[simp] theorem AppEntry.setField_appName :
    (entry.setField key value).appName = entry.appName := by
  unfold AppEntry.setField
  split
  · rfl
  · split
    · rfl
    · split <;> rfl

/-- The entry with none of its fields, with the first one and with two. -/
def AppEntry.named (e : AppEntry) : AppEntry := ⟨e.appName, [], [], []⟩
def AppEntry.placed (e : AppEntry) : AppEntry := ⟨e.appName, e.remotePath, [], []⟩
def AppEntry.hashed (e : AppEntry) : AppEntry := ⟨e.appName, e.remotePath, e.fileHash, []⟩

def indent : Bytes := ascii "\n    "

/-- What stands between the braces of an entry. -/
def fieldsText (e : AppEntry) : Bytes :=
  indent ++ (fieldText (ascii "remote_path") e.remotePath ++ ','.toUInt8 ::
    (indent ++ (fieldText (ascii "file_hash") e.fileHash ++ ','.toUInt8 ::
      (indent ++ (fieldText (ascii "deployed_at") e.deployedAt ++ ascii "\n  ")))))

section Setting

variable (h : e.Stored)
include h

theorem AppEntry.Stored.set_remote :
    e.named.setField (ascii "remote_path") e.remotePath = e.placed := by
  simp [AppEntry.setField, AppEntry.named, AppEntry.placed, clip_of_lt h.remote_fits]

theorem AppEntry.Stored.set_hash :
    e.placed.setField (ascii "file_hash") e.fileHash = e.hashed := by
  have hkey : ascii "file_hash" ≠ ascii "remote_path" := by decide
  simp [AppEntry.setField, AppEntry.placed, AppEntry.hashed, hkey, clip_of_lt h.hash_fits]

theorem AppEntry.Stored.set_time :
    e.hashed.setField (ascii "deployed_at") e.deployedAt = e := by
  have hkey : ascii "deployed_at" ≠ ascii "remote_path" := by decide
  have hkey' : ascii "deployed_at" ≠ ascii "file_hash" := by decide
  simp [AppEntry.setField, AppEntry.hashed, hkey, hkey', clip_of_lt h.time_fits]

theorem AppEntry.Stored.hash_short : e.fileHash.length < maxPathLen :=
  lt_trans h.hash_fits (by decide)

theorem AppEntry.Stored.time_short : e.deployedAt.length < maxPathLen :=
  lt_trans h.time_fits (by decide)

/-- The first field is read, and the rest from there. -/
theorem AppEntry.Stored.reads_remote (hlater : ReadsFields p e.placed e' rest) :
    ReadsFields (indent ++ (fieldText (ascii "remote_path") e.remotePath ++ p)) e.named e' rest :=
  .field (by decide) (by decide) (by decide) h.remote h.remote_fits (h.set_remote ▸ hlater)

theorem AppEntry.Stored.reads_hash (hlater : ReadsFields p e.hashed e' rest) :
    ReadsFields (indent ++ (fieldText (ascii "file_hash") e.fileHash ++ p)) e.placed e' rest :=
  .field (by decide) (by decide) (by decide) h.hash h.hash_short (h.set_hash ▸ hlater)

theorem AppEntry.Stored.reads_time (hlater : ReadsFields p e e' rest) :
    ReadsFields (indent ++ (fieldText (ascii "deployed_at") e.deployedAt ++ p)) e.hashed e'
      rest := by
  refine .field (by decide) (by decide) (by decide) h.time h.time_short ?_
  rw [h.set_time]
  exact hlater

theorem AppEntry.Stored.reads :
    ReadsFields (fieldsText e ++ '\x7d'.toUInt8 :: rest) e.named e ('\x7d'.toUInt8 :: rest) := by
  have hclose : ReadsFields (ascii "\n  " ++ '\x7d'.toUInt8 :: rest) e e
      ('\x7d'.toUInt8 :: rest) := .close (by decide)
  simp only [fieldsText, List.append_assoc, List.cons_append]
  exact h.reads_remote (.comma (h.reads_hash (.comma (h.reads_time hclose))))

end Setting

/-- A cut in a field, and the entry that is written by then. The places where
the parser has no string to read are left out: after the white space before a
key and after a colon. -/
inductive FieldCut (entry : AppEntry) (key value : Bytes) : Bytes → AppEntry → Prop where
  | before : FieldCut entry key value [] entry
  | name {u : Bytes} (hu : u <+: key ++ ['"'.toUInt8]) :
      FieldCut entry key value (indent ++ '"'.toUInt8 :: u) entry
  | value {u : Bytes} (hu : u <+: value) : FieldCut entry key value
      (indent ++ '"'.toUInt8 :: (key ++ '"'.toUInt8 :: (ascii ": " ++ '"'.toUInt8 :: u)))
      (entry.setField key u)
  | whole : FieldCut entry key value (indent ++ fieldText key value)
      (entry.setField key value)

/-- A cut between the braces of `e`, and what is written of `e` by then. -/
inductive QuietCut (e : AppEntry) : Bytes → AppEntry → Prop where
  | remote {u : Bytes} {e' : AppEntry}
      (hcut : FieldCut e.named (ascii "remote_path") e.remotePath u e') : QuietCut e u e'
  | hash {u : Bytes} {e' : AppEntry}
      (hcut : FieldCut e.placed (ascii "file_hash") e.fileHash u e') :
      QuietCut e (indent ++ (fieldText (ascii "remote_path") e.remotePath ++ ','.toUInt8 :: u)) e'
  | time {u : Bytes} {e' : AppEntry}
      (hcut : FieldCut e.hashed (ascii "deployed_at") e.deployedAt u e') :
      QuietCut e (indent ++ (fieldText (ascii "remote_path") e.remotePath ++ ','.toUInt8 ::
        (indent ++ (fieldText (ascii "file_hash") e.fileHash ++ ','.toUInt8 :: u)))) e'

theorem FieldCut.reads (hcut : FieldCut entry key value u entry') (hkey : Plain key)
    (hkeySize : key.length < 64) (hvalue : Plain value) (hvalueSize : value.length < maxPathLen) :
    ReadsFields u entry entry' [] := by
  have hindent : Blank indent := by decide
  cases hcut with
  | before => exact .stop
  | name hu => exact .cutKey hindent hkey hkeySize hu
  | value hu => exact .cutValue hindent hkey hkeySize hvalue hvalueSize hu
  | whole =>
      have hstop : ReadsFields [] (entry.setField key value) (entry.setField key value) [] := .stop
      have h := ReadsFields.field (p := []) hindent hkey hkeySize hvalue hvalueSize hstop
      rwa [List.append_nil] at h

theorem QuietCut.reads (hcut : QuietCut e u e') (h : e.Stored) :
    ReadsFields u e.named e' [] := by
  cases hcut with
  | remote hcut => exact hcut.reads (by decide) (by decide) h.remote h.remote_fits
  | hash hcut =>
      exact h.reads_remote (.comma (hcut.reads (by decide) (by decide) h.hash h.hash_short))
  | time hcut =>
      exact h.reads_remote (.comma (h.reads_hash (.comma
        (hcut.reads (by decide) (by decide) h.time h.time_short))))

theorem FieldCut.stored (hcut : FieldCut entry key value u entry') (h : entry.Stored)
    (hvalue : Plain value) : entry'.Stored ∧ entry'.appName = entry.appName := by
  cases hcut with
  | before => exact ⟨h, rfl⟩
  | name _ => exact ⟨h, rfl⟩
  | value hu => exact ⟨h.setField (hvalue.part hu), AppEntry.setField_appName⟩
  | whole => exact ⟨h.setField hvalue, AppEntry.setField_appName⟩

/-- What is written of an entry is an entry of the same app. -/
theorem QuietCut.stored (hcut : QuietCut e u e') (h : e.Stored) :
    e'.Stored ∧ e'.appName = e.appName := by
  have hplain : Plain [] := by decide
  have hnamed : e.named.Stored :=
    ⟨h.name, hplain, hplain, hplain, h.name_fits, Nat.zero_lt_succ _, Nat.zero_lt_succ _,
      Nat.zero_lt_succ _⟩
  have hplaced : e.placed.Stored := { hnamed with remote := h.remote, remote_fits := h.remote_fits }
  have hhashed : e.hashed.Stored := { hplaced with hash := h.hash, hash_fits := h.hash_fits }
  cases hcut with
  | remote hcut => exact hcut.stored hnamed h.remote
  | hash hcut => exact hcut.stored hplaced h.hash
  | time hcut => exact hcut.stored hhashed h.time

end Entry

section Entries

variable {e e' : AppEntry} {done rest more : List AppEntry} {w p u : Bytes}

/-- The entry loop, with room for `more` entries, adds them from the text `p`. -/
def Reads (p : Bytes) (more : List AppEntry) : Prop :=
  ∀ entries fuel, entries.length + more.length ≤ maxApps → p.length ≤ fuel →
    parseEntries (fuel + 1) p entries = some (entries ++ more)

/-- An entry up to its brace. -/
def entryHead (e : AppEntry) : Bytes :=
  ascii "  " ++ '"'.toUInt8 :: (e.appName ++ '"'.toUInt8 :: ascii ": ")

/-- An entry with its braces. -/
def entryText (e : AppEntry) : Bytes :=
  entryHead e ++ '\x7b'.toUInt8 :: (fieldsText e ++ ['\x7d'.toUInt8])

/-- With the table full, the rest of the text is not read. -/
theorem parseEntries_full {entries : List AppEntry} {fuel : Nat}
    (hfull : maxApps ≤ entries.length) : parseEntries (fuel + 1) p entries = some entries := by
  rw [parseEntries, if_pos (Or.inr hfull)]

/-- It is enough to look at a table that has room. -/
theorem Reads.of_room (h : ∀ entries fuel, entries.length < maxApps →
    entries.length + more.length ≤ maxApps → p.length ≤ fuel →
    parseEntries (fuel + 1) p entries = some (entries ++ more)) : Reads p more := by
  intro entries fuel hroom hfuel
  by_cases hfull : maxApps ≤ entries.length
  · have hnone : more = [] := List.length_eq_zero_iff.mp (by omega)
    rw [parseEntries_full hfull, hnone, List.append_nil]
  · exact h entries fuel (by omega) hroom hfuel

theorem Reads.blank (hw : Blank w) : Reads w [] := by
  apply Reads.of_room
  intro entries fuel hroom _ _
  have hclose : ¬ (0 : UInt8) = '\x7d'.toUInt8 := by decide
  have hcomma : ¬ (0 : UInt8) = ','.toUInt8 := by decide
  rw [parseEntries, List.append_nil]
  split
  · rfl
  · simp only [skipWs_blank hw, peek_nil, if_neg hclose, if_neg hcomma]
    rw [parseString_blank (w := []) (by decide)]

theorem Reads.close (hw : Blank w) : Reads (w ++ '\x7d'.toUInt8 :: p) [] := by
  apply Reads.of_room
  intro entries fuel hroom _ _
  rw [parseEntries, List.append_nil]
  split
  · rfl
  · simp only [skipWs_before hw (by decide : jsonSpace '\x7d'.toUInt8 = false), peek_cons, if_true]

theorem Reads.comma (h : Reads p more) : Reads (','.toUInt8 :: p) more := by
  apply Reads.of_room
  intro entries fuel hfree hroom hfuel
  have hgo : ¬ (','.toUInt8 = 0 ∨ entries.length ≥ maxApps) :=
    not_or.mpr ⟨by decide, by omega⟩
  have hclose : ¬ ','.toUInt8 = '\x7d'.toUInt8 := by decide
  rw [parseEntries, peek_cons, if_neg hgo]
  simp only [skipWs_cons (by decide : jsonSpace ','.toUInt8 = false), peek_cons, if_neg hclose,
    if_true, List.drop_succ_cons, List.drop_zero]
  obtain ⟨fuel, rfl⟩ : ∃ m, fuel = m + 1 := ⟨fuel - 1, by simp at hfuel; omega⟩
  exact h entries fuel hroom (by simpa using hfuel)

/-- The loop at the quote of a name. -/
theorem parseEntries_name {entries : List AppEntry} (hw : Blank w)
    (hfree : entries.length < maxApps) (fuel : Nat) :
    parseEntries (fuel + 1) (w ++ '"'.toUInt8 :: p) entries =
      match parseString ('"'.toUInt8 :: p) maxAppNameLen with
      | none => some entries
      | some (appName, p) =>
          if peek (skipWs p) ≠ ':'.toUInt8 then some entries
          else if peek (skipWs ((skipWs p).drop 1)) ≠ '\x7b'.toUInt8 then some entries
          else
            let p := skipWs ((skipWs p).drop 1)
            let fields := parseFields (p.length + 1) (p.drop 1) ⟨appName, [], [], []⟩
            match fields.2 with
            | none => none
            | some p => parseEntries fuel (if peek p = '\x7d'.toUInt8 then p.drop 1 else p)
                (entries ++ [fields.1]) := by
  have hnul := peek_ne (p := p) hw (by decide : jsonSpace 0 = false)
    (by decide : '"'.toUInt8 ≠ 0)
  have hfull : ¬ entries.length ≥ maxApps := by omega
  have hclose : ¬ '"'.toUInt8 = '\x7d'.toUInt8 := by decide
  have hcomma : ¬ '"'.toUInt8 = ','.toUInt8 := by decide
  rw [parseEntries, if_neg (by simp only [hnul, hfull, or_self, not_false_iff])]
  rw [skipWs_quote hw]
  exact (if_neg hclose).trans (if_neg hcomma)

/-- An entry whose fields can be read is added. -/
theorem parseEntries_entry {entries : List AppEntry} {r : Bytes} (hw : Blank w)
    (hfree : entries.length < maxApps) (h : e.Stored) (hfields : ReadsFields p e.named e' r)
    (fuel : Nat) :
    parseEntries (fuel + 1) (w ++ (entryHead e ++ '\x7b'.toUInt8 :: p)) entries =
      parseEntries fuel (if peek r = '\x7d'.toUInt8 then r.drop 1 else r) (entries ++ [e']) := by
  have htext : w ++ (entryHead e ++ '\x7b'.toUInt8 :: p) = (w ++ ascii "  ") ++ '"'.toUInt8 ::
      (e.appName ++ '"'.toUInt8 :: (':'.toUInt8 :: (ascii " " ++ '\x7b'.toUInt8 :: p))) := by
    simp [entryHead, ascii]
  have hspaces : Blank (w ++ ascii "  ") := hw.append (by decide)
  have hname : parseString ('"'.toUInt8 :: (e.appName ++ '"'.toUInt8 ::
      (':'.toUInt8 :: (ascii " " ++ '\x7b'.toUInt8 :: p)))) maxAppNameLen =
      some (e.appName, ':'.toUInt8 :: (ascii " " ++ '\x7b'.toUInt8 :: p)) :=
    parseString_quoted (w := []) (by decide) h.name h.name_fits
  have hbrace : skipWs (ascii " " ++ '\x7b'.toUInt8 :: p) = '\x7b'.toUInt8 :: p :=
    skipWs_before (by decide) (by decide)
  have hread : parseFields ((('\x7b'.toUInt8 :: p).length) + 1) p ⟨e.appName, [], [], []⟩ =
      (e', some r) := hfields _ (by simp)
  rw [htext, parseEntries_name hspaces hfree, hname]
  simp only [skipWs_cons (by decide : jsonSpace ':'.toUInt8 = false), peek_cons, ne_eq, not_true,
    if_false, List.drop_succ_cons, List.drop_zero, hbrace, hread]

theorem parseEntries_nil (entries : List AppEntry) (fuel : Nat) :
    parseEntries fuel [] entries = some entries := by
  cases fuel with
  | zero => rfl
  | succ fuel => simp [parseEntries]

theorem Reads.entry (hw : Blank w) (h : e.Stored) (hlater : Reads p more) :
    Reads (w ++ (entryText e ++ p)) (e :: more) := by
  apply Reads.of_room
  intro entries fuel hfree hroom hfuel
  have htext : entryText e ++ p = entryHead e ++ '\x7b'.toUInt8 ::
      (fieldsText e ++ '\x7d'.toUInt8 :: p) := by
    simp [entryText]
  obtain ⟨fuel, rfl⟩ : ∃ m, fuel = m + 1 := by
    rw [htext] at hfuel
    simp only [List.length_append, List.length_cons] at hfuel
    exact ⟨fuel - 1, by omega⟩
  rw [htext, parseEntries_entry hw hfree h h.reads, peek_cons, if_pos rfl, List.drop_succ_cons,
    List.drop_zero, hlater (entries ++ [e]) fuel, List.append_assoc]
  · rfl
  · simp only [List.length_append, List.length_cons, List.length_nil] at hroom ⊢
    omega
  · rw [htext] at hfuel
    simp only [List.length_append, List.length_cons] at hfuel
    omega

/-- Of an entry that is cut between its braces the written part is read. -/
theorem Reads.cut (hw : Blank w) (h : e.Stored) (hcut : QuietCut e u e') :
    Reads (w ++ (entryHead e ++ '\x7b'.toUInt8 :: u)) [e'] := by
  apply Reads.of_room
  intro entries fuel hfree _ _
  have hend : ¬ (0 : UInt8) = '\x7d'.toUInt8 := by decide
  rw [parseEntries_entry hw hfree h (hcut.reads h), peek_nil, if_neg hend, parseEntries_nil]

/-- Of an entry that is cut before its brace nothing is read. -/
theorem Reads.head (hw : Blank w) (h : e.Stored) (hu : u <+: entryHead e) :
    Reads (w ++ u) [] := by
  apply Reads.of_room
  intro entries fuel hfree hroom hfuel
  rcases prefix_append_cases hu with hu | ⟨v, rfl, hv⟩
  · exact Reads.blank (hw.append (Blank.part (by decide) hu)) entries fuel hroom hfuel
  have hspaces : Blank (w ++ ascii "  ") := hw.append (by decide)
  rw [← List.append_assoc] at hfuel ⊢
  rcases List.prefix_cons_iff.mp hv with rfl | ⟨x, rfl, hx⟩
  · rw [List.append_nil] at hfuel ⊢
    exact Reads.blank hspaces entries fuel hroom hfuel
  have hquoted : e.appName ++ '"'.toUInt8 :: ascii ": " =
      (e.appName ++ ['"'.toUInt8]) ++ ascii ": " := by simp
  rw [hquoted] at hx
  rw [parseEntries_name hspaces hfree, List.append_nil]
  rcases prefix_append_cases hx with hx | ⟨y, rfl, hy⟩
  · -- the name is cut
    obtain ⟨name, hparse⟩ := parseString_part (w := []) (by decide) h.name h.name_fits hx
    have hend : ¬ (0 : UInt8) = ':'.toUInt8 := by decide
    rw [List.nil_append] at hparse
    rw [hparse]
    simp only [skipWs, List.dropWhile_nil, peek_nil, ne_eq, hend, not_false_iff, if_true]
  · -- the colon is the last that is written
    rw [List.append_assoc, List.singleton_append]
    have hparse : parseString ('"'.toUInt8 :: (e.appName ++ '"'.toUInt8 :: y)) maxAppNameLen =
        some (e.appName, y) := parseString_quoted (w := []) (by decide) h.name h.name_fits
    rw [hparse]
    have hbrace : ¬ peek (skipWs ((skipWs y).drop 1)) = '\x7b'.toUInt8 := by
      rcases List.prefix_cons_iff.mp hy with rfl | ⟨z, rfl, hz⟩
      · decide
      · rw [skipWs_cons (by decide), List.drop_succ_cons, List.drop_zero,
          skipWs_blank (Blank.part (by decide) hz)]
        decide
    simp only [ne_eq, hbrace, not_false_iff, if_true, ite_self]

/-- What follows the brace of an entry. -/
theorem Reads.separator (hu : u <+: ascii ",\n" ∨ u <+: ascii "\n\x7d\n") : Reads u [] := by
  rcases hu with hu | hu
  · rcases List.prefix_cons_iff.mp hu with rfl | ⟨v, rfl, hv⟩
    · exact .blank (by decide)
    · exact .comma (.blank (Blank.part (by decide) hv))
  · rcases prefix_append_cases (a := ascii "\n") (b := ascii "\x7d\n") hu with hu | ⟨v, rfl, hv⟩
    · exact .blank (Blank.part (by decide) hu)
    · rcases List.prefix_cons_iff.mp hv with rfl | ⟨z, rfl, -⟩
      · exact .blank (by decide)
      · exact .close (by decide)

/-- The entries that are followed by another. -/
def openEntries (done : List AppEntry) : Bytes :=
  done.flatMap fun e => entryText e ++ ascii ",\n"

/-- The entries before a cut are read, whatever is left of the one after them. -/
theorem Reads.open (hdone : ∀ e ∈ done, e.Stored)
    (hlater : ∀ w, Blank w → Reads (w ++ p) more) :
    ∀ w, Blank w → Reads (w ++ (openEntries done ++ p)) (done ++ more) := by
  induction done with
  | nil => exact hlater
  | cons e done ih =>
      intro w hw
      have hrest := ih (fun x hx => hdone x (List.mem_cons_of_mem _ hx)) (ascii "\n") (by decide)
      have htext : openEntries (e :: done) ++ p =
          entryText e ++ ','.toUInt8 :: (ascii "\n" ++ (openEntries done ++ p)) := by
        simp [openEntries, ascii]
      rw [htext, List.cons_append]
      exact .entry hw (hdone e List.mem_cons_self) (.comma hrest)

theorem parseMetadata_reads (h : Reads (ascii "\n" ++ p) more) (hroom : more.length ≤ maxApps) :
    parseMetadata (ascii "\x7b\n" ++ p) = some more := by
  have htext : ascii "\x7b\n" ++ p = '\x7b'.toUInt8 :: (ascii "\n" ++ p) := rfl
  rw [htext]
  simp only [parseMetadata, skipWs_cons (by decide : jsonSpace '\x7b'.toUInt8 = false), peek_cons,
    ne_eq, not_true, if_false, List.drop_succ_cons, List.drop_zero]
  exact h [] _ (by simpa using hroom) (by simp)

end Entries

/-- A text that `save_metadata` was writing for `entries`, with what it holds and
the entries it does not hold. At `fields` and `late` an entry is cut between its
braces; it counts as held once its path and its hash are whole. -/
inductive CutAt (entries : List AppEntry) : Bytes → List AppEntry → List AppEntry → Prop where
  | opening {u : Bytes} (hu : u <+: ascii "\x7b\n") : CutAt entries u [] entries
  | head {done rest : List AppEntry} {e : AppEntry} {u : Bytes}
      (hsplit : entries = done ++ e :: rest) (hu : u <+: entryHead e) :
      CutAt entries (ascii "\x7b\n" ++ (openEntries done ++ u)) done (e :: rest)
  | fields {done rest : List AppEntry} {e e' : AppEntry} {u : Bytes}
      (hsplit : entries = done ++ e :: rest) (hcut : QuietCut e u e') :
      CutAt entries (ascii "\x7b\n" ++ (openEntries done ++ (entryHead e ++ '\x7b'.toUInt8 :: u)))
        (done ++ [e']) (e :: rest)
  | late {done rest : List AppEntry} {e e' : AppEntry} {u : Bytes}
      (hsplit : entries = done ++ e :: rest) (hcut : QuietCut e u e')
      (hremote : e'.remotePath = e.remotePath) (hhash : e'.fileHash = e.fileHash) :
      CutAt entries (ascii "\x7b\n" ++ (openEntries done ++ (entryHead e ++ '\x7b'.toUInt8 :: u)))
        (done ++ [e']) rest
  | closed {done rest : List AppEntry} {e : AppEntry} {u : Bytes}
      (hsplit : entries = done ++ e :: rest) (hu : u <+: ascii ",\n") :
      CutAt entries (ascii "\x7b\n" ++ (openEntries done ++ (entryText e ++ u))) (done ++ [e]) rest
  | finished {done : List AppEntry} {e : AppEntry} {u : Bytes}
      (hsplit : entries = done ++ [e]) (hu : u <+: ascii "\n\x7d\n") :
      CutAt entries (ascii "\x7b\n" ++ (openEntries done ++ (entryText e ++ u))) (done ++ [e]) []

section Cuts

variable {entries held lost : List AppEntry} {written : Bytes}

/-- What is held is a list of entries again. -/
theorem CutAt.stored (h : CutAt entries written held lost) (hstored : ∀ e ∈ entries, e.Stored) :
    (∀ e ∈ held, e.Stored) ∧ held.length ≤ entries.length := by
  cases h with
  | opening _ => simp
  | head hsplit _ =>
      subst hsplit
      exact ⟨fun x hx => hstored x (List.mem_append_left _ hx), by simp⟩
  | fields hsplit hcut | late hsplit hcut =>
      subst hsplit
      refine ⟨fun x hx => ?_, by simp⟩
      rcases List.mem_append.mp hx with hx | hx
      · exact hstored x (List.mem_append_left _ hx)
      · rw [List.mem_singleton.mp hx]
        exact (hcut.stored (hstored _ (by simp))).1
  | closed hsplit _ =>
      subst hsplit
      refine ⟨fun x hx => hstored x ?_, by simp⟩
      rcases List.mem_append.mp hx with hx | hx
      · exact List.mem_append_left _ hx
      · simp [List.mem_singleton.mp hx]
  | finished hsplit _ =>
      subst hsplit
      exact ⟨hstored, le_refl _⟩

/-- The parser reads what is held, and does not run into a null pointer. -/
theorem CutAt.parse (h : CutAt entries written held lost) (hstored : ∀ e ∈ entries, e.Stored)
    (hroom : entries.length ≤ maxApps) : parseMetadata written = some held := by
  have hnewline : Blank (ascii "\n") := by decide
  have hshort : held.length ≤ maxApps := le_trans (h.stored hstored).2 hroom
  cases h with
  | opening hu =>
      rcases List.prefix_cons_iff.mp hu with rfl | ⟨v, rfl, hv⟩
      · decide
      · rcases List.prefix_cons_iff.mp hv with rfl | ⟨z, rfl, hz⟩
        · decide
        · rw [List.prefix_nil.mp hz]
          decide
  | @head _ _ e u hsplit hu =>
      subst hsplit
      refine parseMetadata_reads ?_ hshort
      have hread : Reads (ascii "\n" ++ (openEntries held ++ u)) (held ++ []) :=
        Reads.open (fun x hx => hstored x (List.mem_append_left _ hx))
          (fun w hw => .head hw (hstored e (by simp)) hu) _ hnewline
      rwa [List.append_nil] at hread
  | fields hsplit hcut | late hsplit hcut =>
      subst hsplit
      refine parseMetadata_reads ?_ hshort
      exact Reads.open (fun x hx => hstored x (List.mem_append_left _ hx))
        (fun w hw => .cut hw (hstored _ (by simp)) hcut) _ hnewline
  | closed hsplit hu =>
      subst hsplit
      refine parseMetadata_reads ?_ hshort
      exact Reads.open (fun x hx => hstored x (List.mem_append_left _ hx))
        (fun w hw => .entry hw (hstored _ (by simp)) (.separator (Or.inl hu))) _ hnewline
  | finished hsplit hu =>
      subst hsplit
      refine parseMetadata_reads ?_ hshort
      exact Reads.open (fun x hx => hstored x (List.mem_append_left _ hx))
        (fun w hw => .entry hw (hstored _ (by simp)) (.separator (Or.inr hu))) _ hnewline

theorem findApp_append {xs ys : List AppEntry} (b : Bytes) :
    findApp (xs ++ ys) b = (findApp xs b).or (findApp ys b) :=
  List.find?_append

/-- An app whose entry is not lost is found, with its path and its hash. -/
theorem CutAt.finds (h : CutAt entries written held lost) (hstored : ∀ e ∈ entries, e.Stored)
    {b : Bytes} {e : AppEntry} (hfound : findApp entries b = some e) (hkept : e ∉ lost) :
    ∃ e', findApp held b = some e' ∧ e'.remotePath = e.remotePath ∧ e'.fileHash = e.fileHash := by
  -- the entry of `b` is before the cut, or it is the one that is cut
  have hsplits : ∀ done x rest, entries = done ++ x :: rest → e ∉ rest →
      findApp done b = some e ∨ findApp done b = none ∧ x.appName = b ∧ x = e := by
    rintro done x rest rfl hrest
    rw [findApp_append] at hfound
    cases hdone : findApp done b with
    | some y =>
        rw [hdone] at hfound
        exact Or.inl hfound
    | none =>
        rw [hdone, Option.none_or] at hfound
        by_cases hname : x.appName = b
        · have hx : x = e := by simpa [findApp, hname] using hfound
          exact Or.inr ⟨rfl, hname, hx⟩
        · have hlater : findApp rest b = some e := by simpa [findApp, hname] using hfound
          exact absurd (List.mem_of_find?_eq_some hlater) hrest
  have hsame : ∀ done x, findApp done b = some e →
      ∃ e', findApp (done ++ [x]) b = some e' ∧ e'.remotePath = e.remotePath ∧
        e'.fileHash = e.fileHash := by
    intro done x hdone
    exact ⟨e, by rw [findApp_append, hdone]; rfl, rfl, rfl⟩
  cases h with
  | opening _ => exact absurd (List.mem_of_find?_eq_some hfound) hkept
  | head hsplit _ =>
      rcases hsplits _ _ _ hsplit (fun hx => hkept (List.mem_cons_of_mem _ hx)) with
        hdone | ⟨-, -, rfl⟩
      · exact ⟨e, hdone, rfl, rfl⟩
      · exact absurd List.mem_cons_self hkept
  | fields hsplit hcut =>
      rcases hsplits _ _ _ hsplit (fun hx => hkept (List.mem_cons_of_mem _ hx)) with
        hdone | ⟨-, -, rfl⟩
      · exact hsame _ _ hdone
      · exact absurd List.mem_cons_self hkept
  | late hsplit hcut hremote hhash =>
      rcases hsplits _ _ _ hsplit hkept with hdone | ⟨hdone, hname, rfl⟩
      · exact hsame _ _ hdone
      · have hname' := (hcut.stored (hstored _ (by simp [hsplit]))).2.trans hname
        refine ⟨_, ?_, hremote, hhash⟩
        rw [findApp_append, hdone]
        simp [findApp, hname']
  | closed hsplit _ =>
      rcases hsplits _ _ _ hsplit hkept with hdone | ⟨hdone, hname, rfl⟩
      · exact hsame _ _ hdone
      · refine ⟨_, ?_, rfl, rfl⟩
        rw [findApp_append, hdone]
        simp [findApp, hname]
  | finished hsplit _ =>
      rw [← hsplit]
      exact ⟨e, hfound, rfl, rfl⟩

/-! ### The whole text -/

theorem renderEntry_eq (e : AppEntry) (last : Bool) :
    renderEntry e last = entryText e ++ ((if last then [] else ascii ",") ++ ascii "\n") := by
  simp [renderEntry, entryText, entryHead, fieldsText, indent, fieldText, ascii]

theorem renderEntries_eq (done : List AppEntry) (e : AppEntry) :
    renderEntries (done ++ [e]) = openEntries done ++ (entryText e ++ ascii "\n") := by
  induction done with
  | nil => simp [renderEntries, openEntries, renderEntry_eq]
  | cons x done ih =>
      cases hrest : done ++ [e] with
      | nil => simp at hrest
      | cons y later =>
          rw [List.cons_append, hrest, renderEntries, ← hrest, ih, renderEntry_eq]
          · simp [openEntries, ascii]
          · simp

/-- The text of a save that was not interrupted holds every entry. -/
theorem CutAt.complete (hne : entries ≠ []) :
    CutAt entries (renderMetadata entries) entries [] := by
  obtain ⟨done, e, rfl⟩ := List.eq_nil_or_concat entries |>.resolve_left hne
  have htext : renderMetadata (done ++ [e]) = ascii "\x7b\n" ++ (openEntries done ++
      (entryText e ++ ascii "\n\x7d\n")) := by
    simp [renderMetadata, renderEntries_eq, ascii]
  rw [List.concat_eq_append, htext]
  exact .finished rfl (List.prefix_refl _)

theorem AppEntry.Stored.length_entryText {e : AppEntry} (h : e.Stored) :
    (entryText e).length ≤ 1000 := by
  have hname := h.name_fits
  have hremote := h.remote_fits
  have hhash := h.hash_fits
  have htime := h.time_fits
  unfold maxAppNameLen at hname
  unfold maxPathLen at hremote
  simp [entryText, entryHead, fieldsText, indent, fieldText, ascii]
  omega

/-- The text of a full table is far from the limit of the parser. -/
theorem length_renderMetadata (hstored : ∀ e ∈ entries, e.Stored)
    (hroom : entries.length ≤ maxApps) : (renderMetadata entries).length ≤ 1024 * 1024 := by
  have hentries : ∀ es : List AppEntry, (∀ e ∈ es, e.Stored) →
      (renderEntries es).length ≤ 1002 * es.length := by
    intro es
    induction es with
    | nil => simp [renderEntries]
    | cons e es ih =>
        intro hes
        have hlater := ih fun x hx => hes x (List.mem_cons_of_mem _ hx)
        have hone := (hes e List.mem_cons_self).length_entryText
        cases es with
        | nil =>
            simp [renderEntries, renderEntry_eq, ascii]
            omega
        | cons x es =>
            simp only [renderEntries, renderEntry_eq, List.length_append,
              List.length_cons] at hlater ⊢
            simp [ascii]
            omega
  have hall := hentries entries hstored
  unfold maxApps at hroom
  simp [renderMetadata, ascii]
  omega

end Cuts

end SatDeploy.Agent
