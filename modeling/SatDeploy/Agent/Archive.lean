import Mathlib.Data.List.TakeWhile
import SatDeploy.Agent.Connection
import SatDeploy.Agent.Reliable

/-!
The backup directory of an app as an archive: one file for each version, found
by the hash in its name. `backup_create` writes the name, its duplicate check
looks for a suffix of it and `backup_list` takes it apart again; the three
agree on every name that `backup_create` makes.
-/

namespace SatDeploy.Agent

open Lib

/-- From this length of an app name on, the path of a backup is cut. -/
def maxFiledLen : Nat := 404

/-- The name `backup_create` gives to a version. -/
def backupName (tm : Tm) (hash : Bytes) : Bytes :=
  timestamp tm ++ ascii "-" ++ hash ++ ascii ".bak"

section Names

variable {app : Bytes} {tm : Tm} {data : Bytes}

theorem exists_digit_of_mem_digits {width n : Nat} {c : UInt8} (h : c ∈ digits width n) :
    ∃ d < 10, c = UInt8.ofNat (48 + d) := by
  induction width generalizing n with
  | zero => cases h
  | succ width ih =>
      rw [digits, List.mem_append, List.mem_singleton] at h
      rcases h with h | rfl
      · exact ih h
      · exact ⟨_, Nat.mod_lt _ (by decide), rfl⟩

theorem exists_hexDigit_of_mem_hex {bytes : Bytes} {c : UInt8} (h : c ∈ hex bytes) :
    ∃ d < 16, c = hexDigit d := by
  obtain ⟨b, -, hc⟩ := List.mem_flatMap.mp h
  have hb := b.toNat_lt
  rcases List.mem_pair.mp hc with rfl | rfl
  · exact ⟨_, by omega, rfl⟩
  · exact ⟨_, by omega, rfl⟩

theorem length_timestamp : (timestamp tm).length = 15 := by
  simp only [timestamp, List.length_append, length_digits]
  rfl

theorem length_backupName : (backupName tm (hexDigest data)).length = 84 := by
  simp only [backupName, List.length_append, length_timestamp, length_hexDigest]
  rfl

theorem slash_notMem_backupName : '/'.toUInt8 ∉ backupName tm (hexDigest data) := by
  have hmarks : '/'.toUInt8 ∉ ascii "-" ∧ '/'.toUInt8 ∉ ascii ".bak" := by decide
  have hdigits : ∀ width n, '/'.toUInt8 ∉ digits width n := by
    intro width n h
    obtain ⟨d, hd, heq⟩ := exists_digit_of_mem_digits h
    have hslash : ∀ d < 10, '/'.toUInt8 ≠ UInt8.ofNat (48 + d) := by decide
    exact hslash d hd heq
  have hhex : '/'.toUInt8 ∉ hexDigest data := by
    intro h
    obtain ⟨d, hd, heq⟩ := exists_hexDigit_of_mem_hex h
    have hslash : ∀ d < 16, '/'.toUInt8 ≠ hexDigit d := by decide
    exact hslash d hd heq
  simp only [backupName, timestamp, List.mem_append, hdigits, hmarks.1, hmarks.2, hhex, or_self,
    not_false_iff]

theorem hashSuffix_backupName (tm : Tm) (hash : Bytes) :
    hashSuffix hash <:+ backupName tm hash := by
  refine ⟨timestamp tm, ?_⟩
  simp only [hashSuffix, backupName, List.append_assoc]

section Fitting

variable (happ : app.length < maxFiledLen)
include happ

theorem backupDir_eq : backupDir app = backupRoot ++ ascii "/" ++ app := by
  refine clip_of_lt ?_
  have hslash : (ascii "/").length = 1 := rfl
  unfold maxFiledLen at happ
  simp only [List.length_append, length_backupRoot, hslash, maxPathLen]
  omega

theorem length_backupDir : (backupDir app).length ≤ 426 := by
  have hslash : (ascii "/").length = 1 := rfl
  unfold maxFiledLen at happ
  rw [backupDir_eq happ]
  simp only [List.length_append, length_backupRoot, hslash]
  omega

/-- The path of a backup fits, whatever the time. -/
theorem backupPath_eq :
    backupPath app tm (hexDigest data) =
      backupDir app ++ ascii "/" ++ backupName tm (hexDigest data) := by
  have hdir := length_backupDir happ
  have hslash : (ascii "/").length = 1 := rfl
  have hfits : (backupDir app ++ ascii "/" ++ backupName tm (hexDigest data)).length <
      maxPathLen := by
    simp only [List.length_append, hslash, length_backupName, maxPathLen]
    omega
  rw [← clip_of_lt hfits, backupPath, backupName]
  simp only [List.append_assoc]

theorem nameIn_backupPath :
    nameIn (backupDir app) (backupPath app tm (hexDigest data)) =
      some (backupName tm (hexDigest data)) := by
  have hlen : (backupDir app).length + 1 = (backupDir app ++ ascii "/").length := by
    rw [List.length_append]
    rfl
  have hne : backupName tm (hexDigest data) ≠ [] := by
    intro h
    have hlen := congrArg List.length h
    rw [length_backupName] at hlen
    cases hlen
  have hslash : (backupName tm (hexDigest data)).contains '/'.toUInt8 = false := by
    simpa using slash_notMem_backupName
  have hstarts : (backupDir app ++ ascii "/").isPrefixOf
      (backupDir app ++ ascii "/" ++ backupName tm (hexDigest data)) = true :=
    List.isPrefixOf_iff_prefix.mpr (List.prefix_append _ _)
  rw [backupPath_eq happ, nameIn, if_pos hstarts]
  simp only [hlen, List.drop_left, hne, hslash, Bool.false_eq_true, or_self, if_false]

end Fitting

/-- `%<width>d` takes the digits `strftime` wrote for it. -/
theorem scanInt_digits {width n : Nat} (hwidth : 0 < width) (rest : Bytes) :
    scanInt width (digits width n ++ rest) = some rest := by
  obtain ⟨c, number, hnumber⟩ : ∃ c number, digits width n = c :: number := by
    cases hdigits : digits width n with
    | nil =>
        have hlen := length_digits width n
        rw [hdigits] at hlen
        simp at hlen
        omega
    | cons c number => exact ⟨c, number, rfl⟩
  have hdigit : ∀ d < 10, isDigit (UInt8.ofNat (48 + d)) = true ∧
      isSpace (UInt8.ofNat (48 + d)) = false ∧ UInt8.ofNat (48 + d) ≠ '+'.toUInt8 ∧
      UInt8.ofNat (48 + d) ≠ '-'.toUInt8 := by decide
  have hall : ∀ d ∈ digits width n, isDigit d = true := by
    intro d hd
    obtain ⟨k, hk, rfl⟩ := exists_digit_of_mem_digits hd
    exact (hdigit k hk).1
  obtain ⟨k, hk, rfl⟩ := exists_digit_of_mem_digits (hnumber ▸ List.mem_cons_self)
  obtain ⟨-, hspace, hplus, hminus⟩ := hdigit k hk
  have hskip : (digits width n ++ rest).dropWhile isSpace =
      UInt8.ofNat (48 + k) :: (number ++ rest) := by
    rw [hnumber, List.cons_append, List.dropWhile_cons_of_neg (by simp only [hspace,
      Bool.false_eq_true, not_false_iff])]
  have htake : ((UInt8.ofNat (48 + k) :: (number ++ rest)).take width).takeWhile isDigit =
      digits width n := by
    rw [← List.cons_append, ← hnumber, List.take_left' (length_digits width n)]
    exact List.takeWhile_eq_self_iff.mpr hall
  have hdrop : (UInt8.ofNat (48 + k) :: (number ++ rest)).drop (digits width n).length = rest := by
    rw [← List.cons_append, ← hnumber, List.drop_left]
  have hne : ¬ digits width n = [] := by simp [hnumber]
  simp only [scanInt, hskip, hplus, hminus, decide_false, Bool.or_self, Bool.false_eq_true,
    if_false, htake, if_neg hne, hdrop]

theorem scanWord_hexDigest : scanWord hashHexLen (hexDigest data) = some (hexDigest data) := by
  have hspace : ∀ d < 16, isSpace (hexDigit d) = false := by decide
  have hall : ∀ c ∈ hexDigest data, isSpace c = false := by
    intro c hc
    obtain ⟨d, hd, rfl⟩ := exists_hexDigit_of_mem_hex hc
    exact hspace d hd
  have hlen := length_hexDigest data
  have hskip : (hexDigest data).dropWhile isSpace = hexDigest data := by
    rw [List.dropWhile_eq_self_iff]
    intro hpos
    simp [hall _ (List.getElem_mem hpos)]
  have htake : ((hexDigest data).take hashHexLen).takeWhile (fun c => !isSpace c) =
      hexDigest data := by
    rw [List.take_of_length_le (le_of_eq hlen), List.takeWhile_eq_self_iff]
    intro c hc
    simp [hall c hc]
  simp only [scanWord, hskip, htake, if_neg (hexDigest_ne_nil data)]

/-- `backup_list` reads the hash back from every name that is made. -/
theorem parseBackupFilename_backupName :
    parseBackupFilename (backupName tm (hexDigest data)) = some (hexDigest data) := by
  have hlen : (backupName tm (hexDigest data)).length = 84 := length_backupName
  have hsuffix : (ascii ".bak").isSuffixOf (backupName tm (hexDigest data)) = true :=
    List.isSuffixOf_iff_suffix.mpr (List.suffix_append _ _)
  have hbody : (backupName tm (hexDigest data)).take (84 - 4) =
      timestamp tm ++ ascii "-" ++ hexDigest data := by
    refine List.take_left' ?_
    simp only [List.length_append, length_timestamp, length_hexDigest]
    rfl
  have hdash : ∀ rest, scanChar '-'.toUInt8 (ascii "-" ++ rest) = some rest := fun _ => rfl
  simp only [parseBackupFilename, hlen, hsuffix, hbody, timestamp, List.append_assoc]
  simp [scanInt_digits, hdash, scanWord_hexDigest]

end Names

/-- What makes up the archive of an app: its directory and the files in it. -/
def InArchive (app : Bytes) (p : Path) : Prop :=
  p = backupDir app ∨ ∃ name, nameIn (backupDir app) p = some name

/-- The archive of `s`, modification times included. -/
def SameArchive (app : Bytes) (s t : Target) : Prop :=
  ∀ p, InArchive app p → t.fs.lookup p = s.fs.lookup p

/-- The archive of `s` in `t`, with a fresh backup of the content `x` unless
there is one. -/
inductive Filed (env : Env) (app : Bytes) : Option Bytes → Target → Target → Prop where
  | kept {x : Option Bytes} {s t : Target} (hsame : SameArchive app s t)
      (hhas : ∀ data, x = some data → s.HasBackup app (hexDigest data)) : Filed env app x s t
  | added {data : Bytes} {s t : Target} (hnew : ¬ s.HasBackup app (hexDigest data)) (k : Nat)
      {f : File}
      (hfile : t.fs.lookup (backupPath app (env.localtime (env.clock k)) (hexDigest data)) =
        some f)
      (hfresh : Fresh env data f)
      (hothers : ∀ p, InArchive app p →
        p ≠ backupPath app (env.localtime (env.clock k)) (hexDigest data) →
        t.fs.lookup p = s.fs.lookup p) : Filed env app (some data) s t

section Filing

variable {env : Env} {app : Bytes} {s t u : Target} {x : Option Bytes}

theorem InArchive.under {p : Path} (h : InArchive app p) : underBackups p := by
  rcases h with rfl | ⟨name, hname⟩
  · exact backupDir_under app
  · rw [nameIn_eq_some hname, List.append_assoc]
    exact underBackups_append (backupDir_under app) _

theorem SameArchive.refl : SameArchive app s s := fun _ _ => rfl

theorem SameArchive.trans (hst : SameArchive app s t) (htu : SameArchive app t u) :
    SameArchive app s u := fun p hp => (htu p hp).trans (hst p hp)

/-- A program that spares the archive. -/
theorem SameArchive.of_frame {W : Path → Prop} (h : ∀ p, ¬ W p → t.fs.lookup p = s.fs.lookup p)
    (hW : ∀ p, W p → ¬ InArchive app p) : SameArchive app s t :=
  fun p hp => h p fun hw => hW p hw hp

theorem SameArchive.hasBackup (h : SameArchive app s t) {hash : Bytes} :
    t.HasBackup app hash ↔ s.HasBackup app hash := by
  have hcontent : ∀ p name, nameIn (backupDir app) p = some name →
      t.content p = s.content p := fun p name hname =>
    Target.content_congr (h p (Or.inr ⟨name, hname⟩))
  have hnames : ∀ name, name ∈ t.namesIn (backupDir app) ↔ name ∈ s.namesIn (backupDir app) := by
    intro name
    rw [Target.mem_namesIn, Target.mem_namesIn]
    constructor
    · rintro ⟨p, data, hname, hdata⟩
      exact ⟨p, data, hname, (hcontent p name hname).symm.trans hdata⟩
    · rintro ⟨p, data, hname, hdata⟩
      exact ⟨p, data, hname, (hcontent p name hname).trans hdata⟩
  unfold Target.HasBackup
  rw [h (backupDir app) (Or.inl rfl)]
  simp only [hnames]

theorem Filed.refl_none : Filed env app none s s :=
  .kept .refl fun _ h => by cases h

theorem Filed.before (h : Filed env app x t u) (hsame : SameArchive app s t) :
    Filed env app x s u := by
  cases h with
  | kept htu hhas => exact .kept (hsame.trans htu) fun data hx => hsame.hasBackup.mp (hhas data hx)
  | added hnew k hfile hfresh hothers =>
      refine .added (fun h => hnew (hsame.hasBackup.mpr h)) k hfile hfresh fun p hp hne => ?_
      exact (hothers p hp hne).trans (hsame p hp)

section Fitting

variable (happ : app.length < maxFiledLen)
include happ

theorem inArchive_backupPath (tm : Tm) (data : Bytes) :
    InArchive app (backupPath app tm (hexDigest data)) :=
  Or.inr ⟨_, nameIn_backupPath happ⟩

theorem Filed.after (h : Filed env app x s t) (hsame : SameArchive app t u) :
    Filed env app x s u := by
  cases h with
  | kept hst hhas => exact .kept (hst.trans hsame) hhas
  | added hnew k hfile hfresh hothers =>
      refine .added hnew k ((hsame _ (inArchive_backupPath happ _ _)).trans hfile) hfresh ?_
      exact fun p hp hne => (hsame p hp).trans (hothers p hp hne)

/-- A backup files the content of its source and leaves all other files alone. -/
theorem backupCreate_filed (henv : env.Reliable) {src : Path} {data : Bytes} {n : Nat}
    (hdata : s.content src = some data) :
    Prog.Ends (backupCreate env app src) (fun r _ t => r.isSome ∧
      Filed env app (some data) s t ∧ ∀ p, ¬ InArchive app p → t.fs.lookup p = s.fs.lookup p)
      n s := by
  refine (backupCreate_reliable henv hdata).imp ?_
  rintro r m t ⟨hsome, hbackup⟩
  refine ⟨hsome, ?_⟩
  rcases hbackup with ⟨hhas, rfl⟩ | ⟨hnew, k, ⟨f, hfile, hfresh⟩, hothers⟩
  · refine ⟨.kept .refl fun found hfound => ?_, fun _ _ => rfl⟩
    rw [← Option.some.inj hfound]
    exact hhas
  · refine ⟨.added hnew k hfile hfresh fun p _ hne => hothers p hne, fun p hp => ?_⟩
    apply hothers
    rintro rfl
    exact hp (inArchive_backupPath happ _ _)

/-- The backup before an install files what is there. -/
theorem backupBefore_filed (henv : env.Reliable) {remote : Path} {n : Nat} :
    Prog.Ends (backupBefore env app remote) (fun r _ t => r.isSome ∧
      Filed env app (s.content remote) s t ∧
      ∀ p, ¬ InArchive app p → t.fs.lookup p = s.fs.lookup p) n s := by
  unfold backupBefore
  rw [Prog.ends_bind, access_ends (henv _ _)]
  cases hlookup : s.fs.lookup remote with
  | none =>
      have hnone : s.content remote = none := by simp [Target.content, hlookup]
      simp only [Option.isSome_none, Bool.false_eq_true, if_false]
      rw [Prog.ends_pure, hnone]
      exact ⟨rfl, .refl_none, fun _ _ => rfl⟩
  | some f =>
      have hdata := Target.content_of_lookup hlookup
      simp only [Option.isSome_some, if_true]
      rw [hdata]
      exact backupCreate_filed happ henv hdata

end Fitting

end Filing

/-- A remote path that is no file of the agent: it is not in the archive of the
app, nor is its temporary file, and it is neither of the temporary files, the
sidecar or the metadata. -/
structure Installable (app : Bytes) (remote : Path) : Prop where
  archive : ¬ InArchive app remote
  temp_archive : ¬ InArchive app (tempPath remote)
  temp : tempPath remote ≠ remote
  upload : uploadTempPath app ≠ remote
  sidecar : sessionStateSvuPath app ≠ some remote
  metadata : metadataFile ≠ remote

section Apart

variable {app : Bytes}

theorem metadataFile_notInArchive : ¬ InArchive app metadataFile :=
  fun h => absurd h.under (by decide)

theorem sidecar_notInArchive {p : Path} (h : sessionStateSvuPath app = some p) :
    ¬ InArchive app p := by
  intro harchive
  have hunder := harchive.under
  unfold sessionStateSvuPath at h
  dsimp only at h
  split at h
  · rw [← Option.some.inj h, underBackups, List.append_assoc, List.append_assoc,
      List.take_append_of_le_length (by decide)] at hunder
    exact absurd hunder (by decide)
  · cases h

theorem uploadTempPath_notInArchive (name : Bytes) : ¬ InArchive app (uploadTempPath name) := by
  intro harchive
  have hunder := harchive.under
  unfold underBackups uploadTempPath at hunder
  rw [take_clip (by decide), List.append_assoc] at hunder
  have hfirst := congrArg (List.take 2) hunder
  rw [List.take_take, List.take_append_of_le_length (by decide)] at hfirst
  exact absurd hfirst (by decide)

end Apart

end SatDeploy.Agent
