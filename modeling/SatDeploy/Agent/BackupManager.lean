import SatDeploy.Agent.Files
import SatDeploy.Lib.Sha256

/-!
The backup manager, `satdeploy-agent/src/backup_manager.c`. Results are the C
results read as Booleans or options: `false` and `none` are -1.
-/

namespace SatDeploy.Agent

open Lib

def maxPathLen : Nat := 512
def maxAppNameLen : Nat := 64
def hashHexLen : Nat := 64
def backupRoot : Path := ascii "/opt/satdeploy/backups"

/-- The 64 hex digits of a content. -/
def hexDigest (data : Bytes) : Bytes := hex (sha256 data)

theorem length_hexDigest (data : Bytes) : (hexDigest data).length = hashHexLen :=
  length_hex_sha256 data

theorem hexDigest_ne_nil (data : Bytes) : hexDigest data ≠ [] := by
  intro hnil
  have hlen := length_hexDigest data
  rw [hnil] at hlen
  cases hlen

/-- `%0<width>d` of a number that fits. -/
def digits : Nat → Nat → Bytes
  | 0, _ => []
  | width + 1, n => digits width (n / 10) ++ [UInt8.ofNat (48 + n % 10)]

/-- `strftime` with `%Y%m%d-%H%M%S`. -/
def timestamp (tm : Tm) : Bytes :=
  digits 4 tm.year ++ digits 2 (tm.mon.val + 1) ++ digits 2 tm.day ++ ascii "-" ++
    digits 2 tm.hour ++ digits 2 tm.min ++ digits 2 tm.sec

def backupDir (app : Bytes) : Path :=
  clip maxPathLen (backupRoot ++ ascii "/" ++ app)

def backupPath (app : Bytes) (tm : Tm) (hash : Bytes) : Path :=
  clip maxPathLen (backupDir app ++ ascii "/" ++ timestamp tm ++ ascii "-" ++ hash ++
    ascii ".bak")

def hashSuffix (hash : Bytes) : Bytes := ascii "-" ++ hash ++ ascii ".bak"

def existingPath (app name : Bytes) : Path :=
  clip maxPathLen (backupDir app ++ ascii "/" ++ name)

/-- The directories `mkdir_p` makes on its way to `path`. -/
def parentDirs (path : Path) : List Path :=
  (List.range path.length).filterMap fun i =>
    if 1 ≤ i ∧ path[i]? = some '/'.toUInt8 then some (path.take i) else none

section Programs

variable (env : Env)

def computeFileChecksum (p : Path) : Prog Target (Option Bytes) := do
  match ← fopenRead env p with
  | none => return none
  | some data =>
      let (got, clean) ← freadAll env p data
      return if clean then some (hexDigest got) else none

def mkdirAll : List Path → Prog Target Bool
  | [] => pure true
  | p :: rest => do
      if ← mkdir env p then mkdirAll rest else return false

def mkdirP (path : Path) : Prog Target Bool :=
  let tmp := clip maxPathLen path
  let tmp := if tmp.getLast? = some '/'.toUInt8 then tmp.dropLast else tmp
  mkdirAll env (parentDirs tmp ++ [tmp])

/-- The part of `copy_file` after both streams are open. -/
def copyBytes (src dst : Path) (data : Bytes) : Prog Target Bool := do
  let (got, _) ← freadAll env src data
  let written ← fwriteAll env dst got
  fcloseWritten env dst
  if written then
    match ← statFile env src with
    | some st => do
        chmod env dst st.mode
        return true
    | none => return true
  else return false

def copyFile (src dst : Path) : Prog Target Bool := do
  match ← fopenRead env src with
  | none => return false
  | some data =>
      let unlinked ← unlink env dst
      if ← fopenWrite env dst then
        -- a destination that stayed linked is emptied under the open source
        copyBytes env src dst (if src = dst ∧ unlinked = false then [] else data)
      else return false

/-- The search of `backup_create` for a file that already carries the hash. -/
def findBackup (app hash : Bytes) : Prog Target (Option Path) := do
  match ← opendir env (backupDir app) with
  | none => return none
  | some names =>
      return (names.find? fun name => (hashSuffix hash).isSuffixOf name).map (existingPath app)

/-- The result is the reported path. -/
def backupCreate (app : Bytes) (src : Path) : Prog Target (Option Path) := do
  match ← statFile env src with
  | none => return none
  | some _ =>
      match ← computeFileChecksum env src with
      | none => return none
      | some hash =>
          if ← mkdirP env backupRoot then
            if ← mkdirP env (backupDir app) then
              let now ← timeNow env
              let path := backupPath app (env.localtime now) hash
              match ← findBackup env app hash with
              | some existing => return some existing
              | none =>
                  if ← copyFile env src path then return some path else return none
            else return none
          else return none

def backupRestore (backup dest : Path) : Prog Target Bool := do
  match ← statFile env backup with
  | none => return false
  | some _ =>
      if ← copyFile env backup dest then
        match ← statFile env backup with
        | some bst => do
            chmod env dest bst.mode
            return true
        | none => do
            chmod env dest 0o755
            return true
      else return false

end Programs

section Names

def isSpace (c : UInt8) : Bool := c = 32 || (9 ≤ c && c ≤ 13)

def isDigit (c : UInt8) : Bool := 48 ≤ c && c ≤ 57

/-- `%<width>d` of `sscanf`: what is left of the input. -/
def scanInt (width : Nat) (input : Bytes) : Option Bytes :=
  let input := input.dropWhile isSpace
  let signed := match input with
    | c :: _ => c = '+'.toUInt8 || c = '-'.toUInt8
    | [] => false
  let body := if signed then input.drop 1 else input
  let width := if signed then width - 1 else width
  let number := (body.take width).takeWhile isDigit
  if number = [] then none else some (body.drop number.length)

def scanChar (c : UInt8) : Bytes → Option Bytes
  | d :: rest => if d = c then some rest else none
  | [] => none

/-- `%<width>s` of `sscanf`: the word. -/
def scanWord (width : Nat) (input : Bytes) : Option Bytes :=
  let word := ((input.dropWhile isSpace).take width).takeWhile (fun c => !isSpace c)
  if word = [] then none else some word

/-- `parse_backup_filename`, as far as the hash goes: the legacy form of eight
characters first, then `YYYYMMDD-HHMMSS-<hash>`. -/
def parseBackupFilename (filename : Bytes) : Option Bytes :=
  if filename.length < 5 ∨ ¬ (ascii ".bak").isSuffixOf filename then none
  else
    let name := filename.take (filename.length - 4)
    if filename.length = 12 then some name
    else do
      let rest ← scanInt 4 name
      let rest ← scanInt 2 rest
      let rest ← scanInt 2 rest
      let rest ← scanChar '-'.toUInt8 rest
      let rest ← scanInt 2 rest
      let rest ← scanInt 2 rest
      let rest ← scanInt 2 rest
      let rest ← scanChar '-'.toUInt8 rest
      scanWord hashHexLen rest

/-- What `backup_list` hands to its callback: hash and path. -/
def backupList (env : Env) (app : Bytes) : Prog Target (List (Bytes × Path)) := do
  match ← opendir env (backupDir app) with
  | none => return []
  | some names =>
      return names.filterMap fun name =>
        (parseBackupFilename name).map fun hash => (hash, existingPath app name)

end Names

section Paths

theorem length_backupRoot : backupRoot.length = 22 := rfl

/-- The paths under the backup directory. -/
def underBackups (p : Path) : Prop := p.take 23 = backupRoot ++ ascii "/"

instance (p : Path) : Decidable (underBackups p) :=
  inferInstanceAs (Decidable (p.take 23 = backupRoot ++ ascii "/"))

theorem take_clip {m : Nat} (h : m ≤ 511) (text : Bytes) :
    (clip maxPathLen text).take m = text.take m := by
  unfold clip maxPathLen
  rw [List.take_take, Nat.min_eq_left h]

theorem backupDir_under (app : Bytes) : underBackups (backupDir app) := by
  unfold underBackups backupDir
  rw [take_clip (by decide)]
  exact List.take_left' rfl

theorem underBackups_append {p : Path} (h : underBackups p) (rest : Bytes) :
    underBackups (p ++ rest) := by
  have hlen : 23 ≤ p.length := by
    have hcount := congrArg List.length h
    rw [List.length_take] at hcount
    have hmin : min 23 p.length = 23 := hcount
    omega
  unfold underBackups
  rw [List.take_append_of_le_length hlen]
  exact h

theorem underBackups_clip {text : Bytes} (h : underBackups text) :
    underBackups (clip maxPathLen text) := by
  unfold underBackups
  rw [take_clip (by decide)]
  exact h

theorem backupPath_under (app : Bytes) (tm : Tm) (hash : Bytes) :
    underBackups (backupPath app tm hash) := by
  apply underBackups_clip
  simp only [List.append_assoc]
  exact underBackups_append (backupDir_under app) _

end Paths

section Frames

variable {env : Env} {W : Path → Prop}

/-- `compute_file_checksum` changes nothing, and its answer is the digest of the
bytes on disk. -/
theorem computeFileChecksum_wp {C : Target → Prop} {Q : Option Bytes → Nat → Target → Prop}
    {p : Path} {n : Nat} {s : Target} (hnone : ∀ m, Q none m s)
    (hsome : ∀ m data, s.content p = some data → Q (some (hexDigest data)) m s) :
    Prog.wp (computeFileChecksum env p) C Q n s := by
  unfold computeFileChecksum fopenRead freadAll
  simp only [Prog.wp_bind, Prog.wp_call]
  refine ⟨by simp, ?_⟩
  split
  · exact (Prog.wp_pure _).mpr (hnone _)
  next data hdata =>
    have hcontent : s.content p = some data := by
      split at hdata
      · exact hdata
      · cases hdata
    rw [Prog.wp_bind, Prog.wp_call]
    cases env.fault (n + 1) (.read p) with
    | none =>
        refine ⟨by simp, ?_⟩
        rw [Prog.wp_pure]
        exact hsome _ data hcontent
    | some k =>
        refine ⟨by simp, ?_⟩
        rw [Prog.wp_pure]
        exact hnone _

theorem mkdirP_spares (path : Path) : Spares W (mkdirP env path) := by
  have hall : ∀ paths, Spares W (mkdirAll env paths) := by
    intro paths
    induction paths with
    | nil => exact .pure _
    | cons p rest ih =>
        unfold mkdirAll
        exact .bind (mkdir_spares p) fun _ => .ite ih (.pure _)
  exact hall _

theorem mkdirP_touches (path : Path) : Touches W (mkdirP env path) :=
  (mkdirP_spares path).touches

theorem copyBytes_touches (src : Path) {dst : Path} (hdst : W dst) (data : Bytes) :
    Touches W (copyBytes env src dst data) := by
  unfold copyBytes
  refine .bind (freadAll_touches src data) fun got => ?_
  refine .bind (fwriteAll_touches hdst _) fun written => ?_
  refine .bind (fcloseWritten_touches hdst) fun _ => ?_
  refine .ite (.bind (statFile_touches src) fun st => ?_) (.pure _)
  cases st with
  | none => exact .pure _
  | some st => exact .bind (chmod_touches dst _) fun _ => .pure _

theorem copyFile_touches (src : Path) {dst : Path} (hdst : W dst) :
    Touches W (copyFile env src dst) := by
  unfold copyFile
  refine .bind (fopenRead_touches src) fun data => ?_
  cases data with
  | none => exact .pure _
  | some data =>
      refine .bind (unlink_touches hdst) fun _ => ?_
      exact .bind (fopenWrite_touches hdst) fun _ =>
        .ite (copyBytes_touches src hdst _) (.pure _)

theorem mkdirAll_wp {C : Target → Prop} {paths : List Path} {s : Target} :
    ∀ {n : Nat} {Q : Bool → Nat → Target → Prop}, (∀ made m, Q made m s) →
      Prog.wp (mkdirAll env paths) C Q n s := by
  induction paths with
  | nil =>
      intro n Q h
      exact (Prog.wp_pure _).mpr (h _ _)
  | cons p rest ih =>
      intro n Q h
      rw [mkdirAll, Prog.wp_bind, mkdir, Prog.wp_call]
      refine ⟨by simp, ?_⟩
      split
      · exact ih h
      · exact (Prog.wp_pure _).mpr (h _ _)

theorem mkdirP_wp {C : Target → Prop} {Q : Bool → Nat → Target → Prop} {path : Path} {n : Nat}
    {s : Target} (h : ∀ made m, Q made m s) : Prog.wp (mkdirP env path) C Q n s :=
  mkdirAll_wp h

/-- A backup that is found is in the directory and has the hash in its name. -/
theorem findBackup_wp {C : Target → Prop} {Q : Option Path → Nat → Target → Prop}
    {app hash : Bytes} {n : Nat} {s : Target} (hnone : ∀ m, Q none m s)
    (hfound : ∀ m name, name ∈ s.namesIn (backupDir app) → hashSuffix hash <:+ name →
      Q (some (existingPath app name)) m s) :
    Prog.wp (findBackup env app hash) C Q n s := by
  unfold findBackup
  rw [Prog.wp_bind, opendir, Prog.wp_call]
  split
  · refine ⟨by simp, ?_⟩
    simp only [List.getLastD_nil]
    rw [Prog.wp_pure]
    cases hfind : (env.order (s.namesIn (backupDir app))).find?
        (fun name => (hashSuffix hash).isSuffixOf name) with
    | none => exact hnone _
    | some name =>
        refine hfound _ name ((env.order_perm _).mem_iff.mp (List.mem_of_find?_eq_some hfind)) ?_
        exact List.isSuffixOf_iff_suffix.mp (by simpa using List.find?_some hfind)
  · refine ⟨by simp, ?_⟩
    simp only [List.getLastD_nil]
    exact (Prog.wp_pure _).mpr (hnone _)

/-- `backup_create` writes at most the backup path of the source's content. -/
theorem backupCreate_frame (app : Bytes) (src : Path) (n : Nat) (s : Target) :
    Prog.wp (backupCreate env app src)
      (fun t => ∀ p, (∀ tm data, s.content src = some data →
        p ≠ backupPath app tm (hexDigest data)) → t.content p = s.content p)
      (fun _ _ t => ∀ p, (∀ tm data, s.content src = some data →
        p ≠ backupPath app tm (hexDigest data)) → t.content p = s.content p) n s := by
  have hsame : ∀ {m : Nat} {r : Option Path}, Prog.wp (pure r : Prog Target (Option Path))
      (fun t => ∀ p, (∀ tm data, s.content src = some data →
        p ≠ backupPath app tm (hexDigest data)) → t.content p = s.content p)
      (fun _ _ t => ∀ p, (∀ tm data, s.content src = some data →
        p ≠ backupPath app tm (hexDigest data)) → t.content p = s.content p) m s :=
    (Prog.wp_pure _).mpr fun _ _ => rfl
  unfold backupCreate
  rw [Prog.wp_bind, statFile, Prog.wp_call]
  refine ⟨by simp, ?_⟩
  dsimp only
  split
  · exact hsame
  · rw [Prog.wp_bind]
    apply computeFileChecksum_wp
    · intro m
      exact hsame
    · intro m data hdata
      dsimp only
      rw [Prog.wp_bind]
      refine mkdirP_wp fun made m => ?_
      refine Prog.wp_ite ?_ hsame
      rw [Prog.wp_bind]
      refine mkdirP_wp fun made m => ?_
      refine Prog.wp_ite ?_ hsame
      rw [Prog.wp_bind, timeNow, Prog.wp_call]
      refine ⟨by simp, ?_⟩
      rw [Prog.wp_bind]
      apply findBackup_wp
      · intro m'
        dsimp only
        rw [Prog.wp_bind]
        generalize env.localtime (env.clock m) = tm
        have hcopy : Touches (· = backupPath app tm (hexDigest data))
            (copyFile env src (backupPath app tm (hexDigest data))) := copyFile_touches src rfl
        refine Prog.wp_mono (hcopy.frame m' s) (fun t ht p hp => ht p (hp tm data hdata)) ?_
        intro copied m'' t ht
        split
        · exact (Prog.wp_pure _).mpr fun p hp => ht p (hp tm data hdata)
        · exact (Prog.wp_pure _).mpr fun p hp => ht p (hp tm data hdata)
      · intro m' name _ _
        exact hsame

/-- The paths `backup_create` can write for an app. -/
def IsBackupPath (app : Bytes) (p : Path) : Prop :=
  ∃ tm data, p = backupPath app tm (hexDigest data)

theorem backupCreate_touches (app : Bytes) (src : Path) :
    Touches (IsBackupPath app) (backupCreate env app src) := by
  intro p x hp n s hs
  have hapart : ∀ tm data, s.content src = some data → p ≠ backupPath app tm (hexDigest data) :=
    fun tm data _ hpath => hp ⟨tm, data, hpath⟩
  exact Prog.wp_mono (backupCreate_frame app src n s) (fun t ht => (ht p hapart).trans hs)
    (fun _ _ t ht => (ht p hapart).trans hs)

/-- A source that is not the backup path of its own content survives its
backup. -/
theorem backupCreate_keeps_source {app : Bytes} {src : Path} {x : Option Bytes}
    (hne : ∀ tm data, x = some data → src ≠ backupPath app tm (hexDigest data)) :
    Prog.Keeps (fun s => s.content src = x) (backupCreate env app src) := by
  intro n s hs
  have hapart : ∀ tm data, s.content src = some data →
      src ≠ backupPath app tm (hexDigest data) :=
    fun tm data hdata => hne tm data (hs.symm.trans hdata)
  exact Prog.wp_mono (backupCreate_frame app src n s) (fun t ht => (ht src hapart).trans hs)
    (fun _ _ t ht => (ht src hapart).trans hs)

end Frames

section Reliable

variable {env : Env} {n : Nat} {s : Target}

theorem mkdirAll_ends (hmkdir : ∀ n p, env.fault n (.mkdir p) = none) (paths : List Path) :
    ∀ {n : Nat}, Prog.Ends (mkdirAll env paths) (fun made _ t => made = true ∧ t = s) n s := by
  induction paths with
  | nil =>
      intro n
      rw [mkdirAll, Prog.ends_pure]
      exact ⟨rfl, rfl⟩
  | cons p rest ih =>
      intro n
      rw [mkdirAll, Prog.ends_bind, mkdir_ends (hmkdir n p), if_pos rfl]
      exact ih

theorem mkdirP_ends (hmkdir : ∀ n p, env.fault n (.mkdir p) = none) (path : Path) :
    Prog.Ends (mkdirP env path) (fun made _ t => made = true ∧ t = s) n s :=
  mkdirAll_ends hmkdir _

theorem computeFileChecksum_ends {p : Path} {data : Bytes}
    (hopen : ∀ n, env.fault n (.openRead p) = none)
    (hread : ∀ n, env.fault n (.read p) = none) (hdata : s.content p = some data) :
    Prog.Ends (computeFileChecksum env p)
      (fun r _ t => r = some (hexDigest data) ∧ t = s) n s := by
  unfold computeFileChecksum
  rw [Prog.ends_bind, fopenRead_ends (hopen n), hdata, Prog.ends_bind,
    freadAll_ends (hread _), Prog.ends_pure]
  exact ⟨rfl, rfl⟩

end Reliable

section Total

variable {env : Env}

theorem computeFileChecksum_total (p : Path) : Prog.Total (computeFileChecksum env p) := by
  unfold computeFileChecksum
  refine .bind (.call _) fun data => ?_
  cases data with
  | none => exact .pure _
  | some data => exact .bind (.call _) fun _ => .pure _

theorem mkdirP_total (path : Path) : Prog.Total (mkdirP env path) := by
  have hall : ∀ paths, Prog.Total (mkdirAll env paths) := by
    intro paths
    induction paths with
    | nil => exact .pure _
    | cons p rest ih => exact .bind (.call _) fun _ => .ite ih (.pure _)
  exact hall _

theorem copyFile_total (src dst : Path) : Prog.Total (copyFile env src dst) := by
  have hbytes : ∀ data, Prog.Total (copyBytes env src dst data) := by
    intro data
    refine .bind (.call _) fun got => .bind (.call _) fun written => .bind (.call _) fun _ => ?_
    refine .ite (.bind (.call _) fun st => ?_) (.pure _)
    cases st with
    | none => exact .pure _
    | some st => exact .bind (.call _) fun _ => .pure _
  unfold copyFile
  refine .bind (.call _) fun data => ?_
  cases data with
  | none => exact .pure _
  | some data =>
      exact .bind (.call _) fun _ => .bind (.call _) fun _ => .ite (hbytes _) (.pure _)

/-- `backup_create` always returns. -/
theorem backupCreate_total (app : Bytes) (src : Path) : Prog.Total (backupCreate env app src) := by
  unfold backupCreate
  refine .bind (.call _) fun st => ?_
  cases st with
  | none => exact .pure _
  | some st =>
      refine .bind (computeFileChecksum_total src) fun hash => ?_
      cases hash with
      | none => exact .pure _
      | some hash =>
          refine .bind (mkdirP_total _) fun _ => .ite ?_ (.pure _)
          refine .bind (mkdirP_total _) fun _ => .ite ?_ (.pure _)
          refine .bind (.call _) fun now => ?_
          refine .bind (.bind (.call _) fun names => ?_) fun existing => ?_
          · cases names with
            | none => exact .pure _
            | some names => exact .pure _
          · cases existing with
            | some existing => exact .pure _
            | none => exact .bind (copyFile_total _ _) fun _ => .ite (.pure _) (.pure _)

theorem backupRestore_total (backup dest : Path) :
    Prog.Total (backupRestore env backup dest) := by
  unfold backupRestore
  refine .bind (.call _) fun st => ?_
  cases st with
  | none => exact .pure _
  | some st =>
      refine .bind (copyFile_total _ _) fun _ => .ite (.bind (.call _) fun bst => ?_) (.pure _)
      cases bst with
      | none => exact .bind (.call _) fun _ => .pure _
      | some bst => exact .bind (.call _) fun _ => .pure _

end Total

section Memory

variable {env : Env}

theorem computeFileChecksum_memory (p : Path) : KeepsMemory (computeFileChecksum env p) := by
  unfold computeFileChecksum
  refine .bind (.observe fun _ _ => rfl) fun data => ?_
  cases data with
  | none => exact .pure _
  | some data => exact .bind (freadAll_memory p data) fun _ => .pure _

theorem mkdirP_memory (path : Path) : KeepsMemory (mkdirP env path) := by
  have hall : ∀ paths, KeepsMemory (mkdirAll env paths) := by
    intro paths
    induction paths with
    | nil => exact .pure _
    | cons p rest ih => exact .bind (.observe fun _ _ => rfl) fun _ => .ite ih (.pure _)
  exact hall _

theorem copyFile_memory (src dst : Path) : KeepsMemory (copyFile env src dst) := by
  have hbytes : ∀ data, KeepsMemory (copyBytes env src dst data) := by
    intro data
    refine .bind (freadAll_memory _ _) fun got => .bind (fwriteAll_memory _ _) fun written => ?_
    refine .bind (fcloseWritten_memory _) fun _ => ?_
    refine .ite (.bind (.observe fun _ _ => rfl) fun st => ?_) (.pure _)
    cases st with
    | none => exact .pure _
    | some st => exact .bind (chmod_memory _ _) fun _ => .pure _
  unfold copyFile
  refine .bind (.observe fun _ _ => rfl) fun data => ?_
  cases data with
  | none => exact .pure _
  | some data =>
      exact .bind (unlink_memory _) fun _ =>
        .bind (fopenWrite_memory _) fun _ => .ite (hbytes _) (.pure _)

theorem backupCreate_memory (app : Bytes) (src : Path) :
    KeepsMemory (backupCreate env app src) := by
  unfold backupCreate
  refine .bind (.observe fun _ _ => rfl) fun st => ?_
  cases st with
  | none => exact .pure _
  | some st =>
      refine .bind (computeFileChecksum_memory src) fun hash => ?_
      cases hash with
      | none => exact .pure _
      | some hash =>
          refine .bind (mkdirP_memory _) fun _ => .ite ?_ (.pure _)
          refine .bind (mkdirP_memory _) fun _ => .ite ?_ (.pure _)
          refine .bind (.observe fun _ _ => rfl) fun now => ?_
          refine .bind (.bind (opendir_memory _) fun names => ?_) fun existing => ?_
          · cases names with
            | none => exact .pure _
            | some names => exact .pure _
          · cases existing with
            | some existing => exact .pure _
            | none => exact .bind (copyFile_memory _ _) fun _ => .ite (.pure _) (.pure _)

theorem backupRestore_memory (backup dest : Path) :
    KeepsMemory (backupRestore env backup dest) := by
  unfold backupRestore
  refine .bind (.observe fun _ _ => rfl) fun st => ?_
  cases st with
  | none => exact .pure _
  | some st =>
      refine .bind (copyFile_memory _ _) fun _ => .ite ?_ (.pure _)
      refine .bind (.observe fun _ _ => rfl) fun bst => ?_
      cases bst with
      | none => exact .bind (chmod_memory _ _) fun _ => .pure _
      | some bst => exact .bind (chmod_memory _ _) fun _ => .pure _

end Memory

section Finishing

variable {env : Env} {n : Nat} {s : Target}

/-- Writing into an empty file leaves exactly the bytes. -/
theorem fwriteAll_whole (henv : env.Finishes) {p : Path}
    {bytes : Bytes} (hempty : s.content p = some []) :
    Prog.wp (fwriteAll env p bytes) (fun _ => True)
      (fun written _ t => written = true ∧ t.content p = some bytes ∧
        ∀ q, q ≠ p → t.content q = s.content q) n s := by
  obtain ⟨f, hlookup, hdata⟩ := exists_lookup hempty
  unfold fwriteAll
  rw [Prog.wp_call, henv.write]
  refine ⟨fun _ _ => trivial, rfl, ?_⟩
  rcases List.eq_nil_or_concat bytes with rfl | ⟨init, last, rfl⟩
  · exact ⟨hempty, fun _ _ => rfl⟩
  · simp only [List.length_concat, List.range_succ, List.map_append, List.map_cons,
      List.map_nil, List.getLastD_concat]
    have hall : (init.concat last).take (init.length + 1) = init.concat last :=
      List.take_of_length_le (by simp)
    rw [hall]
    refine ⟨?_, fun q hq => Target.content_append_ne hq _ _⟩
    unfold Target.append
    rw [hlookup, Target.content_put, hdata]
    rfl

theorem copyBytes_whole (henv : env.Finishes) (src : Path) {dst : Path} {data : Bytes}
    (hempty : s.content dst = some []) :
    Prog.wp (copyBytes env src dst data) (fun _ => True)
      (fun copied _ t => copied = true ∧ t.content dst = some data ∧
        ∀ p, p ≠ dst → t.content p = s.content p) n s := by
  unfold copyBytes
  rw [Prog.wp_bind, freadAll, Prog.wp_call, henv.read]
  refine ⟨by simp, ?_⟩
  dsimp only
  rw [Prog.wp_bind]
  refine Prog.wp_imp (fwriteAll_whole henv hempty) ?_
  rintro _ m t ⟨rfl, hdata, hothers⟩
  rw [Prog.wp_bind, fcloseWritten, Prog.wp_call, henv.close]
  refine ⟨by simp, ?_⟩
  simp only [List.getLastD_nil, if_true]
  rw [Prog.wp_bind, statFile, Prog.wp_call]
  refine ⟨by simp, ?_⟩
  split
  · rw [Prog.wp_bind]
    refine Prog.wp_mono ((chmod_touches (W := fun _ => False) dst _).frame _ t)
      (fun _ _ => trivial) ?_
    intro _ m' u hu
    rw [Prog.wp_pure]
    refine ⟨rfl, ?_, ?_⟩
    · rw [hu dst id]
      exact hdata
    · intro p hp
      rw [hu p id]
      exact hothers p hp
  · rw [Prog.wp_pure]
    exact ⟨rfl, hdata, hothers⟩

/-- A copy that is not cut has the source's content, and a copy that could not
be made left the destination alone or removed it. -/
theorem copyFile_whole (henv : env.Finishes) {src dst : Path} {data : Bytes}
    (hdata : s.content src = some data) :
    Prog.wp (copyFile env src dst) (fun _ => True)
      (fun copied _ t => (∀ p, p ≠ dst → t.content p = s.content p) ∧
        (copied = true → t.content dst = some data) ∧
        (copied = false → t.content dst = none ∨ t.content dst = s.content dst)) n s := by
  unfold copyFile
  rw [Prog.wp_bind, fopenRead, Prog.wp_call]
  refine ⟨by simp, ?_⟩
  dsimp only
  split
  next =>
    rw [Prog.wp_pure]
    exact ⟨fun _ _ => rfl, by simp, fun _ => Or.inr rfl⟩
  next got hgot =>
    have hsame : got = data := by
      split at hgot
      · exact Option.some.inj (hgot.symm.trans hdata)
      · cases hgot
    rw [hsame]
    simp only [List.getLastD_nil]
    rw [Prog.wp_bind]
    -- after the unlink the destination is gone and the source still readable
    have hunlink : Prog.wp (unlink env dst) (fun _ => True)
        (fun unlinked _ t => t.content dst = none ∧ (∀ p, p ≠ dst → t.content p = s.content p) ∧
          ¬ (src = dst ∧ unlinked = false)) (n + 1) s := by
      unfold unlink
      rw [Prog.wp_call]
      cases hlookup : s.fs.lookup dst with
      | none =>
          have habsent : s.content dst = none := by simp [Target.content, hlookup]
          simp only [Option.isSome_none, Bool.and_false, Bool.false_eq_true, if_false,
            List.getLastD_nil]
          refine ⟨by simp, habsent, by simp, ?_⟩
          rintro ⟨rfl, -⟩
          rw [habsent] at hdata
          cases hdata
      | some f =>
          simp only [Env.ok, henv.unlink, Option.isNone_none, Option.isSome_some, Bool.and_self,
            if_true, List.getLastD_cons, List.getLastD_nil]
          exact ⟨fun _ _ => trivial, Target.content_remove,
            fun _ hp => Target.content_remove_ne hp, by simp⟩
    refine Prog.wp_imp hunlink ?_
    rintro unlinked m t ⟨hgone, hothers, hread⟩
    rw [if_neg hread, Prog.wp_bind, fopenWrite, Prog.wp_call]
    split
    · refine ⟨fun _ _ => trivial, ?_⟩
      simp only [List.getLastD_cons, List.getLastD_nil, if_true]
      refine Prog.wp_imp (copyBytes_whole henv src Target.content_put) ?_
      rintro _ m' u ⟨rfl, hcopied, hrest⟩
      refine ⟨?_, fun _ => hcopied, by simp⟩
      intro p hp
      rw [hrest p hp, Target.content_put_ne hp, hothers p hp]
    · refine ⟨by simp, ?_⟩
      simp only [List.getLastD_nil, Bool.false_eq_true, if_false]
      rw [Prog.wp_pure]
      exact ⟨hothers, by simp, fun _ => Or.inl hgone⟩

/-- Every way a backup can go when nothing that is begun is cut: nothing is
done, a file that carries the hash in its name is reported, the copy is made
whole, or it is not made at all. -/
theorem backupCreate_whole (henv : env.Finishes) {app : Bytes} {src : Path}
    {Q : Option Path → Nat → Target → Prop} (hnone : ∀ m, Q none m s)
    (hfound : ∀ m data name, s.content src = some data → name ∈ s.namesIn (backupDir app) →
      hashSuffix (hexDigest data) <:+ name → Q (some (existingPath app name)) m s)
    (hcopied : ∀ m t tm data, s.content src = some data →
      (∀ p, p ≠ backupPath app tm (hexDigest data) → t.content p = s.content p) →
      t.content (backupPath app tm (hexDigest data)) = some data →
      Q (some (backupPath app tm (hexDigest data))) m t)
    (hlost : ∀ m t tm data, s.content src = some data →
      (∀ p, p ≠ backupPath app tm (hexDigest data) → t.content p = s.content p) →
      (t.content (backupPath app tm (hexDigest data)) = none ∨
        t.content (backupPath app tm (hexDigest data)) =
          s.content (backupPath app tm (hexDigest data))) → Q none m t) :
    Prog.wp (backupCreate env app src) (fun _ => True) Q n s := by
  unfold backupCreate
  rw [Prog.wp_bind, statFile, Prog.wp_call]
  refine ⟨by simp, ?_⟩
  dsimp only
  split
  · exact (Prog.wp_pure _).mpr (hnone _)
  · rw [Prog.wp_bind]
    apply computeFileChecksum_wp
    · intro m
      exact (Prog.wp_pure _).mpr (hnone _)
    · intro m data hdata
      simp only [List.getLastD_nil] at hdata ⊢
      rw [Prog.wp_bind]
      refine mkdirP_wp fun made m => ?_
      split
      · rw [Prog.wp_bind]
        refine mkdirP_wp fun made m => ?_
        split
        · rw [Prog.wp_bind, timeNow, Prog.wp_call]
          refine ⟨by simp, ?_⟩
          simp only [List.getLastD_nil]
          rw [Prog.wp_bind]
          apply findBackup_wp
          · intro m'
            dsimp only
            rw [Prog.wp_bind]
            refine Prog.wp_imp (copyFile_whole henv hdata) ?_
            rintro copied m'' t ⟨hothers, hdone, hfailed⟩
            split
            next hcopy => exact (Prog.wp_pure _).mpr (hcopied _ _ _ _ hdata hothers (hdone hcopy))
            next hcopy =>
              exact (Prog.wp_pure _).mpr
                (hlost _ _ _ _ hdata hothers (hfailed (by simpa using hcopy)))
          · intro m' name hname hsuffix
            exact (Prog.wp_pure _).mpr (hfound _ data name hdata hname hsuffix)
        · exact (Prog.wp_pure _).mpr (hnone _)
      · exact (Prog.wp_pure _).mpr (hnone _)

end Finishing

end SatDeploy.Agent
