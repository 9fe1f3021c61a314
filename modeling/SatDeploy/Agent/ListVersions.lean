import SatDeploy.Agent.InstallIntegrity
import SatDeploy.Agent.RollbackDial
import SatDeploy.Lib.Distinct

/-!
`handle_list_versions` of `deploy_handler.c`, and how far what it lists can be
rolled back to. Listing and rollback walk the same directory with collectors of
different sizes: 64 entries for the list, 32 for the dial.
-/

namespace SatDeploy.Agent

open Lib

/-- `BackupEntry` of the protocol. -/
structure VersionEntry where
  version : Bytes
  timestamp : Bytes
  hash : Bytes
  path : Path
  sizeBytes : Nat
  deriving DecidableEq, Repr

/-- `AppStatusEntry` of the protocol. -/
structure StatusEntry where
  appName : Bytes
  running : Bool
  fileHash : Bytes
  remotePath : Bytes
  deriving DecidableEq, Repr

/-- `DeployResponse`, with the fields of all commands. -/
structure Response where
  success : Bool
  errorCode : DeployError
  errorMessage : Bytes
  apps : List StatusEntry
  backups : List VersionEntry
  logOutput : Bytes
  backupPath : Bytes
  deriving DecidableEq, Repr

/-- The response of a handler that fills in no list and no log. -/
def DeployResponse.full (r : DeployResponse) : Response where
  success := r.success
  errorCode := r.errorCode
  errorMessage := r.errorMessage.toUTF8.data.toList
  apps := []
  backups := []
  logOutput := []
  backupPath := r.backupPath

section Names

/-- The value `%<width>d` of `sscanf` stores. -/
def scanValue (width : Nat) (input : Bytes) : Int :=
  let input := input.dropWhile isSpace
  let sign := input.head?
  let signed := sign = some '+'.toUInt8 ∨ sign = some '-'.toUInt8
  let body := if signed then input.drop 1 else input
  let width := if signed then width - 1 else width
  let number := (body.take width).takeWhile isDigit
  let value : Int := number.foldl (fun v c => 10 * v + (c.toNat - 48 : Nat)) 0
  if sign = some '-'.toUInt8 then -value else value

/-- `%0<width>d` of a number that fits. -/
def padInt (width : Nat) (v : Int) : Bytes :=
  if v < 0 then ascii "-" ++ digits (width - 1) v.natAbs else digits width v.toNat

/-- The timestamp `parse_backup_filename` reads out of a name. -/
def nameTimestamp (name : Bytes) : Option Bytes := do
  let r₁ ← scanInt 4 name
  let r₂ ← scanInt 2 r₁
  let r₃ ← scanInt 2 r₂
  let r₄ ← scanChar '-'.toUInt8 r₃
  let r₅ ← scanInt 2 r₄
  let r₆ ← scanInt 2 r₅
  return padInt 4 (scanValue 4 name) ++ ascii "-" ++ padInt 2 (scanValue 2 r₁) ++ ascii "-" ++
    padInt 2 (scanValue 2 r₂) ++ ascii "T" ++ padInt 2 (scanValue 2 r₄) ++ ascii ":" ++
    padInt 2 (scanValue 2 r₅) ++ ascii ":" ++ padInt 2 (scanValue 2 r₆)

/-- The version of a backup is its name without `.bak`. -/
def backupVersion (filename : Bytes) : Bytes := clip 96 (filename.take (filename.length - 4))

end Names

section Programs

variable (env : Env)

def maxBackupEntries : Nat := 64

/-- The timestamp of a listed backup: of the file for a legacy name, else of the
name. -/
def backupTimestamp (filename : Bytes) (path : Path) : Prog Target Bytes := do
  if filename.length = 12 then
    match ← statFile env path with
    | some st => return isoTime (env.localtime st.mtime)
    | none => return ascii "unknown"
  else return (nameTimestamp (filename.take (filename.length - 4))).getD []

/-- `backup_list` with `backup_collect_callback`, over the names in the
directory. -/
def collectVersions (app : Bytes) : List Bytes → List VersionEntry →
    Prog Target (List VersionEntry)
  | [], entries => pure entries
  | name :: rest, entries =>
      match parseBackupFilename name with
      | none => collectVersions app rest entries
      | some hash => do
          let stamp ← backupTimestamp env name (existingPath app name)
          if entries.length ≥ maxBackupEntries ∨ entries.any (·.hash = hash) then
            collectVersions app rest entries
          else do
            let st ← statFile env (existingPath app name)
            collectVersions app rest (entries ++ [⟨backupVersion name, stamp, hash,
              existingPath app name, (st.map (·.data.length)).getD 0⟩])

def listVersions (app : Bytes) : Prog Target (List VersionEntry) := do
  match ← opendir env (backupDir app) with
  | none => return []
  | some names => collectVersions env app names []

/-- The deployed version among the entries: the backup with its hash is marked,
or it is added at the end. -/
def markCurrent (e : AppEntry) (actual : Bytes) (entries : List VersionEntry) :
    Prog Target (List VersionEntry) := do
  match entries.findIdx? (·.hash = actual) with
  | some i => return entries.modify i fun v => { v with version := ascii "current" }
  | none => do
      let st ← statFile env e.remotePath
      return entries ++ [⟨ascii "current", e.deployedAt, actual, e.remotePath,
        (st.map (·.data.length)).getD 0⟩]

/-- The modification time the sort goes by. -/
def mtimeOf (path : Path) : Prog Target Nat := do
  let st ← statFile env path
  return (st.map (·.mtime)).getD 0

/-- One pass of the inner loop of the sort. -/
def exchangeFront : VersionEntry → List VersionEntry →
    Prog Target (VersionEntry × List VersionEntry)
  | front, [] => pure (front, [])
  | front, e :: rest => do
      let mtimeI ← mtimeOf env front.path
      let mtimeJ ← mtimeOf env e.path
      if mtimeJ > mtimeI then do
        let out ← exchangeFront e rest
        return (out.1, front :: out.2)
      else do
        let out ← exchangeFront front rest
        return (out.1, e :: out.2)

def sortVersions : Nat → List VersionEntry → Prog Target (List VersionEntry)
  | 0, entries => pure entries
  | _, [] => pure []
  | fuel + 1, e :: rest => do
      let out ← exchangeFront env e rest
      let later ← sortVersions fuel out.2
      return out.1 :: later

/-- The entries of a list reply before they are sorted. -/
def versionsWithCurrent (app : Bytes) : Prog Target (List VersionEntry) := do
  let entries ← listVersions env app
  match ← appMetadataGet env app with
  | none => return entries
  | some e =>
      match ← computeFileChecksum env e.remotePath with
      | none => return entries
      | some actual => markCurrent env e actual entries

def handleListVersions (req : DeployRequest) : Prog Target Response := do
  if req.appName = [] then return (refuse .errAppNotFound "No app_name specified").full
  else do
    let entries ← versionsWithCurrent env req.appName
    let sorted ← sortVersions env entries.length entries
    return { (succeed []).full with backups := sorted }

end Programs

section Collecting

variable {env : Env} {app : Bytes}

theorem backupTimestamp_observes (name : Bytes) (path : Path) :
    Prog.Observes (backupTimestamp env name path) fun _ _ => True := by
  unfold backupTimestamp
  split
  · refine .bind (statFile_observes path) fun st => ?_
    cases st with
    | some st => exact .pure fun _ _ => trivial
    | none => exact .pure fun _ _ => trivial
  · exact .pure fun _ => trivial

/-- The entries collected by the list carry the first 64 distinct hashes of the
directory. -/
theorem collectVersions_observes (names : List Bytes) : ∀ entries : List VersionEntry,
    Prog.Observes (collectVersions env app names entries) fun _ result =>
      result.map (·.hash) =
        keepNew maxBackupEntries (entries.map (·.hash)) (names.filterMap parseBackupFilename) := by
  induction names with
  | nil =>
      intro entries
      exact .pure fun _ => rfl
  | cons name names ih =>
      intro entries
      unfold collectVersions
      cases hparse : parseBackupFilename name with
      | none =>
          rw [List.filterMap_cons_none hparse]
          exact ih entries
      | some hash =>
          rw [List.filterMap_cons_some hparse]
          refine .bind (backupTimestamp_observes name _) fun stamp => ?_
          have hmem : (entries.length ≥ maxBackupEntries ∨ entries.any (·.hash = hash) = true) ↔
              ((entries.map (·.hash)).length ≥ maxBackupEntries ∨
                hash ∈ entries.map (·.hash)) := by
            simp only [List.length_map, List.any_eq_true, decide_eq_true_eq, List.mem_map]
          unfold keepNew
          split
          next hold =>
            rw [if_pos (hmem.mp hold)]
            exact (ih entries).imp fun _ _ h _ => h
          next hnew =>
            rw [if_neg (mt hmem.mpr hnew)]
            refine .bind (statFile_observes _) fun st => ?_
            refine (ih _).imp fun _ result h _ _ => ?_
            rw [h, List.map_append]
            rfl

/-- So do those collected by the dial, of which there are at most 32. -/
theorem collectBackups_observes (listed : List (Bytes × Path)) : ∀ entries : List BackupEntry,
    Prog.Observes (collectBackups env listed entries) fun _ result =>
      result.map (·.hash) =
        keepNew maxDialEntries (entries.map (·.hash)) (listed.map (·.1)) := by
  induction listed with
  | nil =>
      intro entries
      exact .pure fun _ => rfl
  | cons b listed ih =>
      intro entries
      obtain ⟨hash, path⟩ := b
      unfold collectBackups
      have hmem : (entries.length ≥ maxDialEntries ∨ entries.any (·.hash = hash) = true) ↔
          ((entries.map (·.hash)).length ≥ maxDialEntries ∨
            hash ∈ entries.map (·.hash)) := by
        simp only [List.length_map, List.any_eq_true, decide_eq_true_eq, List.mem_map]
      rw [List.map_cons]
      unfold keepNew
      split
      next hold =>
        rw [if_pos (hmem.mp hold)]
        exact ih entries
      next hnew =>
        rw [if_neg (mt hmem.mpr hnew)]
        refine .bind (statFile_observes _) fun st => ?_
        refine (ih _).imp fun _ result h _ => ?_
        rw [h, List.map_append]
        rfl

/-- The sort is a permutation. -/
theorem exchangeFront_observes (rest : List VersionEntry) : ∀ front : VersionEntry,
    Prog.Observes (exchangeFront env front rest) fun _ out =>
      (out.1 :: out.2).Perm (front :: rest) := by
  have hmtime : ∀ path, Prog.Observes (mtimeOf env path) fun _ _ => True := by
    intro path
    exact .bind (statFile_observes path) fun _ => .pure fun _ _ => trivial
  induction rest with
  | nil =>
      intro front
      exact .pure fun _ => .refl _
  | cons e rest ih =>
      intro front
      unfold exchangeFront
      refine .bind (hmtime _) fun mtimeI => ?_
      refine .bind (hmtime _) fun mtimeJ => ?_
      split
      · refine .bind (ih e) fun out => .pure fun _ h _ _ => ?_
        exact (List.Perm.swap _ _ _).trans (h.cons front)
      · refine .bind (ih front) fun out => .pure fun _ h _ _ => ?_
        exact (List.Perm.swap _ _ _).trans ((h.cons e).trans (.swap _ _ _))

theorem sortVersions_observes (fuel : Nat) : ∀ entries : List VersionEntry,
    Prog.Observes (sortVersions env fuel entries) fun _ sorted => sorted.Perm entries := by
  induction fuel with
  | zero =>
      intro entries
      exact .pure fun _ => .refl _
  | succ fuel ih =>
      intro entries
      cases entries with
      | nil => exact .pure fun _ => .refl _
      | cons e rest =>
          unfold sortVersions
          refine .bind (exchangeFront_observes rest e) fun out => ?_
          refine .bind (ih out.2) fun later => .pure fun _ hlater hfront => ?_
          exact (hlater.cons _).trans hfront

/-- Every entry comes from a name in the directory. -/
theorem collectVersions_names (names : List Bytes) : ∀ entries : List VersionEntry,
    Prog.Observes (collectVersions env app names entries) fun _ result =>
      ∀ v ∈ result, v ∈ entries ∨ ∃ name ∈ names,
        parseBackupFilename name = some v.hash ∧ v.path = existingPath app name := by
  induction names with
  | nil =>
      intro entries
      exact .pure fun _ v hv => Or.inl hv
  | cons name names ih =>
      intro entries
      unfold collectVersions
      have hlater : ∀ {v : VersionEntry}, (∃ name ∈ names,
          parseBackupFilename name = some v.hash ∧ v.path = existingPath app name) →
          ∃ name' ∈ name :: names,
            parseBackupFilename name' = some v.hash ∧ v.path = existingPath app name' :=
        fun ⟨name', hmem, hname⟩ => ⟨name', List.mem_cons_of_mem _ hmem, hname⟩
      cases hparse : parseBackupFilename name with
      | none => exact (ih entries).imp fun _ _ h v hv => (h v hv).imp_right hlater
      | some hash =>
          refine .bind (backupTimestamp_observes name _) fun stamp => ?_
          split
          · exact (ih entries).imp fun _ _ h _ v hv => (h v hv).imp_right hlater
          · refine .bind (statFile_observes _) fun st => ?_
            refine (ih _).imp fun _ result h _ _ v hv => ?_
            rcases h v hv with hold | hnew
            · rcases List.mem_append.mp hold with hold | hv
              · exact Or.inl hold
              · rw [List.mem_singleton.mp hv]
                exact Or.inr ⟨name, List.mem_cons_self, hparse, rfl⟩
            · exact Or.inr (hlater hnew)

/-- The deployed version is added to the entries only if its hash is not among
them. -/
theorem markCurrent_observes (e : AppEntry) (actual : Bytes) (entries : List VersionEntry) :
    Prog.Observes (markCurrent env e actual entries) fun _ result =>
      result.map (fun v => (v.hash, v.path)) = entries.map (fun v => (v.hash, v.path)) ++
        if actual ∈ entries.map (·.hash) then [] else [(actual, e.remotePath)] := by
  unfold markCurrent
  cases hfind : entries.findIdx? (fun v => decide (v.hash = actual)) with
  | some i =>
      have hmem : actual ∈ entries.map (·.hash) := by
        obtain ⟨hlt, hhash, -⟩ := List.findIdx?_eq_some_iff_getElem.mp hfind
        exact List.mem_map.mpr ⟨entries[i], List.getElem_mem hlt, by simpa using hhash⟩
      refine .pure fun _ => ?_
      rw [if_pos hmem, List.append_nil]
      apply List.ext_getElem?
      intro j
      rw [List.getElem?_map, List.getElem?_map, List.getElem?_modify]
      cases entries[j]? with
      | none => rfl
      | some v =>
          simp only [Option.map_eq_map, Option.map_some]
          split <;> rfl
  | none =>
      have hmem : actual ∉ entries.map (·.hash) := by
        intro hactual
        obtain ⟨v, hv, hhash⟩ := List.mem_map.mp hactual
        have hnone := List.findIdx?_eq_none_iff.mp hfind v hv
        simp [hhash] at hnone
      refine .bind (statFile_observes _) fun st => .pure fun _ _ => ?_
      rw [if_neg hmem, List.map_append]
      rfl

end Collecting

/-- The hashes in the names of the backup directory of an app. -/
def Target.backupHashes (s : Target) (app : Bytes) : List Bytes :=
  if (s.fs.lookup (backupDir app)).isSome then []
  else (s.namesIn (backupDir app)).filterMap parseBackupFilename

/-- `path` is what the handlers call a file in the backup directory of the app. -/
def Target.InBackups (s : Target) (app : Bytes) (path : Path) : Prop :=
  ∃ name ∈ s.namesIn (backupDir app), path = existingPath app name

/-- The answers of a rollback that selected a backup with the hash. -/
def SelectedBackup (s : Target) (app hash : Bytes) (resp : DeployResponse) : Prop :=
  resp = refuse .errRestoreFailed "Failed to restore backup" ∨
    ∃ path, s.Lists app hash path ∧ resp = succeed path

/-- Everything listed can be restored: after a successful list reply, a rollback
to the hash of an entry from the backup directory selects a backup with that
hash, if the rollback has a path to install to and can open the directory. -/
def Restorable (app : Bytes) (s : Target) : Prop :=
  ∀ env n req resp, req.appName = app → (handleListVersions env req n s).result = some resp →
    resp.success = true → ∀ entry ∈ resp.backups, s.InBackups app entry.path →
    ∀ env' n' req', (∀ m, env'.fault m (.opendir (backupDir app)) = none) →
      req'.appName = app → req'.rollbackHash = entry.hash →
      rollbackTarget req' (handleListVersions env req n s).state ≠ none →
      Prog.Ends (handleRollback env' req') (fun resp' _ _ => SelectedBackup s app entry.hash resp')
        n' (handleListVersions env req n s).state

/-- The deployed file, should it lie among the backups, has its hash among
theirs. -/
def Target.CurrentListed (s : Target) (app : Bytes) : Prop :=
  ∀ entries e data, s.metadata = some entries → findApp entries app = some e →
    s.content e.remotePath = some data → s.InBackups app e.remotePath →
    hexDigest data ∈ s.backupHashes app

section Directory

variable {env : Env} {app : Bytes} {n : Nat} {s : Target}

theorem parseBackupFilename_ne_nil {name hash : Bytes} (h : parseBackupFilename name = some hash) :
    hash ≠ [] := by
  unfold parseBackupFilename at h
  split at h
  · cases h
  next hlong =>
    dsimp only at h
    split at h
    next hlegacy =>
      rintro rfl
      have hlen := congrArg List.length (Option.some.inj h)
      rw [List.length_take, hlegacy] at hlen
      exact absurd hlen (by decide)
    next =>
      simp only [bind, Option.bind_eq_some_iff] at h
      obtain ⟨_, _, _, _, _, _, _, _, _, _, _, _, _, _, _, _, hword⟩ := h
      unfold scanWord at hword
      dsimp only at hword
      split at hword
      · cases hword
      next hne =>
        rw [← Option.some.inj hword]
        exact hne

theorem Target.Lists.mem_backupHashes {hash : Bytes} {path : Path} (h : s.Lists app hash path)
    (hdir : s.fs.lookup (backupDir app) = none) : hash ∈ s.backupHashes app := by
  obtain ⟨name, hname, hparse, -⟩ := h
  unfold Target.backupHashes
  rw [hdir]
  exact List.mem_filterMap.mpr ⟨name, hname, hparse⟩

theorem ne_nil_of_mem_backupHashes {hash : Bytes} (h : hash ∈ s.backupHashes app) :
    hash ≠ [] := by
  unfold Target.backupHashes at h
  split at h
  · cases h
  · obtain ⟨name, -, hparse⟩ := List.mem_filterMap.mp h
    exact parseBackupFilename_ne_nil hparse

/-- The hashes in the order of `readdir`. -/
def offeredHashes (env : Env) (app : Bytes) (s : Target) : List Bytes :=
  if (s.fs.lookup (backupDir app)).isSome then []
  else (env.order (s.namesIn (backupDir app))).filterMap parseBackupFilename

theorem offeredHashes_perm (env : Env) (app : Bytes) (s : Target) :
    (offeredHashes env app s).Perm (s.backupHashes app) := by
  unfold offeredHashes Target.backupHashes
  split
  · exact .refl _
  · exact (env.order_perm _).filterMap _

/-- What the list shows is in the directory. -/
theorem listVersions_lists (app : Bytes) :
    Prog.Observes (listVersions env app) fun s r => ∀ v ∈ r,
      s.Lists app v.hash v.path ∧ v.hash ∈ s.backupHashes app := by
  unfold listVersions
  refine .bind (opendir_observes _) fun names => ?_
  cases names with
  | none => exact .pure fun _ _ v hv => by cases hv
  | some names =>
      refine (collectVersions_names names []).imp fun s r h hopen v hv => ?_
      obtain ⟨hdir, rfl⟩ := hopen names rfl
      obtain ⟨name, hname, hparse, hpath⟩ := (h v hv).resolve_left (by simp)
      have hlists : s.Lists app v.hash v.path :=
        ⟨name, (env.order_perm _).mem_iff.mp hname, hparse, hpath⟩
      exact ⟨hlists, hlists.mem_backupHashes hdir⟩

theorem listVersions_hashes (hopen : ∀ m, env.fault m (.opendir (backupDir app)) = none) :
    Prog.Observes (listVersions env app) fun s r =>
      r.map (·.hash) = keepNew maxBackupEntries [] (offeredHashes env app s) := by
  unfold listVersions
  refine .bind (opendir_opens hopen) fun names => ?_
  cases names with
  | none =>
      refine .pure fun s hnames => ?_
      unfold offeredHashes
      split at hnames
      next hfile => rw [if_pos hfile]; rfl
      · cases hnames
  | some names =>
      refine (collectVersions_observes names []).imp fun s r h hnames => ?_
      unfold offeredHashes
      split at hnames
      · cases hnames
      next hdir => rw [if_neg hdir, h, Option.some.inj hnames]; rfl

/-- What the dial collects: the first 32 distinct hashes. -/
theorem dialBackups_observes (hopen : ∀ m, env.fault m (.opendir (backupDir app)) = none) :
    Prog.Observes (do collectBackups env (← backupList env app) []) fun s entries =>
      entries.map (·.hash) = keepNew maxDialEntries [] (offeredHashes env app s) ∧
        ∀ e ∈ entries, s.Lists app e.hash e.path := by
  have hlist : Prog.Observes (backupList env app) fun s listed =>
      listed.map (·.1) = offeredHashes env app s ∧ ∀ b ∈ listed, s.Lists app b.1 b.2 := by
    unfold backupList
    refine .bind (opendir_opens hopen) fun names => ?_
    cases names with
    | none =>
        refine .pure fun s hnames => ⟨?_, fun b hb => by cases hb⟩
        unfold offeredHashes
        split at hnames
        next hfile => rw [if_pos hfile]; rfl
        · cases hnames
    | some names =>
        refine .pure fun s hnames => ?_
        split at hnames
        · cases hnames
        next hdir =>
          rw [Option.some.inj hnames]
          refine ⟨?_, ?_⟩
          · rw [offeredHashes, if_neg hdir, List.map_filterMap]
            congr 1
            funext name
            cases parseBackupFilename name <;> rfl
          · intro b hb
            obtain ⟨name, hname, hparse⟩ := List.mem_filterMap.mp hb
            obtain ⟨hash, hhash, rfl⟩ := Option.map_eq_some_iff.mp hparse
            exact ⟨name, (env.order_perm _).mem_iff.mp hname, hhash, rfl⟩
  refine .bind hlist fun listed => ?_
  have hpaths : Prog.Observes (collectBackups env listed []) fun _ entries =>
      ∀ e ∈ entries, (e.hash, e.path) ∈ listed := by
    intro n s
    obtain ⟨hstate, hpassed, more, hresult, hmore⟩ :=
      collectBackups_run (s := s) env listed [] n
    generalize collectBackups env listed [] n s = out at hstate hpassed hresult ⊢
    obtain ⟨result, state, calls, passed⟩ := out
    cases hstate
    cases hpassed
    cases hresult
    exact ⟨more, calls, rfl, hmore⟩
  refine ((collectBackups_observes listed []).and hpaths).imp fun s entries h hl => ?_
  rw [← hl.1]
  exact ⟨h.1, fun e he => hl.2 _ (h.2 e he)⟩

end Directory

section Restoring

variable {env : Env} {req : DeployRequest} {n : Nat} {s : Target}

theorem computeFileChecksum_observes (p : Path) :
    Prog.Observes (computeFileChecksum env p) fun s r =>
      (∀ m, env.fault m (.openRead p) = none) → (∀ m, env.fault m (.read p) = none) →
        r = (s.content p).map hexDigest := by
  unfold computeFileChecksum
  have hopened : Prog.Observes (fopenRead env p) fun s r =>
      (∀ m, env.fault m (.openRead p) = none) → r = s.content p := by
    refine .call (fun _ _ => rfl) fun n s hopen => ?_
    simp [Env.ok, hopen]
  refine .bind hopened fun data => ?_
  cases data with
  | none =>
      refine .pure fun s hdata hopen _ => ?_
      rw [← hdata hopen]
      rfl
  | some data =>
      have hgot : Prog.Observes (freadAll env p data) fun _ r =>
          (∀ m, env.fault m (.read p) = none) → r = (data, true) := by
        apply Prog.Observes.call
        · intro n s
          cases env.fault n (.read p) <;> rfl
        · intro n s hread
          rw [hread]
      refine .bind hgot fun got => .pure fun s hgot hdata hopen hread => ?_
      rw [← hdata hopen, hgot hread]
      rfl

theorem computeFileChecksum_digest (p : Path) :
    Prog.Observes (computeFileChecksum env p) fun s r =>
      ∀ hash, r = some hash → ∃ data, s.content p = some data ∧ hash = hexDigest data := by
  unfold computeFileChecksum
  have hopened : Prog.Observes (fopenRead env p) fun s r =>
      ∀ data, r = some data → s.content p = some data := by
    refine .call (fun _ _ => rfl) fun n s data hdata => ?_
    split at hdata
    · exact hdata
    · cases hdata
  refine .bind hopened fun data => ?_
  cases data with
  | none => exact .pure fun _ _ hash h => by cases h
  | some data =>
      have hgot : Prog.Observes (freadAll env p data) fun _ r => r.2 = true → r.1 = data := by
        apply Prog.Observes.call
        · intro n s
          cases env.fault n (.read p) <;> rfl
        · intro n s hclean
          cases hfault : env.fault n (.read p) with
          | none => rfl
          | some k =>
              rw [hfault] at hclean
              cases hclean
      refine .bind hgot fun got => .pure fun s hgot hdata hash hhash => ?_
      split at hhash
      next hclean =>
        rw [← Option.some.inj hhash, hgot hclean]
        exact ⟨data, hdata data rfl, rfl⟩
      · cases hhash

/-- With the metadata loaded, a rollback finds its path. -/
theorem rollbackPath_cached {cached : List AppEntry} (hcache : s.cache = some cached) :
    Prog.Ends (rollbackPath env req) (fun r _ t => r = rollbackTarget req s ∧ t = s) n s := by
  unfold rollbackPath rollbackTarget
  split
  next hremote =>
    rw [Prog.ends_pure]
    exact ⟨rfl, rfl⟩
  next hremote =>
    rw [Prog.ends_bind, appMetadataGet, Prog.ends_bind, loadMetadata, Prog.ends_bind,
      Prog.ends_read, hcache, Prog.ends_pure, Prog.ends_pure]
    have hmeta : s.metadata = some cached := by simp [Target.metadata, hcache]
    rw [hmeta, Option.bind_some]
    cases findApp cached req.appName with
    | none =>
        rw [Prog.ends_pure]
        exact ⟨rfl, rfl⟩
    | some e =>
        rw [Prog.ends_pure]
        exact ⟨rfl, rfl⟩

theorem restoreSelected_ends {cached : List AppEntry} (hcache : s.cache = some cached)
    (app : Bytes) (remote : Path) (current : Bytes) (entries : List BackupEntry)
    (selected : BackupEntry) :
    Prog.Ends (restoreSelected env app remote current entries selected)
      (fun resp _ _ => resp = refuse .errRestoreFailed "Failed to restore backup" ∨
        resp = succeed selected.path) n s := by
  have hrestore : ∀ m t, t.cache = some cached →
      Prog.Ends (do
        if ← backupRestore env selected.path remote then
          let _ ← appMetadataSave env app remote selected.hash
          return succeed selected.path
        else return refuse .errRestoreFailed "Failed to restore backup")
        (fun resp _ _ => resp = refuse .errRestoreFailed "Failed to restore backup" ∨
          resp = succeed selected.path) m t := by
    intro m t ht
    rw [Prog.ends_bind]
    refine ((backupRestore_total selected.path remote m t).and_wp
      (backupRestore_memory selected.path remote _ _ m t ⟨ht, rfl⟩)).imp ?_
    rintro restored m' u ⟨-, hu, -⟩
    split
    · rw [Prog.ends_bind]
      refine (appMetadataSave_ends (loadMetadata_cached hu) _ _ _).imp fun _ _ _ _ => ?_
      rw [Prog.ends_pure]
      exact Or.inr rfl
    · rw [Prog.ends_pure]
      exact Or.inl rfl
  unfold restoreSelected
  dsimp only
  split
  · rw [Prog.ends_bind]
    refine ((backupCreate_total app remote n s).and_wp
      (backupCreate_memory app remote _ _ n s ⟨hcache, rfl⟩)).imp ?_
    rintro _ m t ⟨-, ht, -⟩
    exact hrestore m t ht
  · exact hrestore n s hcache

/-- A rollback looks its hash up among the first 32 distinct ones of the
directory. -/
theorem handleRollback_looks_up {cached : List AppEntry} (hcache : s.cache = some cached)
    (hopen : ∀ m, env.fault m (.opendir (backupDir req.appName)) = none)
    (happ : req.appName ≠ []) (htarget : rollbackTarget req s ≠ none)
    (hhash : req.rollbackHash ≠ []) :
    Prog.Ends (handleRollback env req) (fun resp _ _ =>
      if req.rollbackHash ∈ keepNew maxDialEntries [] (offeredHashes env req.appName s) then
        SelectedBackup s req.appName req.rollbackHash resp
      else resp.errorCode = .errNoBackups ∨ resp.errorCode = .errBackupNotFound) n s := by
  obtain ⟨remote, hremote⟩ := Option.ne_none_iff_exists'.mp htarget
  unfold handleRollback
  rw [if_neg happ, Prog.ends_bind]
  refine (rollbackPath_cached hcache).imp ?_
  rintro _ m s ⟨rfl, rfl⟩
  rw [hremote]
  dsimp only
  rw [Prog.ends_bind]
  refine ((computeFileChecksum_observes remote).ends _ _).imp ?_
  rintro current m s ⟨rfl, -⟩
  have hdial := (dialBackups_observes hopen).ends m s
  rw [Prog.ends_bind] at hdial ⊢
  refine hdial.imp fun listed m t hcollect => ?_
  rw [Prog.ends_bind]
  refine hcollect.imp ?_
  rintro entries m s ⟨rfl, hhashes, hlists⟩
  rw [← hhashes]
  by_cases hmem : req.rollbackHash ∈ entries.map (·.hash)
  · simp only [if_pos hmem]
    obtain ⟨e, he, heq⟩ := List.mem_map.mp hmem
    rw [if_neg (List.ne_nil_of_mem he)]
    obtain ⟨selected, hselected⟩ := selectBackup_exists (current.getD []) ⟨e, he, Or.inr heq⟩
    rw [hselected]
    refine (restoreSelected_ends hcache _ _ _ _ _).imp fun resp _ _ hresp => ?_
    have hsame : selected.hash = req.rollbackHash :=
      (selectBackup_hash hselected).resolve_left hhash
    have hlisted := hlists selected (selectBackup_mem hselected)
    rw [hsame] at hlisted
    exact hresp.imp_right fun hresp => ⟨selected.path, hlisted, hresp⟩
  · simp only [if_neg hmem]
    split
    · rw [Prog.ends_pure]
      exact Or.inl rfl
    · have hnone : selectBackup req.rollbackHash (current.getD []) entries = none := by
        by_contra hsome
        obtain ⟨selected, hselected⟩ := Option.ne_none_iff_exists'.mp hsome
        exact hmem (List.mem_map.mpr ⟨selected, selectBackup_mem hselected,
          (selectBackup_hash hselected).resolve_left hhash⟩)
      rw [hnone, Prog.ends_pure]
      exact Or.inr rfl

/-- What a successful list reply shows: backups in the directory, and the
deployed file. -/
theorem handleListVersions_shows :
    Prog.wp (handleListVersions env req) (fun _ => True) (fun resp _ t => resp.success = true →
      req.appName ≠ [] ∧ t.fs = s.fs ∧ (∃ cached, t.cache = some cached) ∧
      ∀ v ∈ resp.backups, v.hash ∈ s.backupHashes req.appName ∨
        ∃ entries e data, s.metadata = some entries ∧ findApp entries req.appName = some e ∧
          s.content e.remotePath = some data ∧ v.hash = hexDigest data ∧
          v.path = e.remotePath) n s := by
  unfold handleListVersions
  split
  · exact (Prog.wp_pure _).mpr fun hsuccess => by cases hsuccess
  next happ =>
    have hentries : Prog.wp (versionsWithCurrent env req.appName) (fun _ => True)
        (fun r _ t => t.fs = s.fs ∧ (∃ cached, t.cache = some cached) ∧
          ∀ v ∈ r, v.hash ∈ s.backupHashes req.appName ∨
            ∃ entries e data, s.metadata = some entries ∧
              findApp entries req.appName = some e ∧ s.content e.remotePath = some data ∧
              v.hash = hexDigest data ∧ v.path = e.remotePath) n s := by
      unfold versionsWithCurrent
      rw [Prog.wp_bind]
      refine (listVersions_lists req.appName).wp fun m listed hlisted => ?_
      rw [Prog.wp_bind, appMetadataGet, Prog.wp_bind]
      have hload : Prog.wp (loadMetadata env) (fun _ => True) (fun entries _ t => t.fs = s.fs ∧
          (∃ cached, t.cache = some cached) ∧ (entries = [] ∨ s.metadata = some entries)) m s := by
        refine Prog.wp_mono (Prog.wp_and loadMetadata_caches (loadMetadata_wp
          (Q := fun entries _ _ => entries = [] ∨ s.metadata = some entries)
          (fun _ _ => trivial) (fun _ _ _ => Or.inl rfl) fun _ _ _ _ h => Or.inr h))
          (fun _ _ => trivial) ?_
        rintro entries _ t ⟨⟨hfs, _, hcache⟩, hmeta⟩
        exact ⟨hfs, ⟨entries, hcache⟩, hmeta⟩
      refine Prog.wp_imp hload ?_
      rintro entries m t ⟨hfs, hcache, hmeta⟩
      rw [Prog.wp_pure]
      cases hfound : findApp entries req.appName with
      | none => exact (Prog.wp_pure _).mpr ⟨hfs, hcache, fun v hv => Or.inl (hlisted v hv).2⟩
      | some e =>
          have hentries : s.metadata = some entries := by
            rcases hmeta with rfl | hmeta
            · cases hfound
            · exact hmeta
          dsimp only
          rw [Prog.wp_bind]
          apply computeFileChecksum_wp
          · intro m
            exact (Prog.wp_pure _).mpr ⟨hfs, hcache, fun v hv => Or.inl (hlisted v hv).2⟩
          · intro m data hdata
            have hcontent : s.content e.remotePath = some data := by
              rw [← hdata]
              unfold Target.content
              rw [hfs]
            refine (markCurrent_observes e (hexDigest data) listed).wp fun m marked hmarked => ?_
            refine ⟨hfs, hcache, fun v hv => ?_⟩
            have hkey : (v.hash, v.path) ∈ marked.map fun v => (v.hash, v.path) :=
              List.mem_map_of_mem hv
            rw [hmarked, List.mem_append] at hkey
            rcases hkey with hold | hnew
            · obtain ⟨u, hu, hsame⟩ := List.mem_map.mp hold
              rw [← (Prod.mk.inj hsame).1]
              exact Or.inl (hlisted u hu).2
            · split at hnew
              · cases hnew
              · obtain ⟨hhash, hpath⟩ := Prod.mk.inj (List.mem_singleton.mp hnew)
                exact Or.inr ⟨entries, e, data, hentries, hfound, hcontent, hhash, hpath⟩
    rw [Prog.wp_bind]
    refine Prog.wp_imp hentries ?_
    rintro entries m t ⟨hfs, hcache, hshown⟩
    rw [Prog.wp_bind]
    refine (sortVersions_observes _ entries).wp fun m sorted hsorted => ?_
    rw [Prog.wp_pure]
    exact fun _ => ⟨happ, hfs, hcache, fun v hv => hshown v (hsorted.mem_iff.mp hv)⟩

theorem backupHashes_congr {t : Target} (h : t.fs = s.fs) (app : Bytes) :
    t.backupHashes app = s.backupHashes app := by
  simp only [Target.backupHashes, Target.namesIn, h]

theorem SelectedBackup.congr {t : Target} (h : t.fs = s.fs) {app hash : Bytes}
    {resp : DeployResponse} (hresp : SelectedBackup t app hash resp) :
    SelectedBackup s app hash resp := by
  simpa only [SelectedBackup, Target.Lists, Target.namesIn, h] using hresp

theorem restorable_of_room {app : Bytes}
    (hcard : (s.backupHashes app).toFinset.card ≤ maxDialEntries)
    (hcurrent : s.CurrentListed app) : Restorable app s := by
  rintro env n req resp rfl hlist hsuccess entry hentry hin env' n' req' hopen happ' hhash htarget
  have hshows := (handleListVersions_shows :
    Prog.wp (handleListVersions env req) (fun _ => True) _ n s).2
  rw [hlist] at hshows
  obtain ⟨happ, hfs, ⟨cached, hcache⟩, hentries⟩ := hshows hsuccess
  generalize (handleListVersions env req n s).state = t at hfs hcache htarget ⊢
  have hmem : entry.hash ∈ s.backupHashes req.appName := by
    rcases hentries entry hentry with hmem | ⟨entries, e, data, hmeta, hfound, hdata, hsame, hpath⟩
    · exact hmem
    · rw [hsame]
      exact hcurrent entries e data hmeta hfound hdata (hpath ▸ hin)
  have hperm := offeredHashes_perm env' req.appName t
  rw [backupHashes_congr hfs] at hperm
  have hkept : entry.hash ∈ keepNew maxDialEntries [] (offeredHashes env' req.appName t) := by
    apply subset_keepNew_of_card
    · rw [List.toFinset_eq_of_perm _ _ hperm]
      exact hcard
    · exact hperm.mem_iff.mpr hmem
  rw [← happ'] at hopen hkept happ ⊢
  rw [← hhash] at hkept ⊢
  refine (handleRollback_looks_up hcache hopen happ htarget ?_).imp fun resp' _ _ hresp => ?_
  · rw [hhash]
    exact ne_nil_of_mem_backupHashes hmem
  · rw [if_pos hkept] at hresp
    exact hresp.congr hfs

end Restoring

section Exhaustion

variable {env : Env} {app : Bytes} {n : Nat} {s : Target}

/-- A list reply shows all the first 64 distinct hashes of the directory, and
the deployed file if its hash is not among them. -/
theorem handleListVersions_ends {req : DeployRequest} {entries : List AppEntry}
    (happ : req.appName ≠ [])
    (hopen : ∀ m, env.fault m (.opendir (backupDir req.appName)) = none)
    (hload : ∀ m, Prog.Ends (loadMetadata env)
      (fun r _ t => r = entries ∧ t.fs = s.fs ∧ ∃ cached, t.cache = some cached) m s) :
    Prog.Ends (handleListVersions env req) (fun resp _ t => resp.success = true ∧
      t.fs = s.fs ∧ (∃ cached, t.cache = some cached) ∧
      (∀ hash ∈ keepNew maxBackupEntries [] (offeredHashes env req.appName s),
        ∃ v ∈ resp.backups, v.hash = hash ∧ s.InBackups req.appName v.path) ∧
      ∀ e data, findApp entries req.appName = some e → s.content e.remotePath = some data →
        (∀ m, env.fault m (.openRead e.remotePath) = none) →
        (∀ m, env.fault m (.read e.remotePath) = none) →
        hexDigest data ∉ s.backupHashes req.appName →
        ∃ v ∈ resp.backups, v.hash = hexDigest data ∧ v.path = e.remotePath) n s := by
  have hentries : Prog.Ends (versionsWithCurrent env req.appName) (fun r _ t =>
      t.fs = s.fs ∧ (∃ cached, t.cache = some cached) ∧
      (∀ hash ∈ keepNew maxBackupEntries [] (offeredHashes env req.appName s),
        ∃ v ∈ r, v.hash = hash ∧ s.InBackups req.appName v.path) ∧
      ∀ e data, findApp entries req.appName = some e → s.content e.remotePath = some data →
        (∀ m, env.fault m (.openRead e.remotePath) = none) →
        (∀ m, env.fault m (.read e.remotePath) = none) →
        hexDigest data ∉ s.backupHashes req.appName →
        ∃ v ∈ r, v.hash = hexDigest data ∧ v.path = e.remotePath) n s := by
    unfold versionsWithCurrent
    rw [Prog.ends_bind]
    refine (((listVersions_hashes hopen).and (listVersions_lists req.appName)).ends _ _).imp ?_
    rintro listed m s ⟨rfl, hhashes, hlists⟩
    rw [← hhashes]
    have hshown : ∀ hash ∈ listed.map (·.hash),
        ∃ v ∈ listed, v.hash = hash ∧ s.InBackups req.appName v.path := by
      intro hash hhash
      obtain ⟨v, hv, rfl⟩ := List.mem_map.mp hhash
      obtain ⟨⟨name, hname, -, hpath⟩, -⟩ := hlists v hv
      exact ⟨v, hv, rfl, name, hname, hpath⟩
    rw [Prog.ends_bind, appMetadataGet, Prog.ends_bind]
    refine (hload m).imp ?_
    rintro entries m t ⟨rfl, hfs, hcache⟩
    rw [Prog.ends_pure]
    cases hfound : findApp entries req.appName with
    | none =>
        rw [Prog.ends_pure]
        exact ⟨hfs, hcache, hshown, fun e data he => by cases he⟩
    | some e =>
        dsimp only
        rw [Prog.ends_bind]
        refine ((computeFileChecksum_observes e.remotePath).ends m t).imp ?_
        rintro digest m t ⟨rfl, hdigest⟩
        have hcontent : t.content e.remotePath = s.content e.remotePath := by
          unfold Target.content
          rw [hfs]
        cases digest with
        | none =>
            rw [Prog.ends_pure]
            refine ⟨hfs, hcache, hshown, fun e' data he' hdata hopen' hread _ => ?_⟩
            cases he'
            have hnone := hdigest hopen' hread
            rw [hcontent, hdata] at hnone
            cases hnone
        | some actual =>
            refine ((markCurrent_observes e actual listed).ends m t).imp ?_
            rintro marked m t ⟨rfl, hmarked⟩
            have hkey : ∀ key ∈ marked.map (fun v => (v.hash, v.path)),
                ∃ v ∈ marked, v.hash = key.1 ∧ v.path = key.2 := by
              intro key hkey
              obtain ⟨v, hv, rfl⟩ := List.mem_map.mp hkey
              exact ⟨v, hv, rfl, rfl⟩
            refine ⟨hfs, hcache, fun hash hhash => ?_,
              fun e' data he' hdata hopen' hread hnew => ?_⟩
            · obtain ⟨u, hu, rfl, hin⟩ := hshown hash hhash
              obtain ⟨v, hv, hsame, hpath⟩ := hkey (u.hash, u.path)
                (hmarked ▸ List.mem_append_left _ (List.mem_map_of_mem hu))
              exact ⟨v, hv, hsame, hpath ▸ hin⟩
            · cases he'
              have hactual := hdigest hopen' hread
              rw [hcontent, hdata] at hactual
              rw [Option.some.inj hactual] at hmarked
              have habsent : hexDigest data ∉ listed.map (·.hash) := by
                intro hmem
                obtain ⟨u, hu, hsame⟩ := List.mem_map.mp hmem
                exact hnew (hsame ▸ (hlists u hu).2)
              rw [if_neg habsent] at hmarked
              exact hkey (hexDigest data, e.remotePath) (hmarked ▸ by simp)
  unfold handleListVersions
  rw [if_neg happ, Prog.ends_bind]
  refine hentries.imp ?_
  rintro r m t ⟨hfs, hcache, hshown, hcurrent⟩
  rw [Prog.ends_bind]
  refine ((sortVersions_observes r.length r).ends m t).imp ?_
  rintro sorted m _ ⟨rfl, hperm⟩
  rw [Prog.ends_pure]
  refine ⟨rfl, hfs, hcache, fun hash hhash => ?_, fun e data he hdata hread hclean hnew => ?_⟩
  · obtain ⟨v, hv, hsame⟩ := hshown hash hhash
    exact ⟨v, hperm.mem_iff.mpr hv, hsame⟩
  · obtain ⟨v, hv, hsame⟩ := hcurrent e data he hdata hread hclean hnew
    exact ⟨v, hperm.mem_iff.mpr hv, hsame⟩

/-- An operating system on which only the metadata cannot be opened. -/
def blindEnv : Env :=
  { calmEnv demoTime with
    fault := fun _ op => if op = .openRead metadataFile then some 0 else none }

theorem loadMetadata_blind (s : Target) : ∃ entries, ∀ m, Prog.Ends (loadMetadata blindEnv)
    (fun r _ t => r = entries ∧ t.fs = s.fs ∧ ∃ cached, t.cache = some cached) m s := by
  unfold loadMetadata
  cases hcache : s.cache with
  | some entries =>
      refine ⟨entries, fun m => ?_⟩
      rw [Prog.ends_bind, Prog.ends_read, hcache, Prog.ends_pure]
      exact ⟨rfl, rfl, entries, hcache⟩
  | none =>
      refine ⟨[], fun m => ?_⟩
      rw [Prog.ends_bind, Prog.ends_read, hcache]
      dsimp only
      have hfault : blindEnv.fault m (.openRead metadataFile) = some 0 := by simp [blindEnv]
      rw [Prog.ends_bind, setCache, Prog.ends_update, Prog.ends_bind, readMetadata,
        Prog.ends_bind, fopenRead, Prog.ends_call]
      simp only [Env.ok, hfault, Option.isNone_some, Bool.false_eq_true, if_false,
        List.getLastD_nil]
      rw [Prog.ends_pure, Prog.ends_pure]
      exact ⟨rfl, rfl, [], rfl⟩

/-- A request to list, or to go back to, a version of an app. -/
def versionRequest (app hash : Bytes) : DeployRequest where
  appName := app
  remotePath := ascii "/opt/app"
  dtpServerNode := 0
  expectedSize := 0
  expectedChecksum := []
  rollbackHash := hash
  chunkSeq := 0
  totalChunks := 0
  chunkData := []
  fileMode := 0
  dtpMtu := 0

/-- A version that is listed and is not among the first 32 cannot be restored. -/
theorem not_restorable {resp : Response} {entry : VersionEntry} (happ : app ≠ [])
    (hlist : (handleListVersions env (versionRequest app []) n s).result = some resp)
    (hfs : (handleListVersions env (versionRequest app []) n s).state.fs = s.fs)
    (hcache : ∃ cached,
      (handleListVersions env (versionRequest app []) n s).state.cache = some cached)
    (hsuccess : resp.success = true) (hentry : entry ∈ resp.backups)
    (hin : s.InBackups app entry.path) (hne : entry.hash ≠ [])
    (hlost : entry.hash ∉ keepNew maxDialEntries [] (s.backupHashes app)) :
    ¬ Restorable app s := by
  intro hrestorable
  have htarget : ∀ t, rollbackTarget (versionRequest app entry.hash) t ≠ none := by
    intro t
    have hgiven : (versionRequest app entry.hash).remotePath ≠ [] := List.cons_ne_nil _ _
    rw [rollbackTarget, if_pos hgiven]
    exact Option.some_ne_none _
  have hselects := hrestorable env n (versionRequest app []) resp rfl hlist hsuccess entry hentry
    hin (calmEnv demoTime) 0 (versionRequest app entry.hash)
    (fun _ => rfl) rfl rfl (htarget _)
  obtain ⟨cached, hcache⟩ := hcache
  generalize (handleListVersions env (versionRequest app []) n s).state = t at hfs hcache hselects
  have hmisses : Prog.Ends (handleRollback (calmEnv demoTime)
      (versionRequest app entry.hash)) _ 0 t :=
    handleRollback_looks_up hcache (fun _ => rfl) happ (htarget t) hne
  obtain ⟨answer, hanswer, hcode⟩ := hmisses
  have hoffered : offeredHashes (calmEnv demoTime) app t =
      s.backupHashes app :=
    backupHashes_congr hfs app
  rw [← hoffered] at hlost
  have hcode := (if_neg hlost).mp hcode
  obtain ⟨answer', hanswer', hselected⟩ := hselects
  rw [hanswer] at hanswer'
  cases hanswer'
  rcases hselected with rfl | ⟨path, -, rfl⟩
  · rcases hcode with hcode | hcode <;> cases hcode
  · rcases hcode with hcode | hcode <;> cases hcode

theorem not_restorable_of_many (happ : app ≠ [])
    (hmany : maxDialEntries < (s.backupHashes app).toFinset.card) : ¬ Restorable app s := by
  obtain ⟨entries, hload⟩ := loadMetadata_blind s
  have hends : Prog.Ends (handleListVersions blindEnv (versionRequest app [])) _ 0 s :=
    handleListVersions_ends happ (fun _ => rfl) hload
  obtain ⟨resp, hresult, hsuccess, hfs, hcache, hshown, -⟩ := hends
  obtain ⟨hash, hkept, hlost⟩ :=
    exists_keepNew_of_card (show maxDialEntries < maxBackupEntries by decide) hmany
  obtain ⟨v, hv, rfl, hin⟩ := hshown hash hkept
  have hmem : v.hash ∈ s.backupHashes app := (mem_keepNew _ hkept).resolve_left (by simp)
  exact not_restorable happ hresult hfs hcache hsuccess hv hin (ne_nil_of_mem_backupHashes hmem)
    hlost

theorem not_restorable_of_unlisted (happ : app ≠ []) (hcurrent : ¬ s.CurrentListed app) :
    ¬ Restorable app s := by
  unfold Target.CurrentListed at hcurrent
  push Not at hcurrent
  obtain ⟨entries, e, data, hmeta, hfound, hdata, hin, hnew⟩ := hcurrent
  have hload : ∀ m, Prog.Ends (loadMetadata (calmEnv demoTime))
      (fun r _ t => r = entries ∧ t.fs = s.fs ∧ ∃ cached, t.cache = some cached) m s := by
    intro m
    refine (loadMetadata_ends (fun _ => rfl) (fun _ => rfl) hmeta).imp ?_
    rintro _ m _ ⟨rfl, rfl⟩
    exact ⟨rfl, rfl, _, rfl⟩
  have hends : Prog.Ends (handleListVersions (calmEnv demoTime)
      (versionRequest app [])) _ 0 s := handleListVersions_ends happ (fun _ => rfl) hload
  obtain ⟨resp, hresult, hsuccess, hfs, hcache, -, hshown⟩ := hends
  obtain ⟨v, hv, hsame, hpath⟩ := hshown e data hfound hdata (fun _ => rfl) (fun _ => rfl) hnew
  refine not_restorable happ hresult hfs hcache hsuccess hv (hpath ▸ hin) ?_ ?_
  · rw [hsame]
    exact List.ne_nil_of_length_pos (by rw [length_hexDigest]; decide)
  · rw [hsame]
    exact fun hmem => hnew ((mem_keepNew _ hmem).resolve_left (by simp))

end Exhaustion

/-- Everything listed for an app can be restored exactly if its directory has at
most 32 distinct hashes and the deployed file does not lie in it unlisted. -/
theorem listed_can_be_restored (app : Bytes) (s : Target) :
    Restorable app s ↔ app = [] ∨
      (s.backupHashes app).toFinset.card ≤ maxDialEntries ∧ s.CurrentListed app := by
  constructor
  · intro hrestorable
    by_cases happ : app = []
    · exact Or.inl happ
    · refine Or.inr ⟨?_, ?_⟩
      · by_contra hmany
        exact not_restorable_of_many happ (Nat.lt_of_not_le hmany) hrestorable
      · by_contra hcurrent
        exact not_restorable_of_unlisted happ hcurrent hrestorable
  · rintro (rfl | ⟨hcard, hcurrent⟩)
    · intro env n req resp happ hlist hsuccess
      have hrefused : handleListVersions env req n s =
          ⟨some (refuse .errAppNotFound "No app_name specified").full, s, n, []⟩ := by
        rw [handleListVersions, if_pos happ]
        rfl
      rw [hrefused] at hlist
      cases hlist
      cases hsuccess
    · exact restorable_of_room hcard hcurrent

/-- A target with 33 versions of `demo` among its backups. -/
def crowdedTarget : Target where
  fs := (List.range 33).foldl (fun fs i => fs.insert (backupDir (ascii "demo") ++
    ascii "/20260102-030405-" ++ hex (UInt8.ofNat i :: List.replicate 31 0) ++ ascii ".bak")
    ⟨[UInt8.ofNat i], 0o755, i⟩) ∅
  cache := some []
  session := .zero

theorem crowded_versions_are_lost :
    (crowdedTarget.backupHashes (ascii "demo")).toFinset.card = 33 ∧
    ¬ Restorable (ascii "demo") crowdedTarget := by
  have hcard : (crowdedTarget.backupHashes (ascii "demo")).toFinset.card = 33 := by
    decide +kernel
  refine ⟨hcard, not_restorable_of_many (by decide) ?_⟩
  rw [hcard]
  decide

end SatDeploy.Agent
