import SatDeploy.Agent.ListVersions
import SatDeploy.Lib.Wire

/-!
`handle_connection` of `deploy_handler.c`: a request is dispatched to its
handler and the reply is packed into one CSP packet. Nothing on the way to the
packet looks at the size of a reply, so replies fit only as long as what they
list is small.
-/

namespace SatDeploy.Agent

open Lib

inductive DeployCommand where
  | cmdStatus
  | cmdDeploy
  | cmdRollback
  | cmdListVersions
  | cmdLogs
  | cmdUploadStart
  | cmdUploadChunk
  | cmdUploadEnd
  /-- Every other number. -/
  | cmdUnknown
  deriving DecidableEq, Repr

/-- `DeployRequest` with the fields of all commands. -/
structure Request extends DeployRequest where
  command : DeployCommand
  logLines : UInt32
  deriving DecidableEq, Repr

/-- The commands the agent runs in a shell. `running` is the answer of `pgrep`
for a path. `journal` is the answer of `popen` for a command line: the output,
and the exit status of a process that exited. -/
structure Shell where
  running : Path → Bool
  journal : Bytes → Option (Bytes × Option UInt8)

section Logs

def validAppChar (c : UInt8) : Bool :=
  ('a'.toUInt8 ≤ c && c ≤ 'z'.toUInt8) || ('A'.toUInt8 ≤ c && c ≤ 'Z'.toUInt8) ||
    ('0'.toUInt8 ≤ c && c ≤ '9'.toUInt8) || c = '_'.toUInt8 || c = '-'.toUInt8 ||
    c = '.'.toUInt8

def logsCommand (app : Bytes) (logLines : UInt32) : Bytes :=
  let lines := if logLines > 0 then logLines.toNat else 100
  clip 256 (ascii "journalctl -u " ++ clip 128 (app ++ ascii ".service") ++ ascii " -n " ++
    ascii (toString lines) ++ ascii " --no-pager 2>&1")

/-- The text that ends up in the reply: what `log_buf` holds up to its first
NUL, and in front of it, when the process failed, a sentence that says so. -/
def journalText (output : Bytes) (status : Option UInt8) : Bytes :=
  let log := (output.take 8191).takeWhile (· ≠ 0)
  if status = some 0 then log
  else
    let code := match status with
      | some code => toString code.toNat
      | none => "-1"
    clip 8256 (ascii "journalctl exited " ++ ascii code ++ ascii " on target: " ++
      if log = [] then ascii "(no output from journalctl)" else log)

def handleLogs (shell : Shell) (req : Request) : Response :=
  if req.appName = [] then (refuse .errAppNotFound "No app_name specified").full
  else if ¬ req.appName.all validAppChar then
    (refuse .errAppNotFound
      "Invalid app_name: only alphanumeric, underscore, hyphen, dot allowed").full
  else
    match shell.journal (logsCommand req.appName req.logLines) with
    | none => (refuse .errLogsFailed "Failed to execute journalctl").full
    | some (output, status) =>
        if status = some 0 then
          { (succeed []).full with logOutput := journalText output status }
        else { (refuse .errLogsFailed "").full with errorMessage := journalText output status }

end Logs

/-- The reply to a status request, with what `pgrep` says of each path. -/
def statusReply (shell : Shell) (r : DeployResponse) : Response :=
  { r.full with
    apps := r.apps.map fun a => ⟨a.appName, shell.running a.remotePath, a.fileHash, a.remotePath⟩ }

/-- From the parsed request to the response that is packed. -/
def handleConnection (env : Env) (link : Link) (shell : Shell) (req : Request) :
    Prog Target Response :=
  match req.command with
  | .cmdStatus => do return statusReply shell (← handleStatus env)
  | .cmdLogs => return handleLogs shell req
  | .cmdListVersions => handleListVersions env req.toDeployRequest
  | .cmdRollback => do return (← handleRollback env req.toDeployRequest).full
  | .cmdDeploy => do return (← handleDeploy env link req.toDeployRequest).full
  | .cmdUploadStart => do return (← handleUploadStart env req.toDeployRequest).full
  | .cmdUploadChunk => do return (← handleUploadChunk env req.toDeployRequest).full
  | .cmdUploadEnd => do return (← handleUploadEnd env).full
  | .cmdUnknown => return (refuse .errUnknownCommand "Unknown command").full

/-- A request that was answered: where it was handled, and the reply. -/
structure Exchange where
  env : Env
  link : Link
  shell : Shell
  calls : Nat
  req : Request
  before : Target
  reply : Response

/-- The life of an agent from `s₀` on: requests that are answered, and
restarts, at which any file may have changed and the memory is empty. -/
inductive AgentRun (s₀ : Target) : List Exchange → Target → Prop where
  | start : AgentRun s₀ [] s₀
  | answer {xs : List Exchange} {s : Target} (hrun : AgentRun s₀ xs s) (x : Exchange)
      (hbefore : x.before = s)
      (hreply : (handleConnection x.env x.link x.shell x.req x.calls s).result = some x.reply) :
      AgentRun s₀ (xs ++ [x]) (handleConnection x.env x.link x.shell x.req x.calls s).state
  | restart {xs : List Exchange} {s : Target} (hrun : AgentRun s₀ xs s) (t : Target)
      (hcache : t.cache = none) (hsession : t.session = .zero) : AgentRun s₀ xs t

section Sizes

/-- The number of an error on the wire. -/
def DeployError.code : DeployError → Nat
  | .errNone => 0
  | .errUnknownCommand => 1
  | .errAppNotFound => 2
  | .errParamSetFailed => 3
  | .errBackupFailed => 4
  | .errDtpDownloadFailed => 5
  | .errChecksumMismatch => 6
  | .errInstallFailed => 7
  | .errNoBackups => 8
  | .errBackupNotFound => 9
  | .errRestoreFailed => 10
  | .errUploadInProgress => 11
  | .errNoUploadInProgress => 12
  | .errChunkOutOfOrder => 13
  | .errFileWriteFailed => 14
  | .errLogsFailed => 15

def StatusEntry.wireSize (a : StatusEntry) : Nat :=
  bytesField a.appName.length + flagField a.running + bytesField a.fileHash.length +
    bytesField a.remotePath.length

def VersionEntry.wireSize (v : VersionEntry) : Nat :=
  bytesField v.version.length + bytesField v.timestamp.length + bytesField v.hash.length +
    bytesField v.path.length + numberField v.sizeBytes

/-- The size of a response in the wire format of `deploy.proto`. -/
def Response.wireSize (r : Response) : Nat :=
  flagField r.success + numberField r.errorCode.code + bytesField r.errorMessage.length +
    (r.apps.map fun a => messageField a.wireSize).sum +
    (r.backups.map fun v => messageField v.wireSize).sum +
    bytesField r.logOutput.length + bytesField r.backupPath.length

/-- The lengths of all strings in a response. -/
def Response.textLength (r : Response) : Nat :=
  r.errorMessage.length +
    (r.apps.map fun a => a.appName.length + a.fileHash.length + a.remotePath.length).sum +
    (r.backups.map fun v =>
      v.version.length + v.timestamp.length + v.hash.length + v.path.length).sum +
    r.logOutput.length + r.backupPath.length

/-- What is asked of `satdeploy__deploy_response__get_packed_size`. -/
structure PackedSize (packed : Response → Nat) : Prop where
  holds_text : ∀ r, r.textLength ≤ packed r
  within_wire : ∀ r, packed r ≤ r.wireSize

def cspBufferSize : Nat := 2048

end Sizes

/-! ### Replies without a list -/

/-- A reply with a short message, a path that fits a buffer, and no list. -/
def DeployResponse.Short (r : DeployResponse) : Prop :=
  r.errorMessage.toUTF8.data.toList.length ≤ 127 ∧ r.backupPath.length < maxPathLen

instance (r : DeployResponse) : Decidable r.Short :=
  inferInstanceAs (Decidable (r.errorMessage.toUTF8.data.toList.length ≤ 127 ∧
    r.backupPath.length < maxPathLen))

section Short

variable {env : Env} {req : DeployRequest}

theorem length_clip_lt (text : Bytes) : (clip maxPathLen text).length < maxPathLen :=
  Nat.lt_succ_of_le (List.length_take_le _ _)

theorem succeed_short {path : Bytes} (h : path.length < maxPathLen) : (succeed path).Short :=
  ⟨Nat.zero_le _, h⟩

/-- `backup_create` reports a path that fits its buffer. -/
theorem backupCreate_answers (app : Bytes) (src : Path) :
    Prog.Answers (backupCreate env app src) fun r => ∀ p, r = some p → p.length < maxPathLen := by
  have hnone : Prog.Answers (pure none : Prog Target (Option Path))
      fun r => ∀ p, r = some p → p.length < maxPathLen := .pure fun p hp => by cases hp
  unfold backupCreate
  refine .after fun st => ?_
  cases st with
  | none => exact hnone
  | some st =>
      refine .after fun hash => ?_
      cases hash with
      | none => exact hnone
      | some hash =>
          refine .after fun _ => .ite ?_ hnone
          refine .after fun _ => .ite ?_ hnone
          refine .after fun now => ?_
          have hfind : Prog.Answers (findBackup env app hash)
              fun r => ∀ p, r = some p → p.length < maxPathLen := by
            unfold findBackup
            refine .after fun names => ?_
            cases names with
            | none => exact hnone
            | some names =>
                refine .pure fun p hp => ?_
                obtain ⟨name, -, rfl⟩ := Option.map_eq_some_iff.mp hp
                exact length_clip_lt _
          refine .bind hfind fun existing hexisting => ?_
          cases existing with
          | some existing => exact .pure fun p hp => hexisting p hp
          | none =>
              refine .after fun _ => .ite (.pure fun p hp => ?_) hnone
              rw [← Option.some.inj hp]
              exact length_clip_lt _

theorem backupBefore_answers (app : Bytes) (remote : Path) :
    Prog.Answers (backupBefore env app remote)
      fun r => ∀ p, r = some p → p.length < maxPathLen := by
  unfold backupBefore
  refine .after fun _ => .ite (backupCreate_answers app remote) (.pure fun p hp => ?_)
  rw [← Option.some.inj hp]
  decide

theorem handleDeploy_short (link : Link) :
    Prog.Answers (handleDeploy env link req) DeployResponse.Short := by
  unfold handleDeploy handleDeployWith
  refine .ite (.pure (by decide)) (.ite (.pure (by decide)) (.ite (.pure (by decide))
    (.ite (.pure (by decide)) ?_)))
  refine .bind (backupBefore_answers _ _) fun backup hbackup => ?_
  cases backup with
  | none => exact .pure (by decide)
  | some backup =>
      refine .after fun _ => .ite ?_ (.pure (by decide))
      unfold verifyAndInstall
      refine .after fun digest => ?_
      cases digest with
      | none => exact .after fun _ => .pure (by decide)
      | some actual =>
          refine .ite (.after fun _ => .pure (by decide)) (.after fun _ => .ite ?_
            (.after fun _ => .pure (by decide)))
          unfold finishDeploy
          exact .after fun _ => .after fun _ => .after fun _ =>
            .pure (succeed_short (hbackup backup rfl))

theorem handleRollback_short : Prog.Answers (handleRollback env req) DeployResponse.Short := by
  unfold handleRollback
  refine .ite (.pure (by decide)) (.after fun remote => ?_)
  cases remote with
  | none => exact .pure (by decide)
  | some remote =>
      refine .after fun current => ?_
      have hlisted : Prog.Answers (backupList env req.appName)
          fun listed => ∀ b ∈ listed, b.2.length < maxPathLen := by
        unfold backupList
        refine .after fun names => ?_
        cases names with
        | none => exact .pure fun b hb => by cases hb
        | some names =>
            refine .pure fun b hb => ?_
            obtain ⟨name, -, hparse⟩ := List.mem_filterMap.mp hb
            obtain ⟨hash, -, rfl⟩ := Option.map_eq_some_iff.mp hparse
            exact length_clip_lt _
      refine .bind hlisted fun listed hpaths => ?_
      have hcollected : Prog.Answers (collectBackups env listed [])
          fun entries => ∀ e ∈ entries, (e.hash, e.path) ∈ listed :=
        fun n s => collectBackups_wp fun _ _ h => h
      refine .bind hcollected fun entries hentries => .ite (.pure (by decide)) ?_
      cases hselect : selectBackup req.rollbackHash (current.getD []) entries with
      | none => exact .pure (by decide)
      | some selected =>
          have hselected := hpaths _ (hentries selected (selectBackup_mem hselect))
          unfold restoreSelected
          have hrestore : Prog.Answers (do
              if ← backupRestore env selected.path remote then
                let _ ← appMetadataSave env req.appName remote selected.hash
                return succeed selected.path
              else return refuse .errRestoreFailed "Failed to restore backup")
              DeployResponse.Short :=
            .after fun _ => .ite (.after fun _ => .pure (succeed_short hselected))
              (.pure (by decide))
          exact .ite (.after fun _ => hrestore) hrestore

theorem handleUploadStart_short :
    Prog.Answers (handleUploadStart env req) DeployResponse.Short := by
  have hopen : Prog.Answers (openSession env req) DeployResponse.Short := by
    unfold openSession
    refine .ite (.pure (by decide)) (.ite (.pure (by decide)) (.ite (.pure (by decide)) ?_))
    exact .after fun _ => .ite (.after fun _ => .pure (succeed_short (by decide)))
      (.after fun _ => .pure (by decide))
  unfold handleUploadStart
  exact .after fun ss => .ite (.after fun _ => hopen) hopen

theorem handleUploadChunk_short :
    Prog.Answers (handleUploadChunk env req) DeployResponse.Short := by
  unfold handleUploadChunk
  refine .after fun ss => .ite (.pure (by decide)) (.ite (.pure (by decide))
    (.ite (.pure (by decide)) (.after fun _ => ?_)))
  exact .ite (.after fun _ => .pure (succeed_short (by decide)))
    (.after fun _ => .pure (by decide))

theorem handleUploadEnd_short : Prog.Answers (handleUploadEnd env) DeployResponse.Short := by
  unfold handleUploadEnd
  refine .after fun ss => .ite (.pure (by decide)) (.ite .die (.after fun _ => ?_))
  unfold verifyAndInstallUpload
  refine .after fun _ => ?_
  have hverify : Prog.Answers (verifyUpload env { ss with tempOpen := false })
      fun wrong => ∀ message, wrong = some message →
        (refuse .errChecksumMismatch message).Short := by
    have hfine : ∀ message, (none : Option String) = some message →
        (refuse .errChecksumMismatch message).Short := fun message h => by cases h
    unfold verifyUpload
    refine .ite (.pure fun message h => ?_) (.ite (.pure hfine) (.after fun digest => ?_))
    · rw [← Option.some.inj h]
      decide
    · cases digest with
      | none =>
          refine .pure fun message h => ?_
          rw [← Option.some.inj h]
          decide
      | some actual =>
          refine .pure fun message h => ?_
          split at h
          · rw [← Option.some.inj h]
            decide
          · cases h
  refine .bind hverify fun wrong hwrong => ?_
  cases wrong with
  | some message => exact .after fun _ => .pure (hwrong message rfl)
  | none =>
      unfold installUpload
      refine .bind (backupBefore_answers _ _) fun backup hbackup => ?_
      cases backup with
      | none => exact .after fun _ => .pure (by decide)
      | some backup =>
          refine .after fun _ => .ite (.after fun _ => .ite ?_ (.after fun _ =>
            .pure (by decide))) (.after fun _ => .pure (by decide))
          unfold finishUpload
          exact .after fun _ => .after fun _ => .after fun _ => .after fun _ => .after fun _ =>
            .pure (succeed_short (hbackup backup rfl))

theorem numberField_code_le (code : DeployError) : numberField code.code ≤ 2 := by
  cases code <;> decide

theorem DeployResponse.Short.fits {r : DeployResponse} (h : r.Short) :
    r.full.wireSize ≤ cspBufferSize := by
  have hmessage : bytesField r.full.errorMessage.length ≤ 129 := bytesField_mono h.1
  have hpath : bytesField r.full.backupPath.length ≤ 514 :=
    bytesField_mono (Nat.le_of_lt_succ h.2)
  have hflag := flagField_le r.success
  have hcode := numberField_code_le r.errorCode
  have hsize : r.full.wireSize = flagField r.success + numberField r.errorCode.code +
      bytesField r.full.errorMessage.length + 0 + 0 + 0 + bytesField r.full.backupPath.length :=
    rfl
  rw [hsize]
  unfold cspBufferSize
  omega

end Short

/-! ### Replies that list -/

section Shares

/-- The size `stat` gives for a file, 0 for none. -/
def Target.fileSize (s : Target) (p : Path) : Nat := ((s.content p).map (·.length)).getD 0

/-- The room a deployed app takes in a status reply. -/
def statusShare (e : AppEntry) : Nat :=
  messageField (bytesField e.appName.length + 2 + bytesField hashHexLen +
    bytesField e.remotePath.length)

/-- The room a backup takes in a list reply. -/
def Target.versionShare (s : Target) (app name : Bytes) : Nat :=
  messageField (bytesField (max (backupVersion name).length 7) + bytesField 19 +
    bytesField ((parseBackupFilename name).getD []).length +
    bytesField (existingPath app name).length + numberField (s.fileSize (existingPath app name)))

/-- The room the deployed version takes beside the backups `kept`. -/
def Target.currentShare (s : Target) (app : Bytes) (kept : List Bytes) : Nat :=
  match s.metadata.bind (findApp · app) with
  | none => 0
  | some e =>
      match s.content e.remotePath with
      | none => 0
      | some data =>
          if some (hexDigest data) ∈ kept.map parseBackupFilename then 0
          else messageField (bytesField 7 + bytesField e.deployedAt.length +
            bytesField hashHexLen + bytesField e.remotePath.length + numberField data.length)

/-- The names a list can show: at most 64 of the directory, with different
hashes. -/
structure Target.CanList (s : Target) (app : Bytes) (kept : List Bytes) : Prop where
  names : kept ⊆ s.namesIn (backupDir app)
  hashes : ∀ name ∈ kept, (parseBackupFilename name).isSome
  distinct : (kept.map parseBackupFilename).Nodup
  count : kept.length ≤ maxBackupEntries

/-- The reply to the request stays within the buffer: the deployed apps of a
status request, the versions of a list request and the text of a logs request
that gets to `journalctl` are small enough. -/
def SmallReply (shell : Shell) (req : Request) (s : Target) : Prop :=
  match req.command with
  | .cmdStatus => ∀ entries shown : List AppEntry, s.metadata = some entries →
      shown.Sublist entries → shown.length ≤ maxStatusEntries →
      (∀ e ∈ shown, (s.content e.remotePath).isSome) →
      2 + (shown.map statusShare).sum ≤ cspBufferSize
  | .cmdListVersions => ∀ kept, s.CanList req.appName kept →
      2 + (kept.map (s.versionShare req.appName)).sum + s.currentShare req.appName kept ≤
        cspBufferSize
  | .cmdLogs => req.appName ≠ [] → req.appName.all validAppChar = true → ∀ output status,
      shell.journal (logsCommand req.appName req.logLines) = some (output, status) →
        (journalText output status).length ≤ 2043
  | _ => True

end Shares

section Listing

variable {env : Env} {app : Bytes} {s : Target}

/-- Entries of a status reply against the metadata they come from. -/
def StatusOf (e : AppEntry) (a : AppStatusEntry) : Prop :=
  a.appName = e.appName ∧ a.remotePath = e.remotePath ∧ a.fileHash.length = hashHexLen

theorem statusEntries_shows (entries : List AppEntry) : ∀ room : Nat,
    Prog.Observes (statusEntries env room entries) fun s r => ∃ shown : List AppEntry,
      shown.Sublist entries ∧ shown.length ≤ room ∧
      (∀ e ∈ shown, (s.content e.remotePath).isSome) ∧ List.Forall₂ StatusOf shown r := by
  have hnone : ∀ (room : Nat) (entries : List AppEntry) (s : Target), ∃ shown : List AppEntry,
      shown.Sublist entries ∧ shown.length ≤ room ∧
      (∀ e ∈ shown, (s.content e.remotePath).isSome) ∧ List.Forall₂ StatusOf shown [] :=
    fun room entries s =>
      ⟨[], List.nil_sublist _, Nat.zero_le _, fun e he => (by cases he), .nil⟩
  induction entries with
  | nil =>
      intro room
      exact .pure (hnone room [])
  | cons e entries ih =>
      intro room
      cases room with
      | zero => exact .pure (hnone 0 _)
      | succ room =>
          unfold statusEntries
          refine .bind (computeFileChecksum_digest e.remotePath) fun digest => ?_
          cases digest with
          | none =>
              refine (ih (room + 1)).imp fun s r h _ => ?_
              obtain ⟨shown, hsub, hrest⟩ := h
              exact ⟨shown, hsub.cons e, hrest⟩
          | some hash =>
              refine .bind (ih room) fun later => .pure fun s h hdigest => ?_
              obtain ⟨shown, hsub, hlen, hthere, hall⟩ := h
              obtain ⟨data, hdata, rfl⟩ := hdigest hash rfl
              refine ⟨e :: shown, hsub.cons_cons e, Nat.succ_le_succ hlen, ?_,
                .cons ⟨rfl, rfl, length_hexDigest data⟩ hall⟩
              intro e' he'
              rcases List.mem_cons.mp he' with rfl | he'
              · rw [hdata]
                rfl
              · exact hthere e' he'

/-- The listed entry of a backup. -/
structure EntryOf (s : Target) (app name : Bytes) (v : VersionEntry) : Prop where
  version : v.version.length ≤ max (backupVersion name).length 7
  timestamp : v.timestamp.length ≤ 19
  hash : parseBackupFilename name = some v.hash
  path : v.path = existingPath app name
  size : v.sizeBytes ≤ s.fileSize v.path

theorem EntryOf.hashes {kept : List Bytes} {entries : List VersionEntry}
    (h : List.Forall₂ (EntryOf s app) kept entries) :
    kept.map parseBackupFilename = entries.map fun v => some v.hash := by
  induction h with
  | nil => rfl
  | cons hentry _ ih => rw [List.map_cons, List.map_cons, hentry.hash, ih]

theorem EntryOf.share {name : Bytes} {v : VersionEntry} (h : EntryOf s app name v) :
    messageField v.wireSize ≤ s.versionShare app name := by
  unfold Target.versionShare VersionEntry.wireSize
  apply messageField_mono
  have hversion := bytesField_mono h.version
  have htime := bytesField_mono h.timestamp
  have hsize := numberField_mono h.size
  rw [h.hash, Option.getD_some, ← h.path]
  omega

theorem EntryOf.sum_le {kept : List Bytes} {entries : List VersionEntry}
    (h : List.Forall₂ (EntryOf s app) kept entries) :
    (entries.map fun v => messageField v.wireSize).sum ≤
      (kept.map (s.versionShare app)).sum := by
  induction h with
  | nil => exact le_refl _
  | cons hentry _ ih =>
      rw [List.map_cons, List.map_cons, List.sum_cons, List.sum_cons]
      exact Nat.add_le_add hentry.share ih

theorem length_digits (width : Nat) : ∀ n, (digits width n).length = width := by
  induction width with
  | zero =>
      intro n
      rfl
  | succ width ih =>
      intro n
      rw [digits, List.length_append, ih]
      rfl

theorem length_padInt {width : Nat} (h : 0 < width) (v : Int) :
    (padInt width v).length = width := by
  unfold padInt
  have hdash : (ascii "-").length = 1 := rfl
  split
  · rw [List.length_append, length_digits, hdash]
    omega
  · exact length_digits _ _

theorem length_isoTime (tm : Tm) : (isoTime tm).length = 19 := by
  simp only [isoTime, List.length_append, length_digits]
  rfl

theorem length_nameTimestamp {name stamp : Bytes} (h : nameTimestamp name = some stamp) :
    stamp.length = 19 := by
  unfold nameTimestamp at h
  simp only [bind, Option.bind_eq_some_iff] at h
  obtain ⟨r₁, -, r₂, -, r₃, -, r₄, -, r₅, -, r₆, -, hstamp⟩ := h
  rw [← Option.some.inj hstamp]
  simp only [List.length_append, length_padInt (show 0 < 4 by decide),
    length_padInt (show 0 < 2 by decide)]
  rfl

theorem backupTimestamp_length (name : Bytes) (path : Path) :
    Prog.Observes (backupTimestamp env name path) fun _ r => r.length ≤ 19 := by
  unfold backupTimestamp
  split
  · refine .bind (statFile_observes path) fun st => ?_
    cases st with
    | some st => exact .pure fun _ _ => (length_isoTime _).le
    | none => exact .pure fun _ _ => by decide
  · refine .pure fun _ => ?_
    cases hstamp : nameTimestamp (name.take (name.length - 4)) with
    | none => exact Nat.zero_le _
    | some stamp => exact (length_nameTimestamp hstamp).le

theorem statFile_size (p : Path) :
    Prog.Observes (statFile env p) fun s st =>
      (st.map (·.data.length)).getD 0 ≤ s.fileSize p := by
  refine .call (fun _ _ => rfl) fun n s => ?_
  unfold Target.fileSize Target.content
  split
  · rw [Option.map_map]
    exact le_refl _
  · exact Nat.zero_le _

/-- The entries collected are those of names that can be listed together. -/
theorem collectVersions_kept (names : List Bytes) : ∀ entries : List VersionEntry,
    Prog.Observes (collectVersions env app names entries) fun s r => ∀ kept : List Bytes,
      List.Forall₂ (EntryOf s app) kept entries → (kept.map parseBackupFilename).Nodup →
      kept.length ≤ maxBackupEntries → ∃ kept' : List Bytes,
        List.Forall₂ (EntryOf s app) kept' r ∧ kept' ⊆ kept ++ names ∧
        (kept'.map parseBackupFilename).Nodup ∧ kept'.length ≤ maxBackupEntries := by
  induction names with
  | nil =>
      intro entries
      exact .pure fun _ kept hkept hnodup hlen => ⟨kept, hkept, by simp, hnodup, hlen⟩
  | cons name names ih =>
      intro entries
      unfold collectVersions
      have hskip : ∀ {kept kept' : List Bytes}, kept' ⊆ kept ++ names →
          kept' ⊆ kept ++ name :: names := by
        intro kept kept' hsub x hx
        have hmem := hsub hx
        simp only [List.mem_append, List.mem_cons] at hmem ⊢
        tauto
      cases hparse : parseBackupFilename name with
      | none =>
          refine (ih entries).imp fun _ _ h kept hkept hnodup hlen => ?_
          obtain ⟨kept', hkept', hsub, hrest⟩ := h kept hkept hnodup hlen
          exact ⟨kept', hkept', hskip hsub, hrest⟩
      | some hash =>
          refine .bind (backupTimestamp_length name _) fun stamp => ?_
          split
          · refine (ih entries).imp fun _ _ h _ kept hkept hnodup hlen => ?_
            obtain ⟨kept', hkept', hsub, hrest⟩ := h kept hkept hnodup hlen
            exact ⟨kept', hkept', hskip hsub, hrest⟩
          next hnew =>
            rw [not_or] at hnew
            refine .bind (statFile_size _) fun st => ?_
            refine (ih _).imp fun s _ h hsize hstamp kept hkept hnodup hlen => ?_
            have hentry : EntryOf s app name ⟨backupVersion name, stamp, hash,
                existingPath app name, (st.map (·.data.length)).getD 0⟩ :=
              ⟨le_max_left _ _, hstamp, hparse, rfl, hsize⟩
            have hfresh : some hash ∉ kept.map parseBackupFilename := by
              rw [EntryOf.hashes hkept]
              intro hmem
              obtain ⟨v, hv, hsame⟩ := List.mem_map.mp hmem
              exact hnew.2 (List.any_eq_true.mpr ⟨v, hv, by simpa using hsame⟩)
            have hcount := hkept.length_eq
            obtain ⟨kept', hkept', hsub, hrest⟩ := h (kept ++ [name])
              (List.rel_append hkept (.cons hentry .nil))
              (by
                rw [List.map_append, List.map_singleton, hparse]
                exact hnodup.append (List.nodup_singleton _) (by simpa using hfresh))
              (by
                rw [List.length_append, List.length_singleton]
                omega)
            refine ⟨kept', hkept', ?_, hrest⟩
            rw [List.append_assoc] at hsub
            exact hsub

theorem forall₂_modify {α β : Type} {R : α → β → Prop} {f : β → β}
    (hf : ∀ a b, R a b → R a (f b)) {l : List α} {r : List β} (h : List.Forall₂ R l r) :
    ∀ i, List.Forall₂ R l (r.modify i f) := by
  induction h with
  | nil =>
      intro i
      rw [List.modify_nil]
      exact .nil
  | cons hhead htail ih =>
      intro i
      cases i with
      | zero =>
          rw [List.modify_zero_cons]
          exact .cons (hf _ _ hhead) htail
      | succ i =>
          rw [List.modify_succ_cons]
          exact .cons hhead (ih i)

/-- The deployed version is one of the backups, or is listed beside them. -/
theorem markCurrent_kept (app : Bytes) (e : AppEntry) (actual : Bytes)
    (entries : List VersionEntry) :
    Prog.Observes (markCurrent env e actual entries) fun s r => ∀ kept : List Bytes,
      List.Forall₂ (EntryOf s app) kept entries →
      some actual ∈ kept.map parseBackupFilename ∧ List.Forall₂ (EntryOf s app) kept r ∨
      some actual ∉ kept.map parseBackupFilename ∧ ∃ size ≤ s.fileSize e.remotePath,
        r = entries ++ [⟨ascii "current", e.deployedAt, actual, e.remotePath, size⟩] := by
  unfold markCurrent
  cases hfind : entries.findIdx? (fun v => decide (v.hash = actual)) with
  | some i =>
      refine .pure fun s kept hkept => Or.inl ⟨?_, ?_⟩
      · obtain ⟨hlt, hhash, -⟩ := List.findIdx?_eq_some_iff_getElem.mp hfind
        rw [EntryOf.hashes hkept]
        exact List.mem_map.mpr ⟨entries[i], List.getElem_mem hlt, by simpa using hhash⟩
      · refine forall₂_modify (fun name v hv => ?_) hkept i
        exact ⟨le_max_right _ _, hv.timestamp, hv.hash, hv.path, hv.size⟩
  | none =>
      refine .bind (statFile_size _) fun st => .pure fun s hsize kept hkept => Or.inr ⟨?_, ?_⟩
      · rw [EntryOf.hashes hkept]
        intro hmem
        obtain ⟨v, hv, hsame⟩ := List.mem_map.mp hmem
        have hnone := List.findIdx?_eq_none_iff.mp hfind v hv
        simp [Option.some.inj hsame] at hnone
      · exact ⟨_, hsize, rfl⟩

end Listing

section Fitting

variable {env : Env} {req : Request} {shell : Shell} {n : Nat} {s : Target}

/-- A reply that carries only a list of versions. -/
theorem wireSize_versions (backups : List VersionEntry) :
    Response.wireSize { (succeed []).full with backups := backups } =
      2 + (backups.map fun v => messageField v.wireSize).sum := by
  have hsize : Response.wireSize { (succeed []).full with backups := backups } =
      2 + 0 + 0 + 0 + (backups.map fun v => messageField v.wireSize).sum + 0 + 0 := rfl
  omega

theorem handleStatus_fits (hsmall : ∀ entries shown : List AppEntry, s.metadata = some entries →
      shown.Sublist entries → shown.length ≤ maxStatusEntries →
      (∀ e ∈ shown, (s.content e.remotePath).isSome) →
      2 + (shown.map statusShare).sum ≤ cspBufferSize) :
    Prog.wp (handleStatus env) (fun _ => True)
      (fun resp _ _ => (statusReply shell resp).wireSize ≤ cspBufferSize) n s := by
  have hsize : ∀ apps : List AppStatusEntry,
      (statusReply shell ⟨true, .errNone, "", apps, []⟩).wireSize =
        2 + (apps.map fun a => messageField (StatusEntry.wireSize
          ⟨a.appName, shell.running a.remotePath, a.fileHash, a.remotePath⟩)).sum := by
    intro apps
    have hparts : (statusReply shell ⟨true, .errNone, "", apps, []⟩).wireSize =
        2 + 0 + 0 + ((statusReply shell ⟨true, .errNone, "", apps, []⟩).apps.map
          fun a => messageField a.wireSize).sum + 0 + 0 + 0 := rfl
    rw [hparts, statusReply, List.map_map]
    simp only [Nat.add_zero]
    rfl
  have hlist : ∀ (t : Target) (m : Nat) (entries : List AppEntry), t.fs = s.fs →
      (entries = [] ∨ s.metadata = some entries) →
      Prog.wp (do
        let apps ← statusEntries env maxStatusEntries entries
        return (⟨true, .errNone, "", apps, []⟩ : DeployResponse)) (fun _ => True)
        (fun resp _ _ => (statusReply shell resp).wireSize ≤ cspBufferSize) m t := by
    intro t m entries ht hmeta
    rw [Prog.wp_bind]
    refine (statusEntries_shows entries maxStatusEntries).wp fun m apps h => ?_
    obtain ⟨shown, hsub, hlen, hthere, hall⟩ := h
    rw [Prog.wp_pure, hsize]
    have hsum : (apps.map fun a => messageField (StatusEntry.wireSize
        ⟨a.appName, shell.running a.remotePath, a.fileHash, a.remotePath⟩)).sum ≤
        (shown.map statusShare).sum := by
      clear hsub hlen hthere
      induction hall with
      | nil => exact le_refl _
      | @cons e a shown apps hentry _ ih =>
          rw [List.map_cons, List.map_cons, List.sum_cons, List.sum_cons]
          refine Nat.add_le_add (messageField_mono ?_) ih
          obtain ⟨hname, hpath, hhash⟩ := hentry
          have hflag := flagField_le (shell.running a.remotePath)
          unfold StatusEntry.wireSize
          dsimp only
          rw [hname, hhash, ← hpath]
          omega
    have hthere' : ∀ e ∈ shown, (s.content e.remotePath).isSome := by
      simpa only [Target.content, ht] using hthere
    rcases hmeta with rfl | hmeta
    · rw [List.sublist_nil.mp hsub] at hsum
      have hzero : (([] : List AppEntry).map statusShare).sum = 0 := rfl
      unfold cspBufferSize
      omega
    · have hfits := hsmall entries shown hmeta hsub hlen hthere'
      omega
  unfold handleStatus
  rw [Prog.wp_bind]
  refine loadMetadata_wp (fun _ _ => trivial) ?_ ?_
  · exact fun m t ht => hlist t m [] ht (Or.inl rfl)
  · exact fun m t entries ht hmeta => hlist t m entries ht (Or.inr hmeta)

theorem handleListVersions_fits (hsmall : ∀ kept, s.CanList req.appName kept →
      2 + (kept.map (s.versionShare req.appName)).sum + s.currentShare req.appName kept ≤
        cspBufferSize) :
    Prog.wp (handleListVersions env req.toDeployRequest) (fun _ => True)
      (fun resp _ _ => resp.wireSize ≤ cspBufferSize) n s := by
  unfold handleListVersions
  split
  · exact (Prog.wp_pure _).mpr (by decide)
  next happ =>
    have hlisted : Prog.Observes (listVersions env req.appName) fun s r => ∃ kept,
        s.CanList req.appName kept ∧ List.Forall₂ (EntryOf s req.appName) kept r := by
      unfold listVersions
      refine .bind (opendir_observes _) fun names => ?_
      cases names with
      | none =>
          exact .pure fun s _ => ⟨[], ⟨List.nil_subset _, fun _ h => (by cases h),
            List.nodup_nil, Nat.zero_le _⟩, .nil⟩
      | some names =>
          refine (collectVersions_kept names []).imp fun s r h hopen => ?_
          obtain ⟨kept, hkept, hsub, hnodup, hlen⟩ := h [] .nil List.nodup_nil (Nat.zero_le _)
          obtain ⟨-, rfl⟩ := hopen names rfl
          refine ⟨kept, ⟨fun name hname => ?_, fun name hname => ?_, hnodup, hlen⟩, hkept⟩
          · exact (env.order_perm _).mem_iff.mp (by simpa using hsub hname)
          · have hmem := List.mem_map_of_mem hname (f := parseBackupFilename)
            rw [EntryOf.hashes hkept] at hmem
            obtain ⟨v, -, hv⟩ := List.mem_map.mp hmem
            rw [← hv]
            rfl
    have hentries : Prog.wp (versionsWithCurrent env req.appName) (fun _ => True)
        (fun r _ _ => 2 + (r.map fun v => messageField v.wireSize).sum ≤ cspBufferSize) n s := by
      unfold versionsWithCurrent
      rw [Prog.wp_bind]
      refine hlisted.wp fun m listed h => ?_
      obtain ⟨kept, hcan, hkept⟩ := h
      have hroom := hsmall kept hcan
      have hsum := EntryOf.sum_le hkept
      have hplain : 2 + (listed.map fun v => messageField v.wireSize).sum ≤ cspBufferSize := by
        omega
      rw [Prog.wp_bind, appMetadataGet, Prog.wp_bind]
      refine loadMetadata_wp (fun _ _ => trivial) (fun m t _ => ?_) fun m t entries hfs hmeta => ?_
      · rw [Prog.wp_pure]
        exact (Prog.wp_pure _).mpr hplain
      · rw [Prog.wp_pure]
        cases hfound : findApp entries req.appName with
        | none => exact (Prog.wp_pure _).mpr hplain
        | some e =>
            dsimp only
            rw [Prog.wp_bind]
            refine computeFileChecksum_wp (fun m => (Prog.wp_pure _).mpr hplain)
              fun m data hdata => ?_
            have hcontent : s.content e.remotePath = some data := by
              rw [← hdata]
              unfold Target.content
              rw [hfs]
            have hkept' : List.Forall₂ (EntryOf t req.appName) kept listed := by
              refine hkept.imp fun name v hv => ?_
              refine ⟨hv.version, hv.timestamp, hv.hash, hv.path, ?_⟩
              simpa only [Target.fileSize, Target.content, hfs] using hv.size
            refine (markCurrent_kept req.appName e (hexDigest data) listed).wp fun m marked h => ?_
            rcases h kept hkept' with ⟨-, hmarked⟩ | ⟨hnew, size, hsize, rfl⟩
            · have hshare : ∀ name, t.versionShare req.appName name =
                  s.versionShare req.appName name := by
                intro name
                simp only [Target.versionShare, Target.fileSize, Target.content, hfs]
              have hmarkedSum := EntryOf.sum_le hmarked
              simp only [funext hshare] at hmarkedSum
              omega
            · have hcurrent : s.currentShare req.appName kept =
                  messageField (bytesField 7 + bytesField e.deployedAt.length +
                    bytesField hashHexLen + bytesField e.remotePath.length +
                    numberField data.length) := by
                unfold Target.currentShare
                rw [hmeta, Option.bind_some, hfound]
                dsimp only
                rw [hcontent]
                exact if_neg hnew
              have hsize' : size ≤ data.length := by
                simpa [Target.fileSize, hdata] using hsize
              have hlast : messageField (VersionEntry.wireSize ⟨ascii "current", e.deployedAt,
                  hexDigest data, e.remotePath, size⟩) ≤ s.currentShare req.appName kept := by
                rw [hcurrent]
                apply messageField_mono
                have hnumber := numberField_mono hsize'
                unfold VersionEntry.wireSize
                rw [length_hexDigest]
                exact Nat.add_le_add_left hnumber _
              rw [List.map_append, List.sum_append, List.map_singleton, List.sum_singleton]
              omega
    rw [Prog.wp_bind]
    refine Prog.wp_imp hentries fun r m t hr => ?_
    rw [Prog.wp_bind]
    refine (sortVersions_observes _ r).wp fun m sorted hsorted => ?_
    rw [Prog.wp_pure, wireSize_versions, (hsorted.map _).sum_eq]
    exact hr

theorem handleLogs_fits (hsmall : req.appName ≠ [] → req.appName.all validAppChar = true →
      ∀ output status, shell.journal (logsCommand req.appName req.logLines) =
        some (output, status) → (journalText output status).length ≤ 2043) :
    (handleLogs shell req).wireSize ≤ cspBufferSize := by
  unfold handleLogs
  split
  · decide
  next hne =>
    split
    · decide
    next hsafe =>
      cases hjournal : shell.journal (logsCommand req.appName req.logLines) with
      | none =>
          dsimp only
          decide
      | some answer =>
          obtain ⟨output, status⟩ := answer
          have htext : bytesField (journalText output status).length ≤ 2046 :=
            bytesField_mono (hsmall hne (not_not.mp hsafe) output status hjournal)
          dsimp only
          split
          · have hsize : Response.wireSize
                { (succeed []).full with logOutput := journalText output status } =
                2 + 0 + 0 + 0 + 0 + bytesField (journalText output status).length + 0 := rfl
            rw [hsize]
            unfold cspBufferSize
            omega
          · have hsize : Response.wireSize { (refuse .errLogsFailed "").full with
                errorMessage := journalText output status } =
                0 + numberField DeployError.errLogsFailed.code +
                  bytesField (journalText output status).length + 0 + 0 + 0 + 0 := rfl
            have hcode := numberField_code_le .errLogsFailed
            rw [hsize]
            unfold cspBufferSize
            omega

/-- A small reply fits the packet. -/
theorem handleConnection_fits (link : Link) (hsmall : SmallReply shell req s) :
    Prog.wp (handleConnection env link shell req) (fun _ => True)
      (fun resp _ _ => resp.wireSize ≤ cspBufferSize) n s := by
  have hshort : ∀ c : Prog Target DeployResponse, Prog.Answers c DeployResponse.Short →
      Prog.wp (do return (← c).full) (fun _ => True)
        (fun resp _ _ => resp.wireSize ≤ cspBufferSize) n s := by
    intro c hc
    rw [Prog.wp_bind]
    exact Prog.wp_imp (hc n s) fun r _ _ hr => (Prog.wp_pure _).mpr hr.fits
  unfold handleConnection
  unfold SmallReply at hsmall
  cases hcommand : req.command with
  | cmdStatus =>
      rw [hcommand] at hsmall
      rw [Prog.wp_bind]
      exact Prog.wp_imp (handleStatus_fits hsmall) fun r _ _ hr => (Prog.wp_pure _).mpr hr
  | cmdLogs =>
      rw [hcommand] at hsmall
      exact (Prog.wp_pure _).mpr (handleLogs_fits hsmall)
  | cmdListVersions =>
      rw [hcommand] at hsmall
      exact handleListVersions_fits hsmall
  | cmdRollback => exact hshort _ handleRollback_short
  | cmdDeploy => exact hshort _ (handleDeploy_short link)
  | cmdUploadStart => exact hshort _ handleUploadStart_short
  | cmdUploadChunk => exact hshort _ handleUploadChunk_short
  | cmdUploadEnd => exact hshort _ handleUploadEnd_short
  | cmdUnknown => exact (Prog.wp_pure _).mpr (by decide)

end Fitting

/-- In every life of an agent, each reply fits the packet if what it lists was
small when the request came in. -/
theorem replies_fit_packet {packed : Response → Nat} (hpacked : PackedSize packed) {s₀ s : Target}
    {xs : List Exchange} (hrun : AgentRun s₀ xs s)
    (hsmall : ∀ x ∈ xs, SmallReply x.shell x.req x.before) :
    ∀ x ∈ xs, packed x.reply ≤ cspBufferSize := by
  induction hrun with
  | start =>
      intro x hx
      cases hx
  | @answer xs s hrun x hbefore hreply ih =>
      intro y hy
      rcases List.mem_append.mp hy with hy | hy
      · exact ih (fun z hz => hsmall z (List.mem_append_left _ hz)) y hy
      · rw [List.mem_singleton.mp hy]
        have hx := hsmall x (List.mem_append_right _ List.mem_cons_self)
        rw [hbefore] at hx
        have hend := (handleConnection_fits (n := x.calls) x.link hx :
          Prog.wp (handleConnection x.env x.link x.shell x.req) (fun _ => True) _ x.calls s).2
        rw [hreply] at hend
        exact le_trans (hpacked.within_wire x.reply) hend
  | restart _ t _ _ ih => exact ih hsmall

theorem text_within_wire (r : Response) : r.textLength ≤ r.wireSize := by
  have happs : (r.apps.map fun a =>
      a.appName.length + a.fileHash.length + a.remotePath.length).sum ≤
      (r.apps.map fun a => messageField a.wireSize).sum := by
    apply List.sum_le_sum
    intro a _
    have hname := le_bytesField a.appName.length
    have hhash := le_bytesField a.fileHash.length
    have hpath := le_bytesField a.remotePath.length
    refine le_trans ?_ (le_messageField _)
    unfold StatusEntry.wireSize
    omega
  have hbackups : (r.backups.map fun v =>
      v.version.length + v.timestamp.length + v.hash.length + v.path.length).sum ≤
      (r.backups.map fun v => messageField v.wireSize).sum := by
    apply List.sum_le_sum
    intro v _
    have hversion := le_bytesField v.version.length
    have htime := le_bytesField v.timestamp.length
    have hhash := le_bytesField v.hash.length
    have hpath := le_bytesField v.path.length
    refine le_trans ?_ (le_messageField _)
    unfold VersionEntry.wireSize
    omega
  have hmessage := le_bytesField r.errorMessage.length
  have hlog := le_bytesField r.logOutput.length
  have hpath := le_bytesField r.backupPath.length
  unfold Response.textLength Response.wireSize
  omega

theorem wireSize_packed : PackedSize Response.wireSize :=
  ⟨text_within_wire, fun _ => le_refl _⟩

/-- A link on which no peer answers. -/
def silentLink : Link where
  ctrl := fun _ _ => ⟨false, false, false, [], fun _ => false⟩
  drains := fun _ => []
  allocated := false
  heap := fun _ => 0

/-- A shell whose journal has one line. -/
def quietShell : Shell where
  running := fun _ => false
  journal := fun _ => some (ascii "started", some 0)

def demoExchange (command : DeployCommand) (s : Target) (reply : Response) : Exchange where
  env := calmEnv demoTime
  link := silentLink
  shell := quietShell
  calls := 0
  req := { versionRequest (ascii "demo") [] with command := command, logLines := 0 }
  before := s
  reply := reply

/-- An agent that just came up, on a target without files. -/
def bareTarget : Target := ⟨∅, some [], .zero⟩

theorem replies_fit_demo :
    Response.wireSize { (succeed []).full with logOutput := ascii "started" } ≤ cspBufferSize := by
  have hrun : AgentRun bareTarget
      ([] ++ [demoExchange .cmdLogs bareTarget
        { (succeed []).full with logOutput := ascii "started" }]) bareTarget :=
    .answer .start _ rfl (by decide +kernel)
  refine replies_fit_packet wireSize_packed hrun ?_ _ List.mem_cons_self
  intro x hx
  rw [List.mem_singleton.mp hx]
  intro _ _ output status hjournal
  cases hjournal
  decide +kernel

/-- A target with eight versions of `demo` among its backups. -/
def eightVersions : Target where
  fs := (List.range 8).foldl (fun fs i => fs.insert (backupDir (ascii "demo") ++
    ascii "/20260102-030405-" ++ hex (UInt8.ofNat i :: List.replicate 31 0) ++ ascii ".bak")
    ⟨[UInt8.ofNat i], 0o755, i⟩) ∅
  cache := some []
  session := .zero

/-- The list reply of eight versions does not fit, whatever packs it. -/
theorem eight_versions_overrun :
    ∃ reply s, AgentRun eightVersions [demoExchange .cmdListVersions eightVersions reply] s ∧
      ∀ packed, PackedSize packed → cspBufferSize < packed reply := by
  have hreply : ∃ reply, (handleConnection (calmEnv demoTime) silentLink
      quietShell (demoExchange .cmdListVersions eightVersions (succeed []).full).req 0
      eightVersions).result = some reply ∧ cspBufferSize < reply.textLength := by
    have hlong : ((handleConnection (calmEnv demoTime) silentLink quietShell
        (demoExchange .cmdListVersions eightVersions (succeed []).full).req 0
        eightVersions).result.map Response.textLength) = some 2200 := by
      decide +kernel
    obtain ⟨reply, hresult, hlength⟩ := Option.map_eq_some_iff.mp hlong
    refine ⟨reply, hresult, ?_⟩
    rw [hlength]
    decide
  obtain ⟨reply, hresult, hlong⟩ := hreply
  refine ⟨reply, _, .answer .start (demoExchange .cmdListVersions eightVersions reply) rfl hresult,
    fun packed hpacked => lt_of_lt_of_le hlong (hpacked.holds_text reply)⟩

end SatDeploy.Agent
