import SatDeploy.Agent.AppMetadata
import SatDeploy.Agent.SvuTransfer

/-!
The command handlers of `satdeploy-agent/src/deploy_handler.c`: status,
deploy, rollback and the direct upload. An absent string field of a request
arrives as the empty string, and an upload session is held in memory, with
what the stream of its temporary file has not written yet. `handle_deploy` is
written over any transfer layer; `handleDeploy` plugs in `svu_download_file`.
-/

namespace SatDeploy.Agent

open Lib

inductive DeployError where
  | errNone
  | errUnknownCommand
  | errAppNotFound
  | errParamSetFailed
  | errBackupFailed
  | errDtpDownloadFailed
  | errChecksumMismatch
  | errInstallFailed
  | errNoBackups
  | errBackupNotFound
  | errRestoreFailed
  | errUploadInProgress
  | errNoUploadInProgress
  | errChunkOutOfOrder
  | errFileWriteFailed
  | errLogsFailed
  deriving DecidableEq, Repr

/-- The fields of `DeployRequest` that these handlers read. -/
structure DeployRequest where
  appName : Bytes
  remotePath : Bytes
  dtpServerNode : UInt32
  expectedSize : UInt32
  expectedChecksum : Bytes
  rollbackHash : Bytes
  chunkSeq : UInt32
  totalChunks : UInt32
  chunkData : Bytes
  fileMode : UInt32
  dtpMtu : UInt32
  deriving DecidableEq, Repr

structure AppStatusEntry where
  appName : Bytes
  fileHash : Bytes
  remotePath : Bytes
  deriving DecidableEq, Repr

structure DeployResponse where
  success : Bool
  errorCode : DeployError
  errorMessage : String
  apps : List AppStatusEntry
  backupPath : Bytes
  deriving DecidableEq, Repr

def refuse (code : DeployError) (message : String) : DeployResponse :=
  ⟨false, code, message, [], []⟩

def succeed (backupPath : Bytes) : DeployResponse :=
  ⟨true, .errNone, "", [], backupPath⟩

def versionSkewMessage : String :=
  "version skew: APM is older than agent — both must use full 64-hex SHA256 wire format " ++
    "(see CHANGELOG v0.4.0)"

def tempPath (remote : Path) : Path := clip maxPathLen (remote ++ ascii ".tmp")

def fileModeOf (mode : UInt32) : Nat := if mode ≠ 0 then mode.toNat else 0o755

section Deploy

variable (env : Env)

/-- The backup step before an install: the reported path, empty when there was
nothing to back up; `none` when the backup failed. -/
def backupBefore (app : Bytes) (remote : Path) : Prog Target (Option Bytes) := do
  if ← access env remote then backupCreate env app remote else return some []

/-- The steps of `handle_deploy` after the rename. -/
def finishDeploy (req : DeployRequest) (backup : Bytes) : Prog Target DeployResponse := do
  chmod env req.remotePath (fileModeOf req.fileMode)
  let _ ← backupCreate env req.appName req.remotePath
  let _ ← appMetadataSave env req.appName req.remotePath req.expectedChecksum
  return succeed backup

/-- The steps of `handle_deploy` after the download. -/
def verifyAndInstall (req : DeployRequest) (temp : Path) (backup : Bytes) :
    Prog Target DeployResponse := do
  match ← computeFileChecksum env temp with
  | none => do
      let _ ← unlink env temp
      return refuse .errChecksumMismatch "Failed to compute checksum"
  | some actual =>
      if actual ≠ req.expectedChecksum then do
        let _ ← unlink env temp
        return refuse .errChecksumMismatch "Checksum mismatch"
      else if ← rename env temp req.remotePath then finishDeploy env req backup
      else do
        let _ ← unlink env temp
        return refuse .errInstallFailed "Failed to install file"

/-- `handle_deploy` over a transfer layer. -/
def handleDeployWith (download : Path → Prog Target Bool) (req : DeployRequest) :
    Prog Target DeployResponse := do
  if req.appName = [] then return refuse .errAppNotFound "No app_name specified"
  else if req.remotePath = [] then return refuse .errAppNotFound "No remote_path specified"
  else if req.dtpServerNode = 0 then
    return refuse .errDtpDownloadFailed "No DTP server node specified"
  else if req.expectedChecksum.length ≠ hashHexLen then
    return refuse .errChecksumMismatch versionSkewMessage
  else
    match ← backupBefore env req.appName req.remotePath with
    | none => return refuse .errBackupFailed "Failed to backup current file"
    | some backup =>
        if ← download (tempPath req.remotePath) then
          verifyAndInstall env req (tempPath req.remotePath) backup
        else return refuse .errDtpDownloadFailed "SVU transfer did not verify"

def handleDeploy (link : Link) (req : DeployRequest) : Prog Target DeployResponse :=
  handleDeployWith env (fun temp => svuDownloadFile env link req.dtpServerNode.toNat temp
    req.expectedSize.toNat req.appName req.dtpMtu.toNat) req

end Deploy

section Status

variable (env : Env)

def maxStatusEntries : Nat := 32

/-- `status_metadata_callback` over the listed apps; `room` counts the free
slots. -/
def statusEntries : Nat → List AppEntry → Prog Target (List AppStatusEntry)
  | _, [] => pure []
  | 0, _ => pure []
  | room + 1, e :: rest => do
      match ← computeFileChecksum env e.remotePath with
      | none => statusEntries (room + 1) rest
      | some hash => do
          let later ← statusEntries room rest
          return ⟨e.appName, hash, e.remotePath⟩ :: later

def handleStatus : Prog Target DeployResponse := do
  let entries ← loadMetadata env
  let apps ← statusEntries env maxStatusEntries entries
  return ⟨true, .errNone, "", apps, []⟩

end Status

section Rollback

variable (env : Env)

def maxDialEntries : Nat := 32

/-- `backup_entry_t`. -/
structure BackupEntry where
  hash : Bytes
  path : Path
  mtime : Nat
  deriving DecidableEq, Repr

/-- `rollback_collect_callback` over the listed backups. -/
def collectBackups : List (Bytes × Path) → List BackupEntry → Prog Target (List BackupEntry)
  | [], entries => pure entries
  | (hash, path) :: rest, entries =>
      if entries.length ≥ maxDialEntries ∨ entries.any (·.hash = hash) then
        collectBackups rest entries
      else do
        let st ← statFile env path
        collectBackups rest (entries ++ [⟨hash, path, (st.map (·.mtime)).getD 0⟩])

/-- One pass of the inner loop of the sort: the entry that ends up in front
and the others, in the order the swaps leave them. -/
def bubbleFront (front : BackupEntry) : List BackupEntry → BackupEntry × List BackupEntry
  | [] => (front, [])
  | e :: rest =>
      if e.mtime > front.mtime then
        let out := bubbleFront e rest
        (out.1, front :: out.2)
      else
        let out := bubbleFront front rest
        (out.1, e :: out.2)

/-- The exchange sort by modification time, newest first. -/
def sortByMtime : Nat → List BackupEntry → List BackupEntry
  | 0, entries => entries
  | _, [] => []
  | fuel + 1, e :: rest =>
      let out := bubbleFront e rest
      out.1 :: sortByMtime fuel out.2

/-- The entry a rollback restores: the one with the wanted hash, or the next
one after the current version on the dial. -/
def selectBackup (wanted current : Bytes) (entries : List BackupEntry) : Option BackupEntry :=
  if wanted ≠ [] then entries.find? (·.hash = wanted)
  else
    let sorted := sortByMtime entries.length entries
    match sorted.findIdx? (fun e => current ≠ [] ∧ e.hash = current) with
    | none => sorted[0]?
    | some i => sorted[(i + 1) % sorted.length]?

/-- Where a rollback installs: the path of the request, else of the metadata. -/
def rollbackPath (req : DeployRequest) : Prog Target (Option Path) := do
  if req.remotePath ≠ [] then return some req.remotePath
  else
    match ← appMetadataGet env req.appName with
    | some e => return if e.remotePath ≠ [] then some e.remotePath else none
    | none => return none

/-- The steps of `handle_rollback` once a backup is selected. -/
def restoreSelected (app : Bytes) (remote : Path) (current : Bytes)
    (entries : List BackupEntry) (selected : BackupEntry) : Prog Target DeployResponse := do
  if current ≠ [] ∧ !(entries.any (·.hash = current)) then
    let _ ← backupCreate env app remote
  if ← backupRestore env selected.path remote then
    let _ ← appMetadataSave env app remote selected.hash
    return succeed selected.path
  else return refuse .errRestoreFailed "Failed to restore backup"

def handleRollback (req : DeployRequest) : Prog Target DeployResponse := do
  if req.appName = [] then return refuse .errAppNotFound "No app_name specified"
  else
    match ← rollbackPath env req with
    | none => return refuse .errAppNotFound "No remote_path specified and app not in metadata"
    | some remote => do
        let current := (← computeFileChecksum env remote).getD []
        let entries ← collectBackups env (← backupList env req.appName) []
        if entries = [] then return refuse .errNoBackups "No backups available"
        else
          match selectBackup req.rollbackHash current entries with
          | none => return refuse .errBackupNotFound "Backup with specified hash not found"
          | some selected => restoreSelected env req.appName remote current entries selected

end Rollback

section Upload

variable (env : Env)

/-- `dirname` of libgen: the path without its last component. -/
def dirname (path : Path) : Path :=
  let slash := '/'.toUInt8
  let trimmed := (path.reverse.dropWhile (· = slash)).reverse
  if path = [] then ascii "."
  else if trimmed = [] then ascii "/"
  else if ¬ trimmed.contains slash then ascii "."
  else
    let upper := ((trimmed.reverse.dropWhile (· ≠ slash)).dropWhile (· = slash)).reverse
    if upper = [] then ascii "/" else upper

def ensureParentDir (path : Path) : Prog Target Bool := mkdirP env (dirname path)

def uploadTempPath (app : Bytes) : Path :=
  clip maxPathLen (ascii "/tmp/satdeploy-" ++ app ++ ascii ".tmp")

def setSession (ss : UploadSession) : Prog Target Unit :=
  .update fun s => { s with session := ss }

def uploadSessionReset (ss : UploadSession) : Prog Target Unit := do
  if ss.tempOpen then fcloseBuffered env ss.tempPath ss.pending
  if ss.tempPath ≠ [] then
    let _ ← unlink env ss.tempPath
  setSession .zero

/-- The session `handle_upload_start` sets up for a request it takes. -/
def DeployRequest.session (req : DeployRequest) : UploadSession where
  active := true
  appName := clip maxAppNameLen req.appName
  remotePath := clip maxPathLen req.remotePath
  tempPath := uploadTempPath req.appName
  expectedChecksum := clip 65 req.expectedChecksum
  expectedSize := req.expectedSize.toNat
  receivedSize := 0
  nextChunk := 0
  totalChunks := req.totalChunks.toNat
  fileMode := req.fileMode.toNat
  tempOpen := true
  pending := []

/-- The steps of `handle_upload_start` after an old session is gone. -/
def openSession (req : DeployRequest) : Prog Target DeployResponse := do
  if req.appName = [] then return refuse .errAppNotFound "No app_name specified"
  else if req.remotePath = [] then return refuse .errAppNotFound "No remote_path specified"
  else if req.expectedChecksum.length ≠ hashHexLen then
    return refuse .errChecksumMismatch versionSkewMessage
  else if ← fopenWrite env (uploadTempPath req.appName) then
    setSession req.session
    return succeed []
  else do
    uploadSessionReset env { req.session with tempOpen := false }
    return refuse .errFileWriteFailed "Failed to create temp file"

def handleUploadStart (req : DeployRequest) : Prog Target DeployResponse := do
  let ss ← Prog.read (·.session)
  if ss.active then uploadSessionReset env ss
  openSession env req

def handleUploadChunk (req : DeployRequest) : Prog Target DeployResponse := do
  let ss ← Prog.read (·.session)
  if ss.active = false then return refuse .errNoUploadInProgress "No upload in progress"
  else if req.chunkSeq.toNat ≠ ss.nextChunk then
    return refuse .errChunkOutOfOrder "Chunk out of order"
  else if req.chunkData = [] then return refuse .errFileWriteFailed "Empty chunk data"
  else do
    let written ← fwriteBuffered env ss.tempPath ss.pending req.chunkData
    if written.1 then
      setSession { ss with
        receivedSize := (ss.receivedSize + req.chunkData.length) % 2 ^ 32
        nextChunk := (ss.nextChunk + 1) % 2 ^ 32
        pending := written.2 }
      return succeed []
    else do
      uploadSessionReset env { ss with pending := written.2 }
      return refuse .errFileWriteFailed "Failed to write chunk"

/-- The verification of `handle_upload_end`: what is wrong with the received
file, if anything. -/
def verifyUpload (ss : UploadSession) : Prog Target (Option String) := do
  if ss.expectedSize > 0 ∧ ss.receivedSize ≠ ss.expectedSize then
    return some "Size mismatch"
  else if ss.expectedChecksum = [] then return none
  else
    match ← computeFileChecksum env ss.tempPath with
    | none => return some "Failed to compute checksum"
    | some actual =>
        return if actual ≠ ss.expectedChecksum then some "Checksum mismatch" else none

/-- The steps of `handle_upload_end` after the copy. -/
def finishUpload (ss : UploadSession) (backup : Bytes) : Prog Target DeployResponse := do
  let _ ← unlink env ss.tempPath
  chmod env ss.remotePath (if ss.fileMode ≠ 0 then ss.fileMode else 0o755)
  let _ ← backupCreate env ss.appName ss.remotePath
  let _ ← appMetadataSave env ss.appName ss.remotePath ss.expectedChecksum
  setSession { ss with active := false, tempPath := [] }
  return succeed backup

/-- The steps of `handle_upload_end` once the received file is verified. -/
def installUpload (ss : UploadSession) : Prog Target DeployResponse := do
  match ← backupBefore env ss.appName ss.remotePath with
  | none => do
      uploadSessionReset env ss
      return refuse .errBackupFailed "Failed to backup current file"
  | some backup =>
      if ← ensureParentDir env ss.remotePath then
        if ← copyFile env ss.tempPath ss.remotePath then finishUpload env ss backup
        else do
          uploadSessionReset env ss
          return refuse .errInstallFailed "Failed to install file"
      else do
        uploadSessionReset env ss
        return refuse .errInstallFailed "Failed to create directory"

/-- The steps of `handle_upload_end` once the temporary file is closed. -/
def verifyAndInstallUpload (ss : UploadSession) : Prog Target DeployResponse := do
  setSession ss
  match ← verifyUpload env ss with
  | some wrong => do
      uploadSessionReset env ss
      return refuse .errChecksumMismatch wrong
  | none => installUpload env ss

/-- `handle_upload_end`; closing a stream that is not open kills the process. -/
def handleUploadEnd : Prog Target DeployResponse := do
  let ss ← Prog.read (·.session)
  if ss.active = false then return refuse .errNoUploadInProgress "No upload in progress"
  else if ss.tempOpen = false then Prog.die
  else
    fcloseBuffered env ss.tempPath ss.pending
    verifyAndInstallUpload env { ss with tempOpen := false, pending := [] }

end Upload

end SatDeploy.Agent
