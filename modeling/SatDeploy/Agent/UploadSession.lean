import SatDeploy.Agent.Connection
import SatDeploy.Agent.CopyInstall
import SatDeploy.Agent.Reliable

/-!
The direct upload over whole sequences of requests. One session is shared by
all clients; whatever they send in whatever order, its temporary file begins
the concatenation of the chunks that were taken since the last upload was
started, its stream holds the rest, and what an upload installs, once the
stream is closed, is that concatenation.
-/

namespace SatDeploy.Agent

open Lib

/-- An upload as the replies tell it: the request that started it and the
chunks taken since. -/
structure Upload where
  start : Request
  chunks : List Request

def Upload.data (u : Upload) : Bytes := u.chunks.flatMap (·.chunkData)

/-- The last upload that was started, after one more exchange. -/
def nextUpload (u : Option Upload) (x : Exchange) : Option Upload :=
  match x.req.command with
  | .cmdUploadStart => if x.reply.success then some ⟨x.req, []⟩ else u
  | .cmdUploadChunk =>
      if x.reply.success then u.map fun u => ⟨u.start, u.chunks ++ [x.req]⟩ else u
  | _ => u

/-- The last upload that was successfully started, with the chunks answered
with success since. -/
def lastUpload (xs : List Exchange) : Option Upload := xs.foldl nextUpload none

theorem lastUpload_concat (xs : List Exchange) (x : Exchange) :
    lastUpload (xs ++ [x]) = nextUpload (lastUpload xs) x := by
  simp [lastUpload]

/-- The exchanges considered: no call fails, the request is no deploy and no
rollback, and an upload is started for a path that fits its buffer and is
neither its own temporary file nor `apps.json`. -/
structure Exchange.Direct (x : Exchange) : Prop where
  reliable : x.env.Reliable
  no_deploy : x.req.command ≠ .cmdDeploy
  no_rollback : x.req.command ≠ .cmdRollback
  remote : x.req.command = .cmdUploadStart → x.reply.success = true →
    x.req.remotePath.length < maxPathLen ∧
      x.req.remotePath ≠ uploadTempPath x.req.appName ∧ x.req.remotePath ≠ metadataFile

/-- What the agent holds of an upload: the session counts the chunks, numbered from 0
on, and their bytes; the temporary file has the first of these bytes, and its stream
the others. -/
structure Upload.Held (u : Upload) (s : Target) : Prop where
  session : s.session = { u.start.toDeployRequest.session with
    receivedSize := u.data.length
    nextChunk := u.chunks.length
    pending := s.session.pending }
  file : ∃ file, s.content s.session.tempPath = some file ∧ file ++ s.session.pending = u.data
  numbered : u.chunks.map (·.chunkSeq.toNat) = List.range s.session.nextChunk

/-- An active session is that of the last upload. -/
def UploadHolds (xs : List Exchange) (s : Target) : Prop :=
  s.session.active = true → ∃ u, lastUpload xs = some u ∧ u.Held s

/-- While a session is active, all that was taken is in its temporary file. -/
def FileKeepsUp (xs : List Exchange) (s : Target) : Prop :=
  s.session.active = true → ∃ u, lastUpload xs = some u ∧
    s.content s.session.tempPath = some u.data

theorem Upload.Held.of_same {u : Upload} {s t : Target} (h : u.Held s) (hfs : t.fs = s.fs)
    (hsession : t.session = s.session) : u.Held t where
  session := by
    rw [hsession]
    exact h.session
  file := by
    have hcontent : t.content s.session.tempPath = s.content s.session.tempPath :=
      Target.content_congr (by rw [hfs])
    rw [hsession, hcontent]
    exact h.file
  numbered := by
    rw [hsession]
    exact h.numbered

/-- What more is known of an upload under way. -/
structure Upload.Sound (u : Upload) : Prop where
  checksum : u.start.expectedChecksum.length = hashHexLen
  short : u.start.remotePath.length < maxPathLen
  apart : u.start.remotePath ≠ uploadTempPath u.start.appName
  no_metadata : u.start.remotePath ≠ metadataFile
  counted : u.chunks.length ≤ u.data.length

section TempPath

theorem take_uploadTempPath (app : Bytes) :
    (uploadTempPath app).take 15 = ascii "/tmp/satdeploy-" := by
  unfold uploadTempPath
  rw [take_clip (by decide), List.append_assoc]
  exact List.take_left' rfl

theorem uploadTempPath_apart (app : Bytes) : ¬ underBackups (uploadTempPath app) := by
  intro hunder
  have hstart := take_uploadTempPath app
  have htake : (uploadTempPath app).take 15 = ((uploadTempPath app).take 23).take 15 := by
    rw [List.take_take]
    rfl
  rw [htake, hunder] at hstart
  exact absurd hstart (by decide)

theorem uploadTempPath_ne_metadataFile (app : Bytes) : uploadTempPath app ≠ metadataFile := by
  intro heq
  have hstart := take_uploadTempPath app
  rw [heq] at hstart
  exact absurd hstart (by decide)

end TempPath

section Handlers

variable {env : Env} {req : DeployRequest} {n : Nat} {s : Target}

/-- A started upload has an empty temporary file; after a refused start there is
no session. -/
theorem handleUploadStart_opens (henv : env.Reliable) :
    Prog.wp (handleUploadStart env req) (fun _ => True) (fun resp _ t =>
      if resp.success then t.session = req.session ∧
        t.content (uploadTempPath req.appName) = some [] ∧
        req.expectedChecksum.length = hashHexLen
      else t.session.active = false) n s := by
  have hopen : ∀ m t, t.session.active = false →
      Prog.wp (openSession env req) (fun _ => True) (fun resp _ t =>
        if resp.success then t.session = req.session ∧
          t.content (uploadTempPath req.appName) = some [] ∧
          req.expectedChecksum.length = hashHexLen
        else t.session.active = false) m t := by
    intro m t hidle
    unfold openSession
    split
    · exact (Prog.wp_pure _).mpr hidle
    · split
      · exact (Prog.wp_pure _).mpr hidle
      · split
        · exact (Prog.wp_pure _).mpr hidle
        next hlength =>
          rw [Prog.wp_bind]
          apply Prog.Ends.wp
          rw [fopenWrite_ends henv, if_pos rfl, Prog.wp_bind, setSession, Prog.wp_update]
          refine ⟨trivial, (Prog.wp_pure _).mpr ?_⟩
          exact ⟨rfl, Target.content_put, not_not.mp hlength⟩
  unfold handleUploadStart
  rw [Prog.wp_bind, Prog.wp_read]
  split
  · rw [Prog.wp_bind]
    exact Prog.wp_imp (uploadSessionReset_idle _) fun _ m t ht => hopen m t ht
  next hidle => exact hopen _ _ (by simpa using hidle)

/-- A chunk is added at the end of the stream, which passes some of its bytes on, or
nothing changes. -/
theorem handleUploadChunk_takes (henv : env.Reliable) {file : Bytes}
    (hfile : s.session.active = true → s.content s.session.tempPath = some file) :
    Prog.wp (handleUploadChunk env req) (fun _ => True) (fun resp _ t =>
      if resp.success then s.session.active = true ∧
        req.chunkSeq.toNat = s.session.nextChunk ∧ req.chunkData ≠ [] ∧
        t.session = { s.session with
          receivedSize := (s.session.receivedSize + req.chunkData.length) % 2 ^ 32
          nextChunk := (s.session.nextChunk + 1) % 2 ^ 32
          pending := t.session.pending } ∧
        ∃ passed, t.content s.session.tempPath = some (file ++ passed) ∧
          passed ++ t.session.pending = s.session.pending ++ req.chunkData
      else t = s) n s := by
  unfold handleUploadChunk
  rw [Prog.wp_bind, Prog.wp_read]
  split
  · exact (Prog.wp_pure _).mpr rfl
  next hidle =>
    have hactive : s.session.active = true := by simpa using hidle
    split
    · exact (Prog.wp_pure _).mpr rfl
    next hseq =>
      split
      · exact (Prog.wp_pure _).mpr rfl
      next hne =>
        rw [Prog.wp_bind]
        apply Prog.Ends.wp
        rw [fwriteBuffered_ends henv, if_pos rfl, Prog.wp_bind, setSession, Prog.wp_update]
        refine ⟨trivial, (Prog.wp_pure _).mpr ?_⟩
        refine ⟨hactive, not_not.mp hseq, hne, rfl, _, ?_, List.take_append_drop _ _⟩
        exact content_added (hfile hactive)

/-- What an upload installs is its temporary file. -/
theorem installUpload_installs (henv : env.Reliable) {ss : UploadSession} {data : Bytes}
    {app : Bytes} (htemp : ss.tempPath = uploadTempPath app)
    (hapart : ss.remotePath ≠ ss.tempPath) (hmeta : ss.remotePath ≠ metadataFile)
    (hdata : s.content ss.tempPath = some data) :
    Prog.wp (installUpload env ss) (fun _ => True) (fun resp _ t => resp.success = true →
      t.content ss.remotePath = some data) n s := by
  have hrefuse : ∀ m t code message, Prog.wp (do
      uploadSessionReset env ss
      return refuse code message : Prog Target DeployResponse) (fun _ => True)
      (fun resp _ t => resp.success = true → t.content ss.remotePath = some data) m t := by
    intro m t code message
    rw [Prog.wp_bind]
    exact Prog.wp_any _ fun _ _ _ => (Prog.wp_pure _).mpr fun hsuccess => by cases hsuccess
  unfold installUpload
  rw [Prog.wp_bind]
  have hbackup : Touches (fun p => IsBackupPath ss.appName p)
      (backupBefore env ss.appName ss.remotePath) := by
    unfold backupBefore
    exact .bind (access_touches _) fun _ => .ite (backupCreate_touches _ _) (.pure _)
  have hnot : ¬ IsBackupPath ss.appName ss.tempPath := by
    rintro ⟨tm, content, hpath⟩
    apply uploadTempPath_apart app
    rw [← htemp, hpath]
    exact backupPath_under _ _ _
  refine Prog.wp_mono (hbackup.frame n s) (fun _ _ => trivial) fun backup m t ht => ?_
  have hdata' : t.content ss.tempPath = some data := (ht _ hnot).trans hdata
  cases backup with
  | none => exact hrefuse _ _ _ _
  | some backup =>
      dsimp only
      rw [Prog.wp_bind]
      unfold ensureParentDir
      refine mkdirP_wp fun made m => ?_
      split
      · rw [Prog.wp_bind]
        apply Prog.Ends.wp
        refine (copyFile_reliable henv hdata').imp ?_
        rintro _ m u ⟨rfl, ⟨g, hg, hfresh⟩, -⟩
        rw [if_pos rfl]
        have hinstalled : u.content ss.remotePath = some data := by
          rw [Target.content_of_lookup hg, hfresh.1]
        unfold finishUpload
        rw [Prog.wp_bind]
        refine Prog.wp_mono ((unlink_touches (W := (· = ss.tempPath)) rfl).frame m u)
          (fun _ _ => trivial) fun _ m v hv => ?_
        rw [Prog.wp_bind]
        refine Prog.wp_mono ((chmod_touches (W := fun _ => False) _ _).frame m v)
          (fun _ _ => trivial) fun _ m w hw => ?_
        have hkept : w.content ss.remotePath = some data := by
          rw [hw _ id, hv _ hapart, hinstalled]
        rw [Prog.wp_bind]
        apply Prog.Ends.wp
        refine (backupCreate_reliable henv hkept).imp fun _ m x hx => ?_
        have hsaved : x.content ss.remotePath = some data := by
          rcases hx.2 with ⟨-, rfl⟩ | hbacked
          · exact hkept
          · exact hbacked.source hkept
        rw [Prog.wp_bind]
        refine Prog.wp_mono ((appMetadataSave_touches (W := (· = metadataFile)) rfl _ _ _).frame
          m x) (fun _ _ => trivial) fun _ m y hy => ?_
        rw [Prog.wp_bind, setSession, Prog.wp_update]
        refine ⟨trivial, (Prog.wp_pure _).mpr fun _ => ?_⟩
        exact (hy _ hmeta).trans hsaved
      · exact hrefuse _ _ _ _

/-- An upload that is answered with success had the promised size and digest,
and what its temporary file and its stream held is what was installed. -/
theorem handleUploadEnd_installs (henv : env.Reliable) {file : Bytes} {app : Bytes}
    (htemp : s.session.tempPath = uploadTempPath app)
    (hchecksum : s.session.expectedChecksum ≠ [])
    (hapart : s.session.remotePath ≠ s.session.tempPath)
    (hmeta : s.session.remotePath ≠ metadataFile)
    (hfile : s.content s.session.tempPath = some file) :
    Prog.wp (handleUploadEnd env) (fun _ => True) (fun resp _ t => resp.success = true →
      (s.session.expectedSize = 0 ∨ s.session.receivedSize = s.session.expectedSize) ∧
      hexDigest (file ++ s.session.pending) = s.session.expectedChecksum ∧
      t.content s.session.remotePath = some (file ++ s.session.pending)) n s := by
  unfold handleUploadEnd
  rw [Prog.wp_bind, Prog.wp_read]
  split
  · exact (Prog.wp_pure _).mpr fun hsuccess => by cases hsuccess
  · split
    · exact Prog.wp_die.mpr trivial
    · rw [Prog.wp_bind]
      apply Prog.Ends.wp
      rw [fcloseBuffered_ends henv]
      unfold verifyAndInstallUpload
      rw [Prog.wp_bind, setSession, Prog.wp_update]
      refine ⟨trivial, ?_⟩
      rw [Prog.wp_bind]
      apply verifyUpload_wp
      · exact hchecksum
      · intro m wrong
        dsimp only
        rw [Prog.wp_bind]
        exact Prog.wp_any _ fun _ _ _ => (Prog.wp_pure _).mpr fun hsuccess => by cases hsuccess
      · intro m found hfound hsize hdigest
        have hsame : found = file ++ s.session.pending :=
          Option.some.inj (hfound.symm.trans (content_added hfile))
        rw [hsame] at hdigest hfound
        refine Prog.wp_imp (installUpload_installs henv htemp hapart hmeta hfound) ?_
        exact fun resp _ t ht hsuccess => ⟨hsize, hdigest, ht hsuccess⟩

end Handlers

section Quiet

variable {env : Env} {n : Nat} {s : Target}

/-- A status request leaves files and session alone. -/
theorem handleStatus_quiet :
    Prog.wp (handleStatus env) (fun _ => True)
      (fun _ _ t => t.fs = s.fs ∧ t.session = s.session) n s := by
  unfold handleStatus
  rw [Prog.wp_bind]
  refine Prog.wp_imp loadMetadata_caches fun entries m t ht => ?_
  rw [Prog.wp_bind]
  refine (statusEntries_shows entries maxStatusEntries).wp fun m apps _ => ?_
  exact (Prog.wp_pure _).mpr ⟨ht.1, ht.2.1⟩

/-- So does a list request. -/
theorem handleListVersions_quiet (req : DeployRequest) :
    Prog.wp (handleListVersions env req) (fun _ => True)
      (fun _ _ t => t.fs = s.fs ∧ t.session = s.session) n s := by
  unfold handleListVersions versionsWithCurrent
  split
  · exact (Prog.wp_pure _).mpr ⟨rfl, rfl⟩
  · have hsort : ∀ entries m t, t.fs = s.fs ∧ t.session = s.session →
        Prog.wp (do
          let sorted ← sortVersions env entries.length entries
          return { (succeed []).full with backups := sorted }) (fun _ => True)
          (fun _ _ t => t.fs = s.fs ∧ t.session = s.session) m t := by
      intro entries m t ht
      rw [Prog.wp_bind]
      refine (sortVersions_observes _ entries).wp fun m sorted _ => ?_
      exact (Prog.wp_pure _).mpr ht
    rw [Prog.wp_bind, Prog.wp_bind]
    refine (listVersions_lists req.appName).wp fun m listed _ => ?_
    rw [Prog.wp_bind, appMetadataGet, Prog.wp_bind]
    refine Prog.wp_imp loadMetadata_caches fun entries m t ht => ?_
    rw [Prog.wp_pure]
    have hquiet : t.fs = s.fs ∧ t.session = s.session := ⟨ht.1, ht.2.1⟩
    cases findApp entries req.appName with
    | none => exact (Prog.wp_pure _).mpr (hsort listed m t hquiet)
    | some e =>
        dsimp only
        rw [Prog.wp_bind]
        refine (computeFileChecksum_digest e.remotePath).wp fun m digest _ => ?_
        cases digest with
        | none => exact (Prog.wp_pure _).mpr (hsort listed _ t hquiet)
        | some actual =>
            refine (markCurrent_observes e actual listed).wp fun m marked _ => ?_
            exact hsort marked m t hquiet

/-- A request that is neither a deploy nor a rollback nor part of an upload
leaves files and session alone. -/
theorem handleConnection_quiet (link : Link) (shell : Shell) {req : Request}
    (hdeploy : req.command ≠ .cmdDeploy) (hrollback : req.command ≠ .cmdRollback)
    (hstart : req.command ≠ .cmdUploadStart) (hchunk : req.command ≠ .cmdUploadChunk)
    (hend : req.command ≠ .cmdUploadEnd) :
    Prog.wp (handleConnection env link shell req) (fun _ => True)
      (fun _ _ t => t.fs = s.fs ∧ t.session = s.session) n s := by
  unfold handleConnection
  cases hcommand : req.command with
  | cmdStatus =>
      rw [Prog.wp_bind]
      exact Prog.wp_imp handleStatus_quiet fun _ _ _ ht => (Prog.wp_pure _).mpr ht
  | cmdListVersions => exact handleListVersions_quiet _
  | cmdLogs => exact (Prog.wp_pure _).mpr ⟨rfl, rfl⟩
  | cmdUnknown => exact (Prog.wp_pure _).mpr ⟨rfl, rfl⟩
  | cmdDeploy => exact absurd hcommand hdeploy
  | cmdRollback => exact absurd hcommand hrollback
  | cmdUploadStart => exact absurd hcommand hstart
  | cmdUploadChunk => exact absurd hcommand hchunk
  | cmdUploadEnd => exact absurd hcommand hend

end Quiet

/-- What the run keeps: the session is as the replies tell, and the upload is
one that may be installed. -/
def UploadInvariant (xs : List Exchange) (s : Target) : Prop :=
  s.session.active = true → ∃ u : Upload, lastUpload xs = some u ∧ u.Sound ∧ u.Held s

section Run

variable {xs : List Exchange} {x : Exchange} {s : Target}

/-- The state an answered request leaves. -/
def Exchange.after (x : Exchange) : Target :=
  (handleConnection x.env x.link x.shell x.req x.calls x.before).state

/-- The reply is the one of the handler. -/
def Exchange.Answered (x : Exchange) : Prop :=
  (handleConnection x.env x.link x.shell x.req x.calls x.before).result = some x.reply

theorem Exchange.Answered.post (h : x.Answered) {Q : Response → Nat → Target → Prop}
    (hwp : Prog.wp (handleConnection x.env x.link x.shell x.req) (fun _ => True) Q x.calls
      x.before) : ∃ m, Q x.reply m x.after := by
  have hend := hwp.2
  rw [h] at hend
  exact ⟨_, hend⟩

/-- A handler of the upload, seen through the connection. -/
theorem Exchange.Answered.handler (h : x.Answered) {c : Prog Target DeployResponse}
    (hc : handleConnection x.env x.link x.shell x.req = do return (← c).full)
    {Q : DeployResponse → Nat → Target → Prop}
    (hwp : Prog.wp c (fun _ => True) Q x.calls x.before) :
    ∃ resp m, x.reply = resp.full ∧ Q resp m x.after := by
  have hfull : Prog.wp (handleConnection x.env x.link x.shell x.req) (fun _ => True)
      (fun reply m t => ∃ resp, reply = resp.full ∧ Q resp m t) x.calls x.before := by
    rw [hc, Prog.wp_bind]
    exact Prog.wp_imp hwp fun resp _ _ hr => (Prog.wp_pure _).mpr ⟨resp, rfl, hr⟩
  obtain ⟨m, resp, hreply, hpost⟩ := h.post hfull
  exact ⟨resp, m, hreply, hpost⟩

theorem nextUpload_of_failed {u : Option Upload} (h : x.reply.success = false) :
    nextUpload u x = u := by
  unfold nextUpload
  split <;> simp [h]

theorem UploadInvariant.start (hcommand : x.req.command = .cmdUploadStart) (hx : x.Direct)
    (hanswered : x.Answered) : UploadInvariant (xs ++ [x]) x.after := by
  have hhandler : handleConnection x.env x.link x.shell x.req = do
      return (← handleUploadStart x.env x.req.toDeployRequest).full := by
    simp only [handleConnection, hcommand]
  obtain ⟨resp, _, hreply, hopens⟩ :=
    hanswered.handler hhandler (handleUploadStart_opens hx.reliable)
  intro hactive
  split at hopens
  next hsucceeded =>
    have hsuccess : x.reply.success = true := by
      rw [hreply]
      exact hsucceeded
    obtain ⟨hsession, hempty, hchecksum⟩ := hopens
    obtain ⟨hshort, hapart, hmeta⟩ := hx.remote hcommand hsuccess
    refine ⟨⟨x.req, []⟩, ?_, ⟨hchecksum, hshort, hapart, hmeta, Nat.zero_le _⟩, ?_, ?_, ?_⟩
    · simp [lastUpload_concat, nextUpload, hcommand, hsuccess]
    · rw [hsession]
      rfl
    · rw [hsession]
      exact ⟨[], hempty, rfl⟩
    · rw [hsession]
      rfl
  next =>
    rw [hopens] at hactive
    cases hactive

theorem UploadInvariant.chunk (hinv : UploadInvariant xs x.before)
    (hcommand : x.req.command = .cmdUploadChunk) (hx : x.Direct) (hanswered : x.Answered)
    (htotal : ∀ u, lastUpload (xs ++ [x]) = some u → u.data.length < 2 ^ 32) :
    UploadInvariant (xs ++ [x]) x.after := by
  have hhandler : handleConnection x.env x.link x.shell x.req = do
      return (← handleUploadChunk x.env x.req.toDeployRequest).full := by
    simp only [handleConnection, hcommand]
  have hheld : ∃ file, x.before.session.active = true →
      x.before.content x.before.session.tempPath = some file := by
    by_cases hbefore : x.before.session.active = true
    · obtain ⟨u, -, -, hkept⟩ := hinv hbefore
      obtain ⟨file, hfile, -⟩ := hkept.file
      exact ⟨file, fun _ => hfile⟩
    · exact ⟨[], fun h => absurd h hbefore⟩
  obtain ⟨file, hheld⟩ := hheld
  obtain ⟨resp, _, hreply, htakes⟩ :=
    hanswered.handler hhandler (handleUploadChunk_takes hx.reliable hheld)
  have hsame : x.reply.success = resp.success := by rw [hreply]; rfl
  split at htakes
  next hsuccess =>
    rw [hsuccess] at hsame
    obtain ⟨hbefore, hseq, hne, hafter, passed, hcontent, hpassed⟩ := htakes
    obtain ⟨u, hu, hsound, hsession, ⟨found, hfound, hrest⟩, hseqs⟩ := hinv hbefore
    have hsame' : found = file := Option.some.inj (hfound.symm.trans (hheld hbefore))
    have hnext : lastUpload (xs ++ [x]) = some ⟨u.start, u.chunks ++ [x.req]⟩ := by
      simp [lastUpload_concat, nextUpload, hcommand, hsame, hu]
    have hgrown : Upload.data ⟨u.start, u.chunks ++ [x.req]⟩ = u.data ++ x.req.chunkData := by
      simp [Upload.data]
    have hpos : 0 < x.req.chunkData.length := List.length_pos_iff.mpr hne
    have hroom := htotal _ hnext
    have hcounted := hsound.counted
    rw [hgrown, List.length_append] at hroom
    -- neither counter wraps: every chunk has a byte, and all bytes fit
    have hsize : x.before.session.receivedSize = u.data.length := by rw [hsession]
    have hnumber : x.before.session.nextChunk = u.chunks.length := by rw [hsession]
    rw [hsize, hnumber, Nat.mod_eq_of_lt hroom, Nat.mod_eq_of_lt (by omega)] at hafter
    intro _
    refine ⟨⟨u.start, u.chunks ++ [x.req]⟩, hnext,
      ⟨hsound.checksum, hsound.short, hsound.apart, hsound.no_metadata, ?_⟩, ?_, ?_, ?_⟩
    · rw [hgrown, List.length_append, List.length_append, List.length_singleton]
      omega
    · rw [hgrown, List.length_append]
      refine hafter.trans ?_
      rw [hsession]
      simp
    · have htemp : x.after.session.tempPath = x.before.session.tempPath := by rw [hafter]
      rw [htemp]
      refine ⟨_, hcontent, ?_⟩
      rw [List.append_assoc, hpassed, ← List.append_assoc, ← hsame', hrest, hgrown]
    · rw [hafter, List.map_append, hseqs, hnumber]
      simp only [List.map_cons, List.map_nil, hseq, hnumber]
      rw [List.range_succ]
  next hfailed =>
    rw [htakes]
    intro hbefore
    obtain ⟨u, hu, hrest⟩ := hinv hbefore
    refine ⟨u, ?_, hrest⟩
    rw [lastUpload_concat, nextUpload_of_failed (by simpa [hsame] using hfailed), hu]

theorem UploadInvariant.step (hinv : UploadInvariant xs x.before) (hx : x.Direct)
    (hanswered : x.Answered)
    (htotal : ∀ u, lastUpload (xs ++ [x]) = some u → u.data.length < 2 ^ 32) :
    UploadInvariant (xs ++ [x]) x.after := by
  by_cases hstart : x.req.command = .cmdUploadStart
  · exact .start hstart hx hanswered
  · by_cases hchunk : x.req.command = .cmdUploadChunk
    · exact hinv.chunk hchunk hx hanswered htotal
    · by_cases hend : x.req.command = .cmdUploadEnd
      · have hhandler : handleConnection x.env x.link x.shell x.req = do
            return (← handleUploadEnd x.env).full := by
          simp only [handleConnection, hend]
        obtain ⟨_, _, _, hidle⟩ := hanswered.handler hhandler handleUploadEnd_idle
        intro hactive
        rw [hidle] at hactive
        cases hactive
      · obtain ⟨_, hfs, hsession⟩ := hanswered.post (handleConnection_quiet x.link x.shell
          hx.no_deploy hx.no_rollback hstart hchunk hend)
        have hsame : lastUpload (xs ++ [x]) = lastUpload xs := by
          rw [lastUpload_concat, nextUpload]
          split <;> first | rfl | contradiction
        intro hactive
        rw [hsession] at hactive
        obtain ⟨u, hu, hsound, hheld⟩ := hinv hactive
        exact ⟨u, hsame.trans hu, hsound, hheld.of_same hfs hsession⟩

/-- What the run keeps, from an agent without a session. -/
theorem uploadInvariant_of_run {s₀ : Target} (hfresh : s₀.session.active = false)
    (hrun : AgentRun s₀ xs s) (hdirect : ∀ x ∈ xs, x.Direct)
    (htotal : ∀ ys, ys <+: xs → ∀ u, lastUpload ys = some u → u.data.length < 2 ^ 32) :
    UploadInvariant xs s := by
  induction hrun with
  | start =>
      intro hactive
      rw [hfresh] at hactive
      cases hactive
  | @answer xs s hrun x hbefore hreply ih =>
      have hinv := ih (fun y hy => hdirect y (List.mem_append_left _ hy))
        (fun ys hys => htotal ys (hys.trans (List.prefix_append _ _)))
      rw [← hbefore] at hinv hreply ⊢
      exact hinv.step (hdirect x (List.mem_append_right _ List.mem_cons_self)) hreply
        (htotal _ (List.prefix_refl _))
  | restart hrun t hcache hsession ih =>
      intro hactive
      rw [hsession] at hactive
      cases hactive

end Run

/-- A chunk that is out of order, empty or without a session. -/
def RefusedChunk (resp : Response) : Prop :=
  resp.errorCode = .errChunkOutOfOrder ∨ resp.errorCode = .errNoUploadInProgress ∨
    resp.errorMessage = "Empty chunk data".toUTF8.data.toList

/-- A refused chunk changes nothing at all. -/
theorem handleUploadChunk_refuses {env : Env} {req : DeployRequest} {n : Nat} {s : Target} :
    Prog.wp (handleUploadChunk env req) (fun _ => True)
      (fun resp _ t => RefusedChunk resp.full → t = s) n s := by
  unfold handleUploadChunk
  rw [Prog.wp_bind, Prog.wp_read]
  split
  · exact (Prog.wp_pure _).mpr fun _ => rfl
  · split
    · exact (Prog.wp_pure _).mpr fun _ => rfl
    · split
      · exact (Prog.wp_pure _).mpr fun _ => rfl
      · rw [Prog.wp_bind]
        refine Prog.wp_any _ fun written m t => ?_
        have hother : ∀ resp : DeployResponse, ¬ RefusedChunk resp.full → ∀ m t,
            Prog.wp (pure resp : Prog Target DeployResponse) (fun _ => True)
              (fun resp _ t => RefusedChunk resp.full → t = s) m t :=
          fun resp h m t => (Prog.wp_pure _).mpr fun hrefused => absurd hrefused h
        have hsucceed : ¬ RefusedChunk (succeed []).full := by
          unfold RefusedChunk
          decide
        have hfail : ¬ RefusedChunk (refuse .errFileWriteFailed "Failed to write chunk").full := by
          unfold RefusedChunk
          decide
        split
        · rw [Prog.wp_bind]
          exact Prog.wp_any _ fun _ m t => hother _ hsucceed m t
        · rw [Prog.wp_bind]
          exact Prog.wp_any _ fun _ m t => hother _ hfail m t

/-- Once the stream is closed, the whole upload is in the temporary file. -/
theorem UploadInvariant.closed {xs : List Exchange} {s : Target} (hinv : UploadInvariant xs s)
    {env : Env} (henv : env.Reliable) (n : Nat) (hactive : s.session.active = true) :
    ∃ u, lastUpload xs = some u ∧
      (fcloseBuffered env s.session.tempPath s.session.pending n s).state.content
        s.session.tempPath = some u.data := by
  obtain ⟨u, hu, -, hheld⟩ := hinv hactive
  obtain ⟨file, hfile, hrest⟩ := hheld.file
  have hends : Prog.Ends (fcloseBuffered env s.session.tempPath s.session.pending)
      (fun _ _ t => t.content s.session.tempPath = some u.data) n s := by
    rw [fcloseBuffered_ends henv, ← hrest]
    exact content_added hfile
  obtain ⟨-, -, hclosed⟩ := hends
  exact ⟨u, hu, hclosed⟩

/-- An upload that ends in success installs what was promised when it started. -/
theorem UploadInvariant.installs {xs : List Exchange} {x : Exchange}
    (hinv : UploadInvariant xs x.before) (hx : x.Direct) (hanswered : x.Answered)
    (hcommand : x.req.command = .cmdUploadEnd) (hsuccess : x.reply.success = true) :
    ∃ u, lastUpload xs = some u ∧
      (u.start.expectedSize ≠ 0 → u.data.length = u.start.expectedSize.toNat) ∧
      hexDigest u.data = u.start.expectedChecksum ∧
      x.after.content u.start.remotePath = some u.data := by
  have hhandler : handleConnection x.env x.link x.shell x.req = do
      return (← handleUploadEnd x.env).full := by
    simp only [handleConnection, hcommand]
  by_cases hactive : x.before.session.active = true
  · obtain ⟨u, hu, hsound, hsession, ⟨file, hfile, hrest⟩, -⟩ := hinv hactive
    have hstart : x.before.session.remotePath = u.start.remotePath := by
      rw [hsession]
      exact clip_of_lt hsound.short
    have hpromised : x.before.session.expectedChecksum = u.start.expectedChecksum := by
      rw [hsession]
      exact clip_of_lt (by rw [hsound.checksum]; decide)
    have hchecksum : x.before.session.expectedChecksum ≠ [] := by
      rw [hpromised]
      exact List.ne_nil_of_length_pos (by rw [hsound.checksum]; decide)
    have htemp : x.before.session.tempPath = uploadTempPath u.start.appName := by
      rw [hsession]
      rfl
    obtain ⟨resp, _, hreply, hinstalls⟩ := hanswered.handler hhandler
      (handleUploadEnd_installs hx.reliable htemp hchecksum
        (by rw [hstart, htemp]; exact hsound.apart)
        (by rw [hstart]; exact hsound.no_metadata) hfile)
    have hsucceeded : resp.success = true := by
      rw [hreply] at hsuccess
      exact hsuccess
    obtain ⟨hsize, hdigest, hinstalled⟩ := hinstalls hsucceeded
    rw [hpromised, hrest] at hdigest
    rw [hstart, hrest] at hinstalled
    refine ⟨u, hu, fun hne => ?_, hdigest, hinstalled⟩
    rw [hsession] at hsize
    have hpos : u.start.expectedSize.toNat ≠ 0 := by
      intro hzero
      exact hne (UInt32.toNat_inj.mp hzero)
    exact hsize.resolve_left hpos
  · have hidle : x.before.session.active = false := by simpa using hactive
    have hrefused : Prog.wp (handleUploadEnd x.env) (fun _ => True)
        (fun resp _ _ => resp.success = false) x.calls x.before := by
      unfold handleUploadEnd
      rw [Prog.wp_bind, Prog.wp_read, if_pos hidle]
      exact (Prog.wp_pure _).mpr rfl
    obtain ⟨resp, _, hreply, hfailed⟩ := hanswered.handler hhandler hrefused
    rw [hreply] at hsuccess
    exact absurd (hfailed.symm.trans hsuccess) (by decide)

section Demo

/-- The upload of `hi` to `/opt/demo`, in one chunk. -/
def demoUpload (command : DeployCommand) (s : Target) : Exchange where
  env := calmEnv demoTime
  link := silentLink
  shell := quietShell
  calls := 0
  req :=
    { appName := ascii "demo"
      remotePath := ascii "/opt/demo"
      dtpServerNode := 0
      expectedSize := 2
      expectedChecksum := hexDigest (ascii "hi")
      rollbackHash := []
      chunkSeq := 0
      totalChunks := 1
      chunkData := ascii "hi"
      fileMode := 0
      dtpMtu := 0
      command := command
      logLines := 0 }
  before := s
  reply := (succeed []).full

def demoStart : Exchange := demoUpload .cmdUploadStart bareTarget
def demoChunk : Exchange := demoUpload .cmdUploadChunk demoStart.after
def demoEnd : Exchange := demoUpload .cmdUploadEnd demoChunk.after

theorem demoUpload_direct {command : DeployCommand} (s : Target) (hdeploy : command ≠ .cmdDeploy)
    (hrollback : command ≠ .cmdRollback) : (demoUpload command s).Direct := by
  have hremote : (ascii "/opt/demo").length < maxPathLen ∧
      ascii "/opt/demo" ≠ uploadTempPath (ascii "demo") ∧ ascii "/opt/demo" ≠ metadataFile := by
    decide
  exact ⟨calmEnv_reliable demoTime, hdeploy, hrollback, fun _ _ => hremote⟩

theorem demo_direct : ∀ x ∈ [demoStart, demoChunk], x.Direct := by
  intro x hx
  rcases List.mem_pair.mp hx with rfl | rfl
  · exact demoUpload_direct _ (by decide) (by decide)
  · exact demoUpload_direct _ (by decide) (by decide)

theorem demo_run : AgentRun bareTarget [demoStart, demoChunk] demoChunk.after := by
  have hstart : demoStart.Answered := by
    unfold Exchange.Answered
    decide +kernel
  have hchunk : demoChunk.Answered := by
    unfold Exchange.Answered
    decide +kernel
  exact (AgentRun.start.answer demoStart rfl hstart).answer demoChunk rfl hchunk

theorem demo_upload : lastUpload [demoStart, demoChunk] = some ⟨demoStart.req, [demoChunk.req]⟩ :=
  rfl

theorem demo_total : ∀ ys, ys <+: [demoStart, demoChunk] → ∀ u, lastUpload ys = some u →
    u.data.length < 2 ^ 32 := by
  intro ys hys u hu
  have hcases := (List.mem_inits ys _).mpr hys
  simp only [List.inits, List.map_cons, List.map_nil, List.mem_cons, List.not_mem_nil,
    or_false] at hcases
  rcases hcases with rfl | rfl | rfl
  · cases hu
  · cases hu
    decide
  · cases hu
    decide

end Demo

end SatDeploy.Agent
