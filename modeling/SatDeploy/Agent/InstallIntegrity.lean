import SatDeploy.Agent.DeployHandler

/-!
Deploy integrity: when a deploy answers success, the file at the requested
path carries the requested digest. The steps after the rename ignore their
results, and one of them copies the installed file to its backup path; if that
is the requested path itself, the copy can destroy what was just installed.
-/

namespace SatDeploy.Agent

open Lib

/-- The file at `p` carries the digest `checksum`. -/
def Target.Carries (s : Target) (p : Path) (checksum : Bytes) : Prop :=
  ∃ data, s.content p = some data ∧ hexDigest data = checksum

/-- Every success of this deploy means that the file is installed. -/
def DeployIntegrity (req : DeployRequest) : Prop :=
  ∀ (env : Env) (download : Path → Prog Target Bool) (n : Nat) (s : Target)
    (resp : DeployResponse),
    (handleDeployWith env download req n s).result = some resp → resp.success = true →
    (handleDeployWith env download req n s).state.Carries req.remotePath
      req.expectedChecksum

/-- The request passes the checks of `handle_deploy`, its digest is that of some
file, and its path is the one the new version is backed up to at some time. -/
def BacksUpOntoItself (req : DeployRequest) : Prop :=
  req.appName ≠ [] ∧ req.dtpServerNode ≠ 0 ∧
    ∃ tm data, req.expectedChecksum = hexDigest data ∧
      req.remotePath = backupPath req.appName tm req.expectedChecksum

section Sufficiency

variable {env : Env} {req : DeployRequest}

/-- The steps after the rename keep the installed file, and report success. -/
theorem finishDeploy_wp (env : Env) (hmeta : req.remotePath ≠ metadataFile) {data : Bytes}
    (hne : ∀ tm, req.remotePath ≠ backupPath req.appName tm (hexDigest data))
    (backup : Bytes) (n : Nat) {s : Target} (hs : s.content req.remotePath = some data) :
    Prog.wp (finishDeploy env req backup) (fun t => t.content req.remotePath = some data)
      (fun resp _ t => resp.success = true ∧ t.content req.remotePath = some data) n s := by
  unfold finishDeploy
  rw [Prog.wp_bind]
  refine Prog.wp_imp (chmod_touches (W := fun _ => False) _ _ _ _ id n s hs) ?_
  intro _ m t ht
  rw [Prog.wp_bind]
  have hown : ∀ tm data', some data = some data' →
      req.remotePath ≠ backupPath req.appName tm (hexDigest data') := by
    intro tm data' hdata
    rw [← Option.some.inj hdata]
    exact hne tm
  refine Prog.wp_imp (backupCreate_keeps_source hown m t ht) ?_
  intro _ m' u hu
  rw [Prog.wp_bind]
  refine Prog.wp_imp (appMetadataSave_touches (W := (· = metadataFile)) rfl
    req.appName req.remotePath req.expectedChecksum _ _ hmeta m' u hu) ?_
  intro _ m'' v hv
  rw [Prog.wp_pure]
  exact ⟨rfl, hv⟩

/-- After the download only a verified file can be reported as installed. -/
theorem verifyAndInstall_integrity (hmeta : req.remotePath ≠ metadataFile)
    (hne : ∀ tm data, hexDigest data = req.expectedChecksum →
      req.remotePath ≠ backupPath req.appName tm req.expectedChecksum)
    (temp : Path) (backup : Bytes) (n : Nat) (s : Target) :
    Prog.wp (verifyAndInstall env req temp backup) (fun _ => True)
      (fun resp _ t => resp.success = true →
        t.Carries req.remotePath req.expectedChecksum) n s := by
  have hrefuse : ∀ {code : DeployError} {message : String} {n : Nat} {s : Target},
      Prog.wp (do
        let _ ← unlink env temp
        return refuse code message : Prog Target DeployResponse) (fun _ => True)
        (fun resp _ t => resp.success = true →
          t.Carries req.remotePath req.expectedChecksum) n s := by
    intro code message n s
    rw [Prog.wp_bind]
    unfold unlink
    rw [Prog.wp_call]
    refine ⟨fun _ _ => trivial, ?_⟩
    rw [Prog.wp_pure]
    intro hsuccess
    cases hsuccess
  unfold verifyAndInstall
  rw [Prog.wp_bind]
  apply computeFileChecksum_wp
  · intro m
    exact hrefuse
  · intro m data hdata
    dsimp only
    split
    · exact hrefuse
    next hsame =>
      have hdigest : hexDigest data = req.expectedChecksum := by
        by_contra hdiffer
        exact hsame hdiffer
      rw [Prog.wp_bind]
      apply rename_wp
      · exact hrefuse
      · intro t data' hdata' hinstalled
        have heq : data' = data := Option.some.inj (hdata'.symm.trans hdata)
        rw [heq] at hinstalled
        refine ⟨trivial, ?_⟩
        have hdone := finishDeploy_wp env hmeta
          (fun tm => hdigest ▸ hne tm data hdigest) backup (m + 1) hinstalled
        exact Prog.wp_mono hdone (fun _ _ => trivial)
          (fun _ _ t ht _ => ⟨data, ht.2, hdigest⟩)

/-- A deploy that answers success has installed the requested file. -/
theorem handleDeployWith_installs (env : Env) (hmeta : req.remotePath ≠ metadataFile)
    (hne : ¬ BacksUpOntoItself req) (download : Path → Prog Target Bool) (n : Nat) (s : Target) :
    Prog.wp (handleDeployWith env download req) (fun _ => True)
      (fun resp _ t => resp.success = true →
        t.Carries req.remotePath req.expectedChecksum) n s := by
  have hrefused : ∀ {code : DeployError} {message : String} {n : Nat} {s : Target},
      Prog.wp (pure (refuse code message) : Prog Target DeployResponse) (fun _ => True)
        (fun resp _ t => resp.success = true →
          t.Carries req.remotePath req.expectedChecksum) n s := by
    intro code message n s
    rw [Prog.wp_pure]
    intro hsuccess
    cases hsuccess
  unfold handleDeployWith
  split
  · exact hrefused
  next happ =>
    split
    · exact hrefused
    · split
      · exact hrefused
      next hnode =>
        have halias : ∀ tm data, hexDigest data = req.expectedChecksum →
            req.remotePath ≠ backupPath req.appName tm req.expectedChecksum :=
          fun tm data hdigest hpath => hne ⟨happ, hnode, tm, data, hdigest.symm, hpath⟩
        split
        · exact hrefused
        · rw [Prog.wp_bind]
          refine Prog.wp_any _ fun backup m t => ?_
          cases backup with
          | none => exact hrefused
          | some backup =>
              rw [Prog.wp_bind]
              refine Prog.wp_any _ fun downloaded m t => ?_
              split
              · exact verifyAndInstall_integrity hmeta halias _ backup m t
              · exact hrefused

theorem handleDeployWith_integrity (hmeta : req.remotePath ≠ metadataFile)
    (hne : ¬ BacksUpOntoItself req) : DeployIntegrity req := by
  intro env download n s resp hresult hsuccess
  have hend := (handleDeployWith_installs env hmeta hne download n s).2
  rw [hresult] at hend
  exact hend hsuccess

end Sufficiency

section Necessity

variable {req : DeployRequest} {tm : Tm} {data : Bytes}

/-- An operating system that cannot open directories, nor the requested path
for writing, nor the metadata file, at the time `tm`; `seen` says whether the
requested path is seen before the deploy. -/
def fullTableEnv (remote : Path) (tm : Tm) (seen : Bool) : Env where
  fault := fun _ op =>
    match op with
    | .opendir _ => some 0
    | .openWrite p => if p = remote then some 0 else none
    | .openRead p => if p = metadataFile then some 0 else none
    | .access _ => if seen then none else some 0
    | _ => none
  clock := fun _ => 0
  localtime := fun _ => tm
  order := id
  order_perm := id_perm

theorem ne_metadataFile_of_under {p : Path} (h : underBackups p) : p ≠ metadataFile := by
  rintro rfl
  exact absurd h (by decide)

/-- The backup of a file onto its own path, where it cannot be opened again,
fails and the file is gone. -/
theorem backupCreate_loses {app : Bytes} {remote : Path} {seen : Bool} {n : Nat} {s : Target}
    (hdata : s.content remote = some data)
    (hpath : remote = backupPath app tm (hexDigest data)) :
    Prog.Ends (backupCreate (fullTableEnv remote tm seen) app remote)
      (fun r _ t => r = none ∧ t = s.remove remote) n s := by
  have hmeta : remote ≠ metadataFile := by
    rw [hpath]
    exact ne_metadataFile_of_under (backupPath_under _ _ _)
  obtain ⟨f, hlookup, rfl⟩ := exists_lookup hdata
  unfold backupCreate
  rw [Prog.ends_bind, statFile_ends rfl, hlookup]
  dsimp only
  rw [Prog.ends_bind]
  refine (computeFileChecksum_ends (fun _ => if_neg hmeta) (fun _ => rfl) hdata).imp ?_
  rintro _ m t ⟨rfl, rfl⟩
  dsimp only
  rw [Prog.ends_bind]
  refine (mkdirP_ends (fun _ _ => rfl) _).imp ?_
  rintro _ m t ⟨rfl, rfl⟩
  rw [if_pos rfl, Prog.ends_bind]
  refine (mkdirP_ends (fun _ _ => rfl) _).imp ?_
  rintro _ m t ⟨rfl, rfl⟩
  rw [if_pos rfl, Prog.ends_bind, timeNow_ends, Prog.ends_bind]
  have hfind : Prog.Ends (findBackup (fullTableEnv remote tm seen) app (hexDigest f.data))
      (fun r _ t' => r = none ∧ t' = t) (m + 1) t := by
    simp [findBackup, opendir, Env.ok, fullTableEnv]
  refine hfind.imp ?_
  rintro _ m' _ ⟨rfl, rfl⟩
  dsimp only
  have htarget : backupPath app ((fullTableEnv remote tm seen).localtime
      ((fullTableEnv remote tm seen).clock m)) (hexDigest f.data) = remote := hpath.symm
  rw [htarget, Prog.ends_bind, copyFile, Prog.ends_bind, fopenRead_ends (if_neg hmeta), hdata]
  dsimp only
  rw [Prog.ends_bind, unlink_ends rfl hlookup, Prog.ends_bind]
  simp [fopenWrite, Env.ok, fullTableEnv]

/-- With the metadata file out of reach, saving metadata does not die. -/
theorem appMetadataSave_returns {remote : Path} {seen : Bool} (app hash : Bytes) (path : Path)
    (n : Nat) (s : Target) :
    Prog.Ends (appMetadataSave (fullTableEnv remote tm seen) app path hash)
      (fun _ _ _ => True) n s := by
  apply appMetadataSave_ends
  cases hcache : s.cache with
  | some entries => exact loadMetadata_cached hcache
  | none =>
      rw [loadMetadata, Prog.ends_bind, Prog.ends_read, hcache]
      dsimp only
      rw [Prog.ends_bind, setCache, Prog.ends_update, Prog.ends_bind, readMetadata,
        Prog.ends_bind, fopenRead, Prog.ends_call]
      simp [Env.ok, fullTableEnv]

/-- A transfer layer that leaves `data` in the temporary file. -/
def deliver (data : Bytes) (temp : Path) : Prog Target Bool :=
  .call fun _ s => (true, [s.put temp ⟨data, 0o644, 0⟩])

/-- From every state there is a deploy to such a path that loses the file and
answers success. -/
theorem handleDeployWith_loses (happ : req.appName ≠ []) (hnode : req.dtpServerNode ≠ 0)
    (hdigest : req.expectedChecksum = hexDigest data)
    (hpath : req.remotePath = backupPath req.appName tm req.expectedChecksum) (n : Nat)
    (s : Target) :
    Prog.Ends (handleDeployWith (fullTableEnv req.remotePath tm false) (deliver data) req)
      (fun resp _ t => resp.success = true ∧ t.content req.remotePath = none) n s := by
  have hunder : underBackups req.remotePath := by
    rw [hpath]
    exact backupPath_under _ _ _
  have hmeta : req.remotePath ≠ metadataFile := ne_metadataFile_of_under hunder
  have htempmeta : tempPath req.remotePath ≠ metadataFile :=
    ne_metadataFile_of_under (underBackups_clip (underBackups_append hunder _))
  have hremote : req.remotePath ≠ [] := by
    rw [hpath]
    simp [backupPath, clip, backupDir, maxPathLen, backupRoot, ascii]
  have hlength : req.expectedChecksum.length = hashHexLen := by
    rw [hdigest, length_hexDigest]
  unfold handleDeployWith
  rw [if_neg happ, if_neg hremote, if_neg hnode, if_neg (by simpa using hlength),
    Prog.ends_bind, backupBefore, Prog.ends_bind, access, Prog.ends_call]
  simp only [Env.ok, fullTableEnv, Bool.false_eq_true, if_false, Option.isNone_some,
    Bool.false_and, List.getLastD_nil]
  rw [Prog.ends_pure]
  dsimp only
  rw [Prog.ends_bind, deliver, Prog.ends_call]
  simp only [List.getLastD_cons, List.getLastD_nil, if_true]
  generalize hstate : s.put (tempPath req.remotePath) ⟨data, 0o644, 0⟩ = t
  have htemp : t.fs.lookup (tempPath req.remotePath) = some ⟨data, 0o644, 0⟩ := by
    rw [← hstate]
    exact AList.lookup_insert _
  change Prog.Ends (verifyAndInstall (fullTableEnv req.remotePath tm false) req
    (tempPath req.remotePath) []) _ _ t
  rw [verifyAndInstall, Prog.ends_bind]
  refine (computeFileChecksum_ends (fun _ => if_neg htempmeta) (fun _ => rfl)
    (Target.content_of_lookup htemp)).imp ?_
  rintro _ m t ⟨rfl, rfl⟩
  dsimp only
  rw [if_neg (by simp [hdigest]), Prog.ends_bind]
  -- whether or not the temporary path is the requested path, the file arrives
  have hrename : Prog.Ends (rename (fullTableEnv req.remotePath tm false)
      (tempPath req.remotePath) req.remotePath)
      (fun r _ t' => r = true ∧ t'.content req.remotePath = some data) m t := by
    rw [rename, Prog.ends_call]
    simp only [Env.ok, fullTableEnv, Option.isNone_none, htemp]
    split
    next heq =>
      refine ⟨rfl, ?_⟩
      rw [heq] at htemp
      exact Target.content_of_lookup htemp
    next => exact ⟨rfl, Target.content_put⟩
  refine hrename.imp ?_
  rintro _ m' t' ⟨rfl, hdata⟩
  rw [if_pos rfl, finishDeploy, Prog.ends_bind]
  have hchmod : Prog.Ends (chmod (fullTableEnv req.remotePath tm false) req.remotePath
      (fileModeOf req.fileMode)) (fun _ _ u => u.content req.remotePath = some data) m' t' := by
    obtain ⟨f, hlookup, rfl⟩ := exists_lookup hdata
    rw [chmod, Prog.ends_call]
    simp only [Env.ok, fullTableEnv, Option.isNone_none, hlookup]
    exact Target.content_put
  refine hchmod.imp ?_
  intro _ m'' u hdata'
  rw [Prog.ends_bind]
  refine (backupCreate_loses hdata' (hpath.trans (by rw [hdigest]))).imp ?_
  rintro _ k v ⟨-, rfl⟩
  rw [Prog.ends_bind]
  have htouches : Touches (· = metadataFile) (appMetadataSave
      (fullTableEnv req.remotePath tm false) req.appName req.remotePath
      req.expectedChecksum) :=
    appMetadataSave_touches (W := (· = metadataFile)) rfl _ _ _
  have hkeep := htouches req.remotePath none hmeta k (u.remove req.remotePath)
    Target.content_remove
  refine ((appMetadataSave_returns _ _ _ k _).and_wp hkeep).imp ?_
  rintro _ k' w ⟨-, hgone⟩
  rw [Prog.ends_pure]
  exact ⟨rfl, hgone⟩

end Necessity

/-- Outside the agent's own metadata file, a deploy means what it reports
exactly when the requested path is not the one the new version is backed up
to. -/
theorem deploy_integrity_iff (req : DeployRequest) (hmeta : req.remotePath ≠ metadataFile) :
    DeployIntegrity req ↔ ¬ BacksUpOntoItself req := by
  constructor
  · rintro hintegrity ⟨happ, hnode, tm, data, hdigest, hpath⟩
    obtain ⟨resp, hresult, hsuccess, hgone⟩ :=
      handleDeployWith_loses happ hnode hdigest hpath 0 ⟨∅, some [], .zero⟩
    obtain ⟨found, hfound, -⟩ := hintegrity _ _ _ _ resp hresult hsuccess
    rw [hgone] at hfound
    cases hfound
  · exact handleDeployWith_integrity hmeta

/-- A deploy of the two bytes `hi` to `remote`. -/
def demoRequest (remote : Path) : DeployRequest where
  appName := ascii "demo"
  remotePath := remote
  dtpServerNode := 10
  expectedSize := 2
  expectedChecksum := hexDigest (ascii "hi")
  rollbackHash := []
  chunkSeq := 0
  totalChunks := 0
  chunkData := []
  fileMode := 0o755
  dtpMtu := 1024

theorem deploy_integrity_demo :
    ascii "/opt/demo" ≠ metadataFile ∧ DeployIntegrity (demoRequest (ascii "/opt/demo")) := by
  have hmeta : ascii "/opt/demo" ≠ metadataFile := by decide
  refine ⟨hmeta, (deploy_integrity_iff (demoRequest (ascii "/opt/demo")) hmeta).mpr ?_⟩
  rintro ⟨-, -, tm, data, -, hpath⟩
  have hunder := backupPath_under (demoRequest (ascii "/opt/demo")).appName tm
    (demoRequest (ascii "/opt/demo")).expectedChecksum
  rw [← hpath] at hunder
  exact absurd hunder (by decide)

def demoTime : Tm := ⟨2026, 0, 2, 3, 4, 5, by decide⟩

/-- Deployed to its own backup path, with no directory to be read and the path
not to be opened again, the file is lost under a success answer. -/
theorem deploy_integrity_lost :
    let remote := backupPath (ascii "demo") demoTime (hexDigest (ascii "hi"))
    let run := handleDeployWith (fullTableEnv remote demoTime false) (deliver (ascii "hi"))
      (demoRequest remote) 0 ⟨∅, some [], .zero⟩
    remote ≠ metadataFile ∧ (∃ resp, run.result = some resp ∧ resp.success = true) ∧
      run.state.content remote = none := by
  intro remote run
  have happ : (demoRequest remote).appName ≠ [] := by simp [demoRequest, ascii]
  have hdigest : (demoRequest remote).expectedChecksum = hexDigest (ascii "hi") := rfl
  have hpath : (demoRequest remote).remotePath = backupPath (demoRequest remote).appName demoTime
      (demoRequest remote).expectedChecksum := rfl
  obtain ⟨resp, hresult, hsuccess, hgone⟩ := handleDeployWith_loses happ
    (by simp [demoRequest]) hdigest hpath 0 ⟨∅, some [], .zero⟩
  exact ⟨ne_metadataFile_of_under (backupPath_under _ _ _), ⟨resp, hresult, hsuccess⟩, hgone⟩

end SatDeploy.Agent
