import SatDeploy.Agent.Archive

/-!
What the handlers do to the archive of an app when no call fails: a deploy and
an upload file what they replace and what they install, a rollback files what
it replaces unless it is listed. A handler may still die on a damaged metadata
file; it leaves the archive in order then, too.
-/

namespace SatDeploy.Agent

open Lib

section Deploy

variable {env : Env} {req : DeployRequest} {n : Nat} {s : Target}

/-- The handler refuses, if it lives to answer. -/
def Refused (r : Option DeployResponse) : Prop := ∀ resp, r = some resp → resp.success = false

/-- The handler reports success, if it lives to answer. -/
def Succeeds (r : Option DeployResponse) : Prop := ∀ resp, r = some resp → resp.success = true

theorem refused_refuse (code : DeployError) (message : String) :
    Refused (some (refuse code message)) := by
  rintro resp ⟨⟩
  rfl

theorem succeeds_succeed (backup : Bytes) : Succeeds (some (succeed backup)) := by
  rintro resp ⟨⟩
  rfl

theorem refused_none : Refused none := fun _ h => by cases h

theorem succeeds_none : Succeeds none := fun _ h => by cases h

/-- What becomes of the file at `remote` and of the archive when a new version
is installed over it: a refused install leaves the file alone and may have
filed it; else the old and the new version are filed. -/
def Replaced (env : Env) (app : Bytes) (remote : Path) (s : Target) (r : Option DeployResponse)
    (t : Target) : Prop :=
  (Refused r ∧ t.content remote = s.content remote ∧
    ∃ x, (x = none ∨ x = s.content remote) ∧ Filed env app x s t) ∨
  (Succeeds r ∧ ∃ data u, t.content remote = some data ∧
    Filed env app (s.content remote) s u ∧ Filed env app (some data) u t)

/-- The second half of an install, from the state in which the old version is
filed. -/
def Installed (env : Env) (app : Bytes) (remote : Path) (s : Target) (r : Option DeployResponse)
    (t : Target) : Prop :=
  (Refused r ∧ t.content remote = s.content remote ∧ SameArchive app s t) ∨
  (Succeeds r ∧ ∃ data, t.content remote = some data ∧ Filed env app (some data) s t)

theorem Replaced.before {app : Bytes} {remote : Path} {t u : Target} {r : Option DeployResponse}
    (h : Replaced env app remote t r u) (harchive : SameArchive app s t)
    (hsame : t.content remote = s.content remote) : Replaced env app remote s r u := by
  unfold Replaced at h ⊢
  rw [hsame] at h
  rcases h with ⟨hrefused, hkept, x, hx, hfiled⟩ | ⟨hdone, data, v, hdata, hold, hnew⟩
  · exact Or.inl ⟨hrefused, hkept, x, hx, hfiled.before harchive⟩
  · exact Or.inr ⟨hdone, data, v, hdata, hold.before harchive, hnew⟩

theorem Installed.replaced {app : Bytes} {remote : Path} {t u : Target}
    {r : Option DeployResponse} (h : Installed env app remote t r u)
    (happ : app.length < maxFiledLen) (hfiled : Filed env app (s.content remote) s t)
    (hsame : t.content remote = s.content remote) : Replaced env app remote s r u := by
  rcases h with ⟨hrefused, hkept, harchive⟩ | ⟨hdone, data, hdata, hnew⟩
  · exact Or.inl ⟨hrefused, hkept.trans hsame, _, Or.inr rfl, hfiled.after happ harchive⟩
  · exact Or.inr ⟨hdone, data, t, hdata, hfiled, hnew⟩

/-- Saving metadata spares all but its file, whatever becomes of it. -/
theorem metadataSave_lands {app remote hash : Bytes} {k : Prog Target DeployResponse}
    {R : Option DeployResponse → Target → Prop}
    (hend : ∀ m t, (∀ p, p ≠ metadataFile → t.fs.lookup p = s.fs.lookup p) → Prog.Lands k R m t)
    (hdie : ∀ t, (∀ p, p ≠ metadataFile → t.fs.lookup p = s.fs.lookup p) → R none t) :
    Prog.Lands (do
      let _ ← appMetadataSave env app remote hash
      k) R n s := by
  have hspares : Prog.wp (appMetadataSave env app remote hash) _ _ n s :=
    (appMetadataSave_spares (W := (· = metadataFile)) rfl app remote hash).frame n s
  exact Prog.Lands.bind_wp (Prog.wp_imp hspares fun _ m t ht => hend m t ht) hdie

/-- Setting the mode of the installed file and filing it. -/
theorem fileInstalled_lands {app : Bytes} {remote : Path} {mode : Nat} {data : Bytes}
    {k : Prog Target DeployResponse} {R : Option DeployResponse → Target → Prop}
    (happ : app.length < maxFiledLen) (henv : env.Reliable) (hremote : Installable app remote)
    (hdata : s.content remote = some data)
    (hend : ∀ m t, t.content remote = some data ∧ Filed env app (some data) s t →
      Prog.Lands k R m t) :
    Prog.Lands (do
      chmod env remote mode
      let _ ← backupCreate env app remote
      k) R n s := by
  obtain ⟨f, hlookup, rfl⟩ := exists_lookup hdata
  refine Prog.Lands.bind ((chmod_ends henv hlookup).mpr ?_)
  have hfirst : SameArchive app s (s.put remote { f with mode := mode }) := by
    intro p hp
    apply Target.lookup_put_ne
    rintro rfl
    exact hremote.archive hp
  refine Prog.Lands.bind ((backupCreate_filed happ henv Target.content_put).imp ?_)
  rintro _ m u ⟨-, hfiled, hothers⟩
  refine hend m u ⟨?_, hfiled.before hfirst⟩
  rw [Target.content_congr (hothers _ hremote.archive), Target.content_put]

section Installing

variable (happ : req.appName.length < maxFiledLen) (henv : env.Reliable)
  (hremote : Installable req.appName req.remotePath)
include happ henv hremote

/-- After the rename the new file is filed. -/
theorem finishDeploy_lands {data : Bytes} (hdata : s.content req.remotePath = some data)
    (backup : Bytes) :
    Prog.Lands (finishDeploy env req backup) (fun r t => Succeeds r ∧
      t.content req.remotePath = some data ∧ Filed env req.appName (some data) s t) n s := by
  unfold finishDeploy
  apply fileInstalled_lands happ henv hremote hdata
  intro k u hu
  have hstay : ∀ t, (∀ p, p ≠ metadataFile → t.fs.lookup p = u.fs.lookup p) →
      t.content req.remotePath = some data ∧ Filed env req.appName (some data) s t := by
    intro t ht
    refine ⟨(Target.content_congr (ht _ hremote.metadata.symm)).trans hu.1, ?_⟩
    refine hu.2.after happ fun p hp => ht p ?_
    rintro rfl
    exact metadataFile_notInArchive hp
  apply metadataSave_lands
  · intro m t ht
    rw [Prog.lands_pure]
    exact ⟨succeeds_succeed _, hstay t ht⟩
  · exact fun t ht => ⟨succeeds_none, hstay t ht⟩

theorem verifyAndInstall_lands (backup : Bytes) :
    Prog.Lands (verifyAndInstall env req (tempPath req.remotePath) backup)
      (Installed env req.appName req.remotePath s) n s := by
  have hcleanup : ∀ code message m, Prog.Lands (do
      let _ ← unlink env (tempPath req.remotePath)
      return refuse code message : Prog Target DeployResponse)
      (Installed env req.appName req.remotePath s) m s := by
    intro code message m
    have hunlink : Spares (· = tempPath req.remotePath) (unlink env (tempPath req.remotePath)) :=
      unlink_spares rfl
    refine Prog.Lands.bind ((hunlink.ends (.call _) m s).imp fun _ m' t ht => ?_)
    rw [Prog.lands_pure]
    refine Or.inl ⟨refused_refuse code message, Target.content_congr (ht _ hremote.temp.symm), ?_⟩
    refine SameArchive.of_frame ht ?_
    rintro p rfl
    exact hremote.temp_archive
  unfold verifyAndInstall
  cases hdata : s.content (tempPath req.remotePath) with
  | none =>
      have hnone : Prog.Ends (computeFileChecksum env (tempPath req.remotePath))
          (fun r _ t => r = none ∧ t = s) n s := by
        rw [computeFileChecksum, Prog.ends_bind, fopenRead_ends (henv _ _), hdata, Prog.ends_pure]
        exact ⟨rfl, rfl⟩
      refine Prog.Lands.bind (hnone.imp ?_)
      rintro _ m _ ⟨rfl, rfl⟩
      exact hcleanup _ _ _
  | some data =>
      refine Prog.Lands.bind ((computeFileChecksum_ends (fun _ => henv _ _) (fun _ => henv _ _)
        hdata).imp ?_)
      rintro _ m t ⟨rfl, rfl⟩
      dsimp only
      split
      · exact hcleanup _ _ _
      · obtain ⟨f, hlookup, rfl⟩ := exists_lookup hdata
        refine Prog.Lands.bind ((rename_ends henv hlookup hremote.temp).mpr ?_)
        rw [if_pos rfl]
        refine (finishDeploy_lands happ henv hremote Target.content_put backup).imp ?_
        rintro r u ⟨hdone, hcontent, hfiled⟩
        refine Or.inr ⟨hdone, f.data, hcontent, hfiled.before fun p hp => ?_⟩
        rw [Target.lookup_put_ne, Target.lookup_remove_ne]
        · rintro rfl
          exact hremote.temp_archive hp
        · rintro rfl
          exact hremote.archive hp

/-- A deploy files what it replaces and what it installs. -/
theorem handleDeploy_lands (link : Link) :
    Prog.Lands (handleDeploy env link req) (Replaced env req.appName req.remotePath s) n s := by
  have hrefused : ∀ {code : DeployError} {message : String} {m : Nat} {t : Target},
      t.content req.remotePath = s.content req.remotePath →
      (∃ x, (x = none ∨ x = s.content req.remotePath) ∧ Filed env req.appName x s t) →
      Prog.Lands (pure (refuse code message) : Prog Target DeployResponse)
        (Replaced env req.appName req.remotePath s) m t := by
    intro code message m t hcontent hfiled
    rw [Prog.lands_pure]
    exact Or.inl ⟨refused_refuse code message, hcontent, hfiled⟩
  have hearly : ∀ {code : DeployError} {message : String},
      Prog.Lands (pure (refuse code message) : Prog Target DeployResponse)
        (Replaced env req.appName req.remotePath s) n s :=
    hrefused rfl ⟨none, Or.inl rfl, .refl_none⟩
  unfold handleDeploy handleDeployWith
  split
  · exact hearly
  split
  · exact hearly
  split
  · exact hearly
  split
  · exact hearly
  refine Prog.Lands.bind ((backupBefore_filed happ henv).imp ?_)
  rintro backup m t ⟨hsome, hfiled, hothers⟩
  have hkept := Target.content_congr (hothers _ hremote.archive)
  cases backup with
  | none => cases hsome
  | some backup =>
      dsimp only
      have hdownload : Spares
          (fun p => p = tempPath req.remotePath ∨ sessionStateSvuPath req.appName = some p)
          (svuDownloadFile env link req.dtpServerNode.toNat (tempPath req.remotePath)
            req.expectedSize.toNat req.appName req.dtpMtu.toNat) :=
        svuDownloadFile_spares (Or.inl rfl) (fun _ hpath => Or.inr hpath) _ _ _ _
      refine Prog.Lands.bind ((hdownload.ends (svuDownloadFile_total _ _ _ _ _) m t).imp ?_)
      intro downloaded m' u hu
      have harchive : SameArchive req.appName t u := by
        refine SameArchive.of_frame hu ?_
        rintro p (rfl | hside)
        · exact hremote.temp_archive
        · exact sidecar_notInArchive hside
      have hsame : u.content req.remotePath = t.content req.remotePath := by
        refine Target.content_congr (hu _ ?_)
        rintro (htemp | hside)
        · exact hremote.temp htemp.symm
        · exact hremote.sidecar hside
      have hfiled' : Filed env req.appName (s.content req.remotePath) s u :=
        hfiled.after happ harchive
      split
      · refine (verifyAndInstall_lands happ henv hremote backup).imp fun r v hv => ?_
        exact hv.replaced happ hfiled' (hsame.trans hkept)
      · exact hrefused (hsame.trans hkept) ⟨_, Or.inr rfl, hfiled'⟩

end Installing

end Deploy

section Upload

variable {env : Env} {ss : UploadSession} {n : Nat} {s : Target}

theorem uploadSessionReset_spares (env : Env) (ss : UploadSession) :
    Spares (· = ss.tempPath) (uploadSessionReset env ss) := by
  have hset : Spares (· = ss.tempPath) (setSession .zero) := .update fun _ => rfl
  have hunlink : Spares (· = ss.tempPath) (do
      if ss.tempPath ≠ [] then
        let _ ← unlink env ss.tempPath
      setSession .zero) :=
    .ite (.bind (unlink_spares rfl) fun _ => hset) hset
  unfold uploadSessionReset
  have hclose : Spares (· = ss.tempPath) (fcloseBuffered env ss.tempPath ss.pending) :=
    fcloseBuffered_spares (W := (· = ss.tempPath)) rfl _
  exact .ite (.bind hclose fun _ => hunlink) hunlink

theorem uploadSessionReset_total (env : Env) (ss : UploadSession) :
    Prog.Total (uploadSessionReset env ss) := by
  have hunlink : Prog.Total (do
      if ss.tempPath ≠ [] then
        let _ ← unlink env ss.tempPath
      setSession .zero) :=
    .ite (.bind (.call _) fun _ => .update _) (.update _)
  unfold uploadSessionReset
  exact .ite (.bind (fcloseBuffered_total _ _) fun _ => hunlink) hunlink

theorem verifyUpload_spares (ss : UploadSession) :
    Spares (fun _ => False) (verifyUpload env ss) := by
  unfold verifyUpload
  refine .ite (.pure _) (.ite (.pure _) (.bind ?_ fun actual => ?_))
  · unfold computeFileChecksum
    refine .bind (fopenRead_spares _) fun data => ?_
    cases data with
    | none => exact .pure _
    | some data => exact .bind (freadAll_spares _ _) fun _ => .pure _
  · cases actual with
    | none => exact .pure _
    | some actual => exact .pure _

theorem verifyUpload_total (ss : UploadSession) : Prog.Total (verifyUpload env ss) := by
  unfold verifyUpload
  refine .ite (.pure _) (.ite (.pure _) (.bind (computeFileChecksum_total _) fun actual => ?_))
  cases actual with
  | none => exact .pure _
  | some actual => exact .pure _

section Installing

variable (happ : ss.appName.length < maxFiledLen) (henv : env.Reliable)
  (hremote : Installable ss.appName ss.remotePath)
  (htemp : ss.tempPath = uploadTempPath ss.appName)

theorem resetRefused_lands (hremote : Installable ss.appName ss.remotePath)
    (htemp : ss.tempPath = uploadTempPath ss.appName) (code : DeployError) (message : String) :
    Prog.Lands (do
      uploadSessionReset env ss
      return refuse code message : Prog Target DeployResponse)
      (fun r t => Refused r ∧ t.content ss.remotePath = s.content ss.remotePath ∧
        SameArchive ss.appName s t) n s := by
  refine Prog.Lands.bind (((uploadSessionReset_spares env ss).ends
    (uploadSessionReset_total env ss) n s).imp fun _ m t ht => ?_)
  rw [Prog.lands_pure]
  refine ⟨refused_refuse code message, Target.content_congr (ht _ ?_), ?_⟩
  · rw [htemp]
    exact hremote.upload.symm
  · refine SameArchive.of_frame ht ?_
    rintro p rfl
    rw [htemp]
    exact uploadTempPath_notInArchive _

include happ henv hremote htemp

/-- After the copy the new file is filed. -/
theorem finishUpload_lands {data : Bytes} (hdata : s.content ss.remotePath = some data)
    (backup : Bytes) :
    Prog.Lands (finishUpload env ss backup) (fun r t => Succeeds r ∧
      t.content ss.remotePath = some data ∧ Filed env ss.appName (some data) s t) n s := by
  have hunlink : Spares (· = ss.tempPath) (unlink env ss.tempPath) := unlink_spares rfl
  unfold finishUpload
  refine Prog.Lands.bind ((hunlink.ends (.call _) n s).imp fun _ m u hu => ?_)
  have hkept : u.content ss.remotePath = some data := by
    rw [Target.content_congr (hu _ ?_), hdata]
    rw [htemp]
    exact hremote.upload.symm
  have hfirst : SameArchive ss.appName s u := by
    refine SameArchive.of_frame hu ?_
    rintro p rfl
    rw [htemp]
    exact uploadTempPath_notInArchive _
  apply fileInstalled_lands happ henv hremote hkept
  rintro m' v ⟨hv, hfiled⟩
  have hstay : ∀ t, (∀ p, p ≠ metadataFile → t.fs.lookup p = v.fs.lookup p) →
      t.content ss.remotePath = some data ∧ Filed env ss.appName (some data) s t := by
    intro t ht
    refine ⟨(Target.content_congr (ht _ hremote.metadata.symm)).trans hv, ?_⟩
    refine (hfiled.before hfirst).after happ fun p hp => ht p ?_
    rintro rfl
    exact metadataFile_notInArchive hp
  apply metadataSave_lands
  · intro k t ht
    refine Prog.Lands.bind ((Prog.ends_update _).mpr ?_)
    rw [Prog.lands_pure]
    exact ⟨succeeds_succeed _, hstay _ ht⟩
  · exact fun t ht => ⟨succeeds_none, hstay t ht⟩

theorem installUpload_lands :
    Prog.Lands (installUpload env ss) (Replaced env ss.appName ss.remotePath s) n s := by
  unfold installUpload
  refine Prog.Lands.bind ((backupBefore_filed happ henv).imp ?_)
  rintro backup m t ⟨hsome, hfiled, hothers⟩
  have hkept := Target.content_congr (hothers _ hremote.archive)
  have hrefused : ∀ code message m', Prog.Lands (do
      uploadSessionReset env ss
      return refuse code message : Prog Target DeployResponse)
      (Replaced env ss.appName ss.remotePath s) m' t := fun code message m' =>
    (resetRefused_lands hremote htemp code message).imp fun _ _ h =>
      Installed.replaced (Or.inl h) happ hfiled hkept
  cases backup with
  | none => cases hsome
  | some backup =>
      dsimp only
      refine Prog.Lands.bind ((mkdirP_ends (fun _ _ => henv _ _) _).imp ?_)
      rintro _ m' _ ⟨rfl, rfl⟩
      rw [if_pos rfl]
      cases hdata : Target.content _ ss.tempPath with
      | none =>
          refine Prog.Lands.bind ?_
          rw [copyFile, Prog.ends_bind, fopenRead_ends (henv _ _), hdata, Prog.ends_pure]
          exact hrefused _ _ _
      | some data =>
          refine Prog.Lands.bind ((copyFile_reliable henv hdata).imp ?_)
          rintro _ m'' u ⟨rfl, ⟨f, hlookup, hfresh⟩, hrest⟩
          rw [if_pos rfl]
          have hcopied : u.content ss.remotePath = some data := by
            rw [Target.content_of_lookup hlookup, hfresh.1]
          refine (finishUpload_lands happ henv hremote htemp hcopied backup).imp ?_
          rintro r v ⟨hdone, hnew, hfiled'⟩
          refine Or.inr ⟨hdone, data, _, hnew, hfiled, hfiled'.before fun p hp => hrest p ?_⟩
          rintro rfl
          exact hremote.archive hp

theorem verifyAndInstallUpload_lands :
    Prog.Lands (verifyAndInstallUpload env ss) (Replaced env ss.appName ss.remotePath s) n s := by
  unfold verifyAndInstallUpload
  refine Prog.Lands.bind ((Prog.ends_update _).mpr ?_)
  refine Prog.Lands.bind (((verifyUpload_spares ss).ends (verifyUpload_total ss) _ _).imp
    fun wrong m t ht => ?_)
  have hsame : t.content ss.remotePath = s.content ss.remotePath :=
    Target.content_congr (ht _ id)
  have harchive : SameArchive ss.appName s t := fun p _ => ht p id
  cases wrong with
  | some wrong =>
      refine (resetRefused_lands hremote htemp _ _).imp ?_
      rintro r u ⟨hr, hkept, hu⟩
      refine Or.inl ⟨hr, hkept.trans hsame, none, Or.inl rfl, ?_⟩
      exact .kept (harchive.trans hu) fun _ h => by cases h
  | none =>
      refine (installUpload_lands happ henv hremote htemp).imp fun r u hu => ?_
      exact hu.before harchive hsame

omit htemp in
/-- An upload that is ended files what it replaces and what it installs. -/
theorem handleUploadEnd_lands (hsession : s.session = ss)
    (htemp : ss.active = true → ss.tempPath = uploadTempPath ss.appName) :
    Prog.Lands (handleUploadEnd env) (Replaced env ss.appName ss.remotePath s) n s := by
  have hnothing : ∀ {r : Option DeployResponse}, Refused r →
      Replaced env ss.appName ss.remotePath s r s := fun hr =>
    Or.inl ⟨hr, rfl, none, Or.inl rfl, .refl_none⟩
  unfold handleUploadEnd
  refine Prog.Lands.bind ((Prog.ends_read _).mpr ?_)
  rw [hsession]
  split
  · rw [Prog.lands_pure]
    exact hnothing (refused_refuse _ _)
  next hactive =>
    split
    · exact hnothing refused_none
    · have htemp' := htemp (by simpa using hactive)
      have hclose : Spares (· = ss.tempPath) (fcloseBuffered env ss.tempPath ss.pending) :=
        fcloseBuffered_spares (W := (· = ss.tempPath)) rfl _
      refine Prog.Lands.bind ((hclose.ends (fcloseBuffered_total _ _) n s).imp
        fun _ m t ht => ?_)
      have hsame : t.content ss.remotePath = s.content ss.remotePath := by
        refine Target.content_congr (ht _ ?_)
        rw [htemp']
        exact hremote.upload.symm
      have harchive : SameArchive ss.appName s t := by
        refine SameArchive.of_frame ht ?_
        rintro p rfl
        rw [htemp']
        exact uploadTempPath_notInArchive _
      refine Prog.Lands.imp (R := Replaced env ss.appName ss.remotePath t) ?_
        fun _ _ hu => hu.before harchive hsame
      refine verifyAndInstallUpload_lands ?_ henv ?_ ?_
      · exact happ
      · exact hremote
      · exact htemp'

end Installing

end Upload

section Rollback

/-- What `backup_list` hands out, in the order of the directory. -/
def dialListing (env : Env) (app : Bytes) (s : Target) : List (Bytes × Path) :=
  if (s.fs.lookup (backupDir app)).isSome then []
  else (env.order (s.namesIn (backupDir app))).filterMap fun name =>
    (parseBackupFilename name).map fun hash => (hash, existingPath app name)

/-- The modification time of a file, 0 if there is none. -/
def Target.mtimeAt (s : Target) (p : Path) : Nat := ((s.fs.lookup p).map (·.mtime)).getD 0

/-- What `rollback_collect_callback` keeps of a listing. -/
def dialEntries (s : Target) : List (Bytes × Path) → List BackupEntry → List BackupEntry
  | [], entries => entries
  | (hash, path) :: rest, entries =>
      if entries.length ≥ maxDialEntries ∨ entries.any (·.hash = hash) then
        dialEntries s rest entries
      else dialEntries s rest (entries ++ [⟨hash, path, s.mtimeAt path⟩])

/-- The dial of an app. -/
def dial (env : Env) (app : Bytes) (s : Target) : List BackupEntry :=
  dialEntries s (dialListing env app s) []

/-- The hash of the file at `p` as a rollback sees it: empty if there is none. -/
def Target.hashAt (s : Target) (p : Path) : Bytes := ((s.content p).map hexDigest).getD []

variable {env : Env} {app : Bytes} {req : DeployRequest} {remote : Path} {n : Nat} {s : Target}

theorem backupList_ends (henv : env.Reliable) :
    Prog.Ends (backupList env app) (fun r _ t => r = dialListing env app s ∧ t = s) n s := by
  unfold backupList
  rw [Prog.ends_bind]
  refine ((opendir_opens (fun _ => henv _ _)).ends n s).imp ?_
  rintro names m t ⟨rfl, rfl⟩
  unfold dialListing
  cases t.fs.lookup (backupDir app) with
  | none => exact (Prog.ends_pure _).mpr ⟨rfl, rfl⟩
  | some f => exact (Prog.ends_pure _).mpr ⟨rfl, rfl⟩

theorem collectBackups_ends (henv : env.Reliable) (listed : List (Bytes × Path)) :
    ∀ (entries : List BackupEntry) (n : Nat), Prog.Ends (collectBackups env listed entries)
      (fun r _ t => r = dialEntries s listed entries ∧ t = s) n s := by
  induction listed with
  | nil =>
      intro entries n
      rw [collectBackups, Prog.ends_pure]
      exact ⟨rfl, rfl⟩
  | cons b listed ih =>
      intro entries n
      unfold collectBackups dialEntries
      split
      · exact ih entries n
      · rw [Prog.ends_bind, statFile_ends (henv _ _)]
        exact ih _ _

theorem hashAt_ends (henv : env.Reliable) :
    Prog.Ends (computeFileChecksum env remote)
      (fun r _ t => r.getD [] = s.hashAt remote ∧ t = s) n s := by
  refine ((computeFileChecksum_observes remote).ends n s).imp ?_
  rintro r m _ ⟨rfl, hr⟩
  rw [hr (fun _ => henv _ _) (fun _ => henv _ _)]
  exact ⟨rfl, rfl⟩

/-- With metadata that can be read, a rollback finds its path. -/
theorem rollbackPath_ends (henv : env.Reliable) (htarget : rollbackTarget req s = some remote) :
    Prog.Ends (rollbackPath env req)
      (fun r _ t => r = some remote ∧ t.fs = s.fs ∧ t.metadata = s.metadata) n s := by
  unfold rollbackTarget at htarget
  unfold rollbackPath
  split at htarget
  next hgiven =>
    rw [if_pos hgiven, Prog.ends_pure]
    exact ⟨htarget, rfl, rfl⟩
  next hgiven =>
    rw [if_neg hgiven]
    cases hmeta : s.metadata with
    | none => simp [hmeta] at htarget
    | some entries =>
        rw [hmeta, Option.bind_some] at htarget
        rw [Prog.ends_bind, appMetadataGet, Prog.ends_bind]
        refine (loadMetadata_ends (fun _ => henv _ _) (fun _ => henv _ _) hmeta).imp ?_
        rintro entries m _ ⟨rfl, rfl⟩
        rw [Prog.ends_pure]
        cases hfound : findApp entries req.appName with
        | none => simp [hfound] at htarget
        | some e =>
            rw [hfound] at htarget
            rw [Prog.ends_pure]
            exact ⟨htarget, rfl, rfl⟩

theorem mem_dialListing {hash : Bytes} {path : Path} :
    (hash, path) ∈ dialListing env app s ↔
      s.fs.lookup (backupDir app) = none ∧ s.Lists app hash path := by
  unfold dialListing Target.Lists
  cases s.fs.lookup (backupDir app) with
  | some f => simp
  | none =>
      simp only [Option.isSome_none, Bool.false_eq_true, if_false, true_and, List.mem_filterMap,
        (env.order_perm _).mem_iff, Option.map_eq_some_iff, Prod.mk.injEq]
      constructor
      · rintro ⟨name, hname, _, hparse, rfl, rfl⟩
        exact ⟨name, hname, hparse, rfl⟩
      · rintro ⟨name, hname, hparse, rfl⟩
        exact ⟨name, hname, hash, hparse, rfl, rfl⟩

theorem mem_dialEntries {e : BackupEntry} (listed : List (Bytes × Path)) :
    ∀ entries, e ∈ dialEntries s listed entries →
      e ∈ entries ∨ (e.hash, e.path) ∈ listed ∧ e.mtime = s.mtimeAt e.path := by
  induction listed with
  | nil => exact fun entries h => Or.inl h
  | cons b listed ih =>
      intro entries h
      unfold dialEntries at h
      split at h
      · rcases ih _ h with h | ⟨hmem, hmtime⟩
        · exact Or.inl h
        · exact Or.inr ⟨List.mem_cons_of_mem _ hmem, hmtime⟩
      · rcases ih _ h with h | ⟨hmem, hmtime⟩
        · rcases List.mem_append.mp h with h | h
          · exact Or.inl h
          · obtain rfl := List.mem_singleton.mp h
            exact Or.inr ⟨List.mem_cons_self, rfl⟩
        · exact Or.inr ⟨List.mem_cons_of_mem _ hmem, hmtime⟩

/-- What the dial shows is listed. -/
theorem mem_dial {e : BackupEntry} (h : e ∈ dial env app s) :
    s.fs.lookup (backupDir app) = none ∧ s.Lists app e.hash e.path ∧
      e.mtime = s.mtimeAt e.path := by
  rcases mem_dialEntries _ _ h with h | ⟨hmem, hmtime⟩
  · cases h
  · obtain ⟨hdir, hlists⟩ := mem_dialListing.mp hmem
    exact ⟨hdir, hlists, hmtime⟩

theorem dialEntries_congr {t : Target} (hfs : t.fs = s.fs) (listed : List (Bytes × Path)) :
    ∀ entries, dialEntries t listed entries = dialEntries s listed entries := by
  induction listed with
  | nil => exact fun _ => rfl
  | cons b listed ih =>
      intro entries
      have hmtime : t.mtimeAt b.2 = s.mtimeAt b.2 := by rw [Target.mtimeAt, hfs, Target.mtimeAt]
      simp only [dialEntries, hmtime, ih]

theorem dial_congr {t : Target} (hfs : t.fs = s.fs) : dial env app t = dial env app s := by
  have hlisting : dialListing env app t = dialListing env app s := by
    unfold dialListing Target.namesIn
    rw [hfs]
  rw [dial, hlisting, dialEntries_congr hfs, dial]

/-- A rollback goes by what the dial selects, and reads files only up to then. -/
theorem handleRollback_selects (henv : env.Reliable) (hname : req.appName = app) (hne : app ≠ [])
    (htarget : rollbackTarget req s = some remote) {R : Option DeployResponse → Target → Prop}
    (hnone : selectBackup req.rollbackHash (s.hashAt remote) (dial env app s) = none →
      ∀ t code message, t.fs = s.fs → R (some (refuse code message)) t)
    (hsome : ∀ selected m t,
      selectBackup req.rollbackHash (s.hashAt remote) (dial env app s) = some selected →
      t.fs = s.fs → t.metadata = s.metadata → Prog.Lands
        (restoreSelected env app remote (s.hashAt remote) (dial env app s) selected) R m t) :
    Prog.Lands (handleRollback env req) R n s := by
  unfold handleRollback
  rw [hname, if_neg hne]
  refine Prog.Lands.bind ((rollbackPath_ends henv htarget).imp ?_)
  rintro _ m t ⟨rfl, hfs, hmeta⟩
  have hhash : t.hashAt remote = s.hashAt remote := by
    unfold Target.hashAt Target.content
    rw [hfs]
  dsimp only
  refine Prog.Lands.bind ((hashAt_ends henv).imp ?_)
  rintro current m t ⟨hcurrent, rfl⟩
  rw [hcurrent, hhash]
  refine Prog.Lands.bind ((backupList_ends henv).imp ?_)
  rintro _ m t ⟨rfl, rfl⟩
  refine Prog.Lands.bind ((collectBackups_ends henv _ _ _).imp ?_)
  rintro _ m t ⟨rfl, rfl⟩
  have hdial : dialEntries t (dialListing env app t) [] = dial env app s := dial_congr hfs
  rw [hdial]
  split
  next hempty =>
    rw [Prog.lands_pure]
    refine hnone ?_ t _ _ hfs
    rw [hempty]
    unfold selectBackup
    split
    · rfl
    · rfl
  next =>
    cases hselected : selectBackup req.rollbackHash (s.hashAt remote) (dial env app s) with
    | none =>
        rw [Prog.lands_pure]
        exact hnone hselected t _ _ hfs
    | some selected => exact hsome selected m t hselected hfs hmeta

/-- A rollback over the file at `remote` that came to restore a backup: the file
has the content of the backup, and what it held before is filed unless the dial
showed it. -/
def Restored (env : Env) (app : Bytes) (remote : Path) (entries : List BackupEntry)
    (data : Bytes) (s : Target) (r : Option DeployResponse) (t : Target) : Prop :=
  Succeeds r ∧ t.content remote = some data ∧
  (Filed env app (s.content remote) s t ∨
    SameArchive app s t ∧ s.hashAt remote ∈ entries.map (·.hash))

theorem Restored.congr {entries : List BackupEntry} {data : Bytes} {r : Option DeployResponse}
    {t u : Target} (h : Restored env app remote entries data t r u) (hfs : t.fs = s.fs) :
    Restored env app remote entries data s r u := by
  have hlookup : ∀ p, t.fs.lookup p = s.fs.lookup p := fun p => by rw [hfs]
  have hcontent : t.content remote = s.content remote := Target.content_congr (hlookup remote)
  have hsame : SameArchive app s t := fun p _ => hlookup p
  obtain ⟨hr, hdata, hfiled⟩ := h
  rw [hcontent, Target.hashAt, hcontent] at hfiled
  refine ⟨hr, hdata, ?_⟩
  rcases hfiled with hfiled | ⟨hkept, hlisted⟩
  · exact Or.inl (hfiled.before hsame)
  · exact Or.inr ⟨hsame.trans hkept, hlisted⟩

section Restoring

variable (happ : app.length < maxFiledLen) (henv : env.Reliable)
  (hremote : Installable app remote)
include happ henv hremote

theorem restoreSelected_lands (entries : List BackupEntry) {selected : BackupEntry}
    {name data : Bytes} (hdir : s.fs.lookup (backupDir app) = none)
    (hname : nameIn (backupDir app) selected.path = some name)
    (hdata : s.content selected.path = some data) :
    Prog.Lands (restoreSelected env app remote (s.hashAt remote) entries selected)
      (Restored env app remote entries data s) n s := by
  have hrestore : ∀ m u, u.content selected.path = some data →
      (∀ t, SameArchive app u t → Filed env app (s.content remote) s t ∨
        SameArchive app s t ∧ s.hashAt remote ∈ entries.map (·.hash)) →
      Prog.Lands (do
        if ← backupRestore env selected.path remote then
          let _ ← appMetadataSave env app remote selected.hash
          return succeed selected.path
        else return refuse .errRestoreFailed "Failed to restore backup")
        (Restored env app remote entries data s) m u := by
    intro m u hu hstage
    refine Prog.Lands.bind ((backupRestore_reliable henv hu).imp ?_)
    rintro _ m' v ⟨rfl, hv, hothers⟩
    have huv : SameArchive app u v := by
      refine SameArchive.of_frame (W := (· = remote)) hothers ?_
      rintro p rfl
      exact hremote.archive
    have hstay : ∀ t, (∀ p, p ≠ metadataFile → t.fs.lookup p = v.fs.lookup p) →
        t.content remote = some data ∧ SameArchive app u t := by
      intro t ht
      refine ⟨(Target.content_congr (ht _ hremote.metadata.symm)).trans hv, huv.trans ?_⟩
      refine SameArchive.of_frame (W := (· = metadataFile)) ht ?_
      rintro p rfl
      exact metadataFile_notInArchive
    rw [if_pos rfl]
    apply metadataSave_lands
    · intro k t ht
      rw [Prog.lands_pure]
      exact ⟨succeeds_succeed _, (hstay t ht).1, hstage t (hstay t ht).2⟩
    · exact fun t ht => ⟨succeeds_none, (hstay t ht).1, hstage t (hstay t ht).2⟩
  unfold restoreSelected
  dsimp only
  split
  next hunlisted =>
    -- a file is there and the dial does not show it
    obtain ⟨old, hold⟩ : ∃ old, s.content remote = some old := by
      cases hold : s.content remote with
      | none => simp [Target.hashAt, hold] at hunlisted
      | some old => exact ⟨old, rfl⟩
    refine Prog.Lands.bind ((backupCreate_filed happ henv hold).imp ?_)
    rintro _ m u ⟨-, hfiled, hothers⟩
    refine hrestore m u ?_ fun t ht => Or.inl (hold ▸ hfiled.after happ ht)
    cases hfiled with
    | kept hsame _ => exact (Target.content_congr (hsame _ (Or.inr ⟨name, hname⟩))).trans hdata
    | added hnew k hfile hfresh hrest =>
        refine (Target.content_congr (hrest _ (Or.inr ⟨name, hname⟩) ?_)).trans hdata
        -- the new name is not the name of a file that is there
        intro heq
        refine hnew ⟨hdir, name, Target.mem_namesIn.mpr ⟨_, data, hname, hdata⟩, ?_⟩
        rw [heq, nameIn_backupPath happ] at hname
        rw [← Option.some.inj hname]
        exact hashSuffix_backupName _ _
  next hlisted =>
    refine hrestore n s hdata fun t ht => ?_
    cases hold : s.content remote with
    | none => exact Or.inl (.kept ht fun _ h => by cases h)
    | some old =>
        have hhash : s.hashAt remote = hexDigest old := by simp [Target.hashAt, hold]
        rw [hhash] at hlisted ⊢
        refine Or.inr ⟨ht, ?_⟩
        simpa [hexDigest_ne_nil] using hlisted

/-- A rollback that has nothing to restore is refused and changes nothing; else
it restores what the dial selects. -/
theorem handleRollback_lands (hname : req.appName = app) (hne : app ≠ [])
    (htarget : rollbackTarget req s = some remote) (hdir : s.fs.lookup (backupDir app) = none)
    (hfiles : ∀ e ∈ dial env app s, (∃ name, nameIn (backupDir app) e.path = some name) ∧
      ∃ data, s.content e.path = some data) :
    Prog.Lands (handleRollback env req) (fun r t =>
      match selectBackup req.rollbackHash (s.hashAt remote) (dial env app s) with
      | none => Refused r ∧ t.fs = s.fs
      | some selected => ∃ data, s.content selected.path = some data ∧
          Restored env app remote (dial env app s) data s r t) n s := by
  refine handleRollback_selects henv hname hne htarget ?_ ?_
  · intro hselect t code message hfs
    rw [hselect]
    exact ⟨refused_refuse code message, hfs⟩
  · intro selected m t hselect hfs _
    rw [hselect]
    have hhash : t.hashAt remote = s.hashAt remote := by
      unfold Target.hashAt Target.content
      rw [hfs]
    obtain ⟨⟨name, hin⟩, data, hdata⟩ := hfiles selected (selectBackup_mem hselect)
    have hdata' : t.content selected.path = some data := by
      rw [← hdata]
      exact Target.content_congr (by rw [hfs])
    have hdir' : t.fs.lookup (backupDir app) = none := by rw [hfs, hdir]
    have hlands := restoreSelected_lands (n := m) happ henv hremote (dial env app s) hdir' hin
      hdata'
    rw [hhash] at hlands
    exact hlands.imp fun r u hu => ⟨data, hdata, hu.congr hfs⟩

end Restoring

end Rollback

end SatDeploy.Agent
