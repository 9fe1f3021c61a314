import SatDeploy.Agent.BackupHistory
import SatDeploy.Agent.InstallAtomicity
import SatDeploy.Agent.RollbackDial
import SatDeploy.Ground.Apm

/-!
Rollback isolation by path. Backups are filed under a name derived from the
remote path, and a rollback restores any of them. As long as no two remote
paths in use share a name, what is filed under the name of a path was at that
path, so a rollback restores only contents the path has had; two paths with
one name mix their histories.
-/

namespace SatDeploy.Ground

open Lib Agent

/-- What a handler may do to the files under the backup directory: leave them,
remove them, or file a content of `K` as a backup of `app`. -/
def Files (app : Bytes) (K : Set Bytes) (s t : Target) : Prop :=
  ∀ p, underBackups p → t.content p = s.content p ∨ t.content p = none ∨
    ∃ tm data, p = backupPath app tm (hexDigest data) ∧ t.content p = some data ∧ data ∈ K

section Filing

variable {env : Env} {app : Bytes} {K L : Set Bytes} {s t u : Target}

theorem Files.refl : Files app K s s := fun _ _ => Or.inl rfl

theorem Files.of_same (h : ∀ p, underBackups p → t.content p = s.content p) :
    Files app K s t := fun p hp => Or.inl (h p hp)

theorem Files.mono (h : Files app K s t) (hKL : K ⊆ L) : Files app L s t := by
  intro p hp
  rcases h p hp with hsame | hgone | ⟨tm, data, hpath, hdata, hmem⟩
  · exact Or.inl hsame
  · exact Or.inr (Or.inl hgone)
  · exact Or.inr (Or.inr ⟨tm, data, hpath, hdata, hKL hmem⟩)

theorem Files.trans (hst : Files app K s t) (htu : Files app K t u) : Files app K s u := by
  intro p hp
  rcases htu p hp with hsame | hgone | hnew
  · rw [hsame]
    exact hst p hp
  · exact Or.inr (Or.inl hgone)
  · exact Or.inr (Or.inr hnew)

/-- What a file holds, as a set. -/
def held (s : Target) (p : Path) : Set Bytes := fun data => s.content p = some data

/-- A backup files the content of its source and leaves the source alone. -/
theorem backupCreate_files (henv : env.Finishes) {src : Path} (hsrc : ¬ underBackups src)
    {n : Nat} :
    Prog.wp (backupCreate env app src) (fun _ => True)
      (fun _ _ t => Files app (held s src) s t ∧ t.content src = s.content src) n s := by
  have hapart : ∀ tm data, src ≠ backupPath app tm (hexDigest data) := by
    rintro tm data rfl
    exact hsrc (backupPath_under _ _ _)
  apply backupCreate_whole henv
  · exact fun _ => ⟨.refl, rfl⟩
  · exact fun _ _ _ _ _ _ => ⟨.refl, rfl⟩
  · intro m t tm data hdata hothers hcopy
    refine ⟨fun p _ => ?_, hothers src (hapart tm data)⟩
    by_cases hp : p = backupPath app tm (hexDigest data)
    · exact Or.inr (Or.inr ⟨tm, data, hp, hp ▸ hcopy, hdata⟩)
    · exact Or.inl (hothers p hp)
  · intro m t tm data hdata hothers hlost
    refine ⟨fun p _ => ?_, hothers src (hapart tm data)⟩
    by_cases hp : p = backupPath app tm (hexDigest data)
    · rw [hp]
      exact hlost.elim (fun h => Or.inr (Or.inl h)) Or.inl
    · exact Or.inl (hothers p hp)

/-- A program that touches nothing under the backup directory files nothing. -/
theorem files_of_touches {α : Type} {W : Path → Prop} {c : Prog Target α} (hc : Touches W c)
    (hW : ∀ p, W p → ¬ underBackups p) {n : Nat} :
    Prog.wp c (fun _ => True) (fun _ _ t => Files app K s t) n s :=
  Prog.wp_mono (hc.frame n s) (fun _ _ => trivial)
    (fun _ _ _ ht => .of_same fun p hp => ht p fun hw => hW p hw hp)

end Filing

section Paths

theorem metadataFile_apart : ¬ underBackups metadataFile := by decide

theorem sidecar_apart {app : Bytes} {p : Path} (h : sessionStateSvuPath app = some p) :
    ¬ underBackups p := by
  unfold sessionStateSvuPath at h
  dsimp only at h
  split at h
  · rw [← Option.some.inj h, underBackups, List.append_assoc, List.append_assoc,
      List.take_append_of_le_length (by decide)]
    decide
  · cases h

/-- The temporary file is under the backup directory only with its target. -/
theorem tempPath_apart {remote : Path} (h : ¬ underBackups remote) :
    ¬ underBackups (tempPath remote) := by
  intro hunder
  unfold underBackups tempPath at hunder
  rw [take_clip (by decide)] at hunder
  by_cases hlen : 23 ≤ remote.length
  · rw [List.take_append_of_le_length hlen] at hunder
    exact h hunder
  · -- the dot of the extension would be a character of the directory
    have hdot : dot ∈ (remote ++ ascii ".tmp").take 23 := by
      rw [List.take_append, List.mem_append]
      right
      rw [show ascii ".tmp" = dot :: ascii "tmp" from rfl,
        show 23 - remote.length = (22 - remote.length) + 1 by omega, List.take_succ_cons]
      exact List.mem_cons_self
    rw [hunder] at hdot
    exact absurd hdot (by decide)

/-- A text is determined up to its first slash. -/
theorem component_unique {a : Bytes} : ∀ {b x y : Bytes}, slash ∉ a → slash ∉ b →
    a ++ slash :: x = b ++ slash :: y → a = b := by
  induction a with
  | nil =>
      intro b x y _ hb heq
      cases b with
      | nil => rfl
      | cons c b =>
          rw [List.nil_append, List.cons_append] at heq
          rw [(List.cons.inj heq).1] at hb
          exact absurd List.mem_cons_self hb
  | cons c a ih =>
      intro b x y ha hb heq
      cases b with
      | nil =>
          rw [List.nil_append, List.cons_append] at heq
          rw [(List.cons.inj heq).1] at ha
          exact absurd List.mem_cons_self ha
      | cons d b =>
          obtain ⟨hhead, htail⟩ := List.cons.inj heq
          rw [hhead, ih (fun h => ha (List.mem_cons_of_mem _ h))
            (fun h => hb (List.mem_cons_of_mem _ h)) htail]

/-- The directories of derived names are apart. -/
theorem backupPath_dir {P Q : Path} {tm : Tm} {hash name : Bytes}
    (h : nameIn (backupDir (deriveAppName Q)) (backupPath (deriveAppName P) tm hash) =
      some name) : deriveAppName Q = deriveAppName P := by
  have hdir : ∀ R : Path, backupDir (deriveAppName R) =
      backupRoot ++ ascii "/" ++ deriveAppName R := by
    intro R
    have hlen := length_deriveAppName R
    refine clip_of_lt ?_
    rw [List.length_append, List.length_append, length_backupRoot]
    change 22 + 1 + _ < 512
    omega
  have hpath := nameIn_eq_some h
  have hcut : backupPath (deriveAppName P) tm hash = backupRoot ++ ascii "/" ++ deriveAppName P ++
      slash :: (timestamp tm ++ ascii "-" ++ hash ++ ascii ".bak").take
        (511 - (backupRoot ++ ascii "/" ++ deriveAppName P ++ [slash]).length) := by
    have hlen := length_deriveAppName P
    have hshort : (backupRoot ++ ascii "/" ++ deriveAppName P ++ [slash]).length ≤ 511 := by
      simp only [List.length_append, length_backupRoot]
      change 22 + 1 + _ + 1 ≤ 511
      omega
    rw [backupPath, hdir, clip, maxPathLen]
    have hsplit : backupRoot ++ ascii "/" ++ deriveAppName P ++ ascii "/" ++ timestamp tm ++
        ascii "-" ++ hash ++ ascii ".bak" =
        backupRoot ++ ascii "/" ++ deriveAppName P ++ [slash] ++
          (timestamp tm ++ ascii "-" ++ hash ++ ascii ".bak") := by
      rw [show ascii "/" = [slash] from rfl]
      simp only [List.append_assoc]
    rw [hsplit, List.take_append, List.take_of_length_le hshort]
    simp only [List.append_assoc, List.singleton_append]
  rw [hcut, hdir, show ascii "/" = [slash] from rfl] at hpath
  simp only [List.append_assoc, List.singleton_append] at hpath
  have hrest := List.append_cancel_left hpath
  exact (component_unique (slash_notMem_deriveAppName P) (slash_notMem_deriveAppName Q)
    (List.cons.inj hrest).2).symm

end Paths

section Deploy

variable {env : Env} {req : DeployRequest} {n : Nat} {s : Target}

theorem held_congr {t : Target} {p : Path} (h : t.content p = s.content p) :
    held t p = held s p := by
  unfold held
  rw [h]

/-- After the rename the new file is filed and stays. -/
theorem finishDeploy_files (henv : env.Finishes) (hremote : ¬ underBackups req.remotePath)
    (hmeta : req.remotePath ≠ metadataFile) (backup : Bytes) :
    Prog.wp (finishDeploy env req backup) (fun _ => True)
      (fun _ _ t => Files req.appName (held t req.remotePath) s t) n s := by
  unfold finishDeploy
  rw [Prog.wp_bind]
  refine Prog.wp_mono ((chmod_touches (W := fun _ => False) _ _).frame n s)
    (fun _ _ => trivial) ?_
  intro _ m t ht
  rw [Prog.wp_bind]
  refine Prog.wp_imp (backupCreate_files henv hremote) ?_
  rintro _ m' u ⟨hfiles, hkept⟩
  rw [Prog.wp_bind]
  refine Prog.wp_mono ((appMetadataSave_touches (W := (· = metadataFile)) rfl _ _ _).frame m' u)
    (fun _ _ => trivial) ?_
  intro _ m'' v hv
  rw [Prog.wp_pure, held_congr ((hv _ hmeta).trans hkept)]
  have hfirst : Files req.appName (held t req.remotePath) s t := .of_same fun p _ => ht p id
  have hlast : Files req.appName (held t req.remotePath) u v := by
    refine .of_same fun p hp => hv p ?_
    rintro rfl
    exact metadataFile_apart hp
  exact (hfirst.trans hfiles).trans hlast

theorem verifyAndInstall_files (henv : env.Finishes) (hremote : ¬ underBackups req.remotePath)
    (hmeta : req.remotePath ≠ metadataFile) {temp : Path} (htemp : ¬ underBackups temp)
    (backup : Bytes) :
    Prog.wp (verifyAndInstall env req temp backup) (fun _ => True)
      (fun _ _ t => Files req.appName (held t req.remotePath) s t) n s := by
  have hcleanup : ∀ {code : DeployError} {message : String} {m : Nat} {t : Target},
      (∀ K, Files req.appName K s t) →
      Prog.wp (do
        let _ ← unlink env temp
        return refuse code message : Prog Target DeployResponse) (fun _ => True)
        (fun _ _ t => Files req.appName (held t req.remotePath) s t) m t := by
    intro code message m t ht
    rw [Prog.wp_bind]
    refine Prog.wp_mono ((unlink_touches (W := (· = temp)) rfl).frame m t)
      (fun _ _ => trivial) ?_
    intro _ m' u hu
    rw [Prog.wp_pure]
    refine (ht _).trans (.of_same fun p hp => hu p ?_)
    rintro rfl
    exact htemp hp
  unfold verifyAndInstall
  rw [Prog.wp_bind]
  apply computeFileChecksum_wp
  · intro m
    exact hcleanup fun _ => .refl
  · intro m data _
    dsimp only
    split
    · exact hcleanup fun _ => .refl
    · rw [Prog.wp_bind]
      have hrename : Touches (fun p => p = temp ∨ p = req.remotePath)
          (rename env temp req.remotePath) := rename_touches (Or.inl rfl) (Or.inr rfl)
      refine Prog.wp_mono (hrename.frame m s) (fun _ _ => trivial) ?_
      intro renamed m' t ht
      have hmoved : ∀ K, Files req.appName K s t := by
        intro K
        refine .of_same fun p hp => ht p ?_
        rintro (rfl | rfl)
        · exact htemp hp
        · exact hremote hp
      split
      · refine Prog.wp_imp (finishDeploy_files henv hremote hmeta backup) ?_
        exact fun _ _ u hu => (hmoved _).trans hu
      · exact hcleanup hmoved

theorem backupBefore_files (henv : env.Finishes) (hremote : ¬ underBackups req.remotePath) :
    Prog.wp (backupBefore env req.appName req.remotePath) (fun _ => True)
      (fun _ _ t => Files req.appName (held s req.remotePath) s t) n s := by
  unfold backupBefore
  rw [Prog.wp_bind, access, Prog.wp_call]
  refine ⟨by simp, ?_⟩
  refine Prog.wp_ite ?_ ((Prog.wp_pure _).mpr .refl)
  exact Prog.wp_imp (backupCreate_files henv hremote) fun _ _ _ ht => ht.1

/-- A deploy files what was at its path and what it leaves there. -/
theorem handleDeploy_files (henv : env.Finishes) (link : Link)
    (hremote : ¬ underBackups req.remotePath) (hmeta : req.remotePath ≠ metadataFile) :
    Prog.wp (handleDeploy env link req) (fun _ => True)
      (fun _ _ t => Files req.appName (held s req.remotePath ∪ held t req.remotePath) s t)
      n s := by
  have hrefused : ∀ {code : DeployError} {message : String} {m : Nat} {t : Target},
      Files req.appName (held s req.remotePath) s t →
      Prog.wp (pure (refuse code message) : Prog Target DeployResponse) (fun _ => True)
        (fun _ _ t => Files req.appName (held s req.remotePath ∪ held t req.remotePath) s t)
        m t :=
    fun ht => (Prog.wp_pure _).mpr (ht.mono Set.subset_union_left)
  unfold handleDeploy handleDeployWith
  refine Prog.wp_ite (hrefused .refl) (Prog.wp_ite (hrefused .refl)
    (Prog.wp_ite (hrefused .refl) (Prog.wp_ite (hrefused .refl) ?_)))
  rw [Prog.wp_bind]
  refine Prog.wp_imp (backupBefore_files henv hremote) ?_
  intro backup m t ht
  cases backup with
  | none => exact hrefused ht
  | some backup =>
      dsimp only
      rw [Prog.wp_bind]
      have htouches : Touches
          (fun p => p = tempPath req.remotePath ∨ sessionStateSvuPath req.appName = some p)
          (svuDownloadFile env link req.dtpServerNode.toNat (tempPath req.remotePath)
            req.expectedSize.toNat req.appName req.dtpMtu.toNat) :=
        svuDownloadFile_touches (Or.inl rfl) (fun _ hpath => Or.inr hpath) _ _ _ _
      have hdownload : Prog.wp (svuDownloadFile env link req.dtpServerNode.toNat
          (tempPath req.remotePath) req.expectedSize.toNat req.appName req.dtpMtu.toNat)
          (fun _ => True)
          (fun _ _ u => Files req.appName (held s req.remotePath) t u) m t := by
        apply files_of_touches htouches
        rintro p (rfl | hside)
        · exact tempPath_apart hremote
        · exact sidecar_apart hside
      refine Prog.wp_imp hdownload ?_
      intro downloaded m' u hu
      refine Prog.wp_ite ?_ (hrefused (ht.trans hu))
      refine Prog.wp_imp (verifyAndInstall_files henv hremote hmeta (tempPath_apart hremote)
        backup) ?_
      intro _ m'' v hv
      exact ((ht.trans hu).mono Set.subset_union_left).trans (hv.mono Set.subset_union_right)

end Deploy

section Rollback

variable {env : Env} {req : DeployRequest} {n : Nat} {s : Target}

/-- A restore that is reported puts the backup's content at the path. -/
theorem backupRestore_installs (henv : env.Finishes) (backup remote : Path) :
    Prog.wp (backupRestore env backup remote) (fun _ => True)
      (fun restored _ t => (∀ p, p ≠ remote → t.content p = s.content p) ∧
        (restored = true → ∃ data, s.content backup = some data ∧
          t.content remote = some data)) n s := by
  unfold backupRestore
  rw [Prog.wp_bind, statFile, Prog.wp_call]
  refine ⟨by simp, ?_⟩
  dsimp only
  split
  · exact (Prog.wp_pure _).mpr ⟨fun _ _ => rfl, by simp⟩
  next f hf =>
    have hdata : s.content backup = some f.data := by
      split at hf
      · exact Target.content_of_lookup hf
      · cases hf
    simp only [List.getLastD_nil]
    rw [Prog.wp_bind]
    refine Prog.wp_imp (copyFile_whole henv hdata) ?_
    rintro copied m t ⟨hothers, hdone, -⟩
    split
    next hcopied =>
      have hchmod : ∀ mode m', Prog.wp (do
          chmod env remote mode
          return true : Prog Target Bool) (fun _ => True)
          (fun restored _ u => (∀ p, p ≠ remote → u.content p = s.content p) ∧
            (restored = true → ∃ data, s.content backup = some data ∧
              u.content remote = some data)) m' t := by
        intro mode m'
        rw [Prog.wp_bind]
        refine Prog.wp_mono ((chmod_touches (W := fun _ => False) _ _).frame m' t)
          (fun _ _ => trivial) ?_
        intro _ m'' u hu
        rw [Prog.wp_pure]
        refine ⟨fun p hp => (hu p id).trans (hothers p hp), fun _ => ⟨f.data, hdata, ?_⟩⟩
        exact (hu remote id).trans (hdone hcopied)
      rw [Prog.wp_bind, Prog.wp_call]
      refine ⟨by simp, ?_⟩
      dsimp only
      split
      · exact hchmod _ _
      · exact hchmod _ _
    · exact (Prog.wp_pure _).mpr ⟨hothers, by simp⟩

/-- What a rollback restores is the selected backup as it was, or what the path
held when the rollback began. -/
theorem restoreSelected_restores (henv : env.Finishes) {app : Bytes} {remote : Path}
    (hremote : ¬ underBackups remote) (hmeta : remote ≠ metadataFile) (current : Bytes)
    (entries : List BackupEntry) {selected : BackupEntry} (hpath : underBackups selected.path) :
    Prog.wp (restoreSelected env app remote current entries selected) (fun _ => True)
      (fun resp _ t => Files app (held s remote) s t ∧ (resp.success = true →
        ∃ data, t.content remote = some data ∧
          (s.content selected.path = some data ∨ s.content remote = some data))) n s := by
  have hrestore : ∀ m t, Files app (held s remote) s t →
      Prog.wp (do
        if ← backupRestore env selected.path remote then
          let _ ← appMetadataSave env app remote selected.hash
          return succeed selected.path
        else return refuse .errRestoreFailed "Failed to restore backup") (fun _ => True)
        (fun resp _ t => Files app (held s remote) s t ∧ (resp.success = true →
          ∃ data, t.content remote = some data ∧
            (s.content selected.path = some data ∨ s.content remote = some data))) m t := by
    intro m t ht
    rw [Prog.wp_bind]
    refine Prog.wp_imp (backupRestore_installs henv selected.path remote) ?_
    rintro restored m' u ⟨hothers, hinstalled⟩
    have hkept : Files app (held s remote) t u := by
      refine .of_same fun p hp => hothers p ?_
      rintro rfl
      exact hremote hp
    split
    next hrestored =>
      obtain ⟨data, hdata, hnow⟩ := hinstalled hrestored
      rw [Prog.wp_bind]
      refine Prog.wp_mono ((appMetadataSave_touches (W := (· = metadataFile)) rfl _ _ _).frame
        m' u) (fun _ _ => trivial) ?_
      intro _ m'' v hv
      rw [Prog.wp_pure]
      have hlast : Files app (held s remote) u v := by
        refine .of_same fun p hp => hv p ?_
        rintro rfl
        exact metadataFile_apart hp
      refine ⟨(ht.trans hkept).trans hlast, fun _ => ⟨data, (hv remote hmeta).trans hnow, ?_⟩⟩
      rcases ht selected.path hpath with hsame | hgone | ⟨tm, found, -, hfound, hheld⟩
      · exact Or.inl (hsame.symm.trans hdata)
      · rw [hgone] at hdata
        cases hdata
      · rw [hfound] at hdata
        rw [← Option.some.inj hdata]
        exact Or.inr hheld
    · exact (Prog.wp_pure _).mpr ⟨ht.trans hkept, by simp [refuse]⟩
  unfold restoreSelected
  dsimp only
  split
  · rw [Prog.wp_bind]
    refine Prog.wp_imp (backupCreate_files henv hremote) ?_
    exact fun _ m t ht => hrestore m t ht.1
  · exact hrestore n s .refl

theorem existingPath_under (app name : Bytes) : underBackups (existingPath app name) := by
  apply underBackups_clip
  simp only [List.append_assoc]
  exact underBackups_append (backupDir_under app) _

/-- A rollback files what was at its path, and restores a listed backup or what
the path held. -/
theorem handleRollback_restores (henv : env.Finishes) (hgiven : req.remotePath ≠ [])
    (hremote : ¬ underBackups req.remotePath) (hmeta : req.remotePath ≠ metadataFile) :
    Prog.wp (handleRollback env req) (fun _ => True)
      (fun resp _ t => Files req.appName (held s req.remotePath) s t ∧ (resp.success = true →
        ∃ data, t.content req.remotePath = some data ∧
          (s.content req.remotePath = some data ∨
            ∃ hash path, s.Lists req.appName hash path ∧ s.content path = some data))) n s := by
  have hsame : ∀ t : Target, t.fs = s.fs → ∀ p, t.content p = s.content p := by
    intro t ht p
    unfold Target.content
    rw [ht]
  apply handleRollback_wp (fun _ _ => trivial)
  · intro m t code message ht
    exact ⟨.of_same fun p _ => hsame t ht p, by simp [refuse]⟩
  · intro m t remote current entries selected ht _ htarget _ _ hlists _
    have heq : req.remotePath = remote := by
      unfold rollbackTarget at htarget
      rw [if_pos hgiven] at htarget
      exact Option.some.inj htarget
    rw [← heq]
    have hpath : underBackups selected.path := by
      obtain ⟨name, -, -, hname⟩ := hlists
      rw [hname]
      exact existingPath_under _ _
    refine Prog.wp_imp (restoreSelected_restores henv hremote hmeta current entries hpath) ?_
    rintro resp m' u ⟨hfiles, hrestored⟩
    have hfirst : Files req.appName (held s req.remotePath) s t :=
      .of_same fun p _ => hsame t ht p
    rw [held_congr (hsame t ht req.remotePath)] at hfiles
    refine ⟨hfirst.trans hfiles, fun hsuccess => ?_⟩
    obtain ⟨data, hnow, hbefore⟩ := hrestored hsuccess
    rw [hsame t ht, hsame t ht] at hbefore
    exact ⟨data, hnow, hbefore.elim
      (fun h => Or.inr ⟨selected.hash, selected.path, hlists, h⟩) Or.inl⟩

end Rollback

/-- Runs of deploys and rollbacks issued by the APM commands for paths in
`paths`, newest state first, on a target that starts without backups of
them and never cuts what it begins. -/
inductive ApmRun (paths : Set Path) : List Target → Prop where
  | start (s : Target)
      (hstart : ∀ P ∈ paths, s.namesIn (backupDir (deriveAppName P)) = []) : ApmRun paths [s]
  | deploy {s : Target} {earlier : List Target} {env : Env} (henv : env.Finishes) (link : Link)
      (req : DeployRequest) (n : Nat) (resp : DeployResponse) (hpath : req.remotePath ∈ paths)
      (happ : req.appName = deriveAppName req.remotePath)
      (hanswer : (handleDeploy env link req n s).result = some resp)
      (hrun : ApmRun paths (s :: earlier)) :
      ApmRun paths ((handleDeploy env link req n s).state :: s :: earlier)
  | rollback {s : Target} {earlier : List Target} {env : Env} (henv : env.Finishes)
      (req : DeployRequest) (n : Nat) (resp : DeployResponse) (hpath : req.remotePath ∈ paths)
      (hgiven : req.remotePath ≠ []) (happ : req.appName = deriveAppName req.remotePath)
      (hanswer : (handleRollback env req n s).result = some resp)
      (hrun : ApmRun paths (s :: earlier)) :
      ApmRun paths ((handleRollback env req n s).state :: s :: earlier)

/-- The backups under the name of a path have contents the path has had. -/
def OwnBackups (paths : Set Path) (states : List Target) (s : Target) : Prop :=
  ∀ P ∈ paths, ∀ p name data, nameIn (backupDir (deriveAppName P)) p = some name →
    s.content p = some data → p.length ≤ 511 ∧ ∃ t ∈ states, t.content P = some data

section Runs

variable {paths : Set Path}

/-- Filing what a path holds keeps the backups apart. -/
theorem OwnBackups.step (hnames : Set.InjOn deriveAppName paths) {P : Path} (hP : P ∈ paths)
    {s t : Target} {states : List Target} (hs : s ∈ states)
    (hown : OwnBackups paths states s)
    (hfiles : Files (deriveAppName P) (held s P ∪ held t P) s t) :
    OwnBackups paths (t :: states) t := by
  intro Q hQ p name data hname hdata
  have hunder : underBackups p := by
    rw [nameIn_eq_some hname, List.append_assoc]
    exact underBackups_append (backupDir_under _) _
  rcases hfiles p hunder with hsame | hgone | ⟨tm, found, hpath, hfound, hheld⟩
  · obtain ⟨hlen, u, hu, hcontent⟩ := hown Q hQ p name data hname (hsame.symm.trans hdata)
    exact ⟨hlen, u, List.mem_cons_of_mem _ hu, hcontent⟩
  · rw [hgone] at hdata
    cases hdata
  · rw [hpath] at hname
    have heq : Q = P := hnames hQ hP (backupPath_dir hname)
    have hdata' : found = data := Option.some.inj (hfound.symm.trans hdata)
    rw [hpath, heq, ← hdata']
    refine ⟨length_backupPath _ _ _, ?_⟩
    rcases hheld with hbefore | hafter
    · exact ⟨s, List.mem_cons_of_mem _ hs, hbefore⟩
    · exact ⟨t, List.mem_cons_self, hafter⟩

theorem ApmRun.ownBackups (hnames : Set.InjOn deriveAppName paths)
    (hapart : ∀ P ∈ paths, ¬ underBackups P ∧ P ≠ metadataFile) {states : List Target}
    (hrun : ApmRun paths states) : ∀ s ∈ states.head?, OwnBackups paths states s := by
  induction hrun with
  | start s hstart =>
      intro t ht P hP p name data hname hdata
      rw [Option.mem_some_iff.mp ht] at hstart
      have hmem := Target.mem_namesIn.mpr ⟨p, data, hname, hdata⟩
      rw [hstart P hP] at hmem
      cases hmem
  | @deploy s earlier env henv link req n resp hpath happ hanswer _ ih =>
      intro t ht
      rw [← Option.mem_some_iff.mp ht]
      have hend := (handleDeploy_files (n := n) (s := s) henv link (hapart _ hpath).1
        (hapart _ hpath).2).2
      rw [hanswer, happ] at hend
      exact (ih s rfl).step hnames hpath List.mem_cons_self hend
  | @rollback s earlier env henv req n resp hpath hgiven happ hanswer _ ih =>
      intro t ht
      rw [← Option.mem_some_iff.mp ht]
      have hend := (handleRollback_restores (n := n) (s := s) henv hgiven (hapart _ hpath).1
        (hapart _ hpath).2).2
      rw [hanswer, happ] at hend
      exact (ih s rfl).step hnames hpath List.mem_cons_self
        (hend.1.mono Set.subset_union_left)

end Runs

/-- When no two paths in use share a derived name, and none is a file of the
agent, a rollback restores a content its path has had before. -/
theorem rollback_isolation {paths : Set Path} (hnames : Set.InjOn deriveAppName paths)
    (hapart : ∀ P ∈ paths, ¬ underBackups P ∧ P ≠ metadataFile) {s : Target}
    {earlier : List Target} (hrun : ApmRun paths (s :: earlier)) {env : Env}
    (henv : env.Finishes) {req : DeployRequest} (hpath : req.remotePath ∈ paths)
    (hgiven : req.remotePath ≠ []) (happ : req.appName = deriveAppName req.remotePath) (n : Nat)
    {resp : DeployResponse} (hanswer : (handleRollback env req n s).result = some resp)
    (hsuccess : resp.success = true) :
    ∃ data, (handleRollback env req n s).state.content req.remotePath = some data ∧
      ∃ t ∈ s :: earlier, t.content req.remotePath = some data := by
  have hend := (handleRollback_restores (n := n) (s := s) henv hgiven (hapart _ hpath).1
    (hapart _ hpath).2).2
  rw [hanswer, happ] at hend
  obtain ⟨data, hnow, hbefore⟩ := hend.2 hsuccess
  refine ⟨data, hnow, ?_⟩
  rcases hbefore with hheld | ⟨hash, path, ⟨name, hname, -, hexisting⟩, hcontent⟩
  · exact ⟨s, List.mem_cons_self, hheld⟩
  · obtain ⟨p, found, hp, hfound⟩ := Target.mem_namesIn.mp hname
    obtain ⟨hlen, t, ht, hheld⟩ := hrun.ownBackups hnames hapart s rfl _ hpath p name found hp
      hfound
    rw [hexisting, existingPath_of_name hp hlen, hfound] at hcontent
    rw [← Option.some.inj hcontent]
    exact ⟨t, ht, hheld⟩

section Demo

def emptyTarget : Target := ⟨∅, some [], .zero⟩

/-- A deploy of `hi` on which nothing fails. -/
def demoDeploy (remote : Path) (s : Target) : Outcome Target DeployResponse :=
  handleDeploy (calmEnv demoTime) smallLink (demoRequest remote) 0 s

def demoRollback (remote : Path) (s : Target) : Outcome Target DeployResponse :=
  handleRollback (calmEnv demoTime) (demoRequest remote) 0 s

/-- The target after `hi` was deployed to one of two paths with one name. -/
def deployedTarget : Target := (demoDeploy (ascii "/opt/a/demo") emptyTarget).state

/-- One evaluation for all of the demo runs. -/
theorem demo_runs :
    (demoDeploy (ascii "/opt/a/demo") emptyTarget).result.map (·.success) = some true ∧
    deployedTarget.content (ascii "/opt/b/demo") = none ∧
    (demoRollback (ascii "/opt/a/demo") deployedTarget).result.map (·.success) = some true ∧
    (demoRollback (ascii "/opt/b/demo") deployedTarget).result.map (·.success) = some true ∧
    (demoRollback (ascii "/opt/b/demo") deployedTarget).state.content (ascii "/opt/b/demo") =
      some (ascii "hi") := by
  decide +kernel

theorem demo_apmRun {paths : Set Path} (hpath : ascii "/opt/a/demo" ∈ paths) :
    ApmRun paths [deployedTarget, emptyTarget] := by
  obtain ⟨resp, hanswer, -⟩ := Option.map_eq_some_iff.mp demo_runs.1
  refine .deploy (calmEnv_finishes demoTime) smallLink (demoRequest (ascii "/opt/a/demo")) 0 resp
    hpath (by decide) hanswer (.start emptyTarget ?_)
  intro P _
  rfl

theorem rollback_isolation_demo :
    ApmRun {ascii "/opt/a/demo"} [deployedTarget, emptyTarget] ∧
    ∃ data, (demoRollback (ascii "/opt/a/demo") deployedTarget).state.content
        (ascii "/opt/a/demo") = some data ∧
      ∃ t ∈ [deployedTarget, emptyTarget], t.content (ascii "/opt/a/demo") = some data := by
  have hrun : ApmRun {ascii "/opt/a/demo"} [deployedTarget, emptyTarget] := demo_apmRun rfl
  obtain ⟨resp, hanswer, hsuccess⟩ := Option.map_eq_some_iff.mp demo_runs.2.2.1
  have hpath : (demoRequest (ascii "/opt/a/demo")).remotePath ∈
      ({ascii "/opt/a/demo"} : Set Path) := rfl
  refine ⟨hrun, rollback_isolation (Set.injOn_singleton _ _) ?_ hrun (calmEnv_finishes demoTime)
    hpath (by decide) (by decide) 0 hanswer hsuccess⟩
  rintro P rfl
  exact ⟨by decide, by decide⟩

/-- A rollback of a path where nothing was ever deployed restores what was
deployed to another path with its name. -/
theorem rollback_crosses_paths :
    ApmRun {ascii "/opt/a/demo", ascii "/opt/b/demo"} [deployedTarget, emptyTarget] ∧
    (demoDeploy (ascii "/opt/a/demo") emptyTarget).result.map (·.success) = some true ∧
    (demoRollback (ascii "/opt/b/demo") deployedTarget).result.map (·.success) = some true ∧
    (demoRollback (ascii "/opt/b/demo") deployedTarget).state.content (ascii "/opt/b/demo") =
      some (ascii "hi") ∧
    ∀ t ∈ [deployedTarget, emptyTarget], t.content (ascii "/opt/b/demo") = none := by
  obtain ⟨hdeploy, hnever, -, hrollback, hrestored⟩ := demo_runs
  refine ⟨demo_apmRun (Or.inl rfl), hdeploy, hrollback, hrestored, ?_⟩
  intro t ht
  rcases List.mem_pair.mp ht with heq | heq
  · rw [heq]
    exact hnever
  · rw [heq]
    rfl

end Demo

end SatDeploy.Ground
