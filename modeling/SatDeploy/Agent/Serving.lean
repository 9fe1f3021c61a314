import SatDeploy.Agent.Delivery
import SatDeploy.Agent.MetadataMap
import SatDeploy.Agent.UploadSession

/-!
What the agent does for one request, whatever calls fail. It writes the files that
belong to the request and `apps.json`, and nothing else. It lives to answer as long as
its metadata can be read: the null pointers it could run into are those of a damaged
`apps.json` and of an upload whose file is not open.
-/

namespace SatDeploy.Agent

open Lib Svu

/-- The metadata can be read, and has no app that is installed over `apps.json`. -/
def Target.Sane (s : Target) : Prop :=
  ∃ entries, s.metadata = some entries ∧ ∀ e ∈ entries, e.remotePath ≠ metadataFile

/-- The program writes files of `W` and the metadata only. It lives as long as the
metadata can be read, unless `W` has `apps.json`; with `K` it leaves the upload session
alone. -/
structure Steady {α : Type} (K : Prop) (W : Path → Prop) (c : Prog Target α) : Prop where
  files : Spares (fun p => W p ∨ p = metadataFile) c
  session : K → ∀ ss, Prog.Keeps (fun s => s.session = ss) c
  lives : ¬ W metadataFile → ∀ n s, s.Sane → Prog.Ends c (fun _ _ t => t.Sane) n s

section Steps

variable {α β : Type} {K : Prop} {V W : Path → Prop} {c : Prog Target α} {s : Target}

theorem Target.sane_of_cache {entries : List AppEntry} (hcache : s.cache = some entries)
    (hpaths : ∀ e ∈ entries, e.remotePath ≠ metadataFile) : s.Sane :=
  ⟨entries, by rw [Target.metadata, hcache], hpaths⟩

theorem Steady.pure (a : α) : Steady K W (pure a : Prog Target α) where
  files := .pure a
  session := fun _ _ => .pure a
  lives := fun _ _ _ hs => (Prog.ends_pure a).mpr hs

theorem Steady.bind {f : α → Prog Target β} (hc : Steady K W c) (hf : ∀ a, Steady K W (f a)) :
    Steady K W (c >>= f) where
  files := hc.files.bind fun a => (hf a).files
  session := fun hK ss => (hc.session hK ss).bind fun a => (hf a).session hK ss
  lives := by
    intro hW n s hs
    rw [Prog.ends_bind]
    exact (hc.lives hW n s hs).imp fun a m t ht => (hf a).lives hW m t ht

theorem Steady.ite {b : Prop} [Decidable b] {d : Prog Target α} (hc : Steady K W c)
    (hd : Steady K W d) : Steady K W (if b then c else d) := by
  split
  · exact hc
  · exact hd

theorem Steady.mono (h : Steady K V c) (hsub : ∀ p, V p → W p) : Steady K W c where
  files := fun p x hp => h.files p x fun hv => hp (hv.imp_left (hsub p))
  session := h.session
  lives := fun hW => h.lives (mt (hsub metadataFile) hW)

/-- A program that works on files and always returns. -/
theorem Steady.of_files (hfiles : Spares W c) (hmemory : KeepsMemory c)
    (htotal : Prog.Total c) : Steady K W c where
  files := fun p x hp => hfiles p x fun hw => hp (Or.inl hw)
  session := by
    intro _ ss n s hs
    exact Prog.wp_mono (hmemory s.cache ss n s ⟨rfl, hs⟩) (fun _ ht => ht.2)
      fun _ _ _ ht => ht.2
  lives := by
    rintro hW n s ⟨entries, hmeta, hpaths⟩
    refine (hfiles.within hmemory htotal n s).imp fun _ m t ht => ?_
    exact ⟨entries, (ht.metadata hW).trans hmeta, hpaths⟩

/-- A program that first looks, and goes on with what it has seen. -/
theorem Steady.after {R : Target → α → Prop} {f : α → Prog Target β} (h : Prog.Observes c R)
    (hf : ∀ s a, R s a → Steady K W (f a)) : Steady K W (c >>= f) where
  files := by
    intro p x hp n s hs
    rw [Prog.wp_bind]
    exact h.wp fun m a ha => (hf s a ha).files p x hp m s hs
  session := by
    intro hK ss n s hs
    rw [Prog.wp_bind]
    exact h.wp fun m a ha => (hf s a ha).session hK ss m s hs
  lives := by
    intro hW n s hs
    rw [Prog.ends_bind]
    refine (h.ends n s).imp ?_
    rintro a m t ⟨rfl, ha⟩
    exact (hf t a ha).lives hW m t hs

/-- A program that only looks. -/
theorem Steady.observes {R : Target → α → Prop} (h : Prog.Observes c R) : Steady K W c where
  files := fun _ _ _ _ _ hs => h.wp fun _ _ _ => hs
  session := fun _ _ _ _ hs => h.wp fun _ _ _ => hs
  lives := by
    intro _ n s hs
    refine (h.ends n s).imp ?_
    rintro a m t ⟨rfl, -⟩
    exact hs

theorem Steady.setSession (ss : UploadSession) : Steady False W (setSession ss) where
  files := .update fun _ => rfl
  session := False.elim
  lives := fun _ _ _ hs => (Prog.ends_update _).mpr hs

end Steps

/-! ### Backups -/

section Backups

variable {K : Prop} {W : Path → Prop} {env : Env}

theorem copyFile_spares (src : Path) {dst : Path} (hdst : W dst) :
    Spares W (copyFile env src dst) := by
  have hbytes : ∀ data, Spares W (copyBytes env src dst data) := by
    intro data
    refine .bind (freadAll_spares src data) fun got => ?_
    refine .bind (fwriteAll_spares hdst _) fun written => ?_
    refine .bind (fcloseWritten_spares hdst) fun _ => ?_
    refine .ite (.bind (statFile_spares src) fun st => ?_) (.pure _)
    cases st with
    | none => exact .pure _
    | some st => exact .bind (chmod_spares hdst _) fun _ => .pure _
  unfold copyFile
  refine .bind (fopenRead_spares src) fun data => ?_
  cases data with
  | none => exact .pure _
  | some data =>
      exact .bind (unlink_spares hdst) fun _ =>
        .bind (fopenWrite_spares hdst) fun _ => .ite (hbytes _) (.pure _)

theorem copyFile_steady (src : Path) {dst : Path} (hdst : W dst) :
    Steady K W (copyFile env src dst) :=
  .of_files (copyFile_spares src hdst) (copyFile_memory src dst) (copyFile_total src dst)

theorem mkdirP_steady (path : Path) : Steady K W (mkdirP env path) :=
  .of_files (mkdirP_spares path) (mkdirP_memory path) (mkdirP_total path)

theorem chmod_steady {p : Path} (hp : W p) (mode : Nat) : Steady K W (chmod env p mode) :=
  .of_files (chmod_spares hp mode) (chmod_memory p mode) (.call _)

theorem unlink_steady {p : Path} (hp : W p) : Steady K W (unlink env p) :=
  .of_files (unlink_spares hp) (unlink_memory p) (.call _)

theorem access_observes (p : Path) : Prog.Observes (access env p) fun _ _ => True :=
  .call (fun _ _ => rfl) fun _ _ => trivial

theorem timeNow_observes : Prog.Observes (timeNow env) fun _ _ => True :=
  .call (fun _ _ => rfl) fun _ _ => trivial

/-- A backup writes its backup path. -/
theorem backupCreate_steady (app : Bytes) (src : Path) :
    Steady K (IsBackupPath app) (backupCreate env app src) := by
  unfold backupCreate
  refine .after (statFile_observes src) fun _ st _ => ?_
  cases st with
  | none => exact .pure _
  | some st =>
      refine .after (computeFileChecksum_digest src) fun s hash hhash => ?_
      cases hash with
      | none => exact .pure _
      | some hash =>
          obtain ⟨data, -, rfl⟩ := hhash hash rfl
          refine .bind (mkdirP_steady _) fun _ => .ite ?_ (.pure _)
          refine .bind (mkdirP_steady _) fun _ => .ite ?_ (.pure _)
          refine .after timeNow_observes fun _ now _ => .bind ?_ fun existing => ?_
          · refine .after (opendir_observes _) fun _ names _ => ?_
            cases names with
            | none => exact .pure _
            | some names => exact .pure _
          · cases existing with
            | some existing => exact .pure _
            | none =>
                exact .bind (copyFile_steady src ⟨_, data, rfl⟩) fun _ =>
                  .ite (.pure _) (.pure _)

theorem backupBefore_steady (app : Bytes) (remote : Path) :
    Steady K (IsBackupPath app) (backupBefore env app remote) := by
  unfold backupBefore
  exact .after (access_observes remote) fun _ _ _ =>
    .ite (backupCreate_steady app remote) (.pure _)

theorem backupRestore_steady (backup : Path) {dest : Path} (hdest : W dest) :
    Steady K W (backupRestore env backup dest) := by
  unfold backupRestore
  refine .after (statFile_observes backup) fun _ st _ => ?_
  cases st with
  | none => exact .pure _
  | some st =>
      refine .bind (copyFile_steady backup hdest) fun _ => .ite ?_ (.pure _)
      refine .after (statFile_observes backup) fun _ bst _ => ?_
      cases bst with
      | none => exact .bind (chmod_steady hdest _) fun _ => .pure _
      | some bst => exact .bind (chmod_steady hdest _) fun _ => .pure _

end Backups

/-! ### Metadata -/

section Metadata

variable {K : Prop} {W : Path → Prop} {env : Env} {n : Nat} {s : Target}

/-- A text that was read is that of the file. -/
theorem readMetadata_text : Prog.Observes (readMetadata env) fun s r => ∀ json, r = some json →
    s.content metadataFile = some json ∧ ¬ (json.length = 0 ∨ json.length > 1024 * 1024) := by
  unfold readMetadata
  have hopened : Prog.Observes (fopenRead env metadataFile) fun s r =>
      ∀ data, r = some data → s.content metadataFile = some data := by
    refine .call (fun _ _ => rfl) fun n s data hdata => ?_
    split at hdata
    · exact hdata
    · cases hdata
  refine .bind hopened fun data => ?_
  cases data with
  | none => exact .pure fun _ _ _ hjson => by cases hjson
  | some data =>
      dsimp only
      split
      · exact .pure fun _ _ _ hjson => by cases hjson
      next hsize =>
        have hgot : Prog.Observes (freadAll env metadataFile data) fun _ r =>
            r.2 = true → r.1 = data := by
          apply Prog.Observes.call
          · intro n s
            cases env.fault n (.read metadataFile) <;> rfl
          · intro n s
            cases env.fault n (.read metadataFile) with
            | none => exact fun _ => rfl
            | some k => exact fun h => by cases h
        refine .bind hgot fun got => .pure fun s hclean hdata json hjson => ?_
        split at hjson
        next hdone =>
          rw [← Option.some.inj hjson, hclean hdone]
          exact ⟨hdata data rfl, hsize⟩
        · cases hjson

/-- Metadata that can be read does not kill the agent, even when it fails to read it. -/
theorem loadMetadata_lives (hs : s.Sane) :
    ∃ entries, (∀ e ∈ entries, e.remotePath ≠ metadataFile) ∧
      Prog.Ends (loadMetadata env) (fun r _ t => r = entries ∧ t.cache = some entries) n s := by
  obtain ⟨entries, hmeta, hpaths⟩ := hs
  suffices hends : Prog.Ends (loadMetadata env) (fun r _ _ => r = [] ∨ r = entries) n s by
    obtain ⟨r, hresult, hr⟩ := hends
    have hcached := @loadMetadata_caches env n s
    have hany : Prog.Ends (loadMetadata env) (fun a _ _ => a = r) n s := ⟨r, hresult, rfl⟩
    obtain ⟨r', hresult', hsame, -, -, hcache⟩ := hany.and_wp hcached
    subst hsame
    refine ⟨r', fun e he => ?_, r', hresult', rfl, hcache⟩
    rcases hr with rfl | rfl
    · cases he
    · exact hpaths e he
  unfold loadMetadata
  rw [Prog.ends_bind, Prog.ends_read]
  cases hcache : s.cache with
  | some cached =>
      rw [Target.metadata, hcache] at hmeta
      exact (Prog.ends_pure _).mpr (Or.inr (Option.some.inj hmeta))
  | none =>
      dsimp only
      rw [Prog.ends_bind, setCache, Prog.ends_update, Prog.ends_bind]
      refine (readMetadata_text.ends n _).imp ?_
      rintro r m t ⟨rfl, hjson⟩
      cases r with
      | none => exact (Prog.ends_pure _).mpr (Or.inl rfl)
      | some json =>
          obtain ⟨hcontent, hsize⟩ := hjson json rfl
          have hparse : parseMetadata json = some entries := by
            rw [← hmeta, Target.metadata, hcache]
            have hcontent' : s.content metadataFile = some json := hcontent
            simp only [hcontent', if_neg hsize]
          dsimp only
          rw [hparse]
          dsimp only
          rw [Prog.ends_bind, setCache, Prog.ends_update, Prog.ends_pure]
          exact Or.inr rfl

theorem loadMetadata_steady : Steady K W (loadMetadata env) where
  files := loadMetadata_spares
  session := by
    intro _ ss
    have hset : ∀ entries, Prog.Keeps (fun s : Target => s.session = ss) (setCache entries) :=
      fun _ => .update fun _ hs => hs
    unfold loadMetadata
    refine .bind (.read _) fun cache => ?_
    cases cache with
    | some entries => exact .pure _
    | none =>
        refine .bind (hset _) fun _ => .bind ?_ fun json => ?_
        · exact fun n s hs => readMetadata_observes.wp fun _ _ _ => hs
        · cases json with
          | none => exact .pure _
          | some json =>
              dsimp only
              split
              · exact .die
              · exact .bind (hset _) fun _ => .pure _
  lives := by
    intro _ n s hs
    obtain ⟨entries, hpaths, hends⟩ := @loadMetadata_lives env n s hs
    exact hends.imp fun _ _ _ ht => Target.sane_of_cache ht.2 hpaths

/-- An updated table names the old paths and the new one. -/
theorem updateEntry_paths {entries : List AppEntry} {app : Bytes} {change : AppEntry → AppEntry}
    {P : Path → Prop} (hold : ∀ e ∈ entries, P e.remotePath)
    (hnew : ∀ e, P (change e).remotePath) :
    ∀ e ∈ (updateEntry entries app change).getD entries, P e.remotePath := by
  intro e he
  unfold updateEntry at he
  split at he
  next i _ =>
    obtain ⟨j, hj⟩ := List.mem_iff_getElem?.mp he
    rw [Option.getD_some, List.getElem?_modify] at hj
    obtain ⟨x, hx, rfl⟩ := Option.map_eq_some_iff.mp hj
    split
    · exact hnew x
    · exact hold x (List.mem_of_getElem? hx)
  next =>
    split at he
    · exact hold e he
    · rcases List.mem_append.mp he with he | he
      · exact hold e he
      · rw [List.mem_singleton.mp he]
        exact hnew _

theorem clip_ne_metadataFile {remote : Path} (h : remote ≠ metadataFile) :
    clip maxPathLen remote ≠ metadataFile := by
  intro heq
  by_cases hfits : remote.length < maxPathLen
  · exact h ((clip_of_lt hfits).symm.trans heq)
  · have hlen : min (maxPathLen - 1) remote.length = metadataFile.length := by
      rw [← heq, clip, List.length_take]
    have hcap : maxPathLen - 1 = 511 := rfl
    have hshort : metadataFile.length = 24 := rfl
    omega

theorem appMetadataSave_steady (app : Bytes) {remote : Path} (hash : Bytes) (hremote : W remote) :
    Steady K W (appMetadataSave env app remote hash) where
  files := appMetadataSave_spares (Or.inr rfl) app remote hash
  session := by
    intro hK ss
    have hload : Prog.Keeps (fun s => s.session = ss) (loadMetadata env) :=
      (loadMetadata_steady (W := W)).session hK ss
    unfold appMetadataSave
    refine .bind hload fun entries => .bind ?_ fun now => ?_
    · exact fun n s hs => timeNow_observes.wp fun _ _ _ => hs
    · dsimp only
      split
      · exact .pure _
      · refine .bind (.update fun _ hs => hs) fun _ n s hs => ?_
        exact Prog.wp_mono (saveMetadata_memory s.cache ss n s ⟨rfl, hs⟩) (fun _ ht => ht.2)
          fun _ _ _ ht => ht.2
  lives := by
    intro hW n s hs
    obtain ⟨entries, hpaths, hload⟩ := @loadMetadata_lives env n s hs
    refine (appMetadataSave_cache app remote hash hload).imp ?_
    rintro _ m t ⟨now, hcache⟩
    refine Target.sane_of_cache hcache (updateEntry_paths (P := (· ≠ metadataFile)) hpaths ?_)
    exact fun e => clip_ne_metadataFile fun heq => hW (heq ▸ hremote)

end Metadata

/-! ### Requests -/

/-- The same for a program that is started in `s`. -/
structure SteadyAt {α : Type} (K : Prop) (W : Path → Prop) (c : Prog Target α) (n : Nat)
    (s : Target) : Prop where
  files : Prog.wp c (fun t => ∀ p, ¬ (W p ∨ p = metadataFile) → t.fs.lookup p = s.fs.lookup p)
    (fun _ _ t => ∀ p, ¬ (W p ∨ p = metadataFile) → t.fs.lookup p = s.fs.lookup p) n s
  session : K → Prog.wp c (fun _ => True) (fun _ _ t => t.session = s.session) n s
  lives : ¬ W metadataFile → s.Sane → Prog.Ends c (fun _ _ t => t.Sane) n s

section Started

variable {α β : Type} {K : Prop} {W : Path → Prop} {c : Prog Target α} {n : Nat} {s : Target}

theorem Steady.at (h : Steady K W c) : SteadyAt K W c n s where
  files := h.files.frame n s
  session := fun hK => Prog.wp_mono (h.session hK s.session n s rfl) (fun _ _ => trivial)
    fun _ _ _ ht => ht
  lives := fun hW => h.lives hW n s

theorem SteadyAt.read {f : Target → α} {g : α → Prog Target β}
    (h : SteadyAt K W (g (f s)) n s) : SteadyAt K W (Prog.read f >>= g) n s where
  files := by
    rw [Prog.wp_bind, Prog.wp_read]
    exact h.files
  session := by
    intro hK
    rw [Prog.wp_bind, Prog.wp_read]
    exact h.session hK
  lives := by
    intro hW hs
    rw [Prog.ends_bind, Prog.ends_read]
    exact h.lives hW hs

/-- The answer of a handler is packed into a response. -/
theorem SteadyAt.packed (h : SteadyAt K W c n s) (f : α → β) :
    SteadyAt K W (do return f (← c)) n s where
  files := by
    rw [Prog.wp_bind]
    exact Prog.wp_imp h.files fun _ _ _ ht => (Prog.wp_pure _).mpr ht
  session := by
    intro hK
    rw [Prog.wp_bind]
    exact Prog.wp_imp (h.session hK) fun _ _ _ ht => (Prog.wp_pure _).mpr ht
  lives := by
    intro hW hs
    rw [Prog.ends_bind]
    exact (h.lives hW hs).imp fun _ _ _ ht => (Prog.ends_pure _).mpr ht

end Started

section Deploy

variable {K : Prop} {env : Env} {req : DeployRequest}

theorem runEvents_memory (sidecar : Option Path) (dest : Path) (events : List ClientEvent) :
    ∀ sc, KeepsMemory (runEvents env sidecar dest events sc) := by
  induction events with
  | nil => exact fun _ => .pure _
  | cons event rest ih =>
      intro sc
      cases sidecar with
      | none =>
          cases event with
          | openOut ok => exact .bind (fopenWrite_memory _) fun _ => .ite (ih sc) (.pure _)
          | writeOut payload =>
              exact .bind (fwriteAll_memory _ _) fun _ =>
                .bind (fcloseWritten_memory _) fun _ => ih sc
          | _ => exact ih sc
      | some path =>
          cases event with
          | openOut ok => exact .bind (fopenWrite_memory _) fun _ => .ite (ih sc) (.pure _)
          | writeOut payload =>
              exact .bind (fwriteAll_memory _ _) fun _ =>
                .bind (fcloseWritten_memory _) fun _ => ih sc
          | _ => exact .bind (hookEvent_memory sc _) fun sc => ih sc

theorem svuDownloadFile_memory (link : Link) (serverNode : Nat) (dest : Path)
    (expectedSize : Nat) (app : Bytes) (mtu : Nat) :
    KeepsMemory (svuDownloadFile env link serverNode dest expectedSize app mtu) := by
  have hsize : KeepsMemory (sizeMatches env dest expectedSize) := by
    unfold sizeMatches
    refine .ite (.pure _) (.bind (.observe fun _ _ => rfl) fun st => ?_)
    cases st with
    | none => exact .pure _
    | some st => exact .pure _
  unfold svuDownloadFile clientRun
  refine .ite (.pure _) (.ite (.pure _) (.bind (mkdirP_memory _) fun made => ?_))
  refine .bind (.bind ?_ fun seed => ?_) fun _ => .ite hsize (.pure _)
  · cases sidecarPath made app with
    | none => exact .pure _
    | some path => exact sidecarRestore_memory _
  · exact .bind (runEvents_memory _ _ _ _) fun _ => .pure _

/-- The files of a deploy. -/
def DeployWrites (app : Bytes) (remote p : Path) : Prop :=
  p = remote ∨ p = tempPath remote ∨ sessionStateSvuPath app = some p ∨ IsBackupPath app p

theorem handleDeploy_steady (link : Link) :
    Steady K (DeployWrites req.appName req.remotePath) (handleDeploy env link req) := by
  have hremote : DeployWrites req.appName req.remotePath req.remotePath := Or.inl rfl
  have htemp : DeployWrites req.appName req.remotePath (tempPath req.remotePath) :=
    Or.inr (Or.inl rfl)
  have hsidecar : ∀ p, sessionStateSvuPath req.appName = some p →
      DeployWrites req.appName req.remotePath p := fun _ hp => Or.inr (Or.inr (Or.inl hp))
  have hbackup : ∀ p, IsBackupPath req.appName p → DeployWrites req.appName req.remotePath p :=
    fun _ hp => Or.inr (Or.inr (Or.inr hp))
  have hcleanup : ∀ resp : DeployResponse, Steady K (DeployWrites req.appName req.remotePath) (do
      let _ ← unlink env (tempPath req.remotePath)
      return resp) := fun _ => .bind (unlink_steady htemp) fun _ => .pure _
  unfold handleDeploy handleDeployWith
  refine .ite (.pure _) (.ite (.pure _) (.ite (.pure _) (.ite (.pure _) ?_)))
  refine .bind ((backupBefore_steady _ _).mono hbackup) fun backup => ?_
  cases backup with
  | none => exact .pure _
  | some backup =>
      refine .bind (.of_files (svuDownloadFile_spares htemp hsidecar _ _ _ _)
        (svuDownloadFile_memory _ _ _ _ _ _) (svuDownloadFile_total _ _ _ _ _)) fun _ =>
        .ite ?_ (.pure _)
      unfold verifyAndInstall
      refine .after (computeFileChecksum_observes _) fun _ digest _ => ?_
      cases digest with
      | none => exact hcleanup _
      | some actual =>
          have hrename : Steady K (DeployWrites req.appName req.remotePath)
              (rename env (tempPath req.remotePath) req.remotePath) :=
            .of_files (rename_spares htemp hremote) (rename_memory _ _) (.call _)
          refine .ite (hcleanup _) (.bind hrename fun _ => .ite ?_ (hcleanup _))
          unfold finishDeploy
          refine .bind (chmod_steady hremote _) fun _ => ?_
          refine .bind ((backupCreate_steady _ _).mono hbackup) fun _ => ?_
          exact .bind (appMetadataSave_steady _ _ hremote) fun _ => .pure _

end Deploy

section Rollback

variable {K : Prop} {env : Env} {req : DeployRequest} {n : Nat} {s : Target}

/-- The files of a rollback over the file at `remote`. -/
def RestoreWrites (app : Bytes) (remote p : Path) : Prop := p = remote ∨ IsBackupPath app p

theorem restoreSelected_steady (app : Bytes) (remote : Path) (current : Bytes)
    (entries : List BackupEntry) (selected : BackupEntry) :
    Steady K (RestoreWrites app remote)
      (restoreSelected env app remote current entries selected) := by
  have hremote : RestoreWrites app remote remote := Or.inl rfl
  unfold restoreSelected
  refine .ite (.bind ((backupCreate_steady _ _).mono fun _ => Or.inr) fun _ => ?_) ?_
  all_goals
    refine .bind (backupRestore_steady _ hremote) fun _ => .ite ?_ (.pure _)
    exact .bind (appMetadataSave_steady _ _ hremote) fun _ => .pure _

/-- Finding the path of a rollback changes no file, and what is found is its target. -/
theorem rollbackPath_at {W : Path → Prop} {f : Option Path → Prog Target DeployResponse}
    (hnone : Steady K W (f none))
    (hsome : ∀ remote, rollbackTarget req s = some remote → Steady K W (f (some remote))) :
    SteadyAt K W (rollbackPath env req >>= f) n s := by
  have hf : ∀ r : Option Path, (∀ remote, r = some remote → rollbackTarget req s = some remote) →
      Steady K W (f r) := by
    intro r hr
    cases r with
    | none => exact hnone
    | some remote => exact hsome remote (hr remote rfl)
  have hfound : Prog.wp (rollbackPath env req) (fun t => t.fs = s.fs) (fun r _ t => t.fs = s.fs ∧
      ∀ remote, r = some remote → rollbackTarget req s = some remote) n s := by
    refine rollbackPath_wp (fun _ ht => ht) (fun _ _ ht => ⟨ht, fun _ h => by cases h⟩) ?_
    intro _ _ remote ht htarget
    refine ⟨ht, fun remote' h => ?_⟩
    rw [← Option.some.inj h]
    exact htarget
  refine ⟨?_, fun hK => ?_, fun hW hs => ?_⟩
  · rw [Prog.wp_bind]
    refine Prog.wp_mono hfound (fun t ht p _ => by rw [ht]) ?_
    rintro r m t ⟨ht, hr⟩
    exact Prog.wp_mono ((hf r hr).files.frame m t) (fun u hu p hp => by rw [hu p hp, ht])
      fun _ _ u hu p hp => by rw [hu p hp, ht]
  · have hkept : Prog.wp (rollbackPath env req) (fun _ => True)
        (fun _ _ t => t.session = s.session) n s := by
      unfold rollbackPath
      refine Prog.wp_ite ((Prog.wp_pure _).mpr rfl) ?_
      rw [Prog.wp_bind, appMetadataGet, Prog.wp_bind]
      refine Prog.wp_imp loadMetadata_caches fun entries m t ht => ?_
      rw [Prog.wp_pure]
      cases findApp entries req.appName with
      | none => exact (Prog.wp_pure _).mpr ht.2.1
      | some e => exact (Prog.wp_pure _).mpr ht.2.1
    rw [Prog.wp_bind]
    refine Prog.wp_mono (Prog.wp_and hfound hkept) (fun _ _ => trivial) ?_
    rintro r m t ⟨⟨-, hr⟩, ht⟩
    exact Prog.wp_mono ((hf r hr).session hK s.session m t ht) (fun _ _ => trivial)
      fun _ _ _ hu => hu
  · have hlives : Prog.Ends (rollbackPath env req) (fun _ _ t => t.Sane) n s := by
      unfold rollbackPath
      split
      · exact (Prog.ends_pure _).mpr hs
      · obtain ⟨entries, hpaths, hload⟩ := @loadMetadata_lives env n s hs
        rw [Prog.ends_bind, appMetadataGet, Prog.ends_bind]
        refine hload.imp ?_
        rintro _ m t ⟨rfl, hcache⟩
        rw [Prog.ends_pure]
        have hsane := Target.sane_of_cache hcache hpaths
        cases findApp _ req.appName with
        | none => exact (Prog.ends_pure _).mpr hsane
        | some e => exact (Prog.ends_pure _).mpr hsane
    rw [Prog.ends_bind]
    refine (hlives.and_wp hfound).imp ?_
    rintro r m t ⟨ht, -, hr⟩
    exact (hf r hr).lives hW m t ht

theorem handleRollback_at : SteadyAt K
    (fun p => ∃ remote, rollbackTarget req s = some remote ∧ RestoreWrites req.appName remote p)
    (handleRollback env req) n s := by
  unfold handleRollback
  split
  · exact (Steady.pure _).at
  · refine rollbackPath_at (.pure _) fun remote htarget => ?_
    refine .after (computeFileChecksum_observes remote) fun _ digest _ => ?_
    have hlisted : Prog.Observes (backupList env req.appName) fun _ _ => True := by
      unfold backupList
      refine .bind (opendir_observes _) fun names => ?_
      cases names with
      | none => exact .pure fun _ _ => trivial
      | some names => exact .pure fun _ _ => trivial
    refine .after hlisted fun _ listed _ => ?_
    refine .after (collectBackups_observes listed []) fun _ entries _ => .ite (.pure _) ?_
    cases selectBackup req.rollbackHash (digest.getD []) entries with
    | none => exact .pure _
    | some selected =>
        exact (restoreSelected_steady _ remote _ entries selected).mono fun p hp =>
          ⟨remote, htarget, hp⟩

end Rollback

section Upload

variable {W : Path → Prop} {env : Env} {req : DeployRequest} {ss : UploadSession} {n : Nat}
  {s : Target}

/-- The files of an upload. -/
def UploadSession.Writes (ss : UploadSession) (p : Path) : Prop :=
  p = ss.tempPath ∨ p = ss.remotePath ∨ IsBackupPath ss.appName p

theorem fcloseBuffered_steady {K : Prop} {p : Path} (hp : W p) (pending : Bytes) :
    Steady K W (fcloseBuffered env p pending) :=
  .of_files (fcloseBuffered_spares hp pending) (fcloseBuffered_memory p pending)
    (fcloseBuffered_total p pending)

theorem uploadSessionReset_steady (hp : W ss.tempPath) :
    Steady False W (uploadSessionReset env ss) := by
  unfold uploadSessionReset
  refine .ite (.bind (fcloseBuffered_steady hp _) fun _ => ?_) ?_
  all_goals exact .ite (.bind (unlink_steady hp) fun _ => .setSession _) (.setSession _)

theorem openSession_steady :
    Steady False (· = uploadTempPath req.appName) (openSession env req) := by
  have hopen : Steady False (· = uploadTempPath req.appName)
      (fopenWrite env (uploadTempPath req.appName)) :=
    .of_files (fopenWrite_spares rfl) (fopenWrite_memory _) (.call _)
  unfold openSession
  refine .ite (.pure _) (.ite (.pure _) (.ite (.pure _) (.bind hopen fun _ => .ite ?_ ?_)))
  · exact .bind (.setSession _) fun _ => .pure _
  · exact .bind (uploadSessionReset_steady rfl) fun _ => .pure _

theorem handleUploadStart_at : SteadyAt False
    (fun p => s.session.active = true ∧ p = s.session.tempPath ∨ p = uploadTempPath req.appName)
    (handleUploadStart env req) n s := by
  unfold handleUploadStart
  refine .read ?_
  split
  next hactive =>
    refine (Steady.bind (uploadSessionReset_steady (Or.inl ⟨hactive, rfl⟩)) fun _ => ?_).at
    exact openSession_steady.mono fun _ => Or.inr
  next => exact (openSession_steady.mono fun _ => Or.inr).at

theorem handleUploadChunk_at : SteadyAt False
    (fun p => s.session.active = true ∧ s.session.Writes p) (handleUploadChunk env req) n s := by
  unfold handleUploadChunk
  refine .read ?_
  split
  · exact (Steady.pure _).at
  next hactive =>
    have htemp : s.session.active = true ∧ s.session.Writes s.session.tempPath :=
      ⟨by simpa using hactive, Or.inl rfl⟩
    have hwrite : Steady False (fun p => s.session.active = true ∧ s.session.Writes p)
        (fwriteBuffered env s.session.tempPath s.session.pending req.chunkData) :=
      .of_files (fwriteBuffered_spares htemp _ _) (fwriteBuffered_memory _ _ _) (.call _)
    refine (Steady.ite (.pure _) (.ite (.pure _) (.bind hwrite fun _ => .ite ?_ ?_))).at
    · exact .bind (.setSession _) fun _ => .pure _
    · exact .bind (uploadSessionReset_steady htemp) fun _ => .pure _

theorem verifyUpload_steady : Steady False W (verifyUpload env ss) := by
  unfold verifyUpload
  refine .ite (.pure _) (.ite (.pure _) (.after (computeFileChecksum_observes _) ?_))
  intro _ digest _
  cases digest with
  | none => exact .pure _
  | some actual => exact .pure _

theorem verifyAndInstallUpload_steady :
    Steady False ss.Writes (verifyAndInstallUpload env ss) := by
  have htemp : ss.Writes ss.tempPath := Or.inl rfl
  have hremote : ss.Writes ss.remotePath := Or.inr (Or.inl rfl)
  have hbackup : ∀ p, IsBackupPath ss.appName p → ss.Writes p := fun _ hp => Or.inr (Or.inr hp)
  have hreset : ∀ resp : DeployResponse, Steady False ss.Writes (do
      uploadSessionReset env ss
      return resp) := fun _ => .bind (uploadSessionReset_steady htemp) fun _ => .pure _
  unfold verifyAndInstallUpload
  refine .bind (.setSession _) fun _ => .bind verifyUpload_steady fun wrong => ?_
  cases wrong with
  | some wrong => exact hreset _
  | none =>
      unfold installUpload
      refine .bind ((backupBefore_steady _ _).mono hbackup) fun backup => ?_
      cases backup with
      | none => exact hreset _
      | some backup =>
          refine .bind (mkdirP_steady _) fun _ => .ite ?_ (hreset _)
          refine .bind (copyFile_steady _ hremote) fun _ => .ite ?_ (hreset _)
          unfold finishUpload
          refine .bind (unlink_steady htemp) fun _ => .bind (chmod_steady hremote _) fun _ => ?_
          refine .bind ((backupCreate_steady _ _).mono hbackup) fun _ => ?_
          refine .bind (appMetadataSave_steady _ _ hremote) fun _ => ?_
          exact .bind (.setSession _) fun _ => .pure _

/-- The stream of a session that is active is open. -/
theorem handleUploadEnd_at (hopen : s.session.active = true → s.session.tempOpen = true) :
    SteadyAt False (fun p => s.session.active = true ∧ s.session.Writes p)
      (handleUploadEnd env) n s := by
  unfold handleUploadEnd
  refine .read ?_
  split
  · exact (Steady.pure _).at
  next hactive =>
    have hactive : s.session.active = true := by simpa using hactive
    rw [if_neg (by simp [hopen hactive])]
    refine (Steady.bind (fcloseBuffered_steady ⟨hactive, Or.inl rfl⟩ _) fun _ => ?_).at
    exact verifyAndInstallUpload_steady.mono fun p hp => ⟨hactive, hp⟩

end Upload

section Connection

variable {K : Prop} {W : Path → Prop} {env : Env}

theorem handleStatus_steady : Steady K W (handleStatus env) := by
  unfold handleStatus
  refine .bind loadMetadata_steady fun entries => ?_
  exact .after (statusEntries_shows entries maxStatusEntries) fun _ _ _ => .pure _

theorem handleListVersions_steady (req : DeployRequest) :
    Steady K W (handleListVersions env req) := by
  unfold handleListVersions versionsWithCurrent
  refine .ite (.pure _) (.bind ?_ fun entries => ?_)
  · refine .after (listVersions_lists req.appName) fun _ listed _ => ?_
    refine .bind (.bind loadMetadata_steady fun _ => .pure _) fun e => ?_
    cases e with
    | none => exact .pure _
    | some e =>
        refine .after (computeFileChecksum_observes e.remotePath) fun _ digest _ => ?_
        cases digest with
        | none => exact .pure _
        | some actual => exact .observes (markCurrent_observes e actual listed)
  · exact .after (sortVersions_observes _ entries) fun _ _ _ => .pure _

/-- The files that a request may write, besides the metadata, in the state in which it
comes in. -/
def Request.Writes (req : Request) (s : Target) (p : Path) : Prop :=
  match req.command with
  | .cmdDeploy => DeployWrites req.appName req.remotePath p
  | .cmdRollback => ∃ remote, rollbackTarget req.toDeployRequest s = some remote ∧
      RestoreWrites req.appName remote p
  | .cmdUploadStart =>
      s.session.active = true ∧ p = s.session.tempPath ∨ p = uploadTempPath req.appName
  | .cmdUploadChunk => s.session.active = true ∧ s.session.Writes p
  | .cmdUploadEnd => s.session.active = true ∧ s.session.Writes p
  | _ => False

/-- A request changes only its own files and the metadata, and the agent survives it. -/
theorem handleConnection_at (link : Link) (shell : Shell) (req : Request) {n : Nat} {s : Target}
    (hopen : s.session.active = true → s.session.tempOpen = true) :
    SteadyAt False (req.Writes s) (handleConnection env link shell req) n s := by
  unfold handleConnection
  unfold Request.Writes
  cases hcommand : req.command with
  | cmdStatus => exact handleStatus_steady.at.packed _
  | cmdLogs => exact (Steady.pure _).at
  | cmdListVersions => exact (handleListVersions_steady _).at
  | cmdRollback => exact handleRollback_at.packed _
  | cmdDeploy => exact (handleDeploy_steady link).at.packed _
  | cmdUploadStart => exact handleUploadStart_at.packed _
  | cmdUploadChunk => exact handleUploadChunk_at.packed _
  | cmdUploadEnd => exact (handleUploadEnd_at hopen).packed _
  | cmdUnknown => exact (Steady.pure _).at

end Connection

/-! ### The session -/

section Session

variable {env : Env} {n : Nat} {s : Target}

/-- An upload session goes on with the same files. -/
structure UploadSession.Continues (before after : UploadSession) : Prop where
  active : before.active = true
  app : after.appName = before.appName
  remote : after.remotePath = before.remotePath
  temp : after.tempPath = before.tempPath
  opened : after.tempOpen = before.tempOpen

/-- An active session is that of the request, or the one that was active before. -/
def SessionStep (req : Request) (before after : UploadSession) : Prop :=
  after.active = true →
    req.command = .cmdUploadStart ∧ after = req.toDeployRequest.session ∨ before.Continues after

theorem SessionStep.idle {req : Request} {before after : UploadSession}
    (h : after.active = false) : SessionStep req before after := by
  intro hactive
  rw [h] at hactive
  cases hactive

theorem SessionStep.same {req : Request} {before after : UploadSession} (h : after = before) :
    SessionStep req before after := by
  rintro hactive
  subst h
  exact Or.inr ⟨hactive, rfl, rfl, rfl, rfl⟩

theorem openSession_starts (req : DeployRequest) (hs : s.session.active = false) :
    Prog.wp (openSession env req) (fun _ => True)
      (fun _ _ t => t.session.active = true → t.session = req.session) n s := by
  have hidle : ∀ {ss : UploadSession}, ss.active = false → ss.active = true → ss = req.session :=
    fun h h' => absurd (h.symm.trans h') (by decide)
  unfold openSession
  refine Prog.wp_ite ((Prog.wp_pure _).mpr (hidle hs)) (Prog.wp_ite
    ((Prog.wp_pure _).mpr (hidle hs)) (Prog.wp_ite ((Prog.wp_pure _).mpr (hidle hs)) ?_))
  rw [Prog.wp_bind]
  refine Prog.wp_any _ fun opened m t => ?_
  split
  · rw [Prog.wp_bind, setSession, Prog.wp_update]
    exact ⟨trivial, (Prog.wp_pure _).mpr fun _ => rfl⟩
  · exact Prog.wp_imp (reset_refuse_idle _ _ _) fun _ _ _ ht => hidle ht

theorem handleUploadStart_starts (req : DeployRequest) :
    Prog.wp (handleUploadStart env req) (fun _ => True)
      (fun _ _ t => t.session.active = true → t.session = req.session) n s := by
  unfold handleUploadStart
  rw [Prog.wp_bind, Prog.wp_read]
  split
  · rw [Prog.wp_bind]
    exact Prog.wp_imp (uploadSessionReset_idle _) fun _ m t ht => openSession_starts req ht
  next hidle => exact openSession_starts req (by simpa using hidle)

theorem handleUploadChunk_continues (req : Request) :
    Prog.wp (handleUploadChunk env req.toDeployRequest) (fun _ => True)
      (fun _ _ t => SessionStep req s.session t.session) n s := by
  have hsame : ∀ {resp : DeployResponse} {m : Nat}, Prog.wp (pure resp) (fun _ => True)
      (fun _ _ t => SessionStep req s.session t.session) m s :=
    (Prog.wp_pure _).mpr (.same rfl)
  unfold handleUploadChunk
  rw [Prog.wp_bind, Prog.wp_read]
  split
  · exact hsame
  next hactive =>
    refine Prog.wp_ite hsame (Prog.wp_ite hsame ?_)
    rw [Prog.wp_bind]
    refine Prog.wp_any _ fun written m t => ?_
    split
    · rw [Prog.wp_bind, setSession, Prog.wp_update]
      refine ⟨trivial, (Prog.wp_pure _).mpr fun _ => Or.inr ?_⟩
      exact ⟨by simpa using hactive, rfl, rfl, rfl, rfl⟩
    · exact Prog.wp_imp (reset_refuse_idle _ _ _) fun _ _ _ ht => .idle ht

/-- What a request does to the session. -/
theorem handleConnection_session (link : Link) (shell : Shell) (req : Request) :
    Prog.wp (handleConnection env link shell req) (fun _ => True)
      (fun _ _ t => SessionStep req s.session t.session) n s := by
  have hsame : ∀ {c : Prog Target Response} {W : Path → Prop}, SteadyAt True W c n s →
      Prog.wp c (fun _ => True) (fun _ _ t => SessionStep req s.session t.session) n s :=
    fun h => Prog.wp_imp (h.session trivial) fun _ _ _ ht => .same ht
  have hpacked : ∀ {c : Prog Target DeployResponse}, Prog.wp c (fun _ => True)
      (fun _ _ t => SessionStep req s.session t.session) n s →
      Prog.wp (do return (← c).full) (fun _ => True)
        (fun _ _ t => SessionStep req s.session t.session) n s := by
    intro c h
    rw [Prog.wp_bind]
    exact Prog.wp_imp h fun _ _ _ ht => (Prog.wp_pure _).mpr ht
  unfold handleConnection
  cases hcommand : req.command with
  | cmdStatus => exact hsame (W := fun _ => False) (handleStatus_steady.at.packed _)
  | cmdLogs => exact hsame (W := fun _ => False) (Steady.pure _).at
  | cmdListVersions => exact hsame (W := fun _ => False) (handleListVersions_steady _).at
  | cmdRollback => exact hsame (handleRollback_at.packed _)
  | cmdDeploy => exact hsame ((handleDeploy_steady link).at.packed _)
  | cmdUploadStart =>
      exact hpacked (Prog.wp_imp (handleUploadStart_starts _) fun _ _ _ ht hactive =>
        Or.inl ⟨hcommand, ht hactive⟩)
  | cmdUploadChunk => exact hpacked (handleUploadChunk_continues req)
  | cmdUploadEnd => exact hpacked (Prog.wp_imp handleUploadEnd_idle fun _ _ _ ht => .idle ht)
  | cmdUnknown => exact hsame (W := fun _ => False) (Steady.pure _).at

end Session

end SatDeploy.Agent
