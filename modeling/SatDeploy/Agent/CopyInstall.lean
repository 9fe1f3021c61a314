import SatDeploy.Agent.InstallIntegrity
import SatDeploy.Agent.Reliable

/-!
Rollback and direct upload install by `copy_file`, which removes the
destination before it opens it. A kill after the removal, or a failing open,
leaves no file at all, so these handlers keep the installed file intact only
on requests that never get to the copy.
-/

namespace SatDeploy.Agent

open Lib

/-- A backup a rollback request may select, by hash and path. -/
def Offers (s : Target) (req : DeployRequest) (hash : Bytes) (path : Path) : Prop :=
  s.Lists req.appName hash path ∧ (req.rollbackHash = [] ∨ hash = req.rollbackHash)

/-- Each backup of the app has the content its name promises. -/
def BackupsCarryTheirHash (s : Target) (app : Bytes) : Prop :=
  ∀ hash path, s.Lists app hash path → s.Carries path hash

/-- A rollback that answers success has installed the selected backup, one that
answers failure has changed nothing, and a kill leaves the old file or a
complete backup. -/
def RollbackAtomicity (req : DeployRequest) (s : Target) : Prop :=
  ∀ remote, rollbackTarget req s = some remote → ∀ (env : Env) (n : Nat),
    (∀ t ∈ (handleRollback env req n s).passed, t.content remote = s.content remote ∨
      ∃ hash path, Offers s req hash path ∧ t.content remote = s.content path) ∧
    ∀ resp, (handleRollback env req n s).result = some resp →
      (resp.success = true → ∃ data, s.content resp.backupPath = some data ∧
        (handleRollback env req n s).state.Carries remote (hexDigest data)) ∧
      (resp.success = false →
        (handleRollback env req n s).state.content remote = s.content remote)

/-- The request gets as far as the copy unless something fails before it. -/
def RollbackReaches (req : DeployRequest) (s : Target) : Prop :=
  req.appName ≠ [] ∧ (rollbackTarget req s).isSome = true ∧
    s.fs.lookup (backupDir req.appName) = none ∧ ∃ hash path, Offers s req hash path

/-- The same for the direct upload, with the file of the session. -/
def UploadEndAtomicity (s : Target) : Prop :=
  ∀ (env : Env) (n : Nat),
    (∀ t ∈ (handleUploadEnd env n s).passed,
      t.content s.session.remotePath = s.content s.session.remotePath ∨
        t.Carries s.session.remotePath s.session.expectedChecksum) ∧
    ∀ resp, (handleUploadEnd env n s).result = some resp →
      (resp.success = true → (handleUploadEnd env n s).state.Carries s.session.remotePath
        s.session.expectedChecksum) ∧
      (resp.success = false → (handleUploadEnd env n s).state.content s.session.remotePath =
        s.content s.session.remotePath)

/-- The session is idle or one that `handle_upload_start` opened. -/
def Target.SessionOk (s : Target) : Prop :=
  s.session.active = true → s.session.tempOpen = true ∧ s.session.tempPath ≠ [] ∧
    s.session.expectedChecksum ≠ []

/-- The upload gets as far as the copy, or is received into its own target. A
failing close may leave only a part of the received bytes, those that the stream
still holds back included. -/
def UploadReaches (s : Target) : Prop :=
  s.session.active = true ∧ ∃ data, s.content s.session.tempPath = some data ∧
    (s.session.tempPath = s.session.remotePath ∨
      (s.session.expectedSize = 0 ∨ s.session.receivedSize = s.session.expectedSize) ∧
        ∃ k, hexDigest ((data ++ s.session.pending).take k) = s.session.expectedChecksum)

section Copy

/-- What the copy does to its destination on the way: an existing file is gone,
and a new one starts empty. -/
def Disturbs (old : Option Bytes) (dst : Path) (t : Target) : Prop :=
  old ≠ none ∧ t.content dst = none ∨ old = none ∧ t.content dst = some []

theorem Disturbs.of_present {old old' : Option Bytes} {dst : Path} {t : Target}
    (h : Disturbs old dst t) (hold : old ≠ none) (hold' : old' ≠ none) : Disturbs old' dst t := by
  rcases h with ⟨-, hgone⟩ | ⟨hnone, -⟩
  · exact Or.inl ⟨hold', hgone⟩
  · exact absurd hnone hold

theorem copyFile_disturbs {env : Env} {src dst : Path} {data : Bytes} {n : Nat} {s : Target}
    (hopen : env.fault n (.openRead src) = none)
    (hunlink : ∀ n, env.fault n (.unlink dst) = none)
    (hwrite : ∀ n, env.fault n (.openWrite dst) = none) (hdata : s.content src = some data) :
    Prog.Passes (copyFile env src dst) (Disturbs (s.content dst) dst) n s := by
  unfold copyFile
  refine .bind_right ?_
  rw [fopenRead_ends hopen, hdata]
  dsimp only
  cases hlookup : s.fs.lookup dst with
  | some f =>
      refine .bind_left ⟨s.remove dst, ?_, Or.inl ⟨?_, Target.content_remove⟩⟩
      · simp [unlink, Prog.call, Env.ok, hunlink, hlookup]
      · rw [Target.content_of_lookup hlookup]
        simp
  | none =>
      have hgone : s.content dst = none := by simp [Target.content, hlookup]
      refine .bind_right ?_
      have hmissed : Prog.Ends (unlink env dst) (fun _ _ t => t = s) (n + 1) s := by
        simp [unlink, hlookup]
      refine hmissed.imp ?_
      intro unlinked m t ht
      rw [ht]
      refine .bind_left ⟨s.put dst ⟨[], s.modeOf dst, env.clock m⟩, ?_,
        Or.inr ⟨hgone, Target.content_put⟩⟩
      simp [fopenWrite, Prog.call, Env.ok, hwrite]

end Copy

section Rollback

variable {req : DeployRequest} {s : Target}

theorem rollback_atomic_of_unreached (h : ¬ RollbackReaches req s) :
    RollbackAtomicity req s := by
  intro remote htarget env n
  have hsame : ∀ t : Target, t.fs = s.fs → t.content remote = s.content remote := by
    intro t ht
    unfold Target.content
    rw [ht]
  have hwp : Prog.wp (handleRollback env req) (fun t => t.content remote = s.content remote)
      (fun resp _ t => resp.success = false ∧ t.content remote = s.content remote) n s := by
    apply handleRollback_wp hsame
    · intro m t code message ht
      exact ⟨rfl, hsame t ht⟩
    · intro m t remote' current entries selected ht happ _ _ hdir hlisted hhash
      refine absurd ⟨happ, ?_, hdir, selected.hash, selected.path, hlisted, hhash⟩ h
      rw [htarget]
      rfl
  refine ⟨fun t ht => Or.inl (hwp.1 t ht), ?_⟩
  intro resp hresult
  have hend := hwp.2
  rw [hresult] at hend
  refine ⟨?_, fun _ => hend.2⟩
  intro hsuccess
  rw [hend.1] at hsuccess
  cases hsuccess

/-- An operating system that lists `name` first and, once two calls are made,
cannot read from `remote`. -/
def listFirstEnv (name : Bytes) (remote : Path) : Env where
  fault := fun n op =>
    match op with
    | .read p => if p = remote ∧ 2 ≤ n then some 0 else none
    | _ => none
  clock := fun _ => 0
  localtime := fun _ => demoTime
  order := fun names => if name ∈ names then name :: names.erase name else names
  order_perm := by
    intro names
    split
    next hname => exact (List.perm_cons_erase hname).symm
    · exact .refl _

theorem rollbackPath_reads (name : Bytes) {remote : Path} (remote' : Path)
    (htarget : rollbackTarget req s = some remote) :
    ∃ n, Prog.Ends (rollbackPath (listFirstEnv name remote') req)
      (fun r m t => r = some remote ∧ t.fs = s.fs ∧ 2 ≤ m) n s := by
  unfold rollbackTarget at htarget
  unfold rollbackPath
  split at htarget
  next hremote =>
    refine ⟨2, ?_⟩
    rw [if_pos hremote, Prog.ends_pure]
    exact ⟨htarget, rfl, le_refl _⟩
  next hremote =>
    rw [if_neg hremote]
    cases hfound : s.metadata.bind (findApp · req.appName) with
    | none =>
        rw [hfound] at htarget
        cases htarget
    | some e =>
        rw [hfound] at htarget
        obtain ⟨entries, hmeta, hentry⟩ := Option.bind_eq_some_iff.mp hfound
        have hne : entries ≠ [] := by
          rintro rfl
          cases hentry
        obtain ⟨n, hends⟩ := loadMetadata_reads (listFirstEnv name remote')
          (fun _ _ => rfl) (fun m hm => if_neg (by omega)) hmeta hne
        refine ⟨n, ?_⟩
        rw [Prog.ends_bind, appMetadataGet, Prog.ends_bind]
        refine hends.imp ?_
        rintro _ m t ⟨rfl, ht, hm⟩
        rw [Prog.ends_pure, hentry, Prog.ends_pure]
        exact ⟨htarget, ht, hm.ge⟩

/-- A rollback that reaches the copy disturbs its target. -/
theorem rollback_disturbs (hreaches : RollbackReaches req s)
    (hsound : BackupsCarryTheirHash s req.appName) {remote : Path}
    (htarget : rollbackTarget req s = some remote) :
    ∃ (env : Env) (n : Nat), Prog.Passes (handleRollback env req)
      (Disturbs (s.content remote) remote) n s := by
  obtain ⟨happ, -, hdir, hash, path, ⟨name, hname, hparse, hpath⟩, hhash⟩ := hreaches
  obtain ⟨n, hremote⟩ := rollbackPath_reads name remote htarget
  refine ⟨listFirstEnv name remote, n, ?_⟩
  unfold handleRollback
  rw [if_neg happ]
  refine .bind_right (hremote.imp ?_)
  rintro _ m t ⟨rfl, ht, hm⟩
  have hcontent : ∀ p, t.content p = s.content p := by
    intro p
    unfold Target.content
    rw [ht]
  dsimp only
  -- the installed file cannot be read, so nothing is backed up first
  have hcurrent : Prog.Ends (computeFileChecksum (listFirstEnv name remote) remote)
      (fun r _ u => r = none ∧ u = t) m t := by
    rw [computeFileChecksum, Prog.ends_bind, fopenRead_ends rfl]
    split
    · rw [Prog.ends_pure]
      exact ⟨rfl, rfl⟩
    next data =>
      rw [Prog.ends_bind]
      have hfault : (listFirstEnv name remote).fault (m + 1) (.read remote) = some 0 :=
        if_pos ⟨rfl, by omega⟩
      simp [freadAll, hfault]
  refine .bind_right (hcurrent.imp ?_)
  rintro _ m₁ t ⟨rfl, rfl⟩
  have hlist : Prog.Ends (backupList (listFirstEnv name remote) req.appName)
      (fun r _ u => u = t ∧ ∃ rest, r = (hash, path) :: rest) m₁ t := by
    have hopen : opendir (listFirstEnv name remote) (backupDir req.appName) m₁ t =
        ⟨some (some (name :: (t.namesIn (backupDir req.appName)).erase name)), t,
          m₁ + 1, []⟩ := by
      have hmem : name ∈ t.namesIn (backupDir req.appName) := by
        simpa only [Target.namesIn, ht] using hname
      simp [opendir, Prog.call, Env.ok, listFirstEnv, ht, hdir, hmem]
    rw [backupList, Prog.ends_bind]
    refine ⟨_, by rw [hopen], ?_⟩
    rw [hopen]
    dsimp only
    rw [Prog.ends_pure]
    refine ⟨rfl, ?_⟩
    rw [List.filterMap_cons, hparse, hpath]
    exact ⟨_, rfl⟩
  have hlisted : Prog.wp (backupList (listFirstEnv name remote) req.appName) (fun _ => True)
      (fun r _ _ => ∀ b ∈ r, t.Lists req.appName b.1 b.2) m₁ t :=
    backupList_wp fun _ listed h b hb => (h b hb).2
  refine .bind_right ((hlist.and_wp hlisted).imp ?_)
  rintro _ m₂ t ⟨⟨rfl, rest, rfl⟩, hall⟩
  refine .bind_right ((collectBackups_head hash path rest m₂).imp ?_)
  rintro entries m₃ t ⟨rfl, ⟨e, he, hfirst⟩, hentries⟩
  rw [if_neg (List.ne_nil_of_mem he)]
  obtain ⟨selected, hselected⟩ := selectBackup_exists ((none : Option Bytes).getD [])
    ⟨e, he, hfirst ▸ hhash⟩
  rw [hselected]
  dsimp only
  -- whatever is selected, its file is there to be copied
  obtain ⟨name', hname', hselected'⟩ := hall _ (hentries selected (selectBackup_mem hselected))
  obtain ⟨data, hdata, -⟩ := hsound selected.hash selected.path
    ⟨name', by simpa only [Target.namesIn, ht] using hname', hselected'⟩
  rw [← hcontent] at hdata
  obtain ⟨f, hlookup, -⟩ := exists_lookup hdata
  have hrestore : Prog.Passes (backupRestore (listFirstEnv name remote) selected.path remote)
      (Disturbs (s.content remote) remote) m₃ t := by
    unfold backupRestore
    refine .bind_right ?_
    rw [statFile_ends rfl, hlookup]
    rw [← hcontent]
    exact .bind_left (copyFile_disturbs rfl (fun _ => rfl) (fun _ => rfl) hdata)
  unfold restoreSelected
  rw [if_neg (by simp)]
  exact .bind_left hrestore

/-- What the copy leaves on its way is neither the old file nor a complete
backup, unless it installs an empty file where there was none. -/
theorem rollback_torn (hreaches : RollbackReaches req s)
    (hsound : BackupsCarryTheirHash s req.appName) {remote : Path}
    (htarget : rollbackTarget req s = some remote)
    (hnew : s.content remote ≠ none ∨ ∀ hash path, Offers s req hash path →
      s.content path ≠ some []) : ¬ RollbackAtomicity req s := by
  intro hatomic
  obtain ⟨env, n, t, ht, hdisturbs⟩ := rollback_disturbs hreaches hsound htarget
  rcases (hatomic remote htarget env n).1 t ht with hold | ⟨hash, path, hoffers, hcopy⟩
  · rcases hdisturbs with ⟨hne, hgone⟩ | ⟨hnone, hempty⟩
    · exact hne (hold.symm.trans hgone)
    · rw [hempty, hnone] at hold
      cases hold
  · obtain ⟨data, hdata, -⟩ := hsound hash path hoffers.1
    rcases hdisturbs with ⟨-, hgone⟩ | ⟨hnone, hempty⟩
    · rw [hgone, hdata] at hcopy
      cases hcopy
    · rcases hnew with hnew | hnew
      · exact hnew hnone
      · exact hnew hash path hoffers (hcopy.symm.trans hempty)

end Rollback

section Session

variable {env : Env} {n : Nat} {s : Target}

theorem sessionOk_of_idle (h : s.session.active = false) : s.SessionOk := by
  intro hactive
  rw [h] at hactive
  cases hactive

theorem uploadSessionReset_idle (ss : UploadSession) :
    Prog.wp (uploadSessionReset env ss) (fun _ => True)
      (fun _ _ t => t.session.active = false) n s := by
  have hset : ∀ m t, Prog.wp (setSession .zero) (fun _ => True)
      (fun _ _ t => t.session.active = false) m t := by
    intro m t
    rw [setSession, Prog.wp_update]
    exact ⟨trivial, rfl⟩
  unfold uploadSessionReset
  dsimp only
  split
  · rw [Prog.wp_bind]
    refine Prog.wp_any _ fun _ m t => ?_
    split
    · rw [Prog.wp_bind]
      exact Prog.wp_any _ fun _ m' t' => hset m' t'
    · exact hset m t
  · split
    · rw [Prog.wp_bind]
      exact Prog.wp_any _ fun _ m' t' => hset m' t'
    · exact hset _ _

theorem reset_refuse_idle (ss : UploadSession) (code : DeployError) (message : String) :
    Prog.wp (do
      uploadSessionReset env ss
      return refuse code message : Prog Target DeployResponse) (fun _ => True)
      (fun _ _ t => t.session.active = false) n s := by
  rw [Prog.wp_bind]
  refine Prog.wp_imp (uploadSessionReset_idle ss) fun _ m t ht => ?_
  rw [Prog.wp_pure]
  exact ht

theorem openSession_session (req : DeployRequest) (hs : s.SessionOk) :
    Prog.wp (openSession env req) (fun _ => True) (fun _ _ t => t.SessionOk) n s := by
  unfold openSession
  split
  · exact (Prog.wp_pure _).mpr hs
  · split
    · exact (Prog.wp_pure _).mpr hs
    · split
      · exact (Prog.wp_pure _).mpr hs
      next hlength =>
        rw [Prog.wp_bind]
        refine Prog.wp_any _ fun opened m t => ?_
        split
        · rw [Prog.wp_bind, setSession, Prog.wp_update]
          refine ⟨trivial, (Prog.wp_pure _).mpr fun _ => ⟨rfl, ?_, ?_⟩⟩
          · simp [DeployRequest.session, uploadTempPath, clip, maxPathLen, ascii]
          · intro hnil
            have hnil : req.expectedChecksum.take 64 = [] := hnil
            have hlen := congrArg List.length hnil
            rw [List.length_take, not_not.mp hlength] at hlen
            cases hlen
        · exact Prog.wp_imp (reset_refuse_idle _ _ _) fun _ _ _ ht => sessionOk_of_idle ht

theorem handleUploadStart_session (req : DeployRequest) :
    Prog.wp (handleUploadStart env req) (fun _ => True) (fun _ _ t => t.SessionOk) n s := by
  unfold handleUploadStart
  rw [Prog.wp_bind, Prog.wp_read]
  split
  · rw [Prog.wp_bind]
    refine Prog.wp_imp (uploadSessionReset_idle _) fun _ m t ht => ?_
    exact openSession_session req (sessionOk_of_idle ht)
  next hidle => exact openSession_session req fun hactive => absurd hactive hidle

theorem handleUploadChunk_session (req : DeployRequest) (hs : s.SessionOk) :
    Prog.wp (handleUploadChunk env req) (fun _ => True) (fun _ _ t => t.SessionOk) n s := by
  unfold handleUploadChunk
  rw [Prog.wp_bind, Prog.wp_read]
  split
  · exact (Prog.wp_pure _).mpr hs
  · split
    · exact (Prog.wp_pure _).mpr hs
    · split
      · exact (Prog.wp_pure _).mpr hs
      · rw [Prog.wp_bind]
        refine Prog.wp_any _ fun written m t => ?_
        split
        · rw [Prog.wp_bind, setSession, Prog.wp_update]
          exact ⟨trivial, (Prog.wp_pure _).mpr hs⟩
        · exact Prog.wp_imp (reset_refuse_idle _ _ _) fun _ _ _ ht => sessionOk_of_idle ht

/-- Whatever becomes of an upload, its session is over. -/
theorem handleUploadEnd_idle :
    Prog.wp (handleUploadEnd env) (fun _ => True) (fun _ _ t => t.session.active = false) n s := by
  have hinstall : ∀ ss m t, Prog.wp (installUpload env ss) (fun _ => True)
      (fun _ _ t => t.session.active = false) m t := by
    intro ss m t
    unfold installUpload
    rw [Prog.wp_bind]
    refine Prog.wp_any _ fun backup m t => ?_
    cases backup with
    | none => exact reset_refuse_idle _ _ _
    | some backup =>
        dsimp only
        rw [Prog.wp_bind]
        refine Prog.wp_any _ fun made m t => ?_
        split
        · rw [Prog.wp_bind]
          refine Prog.wp_any _ fun copied m t => ?_
          split
          · unfold finishUpload
            rw [Prog.wp_bind]
            refine Prog.wp_any _ fun _ m t => ?_
            rw [Prog.wp_bind]
            refine Prog.wp_any _ fun _ m t => ?_
            rw [Prog.wp_bind]
            refine Prog.wp_any _ fun _ m t => ?_
            rw [Prog.wp_bind]
            refine Prog.wp_any _ fun _ m t => ?_
            rw [Prog.wp_bind, setSession, Prog.wp_update]
            exact ⟨trivial, (Prog.wp_pure _).mpr rfl⟩
          · exact reset_refuse_idle _ _ _
        · exact reset_refuse_idle _ _ _
  unfold handleUploadEnd
  rw [Prog.wp_bind, Prog.wp_read]
  split
  next hidle => exact (Prog.wp_pure _).mpr hidle
  · split
    · exact Prog.wp_die.mpr trivial
    · rw [Prog.wp_bind]
      refine Prog.wp_any _ fun _ m t => ?_
      unfold verifyAndInstallUpload
      rw [Prog.wp_bind]
      refine Prog.wp_any _ fun _ m t => ?_
      rw [Prog.wp_bind]
      refine Prog.wp_any _ fun wrong m t => ?_
      cases wrong with
      | some wrong => exact reset_refuse_idle _ _ _
      | none => exact hinstall _ _ _

end Session

section Upload

variable {env : Env} {C : Target → Prop} {n : Nat} {s : Target}

/-- Closing a written file keeps it or a part of it. -/
theorem fcloseWritten_wp {p : Path} {Q : Unit → Nat → Target → Prop} (hsame : Q () (n + 1) s)
    (hcut : ∀ f k, s.fs.lookup p = some f → C (s.put p { f with data := f.data.take k }) ∧
      Q () (n + 1) (s.put p { f with data := f.data.take k })) :
    Prog.wp (fcloseWritten env p) C Q n s := by
  unfold fcloseWritten
  rw [Prog.wp_call]
  split
  next k f _ hlookup =>
    obtain ⟨hC, hQ⟩ := hcut f k hlookup
    exact ⟨fun t ht => List.mem_singleton.mp ht ▸ hC, hQ⟩
  · exact ⟨by simp, hsame⟩

/-- What is written to a file is added to it, or a part of it when that fails. -/
theorem fwriteAll_part {p : Path} {bytes data : Bytes} (hdata : s.content p = some data) :
    Prog.wp (fwriteAll env p bytes) (fun _ => True)
      (fun _ _ t => ∃ k, t.content p = some (data ++ bytes.take k)) n s := by
  have hgrown : ∀ k, ∃ j, Target.content (((List.range (min k bytes.length)).map fun i =>
      s.append p (bytes.take (i + 1)) (env.clock n)).getLastD s) p =
        some (data ++ bytes.take j) := by
    intro k
    rw [grown_last (fun part => s.append p part (env.clock n))]
    exact ⟨k, content_added hdata⟩
  unfold fwriteAll
  rw [Prog.wp_call]
  refine ⟨fun _ _ => trivial, ?_⟩
  cases env.fault n (.write p) with
  | none => simpa using hgrown bytes.length
  | some k => exact hgrown k

/-- A closed file holds what it held and what its stream held back, or a part of that. -/
theorem fcloseBuffered_part {p : Path} {pending data : Bytes} (hdata : s.content p = some data) :
    Prog.wp (fcloseBuffered env p pending) (fun _ => True)
      (fun _ _ t => ∃ k, t.content p = some ((data ++ pending).take k)) n s := by
  unfold fcloseBuffered
  rw [Prog.wp_bind]
  refine Prog.wp_imp (fwriteAll_part hdata) ?_
  rintro _ m t ⟨k, hwritten⟩
  rw [← List.take_length_add_append] at hwritten
  apply fcloseWritten_wp
  · exact ⟨_, hwritten⟩
  · intro f j hlookup
    rw [Target.content_of_lookup hlookup, Option.some.injEq] at hwritten
    refine ⟨trivial, min j (data.length + k), ?_⟩
    rw [Target.content_put, hwritten, List.take_take]

/-- Nothing happens to a file that is not there. -/
theorem fcloseBuffered_absent {p : Path} (hnone : s.fs.lookup p = none) (pending : Bytes) :
    Prog.wp (fcloseBuffered env p pending) (· = s) (fun _ _ t => t = s) n s := by
  have hsame : ∀ bytes now, s.append p bytes now = s := by
    intro bytes now
    unfold Target.append
    rw [hnone]
  have hwrite : Prog.Keeps (· = s) (fwriteAll env p pending) := by
    apply Prog.Keeps.call
    intro m u hu t ht
    rw [hu] at ht
    split at ht
    · obtain ⟨i, -, rfl⟩ := List.mem_map.mp ht
      exact hsame _ _
    · obtain ⟨i, -, rfl⟩ := List.mem_map.mp ht
      exact hsame _ _
  have hclose : Prog.Keeps (· = s) (fcloseWritten env p) := by
    apply Prog.Keeps.call
    intro m u hu t ht
    rw [hu, hnone] at ht
    simp at ht
  exact Prog.Keeps.bind hwrite (fun _ => hclose) n s rfl

/-- The verification passes only a file of the right size and digest. -/
theorem verifyUpload_wp {ss : UploadSession} {Q : Option String → Nat → Target → Prop}
    (hne : ss.expectedChecksum ≠ []) (hwrong : ∀ m wrong, Q (some wrong) m s)
    (hgood : ∀ m data, s.content ss.tempPath = some data →
      (ss.expectedSize = 0 ∨ ss.receivedSize = ss.expectedSize) →
      hexDigest data = ss.expectedChecksum → Q none m s) :
    Prog.wp (verifyUpload env ss) C Q n s := by
  unfold verifyUpload
  split
  · rw [Prog.wp_pure]
    exact hwrong _ _
  next hsize =>
    rw [Prog.wp_bind]
    apply computeFileChecksum_wp
    · intro m
      dsimp only
      rw [Prog.wp_pure]
      exact hwrong _ _
    · intro m data hdata
      dsimp only
      rw [Prog.wp_pure]
      split
      · exact hwrong _ _
      next hsame => exact hgood m data hdata (by omega) (not_not.mp hsame)

/-- Dropping a session removes its temporary file only. -/
theorem uploadSessionReset_keeps {ss : UploadSession} {remote : Path} {x : Option Bytes}
    (hclosed : ss.tempOpen = false)
    (hother : ss.tempPath ≠ remote ∨ s.content ss.tempPath = none)
    (hs : s.content remote = x) :
    Prog.wp (uploadSessionReset env ss) (fun t => t.content remote = x)
      (fun _ _ t => t.content remote = x) n s := by
  have hset : ∀ m t, t.content remote = x → Prog.wp (setSession .zero)
      (fun t => t.content remote = x) (fun _ _ t => t.content remote = x) m t := by
    intro m t ht
    rw [setSession, Prog.wp_update]
    exact ⟨ht, ht⟩
  unfold uploadSessionReset
  rw [hclosed]
  simp only [Bool.false_eq_true, if_false]
  split
  · rw [Prog.wp_bind]
    rcases hother with hne | habsent
    · refine Prog.wp_imp (unlink_touches (W := (· = ss.tempPath)) rfl remote x hne.symm n s hs) ?_
      exact fun _ m t ht => hset m t ht
    · have hlookup : s.fs.lookup ss.tempPath = none := by
        simpa [Target.content] using habsent
      rw [unlink, Prog.wp_call]
      simp only [hlookup, Option.isSome_none, Bool.and_false, Bool.false_eq_true, if_false]
      exact ⟨by simp, hset _ _ hs⟩
  · exact hset _ _ hs

/-- An upload whose file cannot pass the verification is refused, and the
target stays as it was. -/
theorem verifyAndInstallUpload_refuses {ss : UploadSession} {x : Option Bytes}
    (hclosed : ss.tempOpen = false) (hne : ss.expectedChecksum ≠ [])
    (hother : ss.tempPath ≠ ss.remotePath ∨ s.content ss.tempPath = none)
    (hfails : ∀ data, s.content ss.tempPath = some data →
      (ss.expectedSize = 0 ∨ ss.receivedSize = ss.expectedSize) →
      hexDigest data ≠ ss.expectedChecksum) (hs : s.content ss.remotePath = x) :
    Prog.wp (verifyAndInstallUpload env ss) (fun t => t.content ss.remotePath = x)
      (fun resp _ t => resp.success = false ∧ t.content ss.remotePath = x) n s := by
  unfold verifyAndInstallUpload
  rw [Prog.wp_bind, setSession, Prog.wp_update]
  refine ⟨hs, ?_⟩
  rw [Prog.wp_bind]
  apply verifyUpload_wp hne
  · intro m wrong
    dsimp only
    rw [Prog.wp_bind]
    refine Prog.wp_imp (uploadSessionReset_keeps hclosed hother hs) ?_
    intro _ m' t ht
    rw [Prog.wp_pure]
    exact ⟨rfl, ht⟩
  · intro m data hdata hsize hdigest
    exact absurd hdigest (hfails data hdata hsize)

theorem upload_atomic_of_unreached (hok : s.SessionOk) (h : ¬ UploadReaches s) :
    UploadEndAtomicity s := by
  intro env n
  have hwp : Prog.wp (handleUploadEnd env)
      (fun t => t.content s.session.remotePath = s.content s.session.remotePath)
      (fun resp _ t => resp.success = false ∧
        t.content s.session.remotePath = s.content s.session.remotePath) n s := by
    unfold handleUploadEnd
    rw [Prog.wp_bind, Prog.wp_read]
    split
    · rw [Prog.wp_pure]
      exact ⟨rfl, rfl⟩
    next hactive =>
      have hactive : s.session.active = true := by simpa using hactive
      obtain ⟨hopen, -, hchecksum⟩ := hok hactive
      have hother : s.session.tempPath ≠ s.session.remotePath ∨
          s.content s.session.tempPath = none := by
        by_contra hboth
        push Not at hboth
        obtain ⟨data, hdata⟩ := Option.ne_none_iff_exists'.mp hboth.2
        exact h ⟨hactive, data, hdata, Or.inl hboth.1⟩
      have hfails : ∀ data k, s.content s.session.tempPath = some data →
          (s.session.expectedSize = 0 ∨ s.session.receivedSize = s.session.expectedSize) →
          hexDigest ((data ++ s.session.pending).take k) ≠ s.session.expectedChecksum :=
        fun data k hdata hsize hdigest =>
          h ⟨hactive, data, hdata, Or.inr ⟨hsize, k, hdigest⟩⟩
      rw [if_neg (by simp [hopen]), Prog.wp_bind]
      cases hlookup : s.fs.lookup s.session.tempPath with
      | none =>
          have hnone : s.content s.session.tempPath = none := by
            simp [Target.content, hlookup]
          refine Prog.wp_mono (fcloseBuffered_absent hlookup _) (fun t ht => by rw [ht]) ?_
          rintro _ m t rfl
          refine verifyAndInstallUpload_refuses rfl hchecksum hother ?_ rfl
          intro data hdata _
          rw [hnone] at hdata
          cases hdata
      | some f =>
          have hcontent := Target.content_of_lookup hlookup
          have hne : s.session.tempPath ≠ s.session.remotePath := by
            refine hother.resolve_right ?_
            rw [hcontent]
            simp
          have hclose : Spares (· = s.session.tempPath)
              (fcloseBuffered env s.session.tempPath s.session.pending) :=
            fcloseBuffered_spares (W := (· = s.session.tempPath)) rfl _
          have hframe := hclose.touches.frame n s
          refine Prog.wp_mono (Prog.wp_and hframe (fcloseBuffered_part hcontent))
            (fun t ht => ht.1 _ hne.symm) ?_
          rintro _ m t ⟨hothers, k, hleft⟩
          refine verifyAndInstallUpload_refuses rfl hchecksum (Or.inl hne) ?_ (hothers _ hne.symm)
          intro data hdata hsize
          rw [← Option.some.inj (hleft.symm.trans hdata)]
          exact hfails f.data k hcontent hsize
  refine ⟨fun t ht => Or.inl (hwp.1 t ht), ?_⟩
  intro resp hresult
  have hend := hwp.2
  rw [hresult] at hend
  refine ⟨?_, fun _ => hend.2⟩
  intro hsuccess
  rw [hend.1] at hsuccess
  cases hsuccess

/-- An operating system that keeps `k` bytes of a file it closes and does not
see the installed file, so that nothing is backed up first. -/
def cutCloseEnv (k : Nat) : Env where
  fault := fun _ op =>
    match op with
    | .close _ => some k
    | .access _ => some 0
    | _ => none
  clock := fun _ => 0
  localtime := fun _ => demoTime
  order := id
  order_perm := id_perm

/-- It keeps `k` bytes of an upload that it closes. -/
theorem fcloseBuffered_cut (k : Nat) {p : Path} {pending data : Bytes}
    (hdata : s.content p = some data) :
    Prog.Ends (fcloseBuffered (cutCloseEnv k) p pending) (fun _ _ t =>
      t.content p = some ((data ++ pending).take k) ∧
        ∀ q, q ≠ p → t.content q = s.content q) n s := by
  unfold fcloseBuffered
  rw [Prog.ends_bind, fwriteAll_unfailing rfl]
  generalize hadded : (if pending = [] then s else s.append p pending _) = t
  have hwritten : t.content p = some (data ++ pending) := hadded ▸ content_added hdata
  have hothers : ∀ q, q ≠ p → t.content q = s.content q := by
    intro q hq
    rw [← hadded]
    split
    · rfl
    · exact Target.content_append_ne hq _ _
  obtain ⟨f, hlookup, hf⟩ := exists_lookup hwritten
  rw [fcloseWritten, Prog.ends_call, hlookup]
  refine ⟨?_, fun q hq => ?_⟩
  · rw [← hf]
    exact Target.content_put
  · exact (Target.content_put_ne hq).trans (hothers q hq)

/-- A verified upload is copied. -/
theorem installUpload_disturbs {ss : UploadSession} {k : Nat} {data : Bytes}
    (hdata : s.content ss.tempPath = some data) :
    Prog.Passes (installUpload (cutCloseEnv k) ss)
      (Disturbs (s.content ss.remotePath) ss.remotePath) n s := by
  unfold installUpload
  refine .bind_right ?_
  rw [backupBefore, Prog.ends_bind, access, Prog.ends_call]
  simp only [Env.ok, cutCloseEnv, Option.isNone_some, Bool.false_and, Bool.false_eq_true,
    if_false, List.getLastD_nil]
  rw [Prog.ends_pure]
  dsimp only
  refine .bind_right ((mkdirP_ends (fun _ _ => rfl) _).imp ?_)
  rintro _ m t ⟨rfl, rfl⟩
  exact .bind_left (copyFile_disturbs rfl (fun _ => rfl) (fun _ => rfl) hdata)

theorem verifyUpload_ends {ss : UploadSession} {k : Nat} {data : Bytes}
    (hdata : s.content ss.tempPath = some data) :
    Prog.Ends (verifyUpload (cutCloseEnv k) ss)
      (fun r _ t => t = s ∧ ((ss.expectedSize = 0 ∨ ss.receivedSize = ss.expectedSize) →
        hexDigest data = ss.expectedChecksum → r = none)) n s := by
  unfold verifyUpload
  split
  next hsize =>
    rw [Prog.ends_pure]
    exact ⟨rfl, fun hok _ => by omega⟩
  next =>
    split
    · rw [Prog.ends_pure]
      exact ⟨rfl, fun _ _ => rfl⟩
    · rw [Prog.ends_bind]
      refine (computeFileChecksum_ends (fun _ => rfl) (fun _ => rfl) hdata).imp ?_
      rintro _ m t ⟨rfl, rfl⟩
      dsimp only
      rw [Prog.ends_pure]
      exact ⟨rfl, fun _ hdigest => if_neg (not_not.mpr hdigest)⟩

/-- A session that is received into its own target loses it either way: it is
removed with the session, or before the copy. -/
theorem verifyAndInstallUpload_disturbs (ss : UploadSession) {k : Nat} {data : Bytes}
    (hdata : s.content ss.tempPath = some data)
    (hreaches : ss.tempOpen = false ∧ ss.tempPath ≠ [] ∧ ss.tempPath = ss.remotePath ∨
      (ss.expectedSize = 0 ∨ ss.receivedSize = ss.expectedSize) ∧
        hexDigest data = ss.expectedChecksum) :
    Prog.Passes (verifyAndInstallUpload (cutCloseEnv k) ss)
      (Disturbs (s.content ss.remotePath) ss.remotePath) n s := by
  unfold verifyAndInstallUpload
  refine .bind_right ?_
  rw [setSession, Prog.ends_update]
  have hdata' : Target.content { s with session := ss } ss.tempPath = some data := hdata
  refine .bind_right ((verifyUpload_ends hdata').imp ?_)
  rintro r m _ ⟨rfl, hgood⟩
  cases r with
  | none => exact installUpload_disturbs hdata'
  | some wrong =>
      rcases hreaches with ⟨hclosed, hne, halias⟩ | ⟨hsize, hdigest⟩
      · obtain ⟨f, hlookup, -⟩ := exists_lookup hdata'
        have hgone : Prog.Passes (unlink (cutCloseEnv k) ss.tempPath)
            (Disturbs (s.content ss.remotePath) ss.remotePath) m { s with session := ss } := by
          refine ⟨Target.remove { s with session := ss } ss.tempPath, ?_, Or.inl ⟨?_, ?_⟩⟩
          · simp [unlink, Prog.call, Env.ok, cutCloseEnv, hlookup]
          · rw [← halias, hdata]
            simp
          · rw [← halias]
            exact Target.content_remove
        unfold uploadSessionReset
        rw [hclosed]
        simp only [Bool.false_eq_true, if_false, if_pos hne]
        exact .bind_left (.bind_left hgone)
      · cases hgood hsize hdigest

theorem upload_disturbs (hok : s.SessionOk) (h : UploadReaches s) :
    ∃ (env : Env) (n : Nat), Prog.Passes (handleUploadEnd env)
      (Disturbs (s.content s.session.remotePath) s.session.remotePath) n s := by
  obtain ⟨hactive, data, hdata, hreaches⟩ := h
  obtain ⟨hopen, hne, hchecksum⟩ := hok hactive
  have hrun : ∀ k, (s.session.tempPath = s.session.remotePath ∨
      s.session.tempPath ≠ s.session.remotePath ∧
        (s.session.expectedSize = 0 ∨ s.session.receivedSize = s.session.expectedSize) ∧
        hexDigest ((data ++ s.session.pending).take k) = s.session.expectedChecksum) →
      Prog.Passes (handleUploadEnd (cutCloseEnv k))
        (Disturbs (s.content s.session.remotePath) s.session.remotePath) 0 s := by
    intro k hk
    unfold handleUploadEnd
    refine .bind_right ?_
    rw [Prog.ends_read, if_neg (by simp [hactive]), if_neg (by simp [hopen])]
    refine .bind_right ((fcloseBuffered_cut k hdata).imp ?_)
    rintro _ m t ⟨hleft, hothers⟩
    have hdisturbed : Prog.Passes (verifyAndInstallUpload (cutCloseEnv k)
        { s.session with tempOpen := false, pending := [] })
        (Disturbs (t.content s.session.remotePath) s.session.remotePath) m t := by
      refine verifyAndInstallUpload_disturbs _ hleft ?_
      rcases hk with halias | ⟨-, hgood⟩
      · exact Or.inl ⟨rfl, hne, halias⟩
      · exact Or.inr hgood
    rcases hk with halias | ⟨hother, -⟩
    · obtain ⟨u, hu, hdisturbs⟩ := hdisturbed
      refine ⟨u, hu, hdisturbs.of_present ?_ ?_⟩
      · rw [← halias, hleft]
        simp
      · rw [← halias, hdata]
        simp
    · rw [← hothers _ (Ne.symm hother)]
      exact hdisturbed
  by_cases halias : s.session.tempPath = s.session.remotePath
  · exact ⟨_, 0, hrun 0 (Or.inl halias)⟩
  · obtain ⟨hsize, k, hdigest⟩ := hreaches.resolve_left halias
    exact ⟨_, 0, hrun k (Or.inr ⟨halias, hsize, hdigest⟩)⟩

theorem upload_torn (hok : s.SessionOk) (h : UploadReaches s)
    (hnew : s.content s.session.remotePath ≠ none ∨
      s.session.expectedChecksum ≠ hexDigest []) : ¬ UploadEndAtomicity s := by
  intro hatomic
  obtain ⟨env, n, t, ht, hdisturbs⟩ := upload_disturbs hok h
  rcases (hatomic env n).1 t ht with hold | ⟨data, hdata, hdigest⟩
  · rcases hdisturbs with ⟨hne, hgone⟩ | ⟨hnone, hempty⟩
    · exact hne (hold.symm.trans hgone)
    · rw [hempty, hnone] at hold
      cases hold
  · rcases hdisturbs with ⟨-, hgone⟩ | ⟨hnone, hempty⟩
    · rw [hgone] at hdata
      cases hdata
    · rw [hempty] at hdata
      rw [← Option.some.inj hdata] at hdigest
      rcases hnew with hnew | hnew
      · exact hnew hnone
      · exact hnew hdigest.symm

end Upload

/-- Rollback and direct upload keep their promise on every request that is
refused before the copy. A request that gets to the copy breaks it, unless it
installs an empty file where there was none. -/
theorem copy_install_atomicity (req : DeployRequest) (s : Target) :
    (BackupsCarryTheirHash s req.appName →
      (¬ RollbackReaches req s → RollbackAtomicity req s) ∧
      (RollbackReaches req s →
        (∀ remote, rollbackTarget req s = some remote → s.content remote ≠ none) ∨
          (∀ hash path, Offers s req hash path → s.content path ≠ some []) →
        ¬ RollbackAtomicity req s)) ∧
    (s.SessionOk →
      (¬ UploadReaches s → UploadEndAtomicity s) ∧
      (UploadReaches s →
        s.content s.session.remotePath ≠ none ∨ s.session.expectedChecksum ≠ hexDigest [] →
        ¬ UploadEndAtomicity s)) := by
  constructor
  · intro hsound
    refine ⟨rollback_atomic_of_unreached, ?_⟩
    intro hreaches hnew
    obtain ⟨remote, htarget⟩ := Option.isSome_iff_exists.mp hreaches.2.1
    refine rollback_torn hreaches hsound htarget ?_
    rcases hnew with hinstalled | hfull
    · exact Or.inl (hinstalled remote htarget)
    · exact Or.inr hfull
  · intro hok
    exact ⟨upload_atomic_of_unreached hok, upload_torn hok⟩

/-- A target with `old` installed as `demo` and a backup of `hi`. -/
def demoStore : Target :=
  Target.put (Target.put ⟨∅, some [], .zero⟩
    (backupPath (ascii "demo") demoTime (hexDigest (ascii "hi"))) ⟨ascii "hi", 0o755, 0⟩)
    (ascii "/opt/demo") ⟨ascii "old", 0o755, 0⟩

theorem demoStore_names :
    demoStore.namesIn (backupDir (ascii "demo")) =
      [timestamp demoTime ++ hashSuffix (hexDigest (ascii "hi"))] := by
  decide +kernel

theorem demoStore_lists (hash : Bytes) (path : Path) :
    demoStore.Lists (ascii "demo") hash path ↔ hash = hexDigest (ascii "hi") ∧
      path = backupPath (ascii "demo") demoTime (hexDigest (ascii "hi")) := by
  have hparse : parseBackupFilename (timestamp demoTime ++ hashSuffix (hexDigest (ascii "hi"))) =
      some (hexDigest (ascii "hi")) := by
    decide +kernel
  have hpath : existingPath (ascii "demo")
      (timestamp demoTime ++ hashSuffix (hexDigest (ascii "hi"))) =
      backupPath (ascii "demo") demoTime (hexDigest (ascii "hi")) := by
    decide +kernel
  unfold Target.Lists
  rw [demoStore_names]
  simp only [List.mem_singleton, exists_eq_left, hparse, hpath, Option.some.injEq]
  rw [eq_comm]

theorem demoStore_sound : BackupsCarryTheirHash demoStore (ascii "demo") := by
  intro hash path hlists
  obtain ⟨rfl, rfl⟩ := (demoStore_lists hash path).mp hlists
  refine ⟨ascii "hi", ?_, rfl⟩
  decide +kernel

theorem copy_install_demo :
    BackupsCarryTheirHash demoStore (ascii "demo") ∧ demoStore.SessionOk ∧
      RollbackAtomicity { demoRequest (ascii "/opt/demo") with rollbackHash := ascii "none" }
        demoStore ∧ UploadEndAtomicity demoStore := by
  have hidle : demoStore.session.active = false := rfl
  have hok : demoStore.SessionOk := by
    intro hactive
    rw [hidle] at hactive
    cases hactive
  refine ⟨demoStore_sound, hok, ?_, ?_⟩
  · refine ((copy_install_atomicity
      { demoRequest (ascii "/opt/demo") with rollbackHash := ascii "none" } demoStore).1
      demoStore_sound).1 ?_
    rintro ⟨-, -, -, hash, path, hlists, hhash⟩
    obtain ⟨rfl, -⟩ := (demoStore_lists hash path).mp hlists
    exact absurd hhash (by decide +kernel)
  · refine ((copy_install_atomicity (demoRequest (ascii "/opt/demo")) demoStore).2 hok).1 ?_
    rintro ⟨hactive, -⟩
    rw [hidle] at hactive
    cases hactive

/-- A kill between the removal and the copy of a rollback leaves no file. -/
theorem rollback_loses_file :
    BackupsCarryTheirHash demoStore (ascii "demo") ∧
      demoStore.content (ascii "/opt/demo") = some (ascii "old") ∧
      (∃ (env : Env) (n : Nat), ∃ t ∈ (handleRollback env (demoRequest (ascii "/opt/demo")) n
        demoStore).passed, t.content (ascii "/opt/demo") = none) ∧
      ¬ RollbackAtomicity (demoRequest (ascii "/opt/demo")) demoStore := by
  have hold : demoStore.content (ascii "/opt/demo") = some (ascii "old") := Target.content_put
  have htarget : rollbackTarget (demoRequest (ascii "/opt/demo")) demoStore =
      some (ascii "/opt/demo") := rfl
  have hreaches : RollbackReaches (demoRequest (ascii "/opt/demo")) demoStore := by
    have hlists := (demoStore_lists _ _).mpr ⟨rfl, rfl⟩
    exact ⟨by decide, rfl, by decide +kernel, _, _, hlists, Or.inl rfl⟩
  refine ⟨demoStore_sound, hold, ?_, ?_⟩
  · obtain ⟨env, n, t, ht, hdisturbs⟩ := rollback_disturbs hreaches demoStore_sound htarget
    rcases hdisturbs with ⟨-, hgone⟩ | ⟨hnone, -⟩
    · exact ⟨env, n, t, ht, hgone⟩
    · rw [hold] at hnone
      cases hnone
  · refine rollback_torn hreaches demoStore_sound htarget (Or.inl ?_)
    rw [hold]
    simp

end SatDeploy.Agent
