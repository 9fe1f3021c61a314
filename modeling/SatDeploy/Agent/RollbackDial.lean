import SatDeploy.Agent.DeployHandler

/-!
What a rollback works on: the path it installs to, the backups it lists, and
the one it selects. None of this changes a file, and whatever the order of the
directory and the modification times, the selected backup is a listed one.
-/

namespace SatDeploy.Agent

open Lib

section Selection

theorem bubbleFront_perm (entries : List BackupEntry) :
    ∀ front, ((bubbleFront front entries).1 :: (bubbleFront front entries).2).Perm
      (front :: entries) := by
  induction entries with
  | nil =>
      intro front
      exact .refl _
  | cons e rest ih =>
      intro front
      unfold bubbleFront
      split
      · exact (List.Perm.swap _ _ _).trans ((ih e).cons front)
      · exact (List.Perm.swap _ _ _).trans (((ih front).cons e).trans (.swap _ _ _))

theorem sortByMtime_perm (fuel : Nat) :
    ∀ entries, (sortByMtime fuel entries).Perm entries := by
  induction fuel with
  | zero =>
      intro entries
      exact .refl _
  | succ fuel ih =>
      intro entries
      cases entries with
      | nil => exact .refl _
      | cons e rest =>
          exact ((ih (bubbleFront e rest).2).cons _).trans (bubbleFront_perm rest e)

theorem selectBackup_mem {wanted current : Bytes} {entries : List BackupEntry}
    {selected : BackupEntry} (h : selectBackup wanted current entries = some selected) :
    selected ∈ entries := by
  unfold selectBackup at h
  split at h
  · exact List.mem_of_find?_eq_some h
  · apply (sortByMtime_perm entries.length entries).mem_iff.mp
    dsimp only at h
    split at h
    · exact List.mem_of_getElem? h
    · exact List.mem_of_getElem? h

theorem selectBackup_hash {wanted current : Bytes} {entries : List BackupEntry}
    {selected : BackupEntry} (h : selectBackup wanted current entries = some selected) :
    wanted = [] ∨ selected.hash = wanted := by
  by_cases hwanted : wanted = []
  · exact Or.inl hwanted
  · unfold selectBackup at h
    rw [if_pos hwanted] at h
    exact Or.inr (by simpa using List.find?_some h)

/-- Something is selected when there is something to select. -/
theorem selectBackup_exists {wanted : Bytes} (current : Bytes) {entries : List BackupEntry}
    (h : ∃ e ∈ entries, wanted = [] ∨ e.hash = wanted) :
    ∃ selected, selectBackup wanted current entries = some selected := by
  obtain ⟨e, he, hmatch⟩ := h
  unfold selectBackup
  split
  next hwanted =>
    have hhash : e.hash = wanted := hmatch.resolve_left hwanted
    exact Option.isSome_iff_exists.mp (List.find?_isSome.mpr ⟨e, he, by simpa using hhash⟩)
  next =>
    have hpos : 0 < (sortByMtime entries.length entries).length := by
      rw [(sortByMtime_perm _ _).length_eq]
      exact List.length_pos_of_mem he
    dsimp only
    split
    · exact ⟨_, List.getElem?_eq_getElem hpos⟩
    · exact ⟨_, List.getElem?_eq_getElem (Nat.mod_lt _ hpos)⟩

end Selection

section Listing

/-- `path` is what the handlers call the file `name` in the directory of `app`,
and `hash` is what its name says. -/
def Target.Lists (s : Target) (app hash : Bytes) (path : Path) : Prop :=
  ∃ name ∈ s.namesIn (backupDir app),
    parseBackupFilename name = some hash ∧ path = existingPath app name

variable {env : Env} {app : Bytes} {C : Target → Prop} {n : Nat} {s : Target}

theorem backupList_wp {Q : List (Bytes × Path) → Nat → Target → Prop}
    (h : ∀ m listed, (∀ b ∈ listed, s.fs.lookup (backupDir app) = none ∧ s.Lists app b.1 b.2) →
      Q listed m s) : Prog.wp (backupList env app) C Q n s := by
  unfold backupList opendir
  rw [Prog.wp_bind, Prog.wp_call]
  split
  next hopen =>
    refine ⟨by simp, ?_⟩
    simp only [List.getLastD_nil]
    rw [Prog.wp_pure]
    apply h
    intro b hb
    obtain ⟨name, hname, hparse⟩ := List.mem_filterMap.mp hb
    obtain ⟨hash, hhash, rfl⟩ := Option.map_eq_some_iff.mp hparse
    have hfree : s.fs.lookup (backupDir app) = none := by
      simpa using (Bool.and_eq_true_iff.mp hopen).2
    exact ⟨hfree, name, (env.order_perm _).mem_iff.mp hname, hhash, rfl⟩
  next =>
    refine ⟨by simp, ?_⟩
    simp only [List.getLastD_nil]
    rw [Prog.wp_pure]
    exact h _ [] (fun b hb => by cases hb)

/-- The collected entries come from the list and keep what was collected. -/
theorem collectBackups_run (env : Env) (listed : List (Bytes × Path)) :
    ∀ (entries : List BackupEntry) (n : Nat),
      (collectBackups env listed entries n s).state = s ∧
      (collectBackups env listed entries n s).passed = [] ∧
      ∃ more, (collectBackups env listed entries n s).result = some (entries ++ more) ∧
        ∀ e ∈ more, (e.hash, e.path) ∈ listed := by
  induction listed with
  | nil =>
      intro entries n
      exact ⟨rfl, rfl, [], by simp [collectBackups, pure, Prog.ret], fun e he => by cases he⟩
  | cons b rest ih =>
      intro entries n
      unfold collectBackups
      split
      · obtain ⟨hstate, hpassed, more, hresult, hmore⟩ := ih entries n
        exact ⟨hstate, hpassed, more, hresult, fun e he => List.mem_cons_of_mem _ (hmore e he)⟩
      · generalize hst : (if env.ok n (.stat b.2) then s.fs.lookup b.2 else none) = st
        obtain ⟨hstate, hpassed, more, hresult, hmore⟩ :=
          ih (entries ++ [⟨b.1, b.2, (st.map (·.mtime)).getD 0⟩]) (n + 1)
        have hstat : statFile env b.2 n s = ⟨some st, s, n + 1, []⟩ := by
          rw [← hst]
          rfl
        have hrun : (do
            let st ← statFile env b.2
            collectBackups env rest (entries ++ [⟨b.1, b.2, (st.map (·.mtime)).getD 0⟩]) :
              Prog Target (List BackupEntry)) n s =
            collectBackups env rest (entries ++ [⟨b.1, b.2, (st.map (·.mtime)).getD 0⟩])
              (n + 1) s := by
          change Prog.andThen _ _ n s = _
          unfold Prog.andThen
          rw [hstat]
          rfl
        rw [hrun]
        refine ⟨hstate, hpassed, ⟨b.1, b.2, (st.map (·.mtime)).getD 0⟩ :: more, ?_, ?_⟩
        · rw [hresult, List.append_assoc]
          rfl
        · intro e he
          rcases List.mem_cons.mp he with rfl | he
          · exact List.mem_cons_self
          · exact List.mem_cons_of_mem _ (hmore e he)

theorem collectBackups_wp {Q : List BackupEntry → Nat → Target → Prop}
    {listed : List (Bytes × Path)}
    (h : ∀ m entries, (∀ e ∈ entries, (e.hash, e.path) ∈ listed) → Q entries m s) :
    Prog.wp (collectBackups env listed []) C Q n s := by
  obtain ⟨hstate, hpassed, more, hresult, hmore⟩ :=
    collectBackups_run (s := s) env listed [] n
  refine ⟨?_, ?_⟩
  · rw [hpassed]
    simp
  · rw [hresult, hstate]
    exact h _ more hmore

/-- The first backup listed is always collected. -/
theorem collectBackups_head (hash : Bytes) (path : Path) (rest : List (Bytes × Path)) (n : Nat) :
    Prog.Ends (collectBackups env ((hash, path) :: rest) [])
      (fun r _ t => t = s ∧ (∃ e ∈ r, e.hash = hash) ∧
        ∀ e ∈ r, (e.hash, e.path) ∈ (hash, path) :: rest) n s := by
  unfold collectBackups
  rw [if_neg (by simp [maxDialEntries]), Prog.ends_bind, statFile, Prog.ends_call]
  generalize (if env.ok n (.stat path) then s.fs.lookup path else none) = st
  obtain ⟨hstate, -, more, hresult, hmore⟩ := collectBackups_run (s := s) env rest
    ([] ++ [⟨hash, path, (st.map (·.mtime)).getD 0⟩]) (n + 1)
  refine ⟨_, hresult, hstate, ⟨_, List.mem_cons_self, rfl⟩, ?_⟩
  intro e he
  rcases List.mem_cons.mp he with rfl | he
  · exact List.mem_cons_self
  · exact List.mem_cons_of_mem _ (hmore e he)

end Listing

section Remote

/-- The entries of the metadata, from the cache or else from the file. -/
def Target.metadata (s : Target) : Option (List AppEntry) :=
  match s.cache with
  | some entries => some entries
  | none =>
      match s.content metadataFile with
      | none => some []
      | some json =>
          if json.length = 0 ∨ json.length > 1024 * 1024 then some []
          else parseMetadata json

/-- The path a rollback installs to when the metadata can be read. -/
def rollbackTarget (req : DeployRequest) (s : Target) : Option Path :=
  if req.remotePath ≠ [] then some req.remotePath
  else
    match s.metadata.bind (findApp · req.appName) with
    | some e => if e.remotePath ≠ [] then some e.remotePath else none
    | none => none

variable {env : Env} {C : Target → Prop} {n : Nat} {s : Target}

theorem readMetadata_observes : Prog.Observes (readMetadata env) fun _ _ => True := by
  unfold readMetadata
  refine .bind (Prog.Observes.call (R := fun _ _ => True) (fun _ _ => rfl) fun _ _ => trivial)
    fun data => ?_
  cases data with
  | none => exact .pure fun _ _ => trivial
  | some data =>
      dsimp only
      split
      · exact .pure fun _ _ => trivial
      · refine .bind (Prog.Observes.call (R := fun _ _ => True) ?_ fun _ _ => trivial)
          fun _ => .pure fun _ _ _ => trivial
        intro n s
        cases env.fault n (.read metadataFile) <;> rfl

/-- Loading the metadata changes no file; a failing read gives no entries. -/
theorem loadMetadata_wp {Q : List AppEntry → Nat → Target → Prop}
    (hC : ∀ t, t.fs = s.fs → C t)
    (hnil : ∀ m t, t.fs = s.fs → Q [] m t)
    (hsome : ∀ m t entries, t.fs = s.fs → s.metadata = some entries → Q entries m t) :
    Prog.wp (loadMetadata env) C Q n s := by
  unfold loadMetadata
  rw [Prog.wp_bind, Prog.wp_read]
  cases hcache : s.cache with
  | some entries =>
      dsimp only
      rw [Prog.wp_pure]
      exact hsome _ _ _ rfl (by simp [Target.metadata, hcache])
  | none =>
      dsimp only
      rw [Prog.wp_bind, setCache, Prog.wp_update]
      refine ⟨hC _ rfl, ?_⟩
      rw [Prog.wp_bind]
      have hread : Prog.wp (readMetadata env) C (fun r _ t => t = { s with cache := some [] } ∧
          ∀ json, r = some json → s.content metadataFile = some json ∧
            ¬ (json.length = 0 ∨ json.length > 1024 * 1024)) n
          { s with cache := some [] } := by
        unfold readMetadata fopenRead freadAll
        rw [Prog.wp_bind, Prog.wp_call]
        refine ⟨by simp, ?_⟩
        split
        · rw [Prog.wp_pure]
          exact ⟨rfl, fun json hjson => by cases hjson⟩
        next data hdata =>
          have hcontent : s.content metadataFile = some data := by
            split at hdata
            · exact hdata
            · cases hdata
          split
          · rw [Prog.wp_pure]
            exact ⟨rfl, fun json hjson => by cases hjson⟩
          next hsize =>
            rw [Prog.wp_bind, Prog.wp_call]
            cases env.fault (n + 1) (.read metadataFile) with
            | none =>
                refine ⟨by simp, ?_⟩
                rw [Prog.wp_pure]
                refine ⟨rfl, fun json hjson => ?_⟩
                rw [← Option.some.inj hjson]
                exact ⟨hcontent, hsize⟩
            | some k =>
                refine ⟨by simp, ?_⟩
                rw [Prog.wp_pure]
                exact ⟨rfl, fun json hjson => by cases hjson⟩
      refine Prog.wp_imp hread ?_
      rintro r m _ ⟨rfl, hjson⟩
      cases r with
      | none =>
          dsimp only
          rw [Prog.wp_pure]
          exact hnil _ _ rfl
      | some json =>
          obtain ⟨hcontent, hsize⟩ := hjson json rfl
          have hmeta : s.metadata = parseMetadata json := by
            simp only [Target.metadata, hcache, hcontent, if_neg hsize]
          dsimp only
          split
          · rw [Prog.wp_die]
            exact hC _ rfl
          next entries hentries =>
            rw [Prog.wp_bind, setCache, Prog.wp_update]
            refine ⟨hC _ rfl, ?_⟩
            rw [Prog.wp_pure]
            exact hsome _ _ _ rfl (hmeta.trans hentries)

/-- When the first two calls can read the metadata, it is found with two calls
made. -/
theorem loadMetadata_reads (env : Env)
    (hopen : ∀ m < 2, env.fault m (.openRead metadataFile) = none)
    (hread : ∀ m < 2, env.fault m (.read metadataFile) = none) {entries : List AppEntry}
    (hmeta : s.metadata = some entries) (hne : entries ≠ []) :
    ∃ n, Prog.Ends (loadMetadata env) (fun r m t => r = entries ∧ t.fs = s.fs ∧ m = 2) n s := by
  unfold loadMetadata
  unfold Target.metadata at hmeta
  cases hcache : s.cache with
  | some cached =>
      rw [hcache] at hmeta
      refine ⟨2, ?_⟩
      rw [Prog.ends_bind, Prog.ends_read, hcache, Prog.ends_pure]
      exact ⟨Option.some.inj hmeta, rfl, rfl⟩
  | none =>
      rw [hcache] at hmeta
      cases hjson : s.content metadataFile with
      | none =>
          rw [hjson] at hmeta
          exact absurd (Option.some.inj hmeta).symm hne
      | some json =>
          rw [hjson] at hmeta
          dsimp only at hmeta
          split at hmeta
          · exact absurd (Option.some.inj hmeta).symm hne
          next hsize =>
            have hjsonRead : Prog.Ends (readMetadata env)
                (fun r m t => r = some json ∧ t = { s with cache := some [] } ∧ m = 2) 0
                { s with cache := some [] } := by
              have hcontent : Target.content { s with cache := some [] } metadataFile =
                  some json := hjson
              rw [readMetadata, Prog.ends_bind, fopenRead_ends (hopen 0 (by decide)), hcontent]
              dsimp only
              rw [if_neg hsize, Prog.ends_bind, freadAll_ends (hread 1 (by decide)),
                Prog.ends_pure]
              exact ⟨rfl, rfl, rfl⟩
            refine ⟨0, ?_⟩
            rw [Prog.ends_bind, Prog.ends_read, hcache]
            dsimp only
            rw [Prog.ends_bind, setCache, Prog.ends_update, Prog.ends_bind]
            refine hjsonRead.imp ?_
            rintro _ m _ ⟨rfl, rfl, hm⟩
            dsimp only
            rw [hmeta]
            dsimp only
            rw [Prog.ends_bind, setCache, Prog.ends_update, Prog.ends_pure]
            exact ⟨rfl, rfl, hm⟩

/-- Metadata that can be read is read, and is in the cache from then on. -/
theorem loadMetadata_ends {env : Env} (hopen : ∀ m, env.fault m (.openRead metadataFile) = none)
    (hread : ∀ m, env.fault m (.read metadataFile) = none) {entries : List AppEntry}
    (hmeta : s.metadata = some entries) :
    Prog.Ends (loadMetadata env)
      (fun r _ t => r = entries ∧ t = { s with cache := some entries }) n s := by
  unfold loadMetadata
  unfold Target.metadata at hmeta
  rw [Prog.ends_bind, Prog.ends_read]
  cases hcache : s.cache with
  | some cached =>
      rw [hcache] at hmeta
      rw [← Option.some.inj hmeta, Prog.ends_pure, ← hcache]
      exact ⟨rfl, rfl⟩
  | none =>
      rw [hcache] at hmeta
      dsimp only
      have hcontent : Target.content { s with cache := some [] } metadataFile =
          s.content metadataFile := rfl
      rw [Prog.ends_bind, setCache, Prog.ends_update, Prog.ends_bind, readMetadata,
        Prog.ends_bind, fopenRead_ends (hopen _), hcontent]
      cases hjson : s.content metadataFile with
      | none =>
          rw [hjson] at hmeta
          rw [← Option.some.inj hmeta, Prog.ends_pure, Prog.ends_pure]
          exact ⟨rfl, rfl⟩
      | some json =>
          rw [hjson] at hmeta
          dsimp only at hmeta ⊢
          split at hmeta
          next hsize =>
            rw [← Option.some.inj hmeta, if_pos hsize, Prog.ends_pure, Prog.ends_pure]
            exact ⟨rfl, rfl⟩
          next hsize =>
            rw [if_neg hsize, Prog.ends_bind, freadAll_ends (hread _), Prog.ends_pure]
            dsimp only
            rw [if_pos rfl]
            dsimp only
            rw [hmeta]
            dsimp only
            rw [Prog.ends_bind, setCache, Prog.ends_update, Prog.ends_pure]
            exact ⟨rfl, rfl⟩

/-- Once loaded, the metadata stays in the cache. -/
theorem loadMetadata_caches :
    Prog.wp (loadMetadata env) (fun _ => True)
      (fun r _ t => t.fs = s.fs ∧ t.session = s.session ∧ t.cache = some r) n s := by
  unfold loadMetadata
  rw [Prog.wp_bind, Prog.wp_read]
  cases hcache : s.cache with
  | some entries => exact (Prog.wp_pure _).mpr ⟨rfl, rfl, hcache⟩
  | none =>
      dsimp only
      rw [Prog.wp_bind, setCache, Prog.wp_update]
      refine ⟨trivial, ?_⟩
      rw [Prog.wp_bind]
      refine readMetadata_observes.wp fun m json _ => ?_
      cases json with
      | none => exact (Prog.wp_pure _).mpr ⟨rfl, rfl, rfl⟩
      | some json =>
          dsimp only
          split
          · exact Prog.wp_die.mpr trivial
          · rw [Prog.wp_bind, setCache, Prog.wp_update]
            exact ⟨trivial, (Prog.wp_pure _).mpr ⟨rfl, rfl, rfl⟩⟩

theorem rollbackPath_wp {Q : Option Path → Nat → Target → Prop} {req : DeployRequest}
    (hC : ∀ t, t.fs = s.fs → C t) (hnone : ∀ m t, t.fs = s.fs → Q none m t)
    (hsome : ∀ m t remote, t.fs = s.fs → rollbackTarget req s = some remote →
      Q (some remote) m t) : Prog.wp (rollbackPath env req) C Q n s := by
  unfold rollbackPath
  split
  next hremote =>
    rw [Prog.wp_pure]
    exact hsome _ _ _ rfl (by simp [rollbackTarget, hremote])
  next hremote =>
    rw [Prog.wp_bind, appMetadataGet, Prog.wp_bind]
    apply loadMetadata_wp hC
    · intro m t ht
      rw [Prog.wp_pure]
      simp only [findApp, List.find?_nil]
      rw [Prog.wp_pure]
      exact hnone m t ht
    · intro m t entries ht hentries
      rw [Prog.wp_pure]
      cases hfound : findApp entries req.appName with
      | none =>
          dsimp only
          rw [Prog.wp_pure]
          exact hnone m t ht
      | some e =>
          dsimp only
          rw [Prog.wp_pure]
          split
          next hpath =>
            refine hsome m t _ ht ?_
            rw [rollbackTarget, if_neg hremote, hentries]
            simp [hfound, hpath]
          · exact hnone m t ht

end Remote

/-- Every way a rollback can go: it is refused with the files as they were, or
it restores a listed backup to its target. -/
theorem handleRollback_wp {env : Env} {req : DeployRequest} {C : Target → Prop}
    {Q : DeployResponse → Nat → Target → Prop} {n : Nat} {s : Target}
    (hC : ∀ t, t.fs = s.fs → C t)
    (hrefuse : ∀ m t code message, t.fs = s.fs → Q (refuse code message) m t)
    (hrestore : ∀ m t remote current entries selected, t.fs = s.fs → req.appName ≠ [] →
      rollbackTarget req s = some remote →
      (current = [] ∨ ∃ data, s.content remote = some data ∧ current = hexDigest data) →
      s.fs.lookup (backupDir req.appName) = none →
      s.Lists req.appName selected.hash selected.path →
      (req.rollbackHash = [] ∨ selected.hash = req.rollbackHash) →
      Prog.wp (restoreSelected env req.appName remote current entries selected) C Q m t) :
    Prog.wp (handleRollback env req) C Q n s := by
  unfold handleRollback
  split
  · rw [Prog.wp_pure]
    exact hrefuse _ _ _ _ rfl
  next happ =>
    rw [Prog.wp_bind]
    apply rollbackPath_wp hC
    · intro m t ht
      dsimp only
      rw [Prog.wp_pure]
      exact hrefuse _ _ _ _ ht
    · intro m t remote ht htarget
      have hcontent : ∀ p, t.content p = s.content p := by
        intro p
        unfold Target.content
        rw [ht]
      dsimp only
      rw [Prog.wp_bind]
      have hhashed : Prog.wp (computeFileChecksum env remote) C (fun digest _ u => u = t ∧
          (digest.getD [] = [] ∨
            ∃ data, s.content remote = some data ∧ digest.getD [] = hexDigest data)) m t := by
        apply computeFileChecksum_wp
        · exact fun m' => ⟨rfl, Or.inl rfl⟩
        · exact fun m' data hdata =>
            ⟨rfl, Or.inr ⟨data, (hcontent remote).symm.trans hdata, rfl⟩⟩
      refine Prog.wp_imp hhashed ?_
      rintro digest m' u ⟨rfl, hcurrent⟩
      generalize digest.getD [] = current at hcurrent
      rw [Prog.wp_bind]
      apply backupList_wp
      intro m₁ listed hlisted
      rw [Prog.wp_bind]
      apply collectBackups_wp
      intro m₂ entries hentries
      split
      · rw [Prog.wp_pure]
        exact hrefuse _ _ _ _ ht
      · split
        · rw [Prog.wp_pure]
          exact hrefuse _ _ _ _ ht
        next selected hselected =>
          obtain ⟨hdir, name, hname, hparse⟩ :=
            hlisted _ (hentries selected (selectBackup_mem hselected))
          rw [ht] at hdir
          refine hrestore m₂ u remote current entries selected ht happ htarget hcurrent hdir
            ⟨name, ?_, hparse⟩ (selectBackup_hash hselected)
          simpa only [Target.namesIn, ht] using hname

end SatDeploy.Agent
