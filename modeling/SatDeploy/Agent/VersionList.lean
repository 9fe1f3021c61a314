import SatDeploy.Agent.Filing
import SatDeploy.Lib.ExchangeSort

/-!
What `handle_list_versions` answers when no call fails: each hash once, newest
first, with the installed version marked. The list is collected into 64 slots;
the installed version may need one more.
-/

namespace SatDeploy.Agent

open Lib

/-- Hash and path of an entry. -/
def VersionEntry.key (v : VersionEntry) : Bytes × Path := (v.hash, v.path)

/-- The mark of the installed version. -/
def VersionEntry.marked (v : VersionEntry) : Bool := v.version = ascii "current"

section Collecting

variable {env : Env} {app : Bytes} {n : Nat} {s : Target}

theorem collectVersions_keys (names : List Bytes) : ∀ entries : List VersionEntry,
    Prog.Observes (collectVersions env app names entries) fun _ result =>
      result.map (·.key) = keepNewBy Prod.fst maxBackupEntries (entries.map (·.key))
        (names.filterMap fun name =>
          (parseBackupFilename name).map fun hash => (hash, existingPath app name)) := by
  induction names with
  | nil =>
      intro entries
      exact .pure fun _ => rfl
  | cons name names ih =>
      intro entries
      unfold collectVersions
      cases hparse : parseBackupFilename name with
      | none =>
          rw [List.filterMap_cons_none (by rw [hparse]; rfl)]
          exact ih entries
      | some hash =>
          rw [List.filterMap_cons_some (by rw [hparse]; rfl)]
          refine .bind (backupTimestamp_observes name _) fun stamp => ?_
          have hmem : (entries.length ≥ maxBackupEntries ∨ entries.any (·.hash = hash) = true) ↔
              ((entries.map (·.key)).length ≥ maxBackupEntries ∨
                hash ∈ (entries.map (·.key)).map Prod.fst) := by
            simp [VersionEntry.key]
          unfold keepNewBy
          dsimp only
          split
          next hold =>
            rw [if_pos (hmem.mp hold)]
            exact (ih entries).imp fun _ _ h _ => h
          next hnew =>
            rw [if_neg (mt hmem.mpr hnew)]
            refine .bind (statFile_observes _) fun st => ?_
            refine (ih _).imp fun _ result h _ _ => ?_
            rw [h, List.map_append]
            rfl

/-- No name of a backup reads as the mark. -/
theorem backupVersion_ne_current {name hash : Bytes} (h : parseBackupFilename name = some hash) :
    backupVersion name ≠ ascii "current" := by
  intro heq
  have hcut : name.take (name.length - 4) = ascii "current" := by
    have hlen := congrArg List.length heq
    rw [backupVersion, clip, List.length_take] at hlen
    have hshort : (name.take (name.length - 4)).length = 7 := by
      have hcurrent : (ascii "current").length = 7 := rfl
      omega
    have hwhole : backupVersion name = name.take (name.length - 4) :=
      List.take_of_length_le (by omega)
    exact hwhole.symm.trans heq
  have hlen := congrArg List.length hcut
  rw [List.length_take] at hlen
  have hcurrent : (ascii "current").length = 7 := rfl
  have hscan : scanInt 4 (ascii "current") = none := by decide
  unfold parseBackupFilename at h
  dsimp only at h
  split at h
  · cases h
  · rw [if_neg (by omega), hcut, hscan] at h
    cases h

theorem collectVersions_unmarked (names : List Bytes) : ∀ entries : List VersionEntry,
    (∀ v ∈ entries, v.marked = false) →
    Prog.Observes (collectVersions env app names entries) fun _ result =>
      ∀ v ∈ result, v.marked = false := by
  induction names with
  | nil => exact fun entries hentries => .pure fun _ => hentries
  | cons name names ih =>
      intro entries hentries
      unfold collectVersions
      cases hparse : parseBackupFilename name with
      | none => exact ih entries hentries
      | some hash =>
          refine .bind (backupTimestamp_observes name _) fun stamp => ?_
          split
          · exact (ih entries hentries).imp fun _ _ h _ => h
          · refine .bind (statFile_observes _) fun st => ?_
            refine (ih _ ?_).imp fun _ _ h _ _ => h
            intro v hv
            rcases List.mem_append.mp hv with hv | hv
            · exact hentries v hv
            · rw [List.mem_singleton.mp hv]
              exact decide_eq_false (backupVersion_ne_current hparse)

/-- What the list collects: the first 64 hashes of the directory, unmarked. -/
theorem listVersions_ends (henv : env.Reliable) :
    Prog.Ends (listVersions env app) (fun r _ t => t = s ∧
      r.map (·.key) = keepNewBy Prod.fst maxBackupEntries [] (dialListing env app s) ∧
      ∀ v ∈ r, v.marked = false) n s := by
  unfold listVersions
  rw [Prog.ends_bind]
  refine ((opendir_opens (fun _ => henv _ _)).ends n s).imp ?_
  rintro names m t ⟨rfl, hnames⟩
  unfold dialListing
  split at hnames
  next hfile =>
    rw [hnames, if_pos hfile, Prog.ends_pure]
    exact ⟨rfl, rfl, fun v hv => by cases hv⟩
  next hdir =>
    rw [hnames, if_neg hdir]
    refine (((collectVersions_keys _ []).and (collectVersions_unmarked _ [] ?_)).ends m t).imp ?_
    · exact fun v hv => by cases hv
    · rintro r _ _ ⟨rfl, hkeys, hmarks⟩
      exact ⟨rfl, hkeys, hmarks⟩

/-- Exactly the entry of the installed version is marked. -/
theorem markCurrent_marks (e : AppEntry) (actual : Bytes) {entries : List VersionEntry}
    (hentries : ∀ v ∈ entries, v.marked = false) :
    Prog.Observes (markCurrent env e actual entries) fun _ result =>
      (∃ v ∈ result, v.marked = true) ∧ ∀ v ∈ result, v.marked = true → v.hash = actual := by
  unfold markCurrent
  cases hfind : entries.findIdx? (fun v => decide (v.hash = actual)) with
  | some i =>
      obtain ⟨hlt, hhash, -⟩ := List.findIdx?_eq_some_iff_getElem.mp hfind
      refine .pure fun _ => ⟨?_, fun v hv hmarked => ?_⟩
      · refine ⟨{ entries[i] with version := ascii "current" }, ?_, rfl⟩
        apply List.mem_of_getElem? (i := i)
        rw [List.getElem?_modify, List.getElem?_eq_getElem hlt]
        simp
      · obtain ⟨j, hj⟩ := List.mem_iff_getElem?.mp hv
        rw [List.getElem?_modify] at hj
        cases hentry : entries[j]? with
        | none =>
            rw [hentry] at hj
            cases hj
        | some u =>
            rw [hentry] at hj
            obtain rfl := Option.some.inj hj
            dsimp only at hmarked ⊢
            by_cases hij : i = j
            · subst hij
              rw [List.getElem?_eq_getElem hlt] at hentry
              rw [← Option.some.inj hentry, if_pos rfl]
              simpa using hhash
            · rw [if_neg hij] at hmarked
              have hunmarked := hentries u (List.mem_of_getElem? hentry)
              exact absurd (hunmarked.symm.trans hmarked) (by decide)
  | none =>
      refine .bind (statFile_observes _) fun st => .pure fun _ _ => ⟨?_, fun v hv hmarked => ?_⟩
      · exact ⟨_, List.mem_append_right _ (List.mem_singleton_self _), rfl⟩
      · rcases List.mem_append.mp hv with hv | hv
        · exact absurd ((hentries v hv).symm.trans hmarked) (by decide)
        · rw [List.mem_singleton.mp hv]

/-- The sort of the list goes by the modification times of the paths. -/
theorem sortVersions_ends (henv : env.Reliable) (fuel : Nat) :
    ∀ (entries : List VersionEntry) (n : Nat), Prog.Ends (sortVersions env fuel entries)
      (fun r _ t => r = exchangeSort (fun v => s.mtimeAt v.path) fuel entries ∧ t = s) n s := by
  have hmtime : ∀ path m, Prog.Ends (mtimeOf env path)
      (fun r _ t => r = s.mtimeAt path ∧ t = s) m s := by
    intro path m
    rw [mtimeOf, Prog.ends_bind, statFile_ends (henv _ _), Prog.ends_pure]
    exact ⟨rfl, rfl⟩
  have hpass : ∀ (rest : List VersionEntry) (front : VersionEntry) (n : Nat),
      Prog.Ends (exchangeFront env front rest) (fun r _ t =>
        r = exchangePass (fun v => s.mtimeAt v.path) front rest ∧ t = s) n s := by
    intro rest
    induction rest with
    | nil =>
        intro front n
        rw [exchangeFront, Prog.ends_pure]
        exact ⟨rfl, rfl⟩
    | cons e rest ih =>
        intro front n
        unfold exchangeFront exchangePass
        rw [Prog.ends_bind]
        refine (hmtime front.path n).imp ?_
        rintro _ m _ ⟨rfl, rfl⟩
        rw [Prog.ends_bind]
        refine (hmtime e.path m).imp ?_
        rintro _ m _ ⟨rfl, rfl⟩
        split
        · rw [Prog.ends_bind]
          refine (ih e m).imp ?_
          rintro _ m _ ⟨rfl, rfl⟩
          exact (Prog.ends_pure _).mpr ⟨rfl, rfl⟩
        · rw [Prog.ends_bind]
          refine (ih front m).imp ?_
          rintro _ m _ ⟨rfl, rfl⟩
          exact (Prog.ends_pure _).mpr ⟨rfl, rfl⟩
  induction fuel with
  | zero =>
      intro entries n
      rw [sortVersions, Prog.ends_pure]
      exact ⟨rfl, rfl⟩
  | succ fuel ih =>
      intro entries n
      cases entries with
      | nil =>
          rw [sortVersions, Prog.ends_pure]
          · exact ⟨rfl, rfl⟩
          · exact fun h => by cases h
      | cons e rest =>
          rw [sortVersions, Prog.ends_bind]
          refine (hpass rest e n).imp ?_
          rintro _ m _ ⟨rfl, rfl⟩
          rw [Prog.ends_bind]
          refine (ih _ m).imp ?_
          rintro _ m _ ⟨rfl, rfl⟩
          rw [Prog.ends_pure]
          exact ⟨rfl, rfl⟩

end Collecting

/-- The installed version as the metadata has it: where it is and what it
holds. -/
def Target.deployed (s : Target) (app : Bytes) : Option (Path × Bytes) :=
  match s.metadata.bind (findApp · app) with
  | none => none
  | some e => (s.content e.remotePath).map fun data => (e.remotePath, data)

/-- What the list collects of the directory. -/
def collectedKeys (env : Env) (app : Bytes) (s : Target) : List (Bytes × Path) :=
  keepNewBy Prod.fst maxBackupEntries [] (dialListing env app s)

/-- The entry the installed version adds: none if it is collected. -/
def addedKey (env : Env) (app : Bytes) (s : Target) : List (Bytes × Path) :=
  match s.deployed app with
  | none => []
  | some (remote, data) =>
      if hexDigest data ∈ (collectedKeys env app s).map Prod.fst then []
      else [(hexDigest data, remote)]

/-- The entries of a reply, before they are sorted. -/
structure Shows (env : Env) (app : Bytes) (s : Target) (entries : List VersionEntry) : Prop where
  keys : entries.map (·.key) = collectedKeys env app s ++ addedKey env app s
  marks : (∃ v ∈ entries, v.marked = true) ↔ (s.deployed app).isSome
  installed : ∀ v ∈ entries, v.marked = true → ∀ remote data,
    s.deployed app = some (remote, data) → v.hash = hexDigest data

section Listing

variable {env : Env} {app : Bytes} {n : Nat} {s : Target}

theorem Shows.of_unmarked {entries : List VersionEntry}
    (hkeys : entries.map (·.key) = collectedKeys env app s)
    (hmarks : ∀ v ∈ entries, v.marked = false) (hnone : s.deployed app = none) :
    Shows env app s entries := by
  have hunmarked : ∀ v ∈ entries, v.marked ≠ true := fun v hv => by rw [hmarks v hv]; decide
  refine ⟨?_, ?_, fun v hv hmarked => absurd hmarked (hunmarked v hv)⟩
  · rw [hkeys, addedKey, hnone, List.append_nil]
  · rw [hnone]
    constructor
    · rintro ⟨v, hv, hmarked⟩
      exact absurd hmarked (hunmarked v hv)
    · exact fun h => by cases h

theorem versionsWithCurrent_ends (henv : env.Reliable) {entries : List AppEntry}
    (hmeta : s.metadata = some entries) :
    Prog.Ends (versionsWithCurrent env app)
      (fun r _ t => t.fs = s.fs ∧ Shows env app s r) n s := by
  unfold versionsWithCurrent
  rw [Prog.ends_bind]
  refine (listVersions_ends henv).imp ?_
  rintro listed m s ⟨rfl, hkeys, hmarks⟩
  rw [Prog.ends_bind, appMetadataGet, Prog.ends_bind]
  refine (loadMetadata_ends (fun _ => henv _ _) (fun _ => henv _ _) hmeta).imp ?_
  rintro found m t ⟨rfl, rfl⟩
  rw [Prog.ends_pure]
  cases hfound : findApp found app with
  | none =>
      have hnone : s.deployed app = none := by simp [Target.deployed, hmeta, hfound]
      rw [Prog.ends_pure]
      exact ⟨rfl, .of_unmarked hkeys hmarks hnone⟩
  | some e =>
      have hdeployed : s.deployed app =
          (s.content e.remotePath).map fun data => (e.remotePath, data) := by
        simp [Target.deployed, hmeta, hfound]
      dsimp only
      rw [Prog.ends_bind]
      refine ((computeFileChecksum_observes e.remotePath).ends m _).imp ?_
      rintro digest m _ ⟨rfl, hdigest⟩
      have hread := hdigest (fun _ => henv _ _) (fun _ => henv _ _)
      have hcontent : Target.content { s with cache := some found } e.remotePath =
          s.content e.remotePath := rfl
      rw [hcontent] at hread
      cases hdata : s.content e.remotePath with
      | none =>
          rw [hdata] at hread hdeployed
          rw [hread, Option.map_none]
          dsimp only
          rw [Prog.ends_pure]
          exact ⟨rfl, .of_unmarked hkeys hmarks hdeployed⟩
      | some data =>
          rw [hdata] at hread hdeployed
          rw [hread, Option.map_some]
          refine (((markCurrent_observes e _ listed).and
            (markCurrent_marks e _ hmarks)).ends m _).imp ?_
          rintro marked m _ ⟨rfl, hpairs, hsome, hall⟩
          have hmapped : listed.map (·.hash) = (collectedKeys env app s).map Prod.fst := by
            rw [collectedKeys, ← hkeys, List.map_map]
            rfl
          refine ⟨rfl, ?_, ?_, ?_⟩
          · rw [addedKey, hdeployed, Option.map_some]
            dsimp only
            rw [← hmapped, collectedKeys, ← hkeys]
            exact hpairs
          · rw [hdeployed]
            exact ⟨fun _ => rfl, fun _ => hsome⟩
          · intro v hv hmarked remote other hother
            rw [hdeployed] at hother
            obtain ⟨-, rfl⟩ := Prod.mk.inj (Option.some.inj hother)
            exact hall v hv hmarked

/-- Metadata that cannot be parsed kills the agent. -/
theorem loadMetadata_dies (henv : env.Reliable) (hmeta : s.metadata = none) :
    Prog.Lands (loadMetadata env) (fun r _ => r = none) n s := by
  unfold Target.metadata at hmeta
  unfold loadMetadata
  refine Prog.Lands.bind ((Prog.ends_read _).mpr ?_)
  cases hcache : s.cache with
  | some entries =>
      rw [hcache] at hmeta
      cases hmeta
  | none =>
      rw [hcache] at hmeta
      dsimp only at hmeta ⊢
      refine Prog.Lands.bind ((Prog.ends_update _).mpr ?_)
      cases hjson : s.content metadataFile with
      | none =>
          rw [hjson] at hmeta
          cases hmeta
      | some json =>
          rw [hjson] at hmeta
          dsimp only at hmeta
          split at hmeta
          · cases hmeta
          next hsize =>
            have hcontent : Target.content { s with cache := some [] } metadataFile =
                some json := hjson
            refine Prog.Lands.bind ?_
            rw [readMetadata, Prog.ends_bind, fopenRead_ends (henv _ _), hcontent]
            dsimp only
            rw [if_neg hsize, Prog.ends_bind, freadAll_ends (henv _ _), Prog.ends_pure]
            dsimp only
            rw [if_pos rfl]
            dsimp only
            rw [hmeta]
            exact rfl

theorem versionsWithCurrent_dies (henv : env.Reliable) (hmeta : s.metadata = none) :
    Prog.Lands (versionsWithCurrent env app) (fun r _ => r = none) n s := by
  unfold versionsWithCurrent
  refine Prog.Lands.bind ((listVersions_ends henv).imp ?_)
  rintro listed m s ⟨rfl, -, -⟩
  refine Prog.Lands.bind_died ?_
  unfold appMetadataGet
  refine Prog.Lands.bind_died ?_
  exact (loadMetadata_dies henv hmeta).imp fun r t hr => ⟨hr, rfl, rfl⟩

/-- A list reply: the shown entries by the modification times of their paths. -/
theorem handleListVersions_reply (henv : env.Reliable) {req : DeployRequest}
    (happ : req.appName ≠ []) {entries : List AppEntry} (hmeta : s.metadata = some entries) :
    Prog.Ends (handleListVersions env req) (fun resp _ t => resp.success = true ∧ t.fs = s.fs ∧
      ∃ shown, Shows env req.appName s shown ∧
        resp.backups = exchangeSort (fun v => s.mtimeAt v.path) shown.length shown) n s := by
  unfold handleListVersions
  rw [if_neg happ, Prog.ends_bind]
  refine (versionsWithCurrent_ends henv hmeta).imp ?_
  rintro shown m t ⟨hfs, hshown⟩
  have hmtime : ∀ path, t.mtimeAt path = s.mtimeAt path := fun path => by
    rw [Target.mtimeAt, Target.mtimeAt, hfs]
  rw [Prog.ends_bind]
  refine (sortVersions_ends henv shown.length shown m).imp ?_
  rintro _ m _ ⟨rfl, rfl⟩
  rw [Prog.ends_pure]
  refine ⟨rfl, hfs, shown, hshown, ?_⟩
  simp only [hmtime]

end Listing

/-- A list reply in order. -/
structure WellListed (app : Bytes) (s : Target) (backups : List VersionEntry) : Prop where
  distinct : (backups.map (·.hash)).Nodup
  newest_first : backups.Pairwise fun v w => s.mtimeAt w.path ≤ s.mtimeAt v.path
  one_current : (backups.filter (·.marked)).length ≤ 1
  current : (∃ v ∈ backups, v.marked = true) ↔ (s.deployed app).isSome
  current_hash : ∀ v ∈ backups, v.marked = true → ∀ remote data,
    s.deployed app = some (remote, data) → v.hash = hexDigest data

/-- `handle_list_versions` stores no more entries than there are slots, and its
successful replies are in order. -/
def ListSafe (env : Env) (app : Bytes) (s : Target) : Prop :=
  (app ≠ [] → ∀ n, Prog.Lands (versionsWithCurrent env app)
    (fun r _ => ∀ entries, r = some entries → entries.length ≤ maxBackupEntries) n s) ∧
  ∀ req n, req.appName = app → Prog.Lands (handleListVersions env req)
    (fun r _ => ∀ resp, r = some resp → resp.success = true →
      WellListed app s resp.backups) n s

/-- There is a slot for the installed version: it is collected, or fewer than 64
hashes are. -/
def SlotLeft (env : Env) (app : Bytes) (s : Target) : Prop :=
  ∀ remote data, s.deployed app = some (remote, data) →
    (collectedKeys env app s).length < maxBackupEntries ∨
      hexDigest data ∈ (collectedKeys env app s).map Prod.fst

section Slots

variable {env : Env} {app : Bytes} {n : Nat} {s : Target}

theorem length_collectedKeys : (collectedKeys env app s).length ≤ maxBackupEntries := by
  rw [← List.length_map Prod.fst, collectedKeys, keepNewBy_map]
  exact length_keepNew_le _ (Nat.zero_le _)

theorem nodup_shown :
    ((collectedKeys env app s ++ addedKey env app s).map Prod.fst).Nodup := by
  have hcollected : ((collectedKeys env app s).map Prod.fst).Nodup := by
    rw [collectedKeys, keepNewBy_map]
    exact keepNew_nodup _ List.nodup_nil
  rw [List.map_append]
  unfold addedKey
  split
  · simpa using hcollected
  · split
    · simpa using hcollected
    next hnew => exact List.Nodup.append hcollected (List.nodup_singleton _) (by simpa using hnew)

theorem length_shown_le_iff :
    (collectedKeys env app s ++ addedKey env app s).length ≤ maxBackupEntries ↔
      SlotLeft env app s := by
  have hlen : (collectedKeys env app s).length ≤ maxBackupEntries := length_collectedKeys
  unfold SlotLeft
  rw [List.length_append]
  cases hdeployed : s.deployed app with
  | none => simpa [addedKey, hdeployed] using hlen
  | some found =>
      obtain ⟨remote, data⟩ := found
      rw [addedKey, hdeployed]
      dsimp only
      constructor
      · rintro hle remote' data' hsame
        obtain ⟨rfl, rfl⟩ := Prod.mk.inj (Option.some.inj hsame)
        split at hle
        next hmem => exact Or.inr hmem
        next hnew =>
          rw [List.length_singleton] at hle
          exact Or.inl (by omega)
      · intro hslot
        rcases hslot remote data rfl with hroom | hmem
        · split
          · simpa using hlen
          · rw [List.length_singleton]
            omega
        · rw [if_pos hmem]
          simpa using hlen

/-- Whatever is shown is in order. -/
theorem Shows.wellListed {shown : List VersionEntry} (h : Shows env app s shown) :
    WellListed app s (exchangeSort (fun v => s.mtimeAt v.path) shown.length shown) := by
  have hperm : (exchangeSort (fun v => s.mtimeAt v.path) shown.length shown).Perm shown :=
    exchangeSort_perm _ _
  have hhashes : shown.map (·.hash) =
      (collectedKeys env app s ++ addedKey env app s).map Prod.fst := by
    rw [← h.keys, List.map_map]
    rfl
  have hdistinct : ((exchangeSort (fun v => s.mtimeAt v.path) shown.length shown).map
      (·.hash)).Nodup := by
    rw [(hperm.map _).nodup_iff, hhashes]
    exact nodup_shown
  have hmarked : ∀ v ∈ exchangeSort (fun v => s.mtimeAt v.path) shown.length shown,
      v.marked = true → ∀ remote data, s.deployed app = some (remote, data) →
      v.hash = hexDigest data := fun v hv => h.installed v (hperm.mem_iff.mp hv)
  have hcurrent : (∃ v ∈ exchangeSort (fun v => s.mtimeAt v.path) shown.length shown,
      v.marked = true) ↔ (s.deployed app).isSome := by
    rw [← h.marks]
    simp only [hperm.mem_iff]
  refine ⟨hdistinct, exchangeSort_sorted _ _ (le_refl _), ?_, hcurrent, hmarked⟩
  cases hdeployed : s.deployed app with
  | none =>
      rw [hdeployed] at hcurrent
      rw [List.filter_eq_nil_iff.mpr fun v hv hmark => by simpa using hcurrent.mp ⟨v, hv, hmark⟩]
      exact Nat.zero_le _
  | some found =>
      have hsame : ((exchangeSort (fun v => s.mtimeAt v.path) shown.length shown).filter
          (·.marked)).map (·.hash) ⊆ [hexDigest found.2] := by
        intro hash hhash
        obtain ⟨v, hv, rfl⟩ := List.mem_map.mp hhash
        obtain ⟨hv, hmark⟩ := List.mem_filter.mp hv
        rw [hmarked v hv hmark found.1 found.2 hdeployed]
        exact List.mem_singleton_self _
      have hnodup : (((exchangeSort (fun v => s.mtimeAt v.path) shown.length shown).filter
          (·.marked)).map (·.hash)).Nodup :=
        hdistinct.sublist (List.filter_sublist.map _)
      have hle := hnodup.length_le_of_subset hsame
      rwa [List.length_map] at hle

theorem handleListVersions_wellListed (henv : env.Reliable) {req : DeployRequest}
    (happ : req.appName = app) : Prog.Lands (handleListVersions env req)
      (fun r _ => ∀ resp, r = some resp → resp.success = true →
        WellListed app s resp.backups) n s := by
  subst happ
  by_cases hne : req.appName = []
  · rw [handleListVersions, if_pos hne, Prog.lands_pure]
    rintro resp ⟨⟩ hsuccess
    cases hsuccess
  · cases hmeta : s.metadata with
    | none =>
        rw [handleListVersions, if_neg hne]
        refine Prog.Lands.bind_died ?_
        exact (versionsWithCurrent_dies henv hmeta).imp fun r t hr => ⟨hr, fun resp h => by cases h⟩
    | some entries =>
        obtain ⟨resp, hresp, -, -, shown, hshown, hbackups⟩ :=
          (handleListVersions_reply henv hne hmeta : Prog.Ends _ _ n s)
        intro other hother _
        rw [← Option.some.inj (hresp.symm.trans hother), hbackups]
        exact hshown.wellListed

theorem Shows.length_eq {shown : List VersionEntry} (h : Shows env app s shown) :
    shown.length = (collectedKeys env app s ++ addedKey env app s).length := by
  rw [← h.keys, List.length_map]

/-- Without a slot for the installed version the list writes behind the last
one. -/
theorem not_listSafe (henv : env.Reliable) (happ : app ≠ []) (hslot : ¬ SlotLeft env app s) :
    ¬ ListSafe env app s := by
  intro hsafe
  cases hmeta : s.metadata with
  | none =>
      refine hslot fun remote data hdeployed => ?_
      simp [Target.deployed, hmeta] at hdeployed
  | some entries =>
      obtain ⟨shown, hresult, -, hshown⟩ :=
        (versionsWithCurrent_ends henv hmeta : Prog.Ends (versionsWithCurrent env app) _ 0 s)
      have hle := hsafe.1 happ 0 shown hresult
      rw [hshown.length_eq] at hle
      exact hslot (length_shown_le_iff.mp hle)

end Slots

/-- The list is safe exactly when there is a slot for the installed version, or
nothing to list. -/
theorem listSafe_iff {env : Env} (henv : env.Reliable) (app : Bytes) (s : Target) :
    ListSafe env app s ↔ app = [] ∨ SlotLeft env app s := by
  constructor
  · intro hsafe
    by_cases happ : app = []
    · exact Or.inl happ
    · by_contra hnot
      rw [not_or] at hnot
      exact not_listSafe henv happ hnot.2 hsafe
  · intro hslot
    refine ⟨fun happ n => ?_, fun req n hreq => handleListVersions_wellListed henv hreq⟩
    have hroom := hslot.resolve_left happ
    cases hmeta : s.metadata with
    | none =>
        exact (versionsWithCurrent_dies henv hmeta).imp fun r t hr entries hentries => by
          rw [hr] at hentries
          cases hentries
    | some found =>
        obtain ⟨shown, hresult, -, hshown⟩ :=
          (versionsWithCurrent_ends henv hmeta : Prog.Ends (versionsWithCurrent env app) _ n s)
        intro entries hentries
        rw [← Option.some.inj (hresult.symm.trans hentries), hshown.length_eq]
        exact length_shown_le_iff.mpr hroom

/-- The path of a backup in the legacy form, which has eight characters. -/
def legacyPath (i : Nat) : Path :=
  backupDir (ascii "demo") ++ ascii "/" ++ UInt8.ofNat (48 + i) :: ascii "0000000.bak"

theorem legacyPath_inj {i j : Nat} (hi : i < 64) (hj : j < 64)
    (h : legacyPath i = legacyPath j) : i = j := by
  have hbyte := congrArg UInt8.toNat (List.cons.inj (List.append_cancel_left h)).1
  rw [UInt8.toNat_ofNat', UInt8.toNat_ofNat'] at hbyte
  omega

/-- The files of 64 backups. -/
def legacyFiles (count : Fin 65) : Fs where
  entries := (List.range count).map fun i => ⟨legacyPath i, [UInt8.ofNat i], 0o755, i⟩
  nodupKeys := by
    rw [List.NodupKeys, List.keys, List.map_map]
    refine List.Nodup.map_on ?_ List.nodup_range
    intro i hi j hj h
    rw [List.mem_range] at hi hj
    exact legacyPath_inj (by omega) (by omega) h

/-- A target with `hi` installed as `demo` and some backups of other versions. -/
def slotTarget (count : Fin 65) : Target where
  fs := (legacyFiles count).insert (ascii "/opt/demo") ⟨ascii "hi", 0o755, 0⟩
  cache := some [⟨ascii "demo", ascii "/opt/demo", [], []⟩]
  session := .zero

theorem listSafe_one : (slotTarget 1).deployed (ascii "demo") =
      some (ascii "/opt/demo", ascii "hi") ∧
    ListSafe (calmEnv demoTime) (ascii "demo") (slotTarget 1) := by
  refine ⟨by decide +kernel, (listSafe_iff (calmEnv_reliable demoTime) _ _).mpr (Or.inr ?_)⟩
  refine fun remote data _ => Or.inl ?_
  decide +kernel

/-- The 64 backups take all slots and the installed version needs another. -/
theorem not_listSafe_full : ¬ ListSafe (calmEnv demoTime) (ascii "demo") (slotTarget 64) := by
  refine not_listSafe (calmEnv_reliable demoTime) (by decide) fun hslot => ?_
  have hfull : (collectedKeys (calmEnv demoTime) (ascii "demo") (slotTarget 64)).map
      (fun key => key.1.length) = List.replicate 64 8 := by
    decide +kernel
  have hdeployed : (slotTarget 64).deployed (ascii "demo") =
      some (ascii "/opt/demo", ascii "hi") := rfl
  rcases hslot _ _ hdeployed with hroom | hmem
  · rw [← List.length_map fun key => key.1.length, hfull] at hroom
    exact absurd hroom (by decide)
  · obtain ⟨key, hkey, hhash⟩ := List.mem_map.mp hmem
    have hlen : key.1.length ∈ List.replicate 64 8 := by
      rw [← hfull]
      exact List.mem_map_of_mem hkey
    rw [hhash, length_hexDigest] at hlen
    exact absurd hlen (by decide)

end SatDeploy.Agent
