import Mathlib.Data.List.Rotate
import SatDeploy.Agent.MetadataMap
import SatDeploy.Agent.VersionHistory
import SatDeploy.Agent.VersionList

/-!
The dial. `handle_rollback` and `handle_list_versions` each collect the backups
of an app into a table of its own and sort it by loops of its own. Both tables
come out in one order, ties included, since the loops look at nothing but the
times. A rollback without a hash goes one step along this order and leaves the
order as it is, so that the rollbacks go round.
-/

namespace SatDeploy.Agent

open Lib

/-- What the handlers take from a directory that is read as `names`. -/
def readKeys (app : Bytes) (names : List Bytes) : List (Bytes × Path) :=
  names.filterMap fun name =>
    (parseBackupFilename name).map fun hash => (hash, existingPath app name)

/-- The first backup of each hash, as a table of 64 slots keeps them. -/
def keptKeys (app : Bytes) (names : List Bytes) : List (Bytes × Path) :=
  keepNewBy Prod.fst maxBackupEntries [] (readKeys app names)

/-- The backups of a directory that is read as `names`, in the order of the
list. -/
def dialOrder (app : Bytes) (names : List Bytes) (s : Target) : List (Bytes × Path) :=
  exchangeSort (fun key => s.mtimeAt key.2) (keptKeys app names).length (keptKeys app names)

/-- What a rollback stores of a backup. -/
def Target.backupEntry (s : Target) (key : Bytes × Path) : BackupEntry :=
  ⟨key.1, key.2, s.mtimeAt key.2⟩

/-- The system reads a directory with these names in this order, whatever has
happened elsewhere. -/
def Env.Reads (env : Env) (names : List Bytes) : Prop :=
  ∀ found : List Bytes, found.Perm names → env.order found = names

section Order

variable {env : Env} {app : Bytes} {names : List Bytes} {s t : Target}

theorem bubbleFront_eq (entries : List BackupEntry) :
    ∀ front, bubbleFront front entries = exchangePass (·.mtime) front entries := by
  induction entries with
  | nil => exact fun _ => rfl
  | cons e rest ih =>
      intro front
      unfold bubbleFront exchangePass
      simp only [ih]

theorem sortByMtime_eq (fuel : Nat) :
    ∀ entries, sortByMtime fuel entries = exchangeSort (·.mtime) fuel entries := by
  induction fuel with
  | zero => exact fun _ => rfl
  | succ fuel ih =>
      intro entries
      cases entries with
      | nil => rfl
      | cons e rest => simp only [sortByMtime, exchangeSort, bubbleFront_eq, ih]

/-- The rollback collects as the list does, but for the size of the table. -/
theorem dialEntries_eq (listed : List (Bytes × Path)) : ∀ kept : List (Bytes × Path),
    dialEntries s listed (kept.map s.backupEntry) =
      (keepNewBy Prod.fst maxDialEntries kept listed).map s.backupEntry := by
  induction listed with
  | nil => exact fun _ => rfl
  | cons key listed ih =>
      intro kept
      have hsame : ((kept.map s.backupEntry).length ≥ maxDialEntries ∨
          (kept.map s.backupEntry).any (·.hash = key.1) = true) ↔
          (kept.length ≥ maxDialEntries ∨ key.1 ∈ kept.map Prod.fst) := by
        rw [List.length_map, List.any_map, List.any_eq_true, List.mem_map]
        refine or_congr_right ⟨?_, ?_⟩
        · rintro ⟨k, hk, hhash⟩
          exact ⟨k, hk, of_decide_eq_true hhash⟩
        · rintro ⟨k, hk, hhash⟩
          exact ⟨k, hk, decide_eq_true hhash⟩
      unfold dialEntries keepNewBy
      by_cases hfull : kept.length ≥ maxDialEntries ∨ key.1 ∈ kept.map Prod.fst
      · rw [if_pos hfull, if_pos (hsame.mpr hfull)]
        exact ih kept
      · rw [if_neg hfull, if_neg (mt hsame.mp hfull), ← ih, List.map_append]
        rfl

theorem dialListing_eq (hfree : s.fs.lookup (backupDir app) = none)
    (hread : env.order (s.namesIn (backupDir app)) = names) :
    dialListing env app s = readKeys app names := by
  unfold dialListing
  rw [hfree, hread]
  rfl

theorem map_fst_readKeys : (readKeys app names).map Prod.fst =
    names.filterMap parseBackupFilename := by
  rw [readKeys, List.map_filterMap]
  congr 1
  funext name
  cases parseBackupFilename name with
  | none => rfl
  | some hash => rfl

theorem nodup_keptKeys : ((keptKeys app names).map Prod.fst).Nodup := by
  rw [keptKeys, keepNewBy_map]
  exact keepNew_nodup _ List.nodup_nil

theorem dialOrder_perm : (dialOrder app names s).Perm (keptKeys app names) :=
  exchangeSort_perm _ _

theorem nodup_dialOrder : ((dialOrder app names s).map Prod.fst).Nodup :=
  (dialOrder_perm.map _).nodup_iff.mpr nodup_keptKeys

/-- With few enough versions the table of the rollback has all that the table of
the list has. -/
theorem dial_eq (hfree : s.fs.lookup (backupDir app) = none)
    (hread : env.order (s.namesIn (backupDir app)) = names)
    (hfew : (names.filterMap parseBackupFilename).toFinset.card ≤ maxDialEntries) :
    dial env app s = (keptKeys app names).map s.backupEntry := by
  have hroom : ((([] : List (Bytes × Path)).map Prod.fst) ++
      (readKeys app names).map Prod.fst).toFinset.card ≤ maxDialEntries := by
    rw [List.map_nil, List.nil_append, map_fst_readKeys]
    exact hfew
  have hkept : keepNewBy Prod.fst maxDialEntries [] (readKeys app names) = keptKeys app names :=
    keepNewBy_of_card (by decide) _ [] List.nodup_nil hroom
  rw [dial, dialListing_eq hfree hread, ← hkept]
  exact dialEntries_eq _ []

/-- The two sorts arrange their tables alike. -/
theorem sortedDial_eq (h : dial env app s = (keptKeys app names).map s.backupEntry) :
    sortByMtime (dial env app s).length (dial env app s) =
      (dialOrder app names s).map s.backupEntry := by
  rw [h, sortByMtime_eq, List.length_map, exchangeSort_map]
  rfl

/-- The entry after the installed version is selected. -/
theorem selectBackup_next (h : dial env app s = (keptKeys app names).map s.backupEntry) {i : Nat}
    {current : Bytes} (hplace : ((dialOrder app names s).map Prod.fst)[i]? = some current)
    (hne : current ≠ []) :
    selectBackup [] current (dial env app s) =
      ((dialOrder app names s)[(i + 1) % (dialOrder app names s).length]?).map s.backupEntry := by
  obtain ⟨hi, hhash⟩ := List.getElem?_eq_some_iff.mp hplace
  rw [List.getElem_map] at hhash
  rw [List.length_map] at hi
  have hfind : ((dialOrder app names s).map s.backupEntry).findIdx?
      (fun e => decide (current ≠ [] ∧ e.hash = current)) = some i := by
    refine List.findIdx?_eq_some_iff_getElem.mpr ⟨by rwa [List.length_map], ?_, ?_⟩
    · rw [List.getElem_map]
      exact decide_eq_true ⟨hne, hhash⟩
    · intro j hj hsame
      rw [List.getElem_map] at hsame
      have heq := (of_decide_eq_true hsame).2
      have hfirst : ((dialOrder app names s).map Prod.fst)[j]? = some current := by
        rw [List.getElem?_map, List.getElem?_eq_getElem (by omega), Option.map_some]
        exact congrArg some heq
      have hnodup : ((dialOrder app names s).map Prod.fst).Nodup := nodup_dialOrder
      have hindex := (List.nodup_iff_getElem?_ne_getElem?.mp hnodup) j i hj (by simpa using hi)
      exact hindex (hfirst.trans hplace.symm)
  unfold selectBackup
  rw [if_neg (by simp)]
  dsimp only
  rw [sortedDial_eq h, hfind]
  simp only [List.length_map, List.getElem?_map]

/-- With room for all versions the order has each hash of the directory. -/
theorem mem_dialOrder (hfew : (names.filterMap parseBackupFilename).toFinset.card ≤ maxDialEntries)
    {hash : Bytes} :
    hash ∈ (dialOrder app names s).map Prod.fst ↔ hash ∈ names.filterMap parseBackupFilename := by
  have hroom : (names.filterMap parseBackupFilename).toFinset.card ≤ maxBackupEntries :=
    le_trans hfew (by decide)
  rw [(dialOrder_perm.map Prod.fst).mem_iff, keptKeys, keepNewBy_map, map_fst_readKeys]
  constructor
  · exact fun h => (mem_keepNew _ h).resolve_left (List.not_mem_nil)
  · exact fun h => subset_keepNew_of_card hroom h

theorem mem_readKeys {key : Bytes × Path} (h : key ∈ dialOrder app names s) :
    key ∈ readKeys app names :=
  (mem_keepNewBy _ (dialOrder_perm.mem_iff.mp h)).resolve_left List.not_mem_nil

/-- The order of a directory goes by the modification times in it. -/
theorem dialOrder_congr (h : ∀ key ∈ readKeys app names, t.mtimeAt key.2 = s.mtimeAt key.2) :
    dialOrder app names t = dialOrder app names s := by
  refine exchangeSort_congr _ _ fun key hkey => h key ?_
  exact (mem_keepNewBy _ hkey).resolve_left List.not_mem_nil

end Order

/-- An app and a path that fit in an entry of the metadata; the path is not that
of a file of the agent. -/
structure DialPath (app : Bytes) (remote : Path) : Prop where
  app_ne : app ≠ []
  app_fits : app.length < maxAppNameLen
  ne : remote ≠ []
  fits : remote.length < maxPathLen
  archive : ¬ InArchive app remote
  metadata : metadataFile ≠ remote

theorem DialPath.filed {app : Bytes} {remote : Path} (h : DialPath app remote) :
    app.length < maxFiledLen :=
  h.app_fits.trans (by decide)

/-- The metadata has `remote` as the path of the app. -/
def Target.Names (s : Target) (app : Bytes) (remote : Path) : Prop :=
  ∃ entries e, s.metadata = some entries ∧ findApp entries app = some e ∧ e.remotePath = remote

/-- A target on the dial: `backup_create` made all files of the directory, which
is read as `names` and has no more versions than the dial, the metadata has the
path of the app, and one of the backups is installed there. -/
structure OnDial (names : List Bytes) (app : Bytes) (remote : Path) (s : Target) : Prop where
  free : s.fs.lookup (backupDir app) = none
  made : DirectorySound Set.univ app s
  read : (s.namesIn (backupDir app)).Perm names
  few : (names.filterMap parseBackupFilename).toFinset.card ≤ maxDialEntries
  named : s.Names app remote
  installed : ∃ p name data, nameIn (backupDir app) p = some name ∧ s.content p = some data ∧
    s.content remote = some data

section Dial

variable {env : Env} {names : List Bytes} {app : Bytes} {remote : Path} {s t : Target} {n : Nat}

theorem nodup_namesIn (s : Target) (dir : Path) : (s.namesIn dir).Nodup := by
  refine List.Nodup.filterMap ?_ s.fs.keys_nodup
  intro p q name hp hq
  rw [nameIn_eq_some hp, nameIn_eq_some hq]

theorem SameArchive.namesIn (h : SameArchive app s t) :
    (t.namesIn (backupDir app)).Perm (s.namesIn (backupDir app)) := by
  rw [List.perm_ext_iff_of_nodup (nodup_namesIn t _) (nodup_namesIn s _)]
  intro name
  simp only [Target.mem_namesIn]
  constructor
  · rintro ⟨p, data, hname, hdata⟩
    exact ⟨p, data, hname, (h.content hname).symm.trans hdata⟩
  · rintro ⟨p, data, hname, hdata⟩
    exact ⟨p, data, hname, (h.content hname).trans hdata⟩

section Places

variable (happ : app.length < maxFiledLen)
include happ

/-- What is read of a directory are backups, under the hashes of their contents. -/
theorem DirectorySound.entry {S : Set Bytes} (h : DirectorySound S app s)
    (hread : (s.namesIn (backupDir app)).Perm names) {key : Bytes × Path}
    (hkey : key ∈ readKeys app names) :
    ∃ name data, nameIn (backupDir app) key.2 = some name ∧ s.content key.2 = some data ∧
      key.1 = hexDigest data := by
  obtain ⟨name, hname, hparse⟩ := List.mem_filterMap.mp hkey
  obtain ⟨hash, hhash, rfl⟩ := Option.map_eq_some_iff.mp hparse
  exact h.lists happ ⟨name, hread.mem_iff.mpr hname, hhash, rfl⟩

/-- While the archive stays, so does the order. -/
theorem OnDial.order_same (h : OnDial names app remote s) (hsame : SameArchive app s t) :
    dialOrder app names t = dialOrder app names s := by
  apply dialOrder_congr
  intro key hkey
  obtain ⟨name, data, hname, -⟩ := h.made.entry happ h.read hkey
  rw [Target.mtimeAt, Target.mtimeAt, hsame _ (Or.inr ⟨name, hname⟩)]

/-- The installed version has a place on the dial. -/
theorem OnDial.place (h : OnDial names app remote s) :
    s.hashAt remote ∈ (dialOrder app names s).map Prod.fst := by
  obtain ⟨p, name, data, hname, hdata, hinstalled⟩ := h.installed
  rw [mem_dialOrder h.few, Target.hashAt, hinstalled]
  refine List.mem_filterMap.mpr ⟨name, ?_, (h.made.listed happ hname hdata).1⟩
  exact h.read.mem_iff.mp (Target.mem_namesIn.mpr ⟨p, data, hname, hdata⟩)

end Places

theorem OnDial.deployed (h : OnDial names app remote s) {data : Bytes}
    (hdata : s.content remote = some data) : s.deployed app = some (remote, data) := by
  obtain ⟨entries, e, hmeta, hfound, rfl⟩ := h.named
  simp [Target.deployed, hmeta, hfound, hdata]

/-- The list shows the dial in its order, with the installed version marked. -/
theorem OnDial.reply (h : OnDial names app remote s) (hpath : DialPath app remote)
    (henv : env.Reliable) (hreads : env.Reads names) {req : DeployRequest}
    (hname : req.appName = app) :
    Prog.Ends (handleListVersions env req) (fun resp _ _ => resp.success = true ∧
      resp.backups.map (·.key) = dialOrder app names s ∧
      (∃ v, resp.backups.filter (·.marked) = [v]) ∧
      ∀ v ∈ resp.backups, v.marked = true → v.hash = s.hashAt remote) n s := by
  subst hname
  obtain ⟨-, -, data, -, -, hdata⟩ := h.installed
  obtain ⟨entries, e, hmeta, -⟩ := h.named
  have hdeployed := h.deployed hdata
  have hcollected : collectedKeys env req.appName s = keptKeys req.appName names := by
    rw [collectedKeys, dialListing_eq h.free (hreads _ h.read), keptKeys]
  have hadded : addedKey env req.appName s = [] := by
    have hplace := h.place hpath.filed
    rw [(dialOrder_perm.map Prod.fst).mem_iff, Target.hashAt, hdata] at hplace
    rw [addedKey, hdeployed, hcollected]
    exact if_pos hplace
  refine (handleListVersions_reply henv hpath.app_ne hmeta).imp ?_
  rintro resp m t ⟨hsuccess, -, shown, hshown, hbackups⟩
  have hkeys : shown.map (·.key) = keptKeys req.appName names := by
    rw [hshown.keys, hadded, hcollected, List.append_nil]
  have hwell := hshown.wellListed
  rw [← hbackups] at hwell
  refine ⟨hsuccess, ?_, ?_, fun v hv hmarked => ?_⟩
  · have hlen : (keptKeys req.appName names).length = shown.length := by
      rw [← hkeys, List.length_map]
    rw [hbackups, dialOrder, hlen, ← hkeys, exchangeSort_map]
    rfl
  · obtain ⟨v, hv, hmarked⟩ := hwell.current.mpr (by rw [hdeployed]; rfl)
    have hmem := List.mem_filter.mpr ⟨hv, hmarked⟩
    have hone := hwell.one_current
    exact List.length_eq_one_iff.mp (le_antisymm hone (List.length_pos_of_mem hmem))
  · rw [hwell.current_hash v hv hmarked remote data hdeployed, Target.hashAt, hdata]
    rfl

/-- A restore with the installed version on the dial leaves the archive as it is
and the path of the app in the metadata. -/
theorem restoreSelected_turns (hpath : DialPath app remote) (henv : env.Reliable)
    {entries : List BackupEntry}
    {selected : BackupEntry} {data : Bytes} (hnamed : s.Names app remote)
    (hlisted : s.hashAt remote ∈ entries.map (·.hash))
    (hdata : s.content selected.path = some data) :
    Prog.Ends (restoreSelected env app remote (s.hashAt remote) entries selected)
      (fun resp _ t => resp = succeed selected.path ∧ t.content remote = some data ∧
        SameArchive app s t ∧ t.Names app remote) n s := by
  obtain ⟨table, e, hmeta, hfound, -⟩ := hnamed
  have hknown : ¬ (s.hashAt remote ≠ [] ∧
      (!(entries.any (·.hash = s.hashAt remote))) = true) := by
    obtain ⟨listed, hmem, hhash⟩ := List.mem_map.mp hlisted
    rintro ⟨-, hnone⟩
    have hany : entries.any (·.hash = s.hashAt remote) = true :=
      List.any_eq_true.mpr ⟨listed, hmem, decide_eq_true hhash⟩
    rw [hany] at hnone
    cases hnone
  unfold restoreSelected
  dsimp only
  rw [if_neg hknown, Prog.ends_bind]
  have hmemory : Prog.wp (backupRestore env selected.path remote) _ _ n s :=
    backupRestore_memory selected.path remote s.cache s.session n s ⟨rfl, rfl⟩
  refine ((backupRestore_reliable henv hdata).and_wp hmemory).imp ?_
  rintro _ m t ⟨⟨rfl, hcontent, hothers⟩, hcache, -⟩
  have hsame : t.metadata = some table := by
    rw [← hmeta]
    unfold Target.metadata
    rw [hcache, Target.content_congr (hothers _ hpath.metadata)]
  have hspares : Spares (· = metadataFile) (appMetadataSave env app remote selected.hash) :=
    appMetadataSave_spares (W := (· = metadataFile)) rfl app remote selected.hash
  rw [if_pos rfl, Prog.ends_bind]
  refine ((appMetadataSave_reliable henv app remote selected.hash hsame).and_wp
    (hspares.frame m t)).imp ?_
  rintro saved m' u ⟨⟨now, hsaved⟩, hspared⟩
  have hmem : app ∈ table.map (·.appName) := by
    by_contra hnone
    rw [findApp_eq_none.mpr hnone] at hfound
    cases hfound
  have hchange : ∀ e : AppEntry, (e.deployed env remote selected.hash now).appName = e.appName :=
    fun _ => rfl
  obtain ⟨updated, hupdate, -, hupdated, -⟩ :=
    updateEntry_short hchange hpath.app_fits (Or.inl hmem)
  rw [hupdate] at hsaved
  rw [Prog.ends_pure]
  refine ⟨rfl, ?_, fun p hp => ?_, updated, _, metadata_of_cache hsaved.2.1, hupdated, ?_⟩
  · rw [Target.content_congr (hspared _ hpath.metadata.symm), hcontent]
  · rw [hspared p ?_, hothers p ?_]
    · rintro rfl
      exact hpath.archive hp
    · rintro rfl
      exact metadataFile_notInArchive hp
  · exact clip_of_lt hpath.fits

end Dial

/-- A command as the agent takes it, after `calls` library calls. -/
structure Command where
  env : Env
  calls : Nat
  req : DeployRequest

def Command.rollback (c : Command) (s : Target) : Outcome Target DeployResponse :=
  handleRollback c.env c.req c.calls s

def Command.list (c : Command) (s : Target) : Outcome Target Response :=
  handleListVersions c.env c.req c.calls s

/-- A command for the app while no call fails and the directory is read as
`names`. -/
structure Command.Serves (c : Command) (names : List Bytes) (app : Bytes) : Prop where
  reliable : c.env.Reliable
  reads : c.env.Reads names
  app : c.req.appName = app

/-- A rollback request for the app without a hash, and for no other path. -/
structure Command.Dials (c : Command) (app : Bytes) (remote : Path) (names : List Bytes) :
    Prop extends c.Serves names app where
  hash : c.req.rollbackHash = []
  path : c.req.remotePath = [] ∨ c.req.remotePath = remote

/-- What comes of rollbacks in a row. -/
def rollbackRun : Target → List Command → List (Outcome Target DeployResponse)
  | _, [] => []
  | s, c :: rest => c.rollback s :: rollbackRun (c.rollback s).state rest

/-- A rollback to the entry `next` of the dial. -/
structure Turned (names : List Bytes) (app : Bytes) (remote : Path) (s : Target)
    (next : Bytes × Path) (o : Outcome Target DeployResponse) : Prop where
  answer : o.result = some (succeed next.2)
  content : o.state.content remote = s.content next.2
  hash : o.state.hashAt remote = next.1
  archive : SameArchive app s o.state
  onDial : OnDial names app remote o.state

section Turns

variable {names : List Bytes} {app : Bytes} {remote : Path} {s t : Target}

theorem OnDial.target (h : OnDial names app remote s) (hpath : DialPath app remote) {c : Command}
    (hc : c.Dials app remote names) : rollbackTarget c.req s = some remote := by
  obtain ⟨entries, e, hmeta, hfound, rfl⟩ := h.named
  unfold rollbackTarget
  rcases hc.path with hnone | hgiven
  · rw [if_neg (by simp [hnone]), hmeta, hc.app, Option.bind_some, hfound]
    exact if_pos hpath.ne
  · rw [hgiven, if_pos hpath.ne]

theorem OnDial.hashAt_ne_nil (h : OnDial names app remote s) : s.hashAt remote ≠ [] := by
  obtain ⟨-, -, data, -, -, hdata⟩ := h.installed
  rw [Target.hashAt, hdata]
  exact hexDigest_ne_nil data

variable (hpath : DialPath app remote)
include hpath

theorem OnDial.same (h : OnDial names app remote s) (hsame : SameArchive app s t)
    (hnamed : t.Names app remote) {key : Bytes × Path} (hkey : key ∈ readKeys app names)
    (hcontent : t.content remote = s.content key.2) : OnDial names app remote t := by
  obtain ⟨name, data, hname, hdata, -⟩ := h.made.entry hpath.filed h.read hkey
  refine ⟨(hsame _ (Or.inl rfl)).trans h.free, ?_, hsame.namesIn.trans h.read, h.few, hnamed, ?_⟩
  · intro p name data hname hdata
    exact h.made p name data hname ((hsame.content hname).symm.trans hdata)
  · exact ⟨key.2, name, data, hname, (hsame.content hname).trans hdata, hcontent.trans hdata⟩

/-- A rollback goes one step along the dial. -/
theorem OnDial.turn (h : OnDial names app remote s) {c : Command}
    (hc : c.Dials app remote names) {i : Nat}
    (hplace : ((dialOrder app names s).map Prod.fst)[i]? = some (s.hashAt remote)) :
    ∃ next, (dialOrder app names s)[(i + 1) % (dialOrder app names s).length]? = some next ∧
      Turned names app remote s next (c.rollback s) := by
  have hdial := dial_eq h.free (hc.reads _ h.read) h.few
  have hselects := selectBackup_next hdial hplace h.hashAt_ne_nil
  have hlt : i < (dialOrder app names s).length := by
    simpa using (List.getElem?_eq_some_iff.mp hplace).1
  obtain ⟨next, hnext⟩ : ∃ next,
      (dialOrder app names s)[(i + 1) % (dialOrder app names s).length]? = some next :=
    ⟨_, List.getElem?_eq_getElem (Nat.mod_lt _ (by omega))⟩
  rw [hnext, Option.map_some] at hselects
  have hkey := mem_readKeys (List.mem_of_getElem? hnext)
  obtain ⟨name, data, -, hdata, hhash⟩ := h.made.entry hpath.filed h.read hkey
  have hlisted : s.hashAt remote ∈ (dial c.env app s).map (·.hash) := by
    have hmem := (dialOrder_perm.map Prod.fst).mem_iff.mp (h.place hpath.filed)
    rw [hdial, List.map_map]
    exact hmem
  refine ⟨next, hnext, ?_⟩
  have hlands : Prog.Lands (handleRollback c.env c.req) (fun r t => r = some (succeed next.2) ∧
      t.content remote = some data ∧ SameArchive app s t ∧ t.Names app remote) c.calls s := by
    refine handleRollback_selects hc.reliable hc.app hpath.app_ne (h.target hpath hc) ?_ ?_
    · intro hnone
      rw [hc.hash, hselects] at hnone
      cases hnone
    · intro selected m t hselected hfs hmeta
      rw [hc.hash, hselects] at hselected
      obtain rfl := Option.some.inj hselected
      have hlookup : ∀ p, t.fs.lookup p = s.fs.lookup p := fun p => by rw [hfs]
      have hcurrent : t.hashAt remote = s.hashAt remote := by
        rw [Target.hashAt, Target.content_congr (hlookup remote), Target.hashAt]
      have hnamed : t.Names app remote := by
        obtain ⟨entries, e, hentries, hfound⟩ := h.named
        exact ⟨entries, e, hmeta.trans hentries, hfound⟩
      have hdata' : t.content (s.backupEntry next).path = some data :=
        (Target.content_congr (hlookup next.2)).trans hdata
      have hends := restoreSelected_turns (n := m) hpath hc.reliable hnamed
        (hcurrent ▸ hlisted) hdata'
      rw [hcurrent] at hends
      obtain ⟨resp, hresp, rfl, hcontent, hsame, hends⟩ := hends
      refine ⟨hresp, hcontent, fun p hp => ?_, hends⟩
      exact (hsame p hp).trans (hlookup p)
  obtain ⟨hanswer, hcontent, hsame, hnamed⟩ := hlands
  have hrestored := hcontent.trans hdata.symm
  refine ⟨hanswer, hrestored, ?_, hsame, h.same hpath hsame hnamed hkey hrestored⟩
  change ((handleRollback c.env c.req c.calls s).state).hashAt remote = next.1
  rw [Target.hashAt, hcontent, hhash]
  rfl

/-- Rollbacks in a row go along the dial, one step each. -/
theorem OnDial.turns (rolls : List Command) : ∀ {s : Target} {i : Nat},
    OnDial names app remote s → (∀ c ∈ rolls, c.Dials app remote names) →
    ((dialOrder app names s).map Prod.fst)[i]? = some (s.hashAt remote) →
    ∀ k o, (rollbackRun s rolls)[k]? = some o →
      o.result.map (·.success) = some true ∧ SameArchive app s o.state ∧
      OnDial names app remote o.state ∧
      ((dialOrder app names s).map Prod.fst)[(k + (i + 1)) % (dialOrder app names s).length]? =
        some (o.state.hashAt remote) := by
  induction rolls with
  | nil =>
      intro s i _ _ _ k o ho
      cases ho
  | cons c rest ih =>
      intro s i h hrolls hplace k o ho
      obtain ⟨next, hnext, hturned⟩ :=
        h.turn hpath (hrolls c List.mem_cons_self) hplace
      have hplace' : ((dialOrder app names s).map Prod.fst)[(i + 1) %
          (dialOrder app names s).length]? = some ((c.rollback s).state.hashAt remote) := by
        rw [List.getElem?_map, hnext, hturned.hash]
        rfl
      cases k with
      | zero =>
          obtain rfl := Option.some.inj ho
          rw [hturned.answer, Nat.zero_add]
          exact ⟨rfl, hturned.archive, hturned.onDial, hplace'⟩
      | succ k =>
          have horder := h.order_same hpath.filed hturned.archive
          rw [← horder] at hplace'
          obtain ⟨hsuccess, hsame, hondial, hhash⟩ := ih hturned.onDial
            (fun c hc => hrolls c (List.mem_cons_of_mem _ hc)) hplace' k o ho
          refine ⟨hsuccess, hturned.archive.trans hsame, hondial, ?_⟩
          rw [horder] at hhash
          have hshift : k + ((i + 1) % (dialOrder app names s).length + 1) =
              k + 1 + (i + 1) % (dialOrder app names s).length := by omega
          rw [← hhash, hshift, Nat.add_mod_mod]

end Turns

/-- The rollback restores the entry that follows the one marked as current in
the list, the first one after the last. -/
def FollowsList (remote : Path) (s : Target) (listed : Outcome Target Response)
    (rolled : Outcome Target DeployResponse) : Prop :=
  ∃ resp i current next, listed.result = some resp ∧ resp.success = true ∧
    resp.backups[i]? = some current ∧ resp.backups.filter (·.marked) = [current] ∧
    resp.backups[(i + 1) % resp.backups.length]? = some next ∧
    rolled.result = some (succeed next.path) ∧
    rolled.state.content remote = s.content next.path ∧ rolled.state.hashAt remote = next.hash

/-- The contents of the backups of an app. -/
def Target.archive (s : Target) (app : Bytes) : Set Bytes :=
  {data | ∃ p name, nameIn (backupDir app) p = some name ∧ s.content p = some data}

/-- Each version of the directory is restored once, the installed one at last. -/
structure GoesRound (app : Bytes) (remote : Path) (s : Target)
    (outcomes : List (Outcome Target DeployResponse)) : Prop where
  success : ∀ o ∈ outcomes, o.result.map (·.success) = some true
  each : (outcomes.map (·.state.hashAt remote)).Perm (s.backupHashes app).dedup
  returns : ∃ last, outcomes.getLast? = some last ∧
    last.state.hashAt remote = s.hashAt remote ∧
    (Set.InjOn hexDigest (s.archive app) → last.state.content remote = s.content remote)

section Cycle

variable {names : List Bytes} {app : Bytes} {remote : Path} {s : Target}

theorem length_rollbackRun (rolls : List Command) : ∀ s : Target,
    (rollbackRun s rolls).length = rolls.length := by
  induction rolls with
  | nil => exact fun _ => rfl
  | cons c rest ih => exact fun s => congrArg (· + 1) (ih _)

/-- The dial has each hash of the directory once. -/
theorem OnDial.hashes (h : OnDial names app remote s) :
    ((dialOrder app names s).map Prod.fst).Perm (s.backupHashes app).dedup := by
  rw [List.perm_ext_iff_of_nodup nodup_dialOrder (List.nodup_dedup _)]
  intro hash
  rw [mem_dialOrder h.few, List.mem_dedup, Target.backupHashes, h.free]
  exact ((h.read.filterMap _).mem_iff).symm

theorem OnDial.follows (hpath : DialPath app remote) (h : OnDial names app remote s)
    {list roll : Command} (hlist : list.Serves names app) (hroll : roll.Dials app remote names) :
    FollowsList remote s (list.list s) (roll.rollback s) := by
  obtain ⟨resp, hresult, hsuccess, hkeys, ⟨current, hcurrent⟩, hmarked⟩ :=
    h.reply (n := list.calls) hpath hlist.reliable hlist.reads hlist.app
  have hmem : current ∈ resp.backups.filter (·.marked) := by
    rw [hcurrent]
    exact List.mem_singleton_self _
  obtain ⟨hmem, hmark⟩ := List.mem_filter.mp hmem
  obtain ⟨i, hi⟩ := List.mem_iff_getElem?.mp hmem
  have hplace : ((dialOrder app names s).map Prod.fst)[i]? = some (s.hashAt remote) := by
    rw [← hkeys, List.map_map, List.getElem?_map, hi, ← hmarked current hmem hmark]
    rfl
  obtain ⟨key, hkey, hturned⟩ := h.turn hpath hroll hplace
  rw [← hkeys, List.getElem?_map, List.length_map] at hkey
  obtain ⟨next, hnext, rfl⟩ := Option.map_eq_some_iff.mp hkey
  exact ⟨resp, i, current, next, hresult, hsuccess, hi, hcurrent, hnext, hturned.answer,
    hturned.content, hturned.hash⟩

theorem OnDial.round (hpath : DialPath app remote) (h : OnDial names app remote s)
    {rolls : List Command} (hrolls : ∀ c ∈ rolls, c.Dials app remote names)
    (hlen : rolls.length = (s.backupHashes app).toFinset.card) :
    GoesRound app remote s (rollbackRun s rolls) := by
  obtain ⟨i, hplace⟩ := List.mem_iff_getElem?.mp (h.place hpath.filed)
  have hturns := h.turns hpath rolls hrolls hplace
  have hcount : rolls.length = (dialOrder app names s).length := by
    rw [hlen, List.card_toFinset, ← h.hashes.length_eq, List.length_map]
  have hi : i < (dialOrder app names s).length := by
    simpa using (List.getElem?_eq_some_iff.mp hplace).1
  have hrotated : (rollbackRun s rolls).map (·.state.hashAt remote) =
      ((dialOrder app names s).map Prod.fst).rotate (i + 1) := by
    apply List.ext_getElem?
    intro k
    by_cases hk : k < (dialOrder app names s).length
    · have hlt : k < (rollbackRun s rolls).length := by
        rw [length_rollbackRun]
        omega
      obtain ⟨-, -, -, hhash⟩ := hturns k _ (List.getElem?_eq_getElem hlt)
      rw [List.getElem?_rotate (by rwa [List.length_map]), List.length_map, hhash,
        List.getElem?_map, List.getElem?_eq_getElem hlt]
      rfl
    · rw [List.getElem?_eq_none (by rw [List.length_map, length_rollbackRun]; omega),
        List.getElem?_eq_none (by rw [List.length_rotate, List.length_map]; omega)]
  refine ⟨?_, ?_, ?_⟩
  · intro o ho
    obtain ⟨k, hk⟩ := List.mem_iff_getElem?.mp ho
    exact (hturns k o hk).1
  · rw [hrotated]
    exact (List.rotate_perm _ _).trans h.hashes
  · have hlast : rolls.length - 1 < (rollbackRun s rolls).length := by
      rw [length_rollbackRun]
      omega
    have hget := List.getElem?_eq_getElem hlast
    obtain ⟨-, hsame, hondial, hhash⟩ := hturns _ _ hget
    have hback : (rolls.length - 1 + (i + 1)) % (dialOrder app names s).length = i := by
      have hshift : rolls.length - 1 + (i + 1) = i + (dialOrder app names s).length := by omega
      rw [hshift, Nat.add_mod_right, Nat.mod_eq_of_lt hi]
    rw [hback, hplace] at hhash
    have hreturned := (Option.some.inj hhash).symm
    refine ⟨_, ?_, hreturned, fun hinj => ?_⟩
    · rw [List.getLast?_eq_getElem?, length_rollbackRun]
      exact hget
    · obtain ⟨p, name, data, hname, hdata, hinstalled⟩ := h.installed
      obtain ⟨q, name', data', hname', hdata', hinstalled'⟩ := hondial.installed
      rw [Target.hashAt, Target.hashAt, hinstalled, hinstalled'] at hreturned
      rw [hinstalled, hinstalled', hinj ⟨q, name', hname', ?_⟩ ⟨p, name, hname, hdata⟩ hreturned]
      rw [← hsame.content hname', hdata']

end Cycle

/-- A rollback restores what follows the current version in the list, and as
many rollbacks as there are versions restore each of them once. -/
theorem dial_follows_list {names : List Bytes} {app : Bytes} {remote : Path} {s : Target}
    (hpath : DialPath app remote) (h : OnDial names app remote s) :
    (∀ list roll : Command, list.Serves names app → roll.Dials app remote names →
      FollowsList remote s (list.list s) (roll.rollback s)) ∧
    ∀ rolls : List Command, (∀ c ∈ rolls, c.Dials app remote names) →
      rolls.length = (s.backupHashes app).toFinset.card →
      GoesRound app remote s (rollbackRun s rolls) :=
  ⟨fun _ _ hlist hroll => h.follows hpath hlist hroll,
    fun _ hrolls hlen => h.round hpath hrolls hlen⟩

/-- A backup of the app `demo`. -/
def dialFile (data : String) : Path :=
  backupPath (ascii "demo") demoTime (hexDigest (ascii data))

/-- Two backups with one time, the first of them installed. -/
def dialTarget : Target :=
  ((Target.put ⟨∅, some [⟨ascii "demo", ascii "/opt/demo", [], []⟩], .zero⟩
    (dialFile "hi") ⟨ascii "hi", 0o755, 5⟩).put
    (dialFile "ho") ⟨ascii "ho", 0o755, 5⟩).put
    (ascii "/opt/demo") ⟨ascii "hi", 0o755, 9⟩

def dialNames : List Bytes := dialTarget.namesIn (backupDir (ascii "demo"))

/-- Nothing fails, and the directory of `dialTarget` is read in one order. -/
def dialEnv : Env :=
  { calmEnv demoTime with
    order := fun found => if found.Perm dialNames then dialNames else found
    order_perm := fun found => by
      split
      next h => exact h.symm
      next => exact .refl _ }

/-- A rollback request without a hash. -/
def dialRequest : Command :=
  ⟨dialEnv, 0, { versionRequest (ascii "demo") [] with remotePath := [] }⟩

theorem dial_follows_list_demo :
    FollowsList (ascii "/opt/demo") dialTarget (dialRequest.list dialTarget)
      (dialRequest.rollback dialTarget) ∧
    GoesRound (ascii "demo") (ascii "/opt/demo") dialTarget
      (rollbackRun dialTarget [dialRequest, dialRequest]) := by
  have hpath : DialPath (ascii "demo") (ascii "/opt/demo") :=
    ⟨by decide, by decide, by decide, by decide, installable_demo.archive,
      installable_demo.metadata⟩
  have hserves : dialRequest.Serves dialNames (ascii "demo") :=
    ⟨fun _ _ => rfl, fun found hfound => if_pos hfound, rfl⟩
  have hdials : dialRequest.Dials (ascii "demo") (ascii "/opt/demo") dialNames :=
    ⟨hserves, rfl, Or.inl rfl⟩
  have hhi : nameIn (backupDir (ascii "demo")) (dialFile "hi") = _ :=
    nameIn_backupPath hpath.filed
  have hfiles : dialTarget.content (dialFile "hi") = some (ascii "hi") ∧
      dialTarget.content (ascii "/opt/demo") = some (ascii "hi") ∧
      dialTarget.fs.lookup (backupDir (ascii "demo")) = none ∧
      (dialTarget.backupHashes (ascii "demo")).toFinset.card = 2 ∧
      (dialNames.filterMap parseBackupFilename).toFinset.card ≤ maxDialEntries := by
    decide +kernel
  have hmade : DirectorySound Set.univ (ascii "demo") dialTarget := by
    intro p name data hname hdata
    refine ⟨trivial, demoTime, ?_⟩
    have hopt : p ≠ ascii "/opt/demo" := by
      rintro rfl
      exact installable_demo.archive (Or.inr ⟨name, hname⟩)
    rw [dialTarget, Target.content_put_ne hopt] at hdata
    by_cases hho : p = dialFile "ho"
    · rw [hho, Target.content_put] at hdata
      rw [← Option.some.inj hdata, hho, dialFile]
    · rw [Target.content_put_ne hho] at hdata
      by_cases hhi : p = dialFile "hi"
      · rw [hhi, Target.content_put] at hdata
        rw [← Option.some.inj hdata, hhi, dialFile]
      · rw [Target.content_put_ne hhi] at hdata
        cases hdata
  have hondial : OnDial dialNames (ascii "demo") (ascii "/opt/demo") dialTarget :=
    ⟨hfiles.2.2.1, hmade, .refl _, hfiles.2.2.2.2, ⟨_, _, rfl, rfl, rfl⟩,
      ⟨_, _, _, hhi, hfiles.1, hfiles.2.1⟩⟩
  obtain ⟨hfollows, hround⟩ := dial_follows_list hpath hondial
  refine ⟨hfollows _ _ hserves hdials, hround _ ?_ ?_⟩
  · intro c hc
    have hsame : c = dialRequest := by simpa using hc
    rw [hsame]
    exact hdials
  · exact hfiles.2.2.2.1.symm

end SatDeploy.Agent
