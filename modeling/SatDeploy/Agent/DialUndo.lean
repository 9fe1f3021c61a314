import SatDeploy.Agent.DialCycle
import SatDeploy.Agent.InstallAtomicity
import SatDeploy.Lib.Recency

/-!
Whether a rollback undoes the deploy before it. The dial goes by the times of
the backups, and a version keeps the backup of its first install. A rollback
therefore leads from the deployed version to the next older backup, which is
the version that was replaced only as long as versions come and go in order.
-/

namespace SatDeploy.Agent

open Lib Svu

/-- The versions in the archive of an app, with the times of their backups. -/
def Target.history (s : Target) (app : Bytes) : Set (Bytes × Nat) :=
  {v | ∃ p name f, nameIn (backupDir app) p = some name ∧ s.fs.lookup p = some f ∧
    v = (f.data, f.mtime)}

/-- The versions of a directory that is read as `names`, in the order of the
dial. -/
def timedOrder (app : Bytes) (names : List Bytes) (s : Target) : List (Bytes × Nat) :=
  (dialOrder app names s).map fun key => ((s.content key.2).getD [], s.mtimeAt key.2)

section History

variable {S : Set Bytes} {env : Env} {names : List Bytes} {app : Bytes} {s t : Target}

theorem SameArchive.history (h : SameArchive app s t) : t.history app = s.history app := by
  ext v
  constructor
  · rintro ⟨p, name, f, hname, hlookup, rfl⟩
    exact ⟨p, name, f, hname, (h p (Or.inr ⟨name, hname⟩)).symm.trans hlookup, rfl⟩
  · rintro ⟨p, name, f, hname, hlookup, rfl⟩
    exact ⟨p, name, f, hname, (h p (Or.inr ⟨name, hname⟩)).trans hlookup, rfl⟩

theorem history_empty_iff : s.history app = ∅ ↔ s.namesIn (backupDir app) = [] := by
  rw [Set.eq_empty_iff_forall_notMem, List.eq_nil_iff_forall_not_mem]
  simp only [Target.mem_namesIn]
  constructor
  · rintro hnone name ⟨p, data, hname, hdata⟩
    obtain ⟨f, hlookup, -⟩ := exists_lookup hdata
    exact hnone _ ⟨p, name, f, hname, hlookup, rfl⟩
  · rintro hnone _ ⟨p, name, f, hname, hlookup, -⟩
    exact hnone name ⟨p, f.data, hname, Target.content_of_lookup hlookup⟩

theorem Archived.mem_of_history (h : Archived S app s) {data : Bytes} {k : Nat}
    (hmem : (data, k) ∈ s.history app) : data ∈ S := by
  obtain ⟨p, name, f, hname, hlookup, heq⟩ := hmem
  obtain ⟨rfl, rfl⟩ := Prod.mk.inj heq
  exact (h.sound p name _ hname (Target.content_of_lookup hlookup)).1

section Fitting

variable (happ : app.length < maxFiledLen) (hinj : Set.InjOn hexDigest S)
include happ hinj

theorem Archived.hasBackup_iff_history (h : Archived S app s) {data : Bytes} (hdata : data ∈ S) :
    s.HasBackup app (hexDigest data) ↔ ∃ k, (data, k) ∈ s.history app := by
  rw [h.hasBackup_iff happ]
  constructor
  · rintro ⟨p, name, found, hname, hfound, hhash⟩
    obtain rfl := hinj (h.sound p name found hname hfound).1 hdata hhash
    obtain ⟨f, hlookup, rfl⟩ := exists_lookup hfound
    exact ⟨f.mtime, p, name, f, hname, hlookup, rfl⟩
  · rintro ⟨k, p, name, f, hname, hlookup, heq⟩
    obtain ⟨rfl, rfl⟩ := Prod.mk.inj heq
    exact ⟨p, name, f.data, hname, Target.content_of_lookup hlookup, rfl⟩

/-- Filing a version leaves the history alone or adds the version, with a time
of the call. -/
theorem Archived.history_filed (h : Archived S app s) {data : Bytes} (hdata : data ∈ S)
    (hfiled : Filed env app (some data) s t) :
    ((∃ k, (data, k) ∈ s.history app) ∧ t.history app = s.history app) ∨
      (∀ k, (data, k) ∉ s.history app) ∧
        ∃ j, t.history app = insert (data, env.clock j) (s.history app) := by
  cases hfiled with
  | kept hsame hhas =>
      exact Or.inl ⟨(h.hasBackup_iff_history happ hinj hdata).mp (hhas data rfl), hsame.history⟩
  | added hnew k hfile hfresh hothers =>
      have hnone : ∀ k, (data, k) ∉ s.history app := fun k hk =>
        hnew ((h.hasBackup_iff_history happ hinj hdata).mpr ⟨k, hk⟩)
      obtain ⟨hcontent, j, htime⟩ := hfresh
      refine Or.inr ⟨hnone, j, ?_⟩
      ext v
      constructor
      · rintro ⟨p, name, f, hname, hlookup, rfl⟩
        by_cases hp : p = backupPath app (env.localtime (env.clock k)) (hexDigest data)
        · rw [hp, hfile] at hlookup
          rw [← Option.some.inj hlookup, hcontent, htime]
          exact Or.inl rfl
        · rw [hothers p (Or.inr ⟨name, hname⟩) hp] at hlookup
          exact Or.inr ⟨p, name, f, hname, hlookup, rfl⟩
      · rintro (rfl | ⟨p, name, f, hname, hlookup, rfl⟩)
        · exact ⟨_, _, _, nameIn_backupPath happ, hfile, by rw [hcontent, htime]⟩
        · refine ⟨p, name, f, hname, ?_, rfl⟩
          rw [hothers p (Or.inr ⟨name, hname⟩) ?_, hlookup]
          rintro rfl
          -- a file of that name would be a backup of the same hash
          refine hnew ⟨h.free, name, Target.mem_namesIn.mpr ⟨_, f.data, hname,
            Target.content_of_lookup hlookup⟩, ?_⟩
          rw [nameIn_backupPath happ] at hname
          rw [← Option.some.inj hname]
          exact hashSuffix_backupName _ _

end Fitting

section Order

variable (happ : app.length < maxFiledLen) (h : Archived S app s)
  (hread : (s.namesIn (backupDir app)).Perm names)
include happ h hread

/-- An entry of the order, as a file. -/
theorem Archived.dialEntry {key : Bytes × Path} (hkey : key ∈ readKeys app names) :
    ∃ name f, nameIn (backupDir app) key.2 = some name ∧ s.fs.lookup key.2 = some f ∧
      key.1 = hexDigest f.data ∧ ((s.content key.2).getD [], s.mtimeAt key.2) =
        (f.data, f.mtime) := by
  obtain ⟨name, data, hname, hdata, hhash⟩ := h.sound.entry happ hread hkey
  obtain ⟨f, hlookup, rfl⟩ := exists_lookup hdata
  refine ⟨name, f, hname, hlookup, hhash, ?_⟩
  rw [hdata, Target.mtimeAt, hlookup]
  rfl

theorem timedOrder_hashes : (timedOrder app names s).map (fun v => hexDigest v.1) =
    (dialOrder app names s).map Prod.fst := by
  rw [timedOrder, List.map_map]
  refine List.map_congr_left fun key hkey => ?_
  obtain ⟨name, f, -, -, hhash, hversion⟩ := h.dialEntry happ hread (mem_readKeys hkey)
  rw [hhash, Function.comp_apply, hversion]

theorem nodup_timedOrder : ((timedOrder app names s).map Prod.fst).Nodup := by
  have hhashes : (((timedOrder app names s).map Prod.fst).map hexDigest).Nodup := by
    rw [List.map_map]
    exact (timedOrder_hashes happ h hread).symm ▸ nodup_dialOrder
  exact List.Nodup.of_map hexDigest hhashes

omit happ h hread in
theorem timedOrder_sorted : (timedOrder app names s).Pairwise fun a b => b.2 ≤ a.2 :=
  List.pairwise_map.mpr (exchangeSort_sorted _ _ (le_refl _))

/-- With room for all versions the order has the whole history. -/
theorem mem_timedOrder
    (hfew : (names.filterMap parseBackupFilename).toFinset.card ≤ maxDialEntries)
    (v : Bytes × Nat) : v ∈ timedOrder app names s ↔ v ∈ s.history app := by
  constructor
  · intro hv
    obtain ⟨key, hkey, rfl⟩ := List.mem_map.mp hv
    obtain ⟨name, f, hname, hlookup, -, hversion⟩ := h.dialEntry happ hread (mem_readKeys hkey)
    exact ⟨key.2, name, f, hname, hlookup, hversion⟩
  · rintro ⟨p, name, f, hname, hlookup, rfl⟩
    have hdata := Target.content_of_lookup hlookup
    have hhash : hexDigest f.data ∈ (dialOrder app names s).map Prod.fst := by
      rw [mem_dialOrder hfew]
      refine List.mem_filterMap.mpr ⟨name, ?_, (h.sound.listed happ hname hdata).1⟩
      exact hread.mem_iff.mp (Target.mem_namesIn.mpr ⟨p, f.data, hname, hdata⟩)
    obtain ⟨key, hkey, hfirst⟩ := List.mem_map.mp hhash
    obtain ⟨name', g, hname', hlookup', hhash', hversion⟩ :=
      h.dialEntry happ hread (mem_readKeys hkey)
    -- one hash has one file
    have hpath := h.unique _ _ _ _ _ _ hname' hname (Target.content_of_lookup hlookup') hdata
      (hhash'.symm.trans hfirst)
    rw [hpath, hlookup] at hlookup'
    rw [← Option.some.inj hlookup'] at hversion
    exact List.mem_map.mpr ⟨key, hkey, hversion⟩

end Order

end History

/-- A deploy of the app to `remote` that succeeds, later than `now`. -/
structure DeployTurn (S : Set Bytes) (app : Bytes) (remote : Path) (now : Nat) (env : Env)
    (link : Link) (req : DeployRequest) (n : Nat) (s : Target) : Prop where
  reliable : env.Reliable
  later : ∀ k, now < env.clock k
  app : req.appName = app
  path : req.remotePath = remote
  success : (handleDeploy env link req n s).result.map (·.success) = some true
  versions : Versions S remote s (handleDeploy env link req n s)

/-- A rollback of the app at `remote`. -/
structure RollbackTurn (app : Bytes) (remote : Path) (env : Env) (req : DeployRequest)
    (s : Target) : Prop where
  reliable : env.Reliable
  app : req.appName = app
  path : rollbackTarget req s = some remote

/-- The runs of successful deploys and rollbacks of one app at one path, up to
the time of the last command. All contents at the path are in `S`. -/
inductive DialRun (S : Set Bytes) (app : Bytes) (remote : Path) : Nat → Target → Prop where
  | start {s : Target} (hfree : s.fs.lookup (backupDir app) = none)
      (hempty : s.namesIn (backupDir app) = []) (now : Nat) : DialRun S app remote now s
  | deploy {now after : Nat} {s : Target} {env : Env} {link : Link} {req : DeployRequest}
      {n : Nat} (hrun : DialRun S app remote now s)
      (hturn : DeployTurn S app remote now env link req n s)
      (hclock : ∀ k, env.clock k ≤ after) :
      DialRun S app remote after (handleDeploy env link req n s).state
  | rollback {now after : Nat} {s : Target} {env : Env} {req : DeployRequest} {n : Nat}
      (hrun : DialRun S app remote now s) (hturn : RollbackTurn app remote env req s)
      (hlater : ∀ k, now < env.clock k)
      (hsuccess : (handleRollback env req n s).result.map (·.success) = some true)
      (hclock : ∀ k, env.clock k ≤ after) :
      DialRun S app remote after (handleRollback env req n s).state

/-- Between two commands the archive is in order and not from the future, and
the installed version is in it, unless it is empty. -/
structure DialState (S : Set Bytes) (app : Bytes) (remote : Path) (now : Nat) (s : Target) :
    Prop where
  archived : Archived S app s
  past : ∀ v ∈ s.history app, v.2 ≤ now
  filed : s.history app = ∅ ∨ ∃ data k, s.content remote = some data ∧
    (data, k) ∈ s.history app

section Runs

variable {S : Set Bytes} {app : Bytes} {remote : Path} {now : Nat} {env : Env} {s t : Target}

theorem not_refused {r : Option DeployResponse} (h : r.map (·.success) = some true) :
    ¬ Refused r := by
  intro hrefused
  obtain ⟨resp, hresp, hsuccess⟩ := Option.map_eq_some_iff.mp h
  rw [hrefused resp hresp] at hsuccess
  cases hsuccess

variable (happ : app.length < maxFiledLen) (hinj : Set.InjOn hexDigest S)
include happ hinj

/-- Filing makes nothing older than the call and nothing newer. -/
theorem Archived.filed_past {x : Option Bytes} (h : Archived S app s)
    (hx : ∀ data, x = some data → data ∈ S) (hfiled : Filed env app x s t)
    {after : Nat} (hpast : ∀ v ∈ s.history app, v.2 ≤ after) (hclock : ∀ k, env.clock k ≤ after) :
    ∀ v ∈ t.history app, v.2 ≤ after := by
  cases x with
  | none =>
      cases hfiled with
      | kept hsame hhas =>
          rw [hsame.history]
          exact hpast
  | some data =>
      rcases h.history_filed happ hinj (hx data rfl) hfiled with ⟨-, heq⟩ | ⟨-, j, heq⟩
      · rw [heq]
        exact hpast
      · rw [heq]
        rintro v (rfl | hv)
        · exact hclock j
        · exact hpast v hv

omit hinj in
/-- A deploy that succeeds files what it replaces, and then what it installs. -/
theorem DeployTurn.files {link : Link} {req : DeployRequest} {n : Nat}
    (hturn : DeployTurn S app remote now env link req n s) (hremote : Installable app remote)
    (harchived : Archived S app s) :
    ∃ new u, (handleDeploy env link req n s).state.content remote = some new ∧ new ∈ S ∧
      Filed env app (s.content remote) s u ∧ Archived S app u ∧
      Filed env app (some new) u (handleDeploy env link req n s).state ∧
      Archived S app (handleDeploy env link req n s).state := by
  obtain ⟨henv, -, rfl, rfl, hsuccess, hversions⟩ := hturn
  have hlands : Prog.Lands (handleDeploy env link req) _ n s :=
    handleDeploy_lands happ henv hremote link
  rcases hlands with ⟨hrefused, -⟩ | ⟨-, new, u, hnew, hold, hnext⟩
  · exact absurd hrefused (not_refused hsuccess)
  · have hmem := hversions new (Or.inr hnew)
    obtain ⟨hu, -, -⟩ := harchived.filed happ hold fun data hdata => hversions data (Or.inl hdata)
    obtain ⟨ht, -, -⟩ := hu.filed happ hnext fun data hdata => by
      rw [← Option.some.inj hdata]
      exact hmem
    exact ⟨new, u, hnew, hmem, hold, hu, hnext, ht⟩

/-- A deploy keeps the archive in order. -/
theorem DialState.deploy (h : DialState S app remote now s) (hremote : Installable app remote)
    {link : Link} {req : DeployRequest} {n after : Nat}
    (hturn : DeployTurn S app remote now env link req n s) (hclock : ∀ k, env.clock k ≤ after) :
    DialState S app remote after (handleDeploy env link req n s).state := by
  obtain ⟨new, u, hnew, hmem, hold, hu, hnext, ht⟩ := hturn.files happ hremote h.archived
  have hlater : now ≤ after := le_trans (le_of_lt (hturn.later 0)) (hclock 0)
  have hbefore : ∀ v ∈ u.history app, v.2 ≤ after :=
    h.archived.filed_past happ hinj (fun data hdata => hturn.versions data (Or.inl hdata)) hold
      (fun v hv => le_trans (h.past v hv) hlater) hclock
  have hnewS : ∀ data, some new = some data → data ∈ S := by
    rintro _ ⟨⟩
    exact hmem
  refine ⟨ht, hu.filed_past happ hinj hnewS hnext hbefore hclock, Or.inr ?_⟩
  rcases hu.history_filed happ hinj hmem hnext with ⟨⟨k, hk⟩, heq⟩ | ⟨-, j, heq⟩
  · exact ⟨new, k, hnew, heq ▸ hk⟩
  · refine ⟨new, env.clock j, hnew, ?_⟩
    rw [heq]
    exact Or.inl rfl

omit hinj in
/-- What a rollback of the app restores, if it restores anything. -/
theorem RollbackTurn.restores {req : DeployRequest} (hturn : RollbackTurn app remote env req s)
    (hne : app ≠ []) (hremote : Installable app remote) (harchived : Archived S app s) {n : Nat}
    {selected : BackupEntry}
    (hselected : selectBackup req.rollbackHash (s.hashAt remote) (dial env app s) =
      some selected) :
    ∃ data, s.content selected.path = some data ∧
      Restored env app remote (dial env app s) data s (handleRollback env req n s).result
        (handleRollback env req n s).state := by
  have hlands : Prog.Lands (handleRollback env req) _ n s :=
    handleRollback_lands happ hturn.reliable hremote hturn.app hne hturn.path harchived.free
      (harchived.dialFiles happ)
  rw [hselected] at hlands
  exact hlands

/-- A rollback leaves the history alone. -/
theorem DialState.rollback (h : DialState S app remote now s) (hremote : Installable app remote)
    {req : DeployRequest} {n after : Nat} (hturn : RollbackTurn app remote env req s)
    (hlater : ∀ k, now < env.clock k)
    (hsuccess : (handleRollback env req n s).result.map (·.success) = some true)
    (hclock : ∀ k, env.clock k ≤ after) :
    DialState S app remote after (handleRollback env req n s).state := by
  have hne : app ≠ [] := by
    rintro rfl
    rw [handleRollback, if_pos hturn.app] at hsuccess
    cases hsuccess
  cases hselected : selectBackup req.rollbackHash (s.hashAt remote) (dial env app s) with
  | none =>
      have hlands : Prog.Lands (handleRollback env req) _ n s :=
        handleRollback_lands happ hturn.reliable hremote hturn.app hne hturn.path
          h.archived.free (h.archived.dialFiles happ)
      rw [hselected] at hlands
      exact absurd hlands.1 (not_refused hsuccess)
  | some selected =>
      obtain ⟨data, hdata, hrestored⟩ :=
        hturn.restores (n := n) happ hne hremote h.archived hselected
      obtain ⟨f, hlookup, rfl⟩ := exists_lookup hdata
      obtain ⟨-, hlists, -⟩ := mem_dial (selectBackup_mem hselected)
      obtain ⟨name, -, hname, -⟩ := h.archived.sound.lists happ hlists
      have hmem : (f.data, f.mtime) ∈ s.history app :=
        ⟨selected.path, name, f, hname, hlookup, rfl⟩
      obtain ⟨old, k, hold, hk⟩ := h.filed.resolve_left (Set.nonempty_of_mem hmem).ne_empty
      have holdS := h.archived.mem_of_history hk
      have hfiled := hrestored.filed happ h.archived fun e he => (mem_dial he).2.1
      rw [hold] at hfiled
      obtain ⟨ht, -, -⟩ := h.archived.filed happ hfiled fun found hfound => by
        rw [← Option.some.inj hfound]
        exact holdS
      have hsame : (handleRollback env req n s).state.history app = s.history app := by
        rcases h.archived.history_filed happ hinj holdS hfiled with ⟨-, heq⟩ | ⟨hnone, -⟩
        · exact heq
        · exact absurd hk (hnone k)
      refine ⟨ht, fun v hv => ?_, Or.inr ⟨f.data, f.mtime, hrestored.2.1, hsame ▸ hmem⟩⟩
      rw [hsame] at hv
      exact le_trans (h.past v hv) (le_trans (le_of_lt (hlater 0)) (hclock 0))

theorem DialRun.state (hremote : Installable app remote) (hrun : DialRun S app remote now s) :
    DialState S app remote now s := by
  induction hrun with
  | start hfree hempty now =>
      have hnone := history_empty_iff.mpr hempty
      refine ⟨archived_empty hfree hempty, fun v hv => ?_, Or.inl hnone⟩
      rw [hnone] at hv
      exact absurd hv (Set.notMem_empty v)
  | deploy _ hturn hclock ih => exact ih.deploy happ hinj hremote hturn hclock
  | rollback _ hturn hlater hsuccess hclock ih =>
      exact ih.rollback happ hinj hremote hturn hlater hsuccess hclock

end Runs

/-- A rollback from `new` leads back to `old`: there was no backup at all, or
`new` has none and that of `old` is the newest, or `old` comes after `new`. -/
def Undoable (H : Set (Bytes × Nat)) (old new : Bytes) : Prop :=
  H = ∅ ∨ ((∀ k, (new, k) ∉ H) ∧ NewestIn H old) ∨ NextIn H new old

section Undo

variable {S : Finset Bytes} {app : Bytes} {remote : Path} {now : Nat} {env : Env} {s : Target}

theorem Archived.few (h : Archived S app s) (happ : app.length < maxFiledLen)
    {names : List Bytes} (hread : (s.namesIn (backupDir app)).Perm names)
    (hcard : S.card ≤ maxDialEntries) :
    (names.filterMap parseBackupFilename).toFinset.card ≤ maxDialEntries := by
  refine le_trans (Finset.card_le_card ?_) (le_trans (Finset.card_image_le (f := hexDigest)) hcard)
  intro hash hhash
  obtain ⟨name, hname, hparse⟩ := List.mem_filterMap.mp (List.mem_toFinset.mp hhash)
  obtain ⟨name', data, hname', hdata, rfl⟩ :=
    h.sound.lists happ ⟨name, hread.mem_iff.mpr hname, hparse, rfl⟩
  exact Finset.mem_image_of_mem _ (h.sound _ _ _ hname' hdata).1

variable (happ : app.length < maxFiledLen) (hne : app ≠ []) (hremote : Installable app remote)
  (hcard : S.card ≤ maxDialEntries)
include happ hne hremote hcard

/-- A rollback without a hash installs what follows on the dial. -/
theorem RollbackTurn.next {req : DeployRequest} (hturn : RollbackTurn app remote env req s)
    (hhash : req.rollbackHash = []) (harchived : Archived S app s) {new : Bytes} {k : Nat}
    (hnew : s.content remote = some new) (hmem : (new, k) ∈ s.history app) (n : Nat) :
    ∃ l : List (Bytes × Nat), (∀ v, v ∈ l ↔ v ∈ s.history app) ∧
      (l.Pairwise fun a b => b.2 ≤ a.2) ∧ (l.map Prod.fst).Nodup ∧
      ∃ i v, l[i]? = some (new, k) ∧ l[(i + 1) % l.length]? = some v ∧
        (handleRollback env req n s).state.content remote = some v.1 := by
  generalize hnames : env.order (s.namesIn (backupDir app)) = names
  have hread : (s.namesIn (backupDir app)).Perm names := hnames ▸ (env.order_perm _).symm
  have hfew := harchived.few happ hread hcard
  have hall := mem_timedOrder happ harchived hread hfew
  refine ⟨timedOrder app names s, hall, timedOrder_sorted, nodup_timedOrder happ harchived hread,
    ?_⟩
  obtain ⟨i, hi⟩ := List.mem_iff_getElem?.mp ((hall _).mpr hmem)
  have hplace : ((dialOrder app names s).map Prod.fst)[i]? = some (hexDigest new) := by
    rw [← timedOrder_hashes happ harchived hread, List.getElem?_map, hi]
    rfl
  have hdial := dial_eq harchived.free hnames hfew
  have hselects := selectBackup_next hdial hplace (hexDigest_ne_nil new)
  have hlen : (timedOrder app names s).length = (dialOrder app names s).length :=
    List.length_map _
  have hlt := (List.getElem?_eq_some_iff.mp hi).1
  obtain ⟨key, hkey⟩ : ∃ key,
      (dialOrder app names s)[(i + 1) % (dialOrder app names s).length]? = some key :=
    ⟨_, List.getElem?_eq_getElem (Nat.mod_lt _ (by omega))⟩
  have hcurrent : s.hashAt remote = hexDigest new := by
    rw [Target.hashAt, hnew]
    rfl
  rw [hkey, Option.map_some, ← hcurrent, ← hhash] at hselects
  obtain ⟨data, hdata, -, hinstalled, -⟩ :=
    hturn.restores (n := n) happ hne hremote harchived hselects
  refine ⟨i, _, hi, by rw [hlen, timedOrder, List.getElem?_map, hkey, Option.map_some], ?_⟩
  rw [hinstalled, show s.content key.2 = some data from hdata]
  rfl

end Undo

section Undone

variable {H : Set (Bytes × Nat)} {old new : Bytes} {k : Nat}

/-- A deploy that adds no backup. -/
theorem undoable_iff_of_mem (hmem : (new, k) ∈ H) : Undoable H old new ↔ NextIn H new old := by
  constructor
  · rintro (hempty | ⟨hnone, -⟩ | hnext)
    · exact absurd hempty (Set.nonempty_of_mem hmem).ne_empty
    · exact absurd hmem (hnone k)
    · exact hnext
  · exact fun hnext => Or.inr (Or.inr hnext)

/-- A deploy that adds the newest backup. -/
theorem undoable_iff_of_insert (hfiled : H.Nonempty) (hnone : ∀ i, (new, i) ∉ H)
    (hlater : ∀ z i, (z, i) ∈ H → i < k) (hdiffer : old ≠ new) :
    Undoable H old new ↔ NextIn (insert (new, k) H) new old := by
  rw [nextIn_insert hnone hlater hdiffer]
  constructor
  · rintro (hempty | ⟨-, hnewest⟩ | ⟨i, -, hmem, -⟩)
    · exact absurd hempty hfiled.ne_empty
    · exact hnewest
    · exact absurd hmem (hnone i)
  · exact fun hnewest => Or.inr (Or.inl ⟨hnone, hnewest⟩)

end Undone

/-- A rollback right after a deploy undoes it if the replaced version is the
next on the dial, as far as that can be told from the archive before the
deploy; if no two backups have one time, only then. -/
theorem rollback_undoes_deploy {S : Finset Bytes} {app : Bytes} {remote : Path} {now : Nat}
    {s : Target} (happ : app.length < maxFiledLen) (hremote : Installable app remote)
    (hcard : S.card ≤ maxDialEntries) (hinj : Set.InjOn hexDigest (S : Set Bytes))
    (hrun : DialRun S app remote now s) {env : Env} {link : Link} {req : DeployRequest} {n : Nat}
    (hdeploy : DeployTurn S app remote now env link req n s) {old new : Bytes}
    (hold : s.content remote = some old)
    (hnew : (handleDeploy env link req n s).state.content remote = some new)
    (hdiffer : old ≠ new) {env' : Env} {req' : DeployRequest} (m : Nat)
    (hroll : RollbackTurn app remote env' req' (handleDeploy env link req n s).state)
    (hhash : req'.rollbackHash = []) :
    (Undoable (s.history app) old new →
      (handleRollback env' req' m (handleDeploy env link req n s).state).state.content remote =
        some old) ∧
    (Set.InjOn Prod.snd (s.history app) →
      (handleRollback env' req' m (handleDeploy env link req n s).state).state.content remote =
        some old → Undoable (s.history app) old new) := by
  have hne : app ≠ [] := by
    rintro rfl
    have hsuccess := hdeploy.success
    rw [handleDeploy, handleDeployWith, if_pos hdeploy.app] at hsuccess
    cases hsuccess
  have hstate := hrun.state happ hinj hremote
  have holdS : old ∈ (S : Set Bytes) := hdeploy.versions old (Or.inl hold)
  obtain ⟨found, u, hfound, hnewS, hfold, hu, hfnew, ht⟩ :=
    hdeploy.files happ hremote hstate.archived
  obtain rfl := Option.some.inj (hfound.symm.trans hnew)
  rw [hold] at hfold
  have holdHistory := hstate.archived.history_filed happ hinj holdS hfold
  have hnewHistory := hu.history_filed happ hinj hnewS hfnew
  generalize (handleDeploy env link req n s).state = t at *
  -- the deployed version is on the dial
  obtain ⟨k, hmem⟩ : ∃ k, (found, k) ∈ t.history app := by
    rcases hnewHistory with ⟨⟨k, hk⟩, heq⟩ | ⟨-, j, heq⟩
    · exact ⟨k, heq ▸ hk⟩
    · exact ⟨env.clock j, heq ▸ Set.mem_insert _ _⟩
  obtain ⟨l, hall, hsorted, hnodup, i, v, hi, hv, hinstalled⟩ :=
    hroll.next happ hne hremote hcard hhash ht hfound hmem m
  rw [hinstalled]
  by_cases hempty : s.history app = ∅
  · refine ⟨fun _ => ?_, fun _ _ => Or.inl hempty⟩
    rw [hempty] at holdHistory
    obtain ⟨-, c, heq⟩ := holdHistory.resolve_left fun h => h.1.choose_spec
    have hpair : ∃ c', t.history app = insert (found, c') (insert (old, env.clock c) ∅) := by
      rw [heq] at hnewHistory
      rcases hnewHistory with ⟨⟨k, hk⟩, -⟩ | ⟨-, c', heq'⟩
      · rcases hk with hk | hk
        · exact absurd (congrArg Prod.fst hk).symm hdiffer
        · exact absurd hk (Set.notMem_empty _)
      · exact ⟨_, heq'⟩
    obtain ⟨c', hpair⟩ := hpair
    have hboth : ∀ a ∈ l, a.1 = old ∨ a.1 = found := by
      intro a ha
      rw [hall, hpair] at ha
      rcases ha with rfl | rfl | ha
      · exact Or.inr rfl
      · exact Or.inl rfl
      · exact absurd ha (Set.notMem_empty _)
    have hlisted : (old, env.clock c) ∈ l := by
      rw [hall, hpair]
      exact Or.inr (Or.inl rfl)
    exact congrArg some (getElem?_next_of_pair hboth hnodup hlisted hi rfl hv hdiffer)
  · obtain ⟨data, c, hdata, hc⟩ := hstate.filed.resolve_left hempty
    obtain rfl := Option.some.inj (hdata.symm.trans hold)
    have hkept : u.history app = s.history app := by
      rcases holdHistory with ⟨-, heq⟩ | ⟨hnone, -⟩
      · exact heq
      · exact absurd hc (hnone c)
    rw [hkept] at hnewHistory
    have hlater : ∀ j z i, (z, i) ∈ s.history app → i < env.clock j := fun j z i hz =>
      lt_of_le_of_lt (hstate.past _ hz) (hdeploy.later j)
    have hiff : Undoable (s.history app) data found ↔ NextIn (t.history app) found data := by
      rcases hnewHistory with ⟨⟨j, hj⟩, heq⟩ | ⟨hnone, j, heq⟩
      · rw [heq]
        exact undoable_iff_of_mem hj
      · rw [heq]
        exact undoable_iff_of_insert ⟨_, hc⟩ hnone (hlater j) hdiffer
    refine ⟨fun hundoable => ?_, fun hdistinct hback => ?_⟩
    · obtain ⟨w, hw, rfl⟩ := getElem?_next_of_nextIn hall hsorted hnodup hi rfl hdiffer
        (hiff.mp hundoable)
      rw [Option.some.inj (hv.symm.trans hw)]
    · have htimes : Set.InjOn Prod.snd (t.history app) := by
        rcases hnewHistory with ⟨-, heq⟩ | ⟨-, j, heq⟩
        · rw [heq]
          exact hdistinct
        · rw [heq]
          exact injOn_snd_insert hdistinct (hlater j)
      have hnext := nextIn_of_getElem? hall hsorted hnodup htimes hi hv
      rw [Option.some.inj hback] at hnext
      exact hiff.mpr hnext

section Demo

/-- A link over which two bytes arrive. -/
def pairLink (data : Bytes) : Link where
  ctrl := fun _ _ => { smallCtrl with packets :=
    [svuPut32 svuMagicResp ++ svuPut32 1 ++ svuPut32 2 ++ svuPut32 4096 ++ svuPut32 1,
     svuPut32 0 ++ (ciSvuManifest data 2 4096).2] }
  drains := fun _ => [[svuPut32 0 ++ svuPut32 1 ++ data]]
  allocated := true
  heap := fun _ => 0

/-- Nothing fails, and the clock goes on for a while from `time`. -/
def tickEnv (time : Nat) : Env := { calmEnv demoTime with clock := fun k => time + min k 99 }

def pairRequest (data : Bytes) : DeployRequest :=
  { demoRequest (ascii "/opt/demo") with expectedChecksum := hexDigest data }

def pairDeploy (time : Nat) (data : String) (s : Target) : Outcome Target DeployResponse :=
  handleDeploy (tickEnv time) (pairLink (ascii data)) (pairRequest (ascii data)) 0 s

def pairRollback (time : Nat) (s : Target) : Outcome Target DeployResponse :=
  handleRollback (tickEnv time) (demoRequest (ascii "/opt/demo")) 0 s

/-- `aa` is installed, and not by the agent. -/
def foundTarget : Target :=
  Target.put ⟨∅, some [], .zero⟩ (ascii "/opt/demo") ⟨ascii "aa", 0o755, 0⟩

/-- `bb` was deployed and rolled back. -/
def wentBack : Outcome Target DeployResponse :=
  pairRollback 300 (pairDeploy 100 "bb" foundTarget).state

theorem pair_runs :
    (pairDeploy 100 "bb" foundTarget).result.map (·.success) = some true ∧
    (pairDeploy 100 "bb" foundTarget).state.content (ascii "/opt/demo") = some (ascii "bb") ∧
    wentBack.result.map (·.success) = some true ∧
    wentBack.state.content (ascii "/opt/demo") = some (ascii "aa") ∧
    (pairDeploy 500 "cc" wentBack.state).result.map (·.success) = some true ∧
    (pairDeploy 500 "cc" wentBack.state).state.content (ascii "/opt/demo") = some (ascii "cc") ∧
    (pairRollback 700 (pairDeploy 500 "cc" wentBack.state).state).state.content
      (ascii "/opt/demo") = some (ascii "bb") ∧
    ([ascii "aa", ascii "bb", ascii "cc"].map hexDigest).Nodup := by
  decide +kernel

/-- The versions of the demo runs. -/
def pairVersions : Finset Bytes := {ascii "aa", ascii "bb", ascii "cc"}

theorem pairVersions_inj : Set.InjOn hexDigest (pairVersions : Set Bytes) := by
  have hnodup := pair_runs.2.2.2.2.2.2.2
  intro a ha b hb hab
  have hmem : ∀ {v : Bytes}, v ∈ (pairVersions : Set Bytes) →
      v ∈ [ascii "aa", ascii "bb", ascii "cc"] := by
    intro v hv
    simpa [pairVersions] using hv
  exact List.inj_on_of_nodup_map hnodup (hmem ha) (hmem hb) hab

theorem tickEnv_reliable (time : Nat) : (tickEnv time).Reliable := fun _ _ => rfl

theorem tickEnv_clock (time k : Nat) :
    time ≤ (tickEnv time).clock k ∧ (tickEnv time).clock k ≤ time + 99 := by
  change time ≤ time + min k 99 ∧ time + min k 99 ≤ time + 99
  omega

/-- A deploy of the demo runs is one of the runs of the app. -/
theorem pairDeploy_turn {time now : Nat} {data old : String} {s : Target} (hlater : now < time)
    (hsuccess : (pairDeploy time data s).result.map (·.success) = some true)
    (hold : s.content (ascii "/opt/demo") = some (ascii old))
    (hnew : (pairDeploy time data s).state.content (ascii "/opt/demo") = some (ascii data))
    (hversions : ascii old ∈ pairVersions ∧ ascii data ∈ pairVersions) :
    DeployTurn pairVersions (ascii "demo") (ascii "/opt/demo") now (tickEnv time)
      (pairLink (ascii data)) (pairRequest (ascii data)) 0 s := by
  refine ⟨tickEnv_reliable time, fun k => ?_, rfl, rfl, hsuccess, ?_⟩
  · exact lt_of_lt_of_le hlater (tickEnv_clock time k).1
  · rintro found (hfound | hfound)
    · rw [← Option.some.inj (hold.symm.trans hfound)]
      exact hversions.1
    · rw [← Option.some.inj (hnew.symm.trans hfound)]
      exact hversions.2

theorem pairRollback_turn (time : Nat) (s : Target) :
    RollbackTurn (ascii "demo") (ascii "/opt/demo") (tickEnv time)
      (demoRequest (ascii "/opt/demo")) s :=
  ⟨tickEnv_reliable time, rfl, rfl⟩

theorem foundTarget_run :
    DialRun pairVersions (ascii "demo") (ascii "/opt/demo") 0 foundTarget :=
  .start (by decide) (by decide) 0

/-- The first deploy is undone. -/
theorem rollback_undoes_deploy_demo :
    (pairRollback 300 (pairDeploy 100 "bb" foundTarget).state).state.content
      (ascii "/opt/demo") = some (ascii "aa") := by
  have hold : foundTarget.content (ascii "/opt/demo") = some (ascii "aa") := by decide
  obtain ⟨hsuccess, hnew, -⟩ := pair_runs
  have hturn : DeployTurn pairVersions _ _ 0 _ _ _ 0 foundTarget :=
    pairDeploy_turn (by decide) hsuccess hold hnew (by decide)
  have hempty : foundTarget.history (ascii "demo") = ∅ := history_empty_iff.mpr (by decide)
  exact (rollback_undoes_deploy (by decide) installable_demo (by decide) pairVersions_inj
    foundTarget_run hturn hold hnew (by decide) 0 (pairRollback_turn 300 _) rfl).1 (Or.inl hempty)

/-- `cc` replaced `aa`, and the rollback right after it installs `bb`. -/
theorem rollback_skips_version :
    ∃ now, DialRun pairVersions (ascii "demo") (ascii "/opt/demo") now wentBack.state ∧
      DeployTurn pairVersions (ascii "demo") (ascii "/opt/demo") now (tickEnv 500)
        (pairLink (ascii "cc")) (pairRequest (ascii "cc")) 0 wentBack.state ∧
      wentBack.state.content (ascii "/opt/demo") = some (ascii "aa") ∧
      (pairDeploy 500 "cc" wentBack.state).state.content (ascii "/opt/demo") = some (ascii "cc") ∧
      (pairRollback 700 (pairDeploy 500 "cc" wentBack.state).state).state.content
        (ascii "/opt/demo") = some (ascii "bb") := by
  obtain ⟨hfirst, hbb, hback, haa, hsecond, hcc, hskipped, -⟩ := pair_runs
  have hold : foundTarget.content (ascii "/opt/demo") = some (ascii "aa") := by decide
  have hdeployed := foundTarget_run.deploy
    (pairDeploy_turn (by decide) hfirst hold hbb (by decide)) fun k => (tickEnv_clock 100 k).2
  have hrolled := hdeployed.rollback (pairRollback_turn 300 _)
    (fun k => lt_of_lt_of_le (by decide) (tickEnv_clock 300 k).1) hback
    fun k => (tickEnv_clock 300 k).2
  refine ⟨_, hrolled, ?_, haa, hcc, hskipped⟩
  exact pairDeploy_turn (by decide) hsecond haa hcc (by decide)

end Demo

end SatDeploy.Agent
