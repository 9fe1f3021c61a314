import SatDeploy.Agent.Filing

/-!
No version is lost and none is stored twice. In every run of deploys, uploads
and rollbacks of an app, whatever happens to its files in between, each content
that a command overwrote or installed is in the archive as one file, under the
name that `backup_list` reads back.
-/

namespace SatDeploy.Agent

open Lib

/-- An archive in order: every file in it was made by `backup_create` from a
content in `S`, and no two of them have one hash. -/
structure Archived (S : Set Bytes) (app : Bytes) (s : Target) : Prop where
  free : s.fs.lookup (backupDir app) = none
  sound : DirectorySound S app s
  unique : ∀ p q name name' data data', nameIn (backupDir app) p = some name →
    nameIn (backupDir app) q = some name' → s.content p = some data →
    s.content q = some data' → hexDigest data = hexDigest data' → p = q

section Archives

variable {S : Set Bytes} {env : Env} {app : Bytes} {s t : Target} {x : Option Bytes}

theorem SameArchive.content (h : SameArchive app s t) {p : Path} {name : Bytes}
    (hname : nameIn (backupDir app) p = some name) : t.content p = s.content p :=
  Target.content_congr (h p (Or.inr ⟨name, hname⟩))

theorem Archived.same (h : Archived S app s) (hsame : SameArchive app s t) :
    Archived S app t := by
  refine ⟨(hsame _ (Or.inl rfl)).trans h.free, ?_, ?_⟩
  · intro p name data hname hdata
    exact h.sound p name data hname ((hsame.content hname).symm.trans hdata)
  · intro p q name name' data data' hp hq hdata hdata'
    exact h.unique p q name name' data data' hp hq ((hsame.content hp).symm.trans hdata)
      ((hsame.content hq).symm.trans hdata')

section Fitting

variable (happ : app.length < maxFiledLen)
include happ

/-- A file of the directory has the hash of its content in its name. -/
theorem DirectorySound.name (h : DirectorySound S app s) {p : Path} {name data : Bytes}
    (hname : nameIn (backupDir app) p = some name) (hdata : s.content p = some data) :
    ∃ tm, p = backupPath app tm (hexDigest data) ∧ name = backupName tm (hexDigest data) := by
  obtain ⟨-, tm, rfl⟩ := h p name data hname hdata
  rw [nameIn_backupPath happ] at hname
  exact ⟨tm, rfl, (Option.some.inj hname).symm⟩

/-- The handlers find a file of the directory under its own path and hash. -/
theorem DirectorySound.listed (h : DirectorySound S app s) {p : Path} {name data : Bytes}
    (hname : nameIn (backupDir app) p = some name) (hdata : s.content p = some data) :
    parseBackupFilename name = some (hexDigest data) ∧ existingPath app name = p := by
  obtain ⟨tm, hpath, rfl⟩ := h.name happ hname hdata
  refine ⟨parseBackupFilename_backupName, existingPath_of_name hname ?_⟩
  rw [hpath]
  exact length_backupPath _ _ _

/-- What is listed is a file of the directory, under its hash. -/
theorem DirectorySound.lists (h : DirectorySound S app s) {hash : Bytes} {path : Path}
    (hlists : s.Lists app hash path) :
    ∃ name data, nameIn (backupDir app) path = some name ∧ s.content path = some data ∧
      hash = hexDigest data := by
  obtain ⟨name, hmem, hparse, rfl⟩ := hlists
  obtain ⟨p, data, hname, hdata⟩ := Target.mem_namesIn.mp hmem
  obtain ⟨hhash, hpath⟩ := h.listed happ hname hdata
  rw [hpath]
  rw [hhash] at hparse
  exact ⟨name, data, hname, hdata, (Option.some.inj hparse).symm⟩

theorem Archived.hasBackup_iff (h : Archived S app s) (data : Bytes) :
    s.HasBackup app (hexDigest data) ↔ ∃ p name found, nameIn (backupDir app) p = some name ∧
      s.content p = some found ∧ hexDigest found = hexDigest data := by
  constructor
  · rintro ⟨-, name, hmem, hsuffix⟩
    obtain ⟨p, found, hname, hfound⟩ := Target.mem_namesIn.mp hmem
    obtain ⟨-, tm, rfl⟩ := h.sound p name found hname hfound
    refine ⟨_, name, found, hname, hfound, ?_⟩
    exact (backupPath_hash hname hsuffix (length_hexDigest data)).symm
  · rintro ⟨p, name, found, hname, hfound, hhash⟩
    obtain ⟨tm, -, rfl⟩ := h.sound.name happ hname hfound
    refine ⟨h.free, _, Target.mem_namesIn.mpr ⟨p, found, hname, hfound⟩, ?_⟩
    rw [← hhash]
    exact hashSuffix_backupName _ _

theorem backupDir_ne_backupPath (tm : Tm) (data : Bytes) :
    backupDir app ≠ backupPath app tm (hexDigest data) := by
  intro heq
  have hlen := congrArg List.length heq
  rw [backupPath_eq happ, List.length_append, List.length_append, length_backupName] at hlen
  omega

/-- Filing keeps the archive in order, loses nothing and stores the content. -/
theorem Archived.filed (h : Archived S app s) (hfiled : Filed env app x s t)
    (hx : ∀ data, x = some data → data ∈ S) :
    Archived S app t ∧
    (∀ data, s.HasBackup app (hexDigest data) → t.HasBackup app (hexDigest data)) ∧
    ∀ data, x = some data → t.HasBackup app (hexDigest data) := by
  cases hfiled with
  | kept hsame hhas =>
      exact ⟨h.same hsame, fun data hdata => hsame.hasBackup.mpr hdata,
        fun data hdata => hsame.hasBackup.mpr (hhas data hdata)⟩
  | @added data _ _ hnew k f hfile hfresh hothers =>
      have hin : nameIn (backupDir app)
          (backupPath app (env.localtime (env.clock k)) (hexDigest data)) = _ :=
        nameIn_backupPath happ
      have hcontent := (Target.content_of_lookup hfile).trans (congrArg some hfresh.1)
      have hold : ∀ p name found, nameIn (backupDir app) p = some name →
          t.content p = some found →
          p = backupPath app (env.localtime (env.clock k)) (hexDigest data) ∧ found = data ∨
          s.content p = some found ∧ hexDigest found ≠ hexDigest data := by
        intro p name found hname hfound
        by_cases hp : p = backupPath app (env.localtime (env.clock k)) (hexDigest data)
        · rw [hp, hcontent] at hfound
          exact Or.inl ⟨hp, (Option.some.inj hfound).symm⟩
        · rw [Target.content_congr (hothers p (Or.inr ⟨name, hname⟩) hp)] at hfound
          refine Or.inr ⟨hfound, fun heq => hnew ?_⟩
          exact (h.hasBackup_iff happ data).mpr ⟨p, name, found, hname, hfound, heq⟩
      have harchived : Archived S app t := by
        refine ⟨?_, ?_, ?_⟩
        · rw [hothers _ (Or.inl rfl) (backupDir_ne_backupPath happ _ _), h.free]
        · intro p name found hname hfound
          rcases hold p name found hname hfound with ⟨rfl, rfl⟩ | ⟨hbefore, -⟩
          · exact ⟨hx _ rfl, _, rfl⟩
          · exact h.sound p name found hname hbefore
        · intro p q name name' found found' hp hq hfound hfound' heq
          rcases hold p name found hp hfound with ⟨rfl, rfl⟩ | ⟨hbefore, hne⟩
          · rcases hold q name' found' hq hfound' with ⟨rfl, rfl⟩ | ⟨-, hne'⟩
            · rfl
            · exact absurd heq.symm hne'
          · rcases hold q name' found' hq hfound' with ⟨rfl, rfl⟩ | ⟨hbefore', -⟩
            · exact absurd heq hne
            · exact h.unique p q name name' found found' hp hq hbefore hbefore' heq
      refine ⟨harchived, fun old hhas => ?_, fun new hnew' => ?_⟩
      · obtain ⟨p, name, found, hname, hfound, heq⟩ := (h.hasBackup_iff happ old).mp hhas
        refine (harchived.hasBackup_iff happ old).mpr ⟨p, name, found, hname, ?_, heq⟩
        rw [Target.content_congr (hothers p (Or.inr ⟨name, hname⟩) ?_), hfound]
        rintro rfl
        refine hnew ((h.hasBackup_iff happ data).mpr ⟨_, name, found, hname, hfound, ?_⟩)
        obtain ⟨tm, -, rfl⟩ := h.sound.name happ hname hfound
        exact backupPath_hash hname (hashSuffix_backupName _ _) (length_hexDigest found)
      · obtain rfl := Option.some.inj hnew'
        exact (harchived.hasBackup_iff happ data).mpr ⟨_, _, data, hin, hcontent, rfl⟩

end Fitting

end Archives

/-- A command changed the file at `remote`: it says so, or the content is
another. -/
def Took (remote : Path) (s : Target) (o : Outcome Target DeployResponse) : Prop :=
  (∃ resp, o.result = some resp ∧ resp.success = true) ∨
    o.state.content remote ≠ s.content remote

/-- The content a command overwrote. -/
def overwritten (remote : Path) (s : Target) (o : Outcome Target DeployResponse) : Set Bytes :=
  {data | s.content remote = some data ∧ Took remote s o}

/-- The content a command installed. -/
def installed (remote : Path) (s : Target) (o : Outcome Target DeployResponse) : Set Bytes :=
  {data | o.state.content remote = some data ∧ Took remote s o}

/-- The contents at `remote` before and after a command are versions. -/
def Versions (S : Set Bytes) (remote : Path) (s : Target) (o : Outcome Target DeployResponse) :
    Prop :=
  ∀ data, s.content remote = some data ∨ o.state.content remote = some data → data ∈ S

/-- The runs of one app, where `S` has all versions and `P` what the commands
overwrote and what the deploys and uploads installed. -/
inductive VersionRun (S : Set Bytes) (app : Bytes) : Set Bytes → Target → Prop where
  | start {s : Target} (h : Archived S app s) : VersionRun S app ∅ s
  /-- Anything that leaves the archive of the app alone: edits of the installed
  files, commands for other apps, a restart, the chunks of an upload. -/
  | outside {P : Set Bytes} {s t : Target} (hrun : VersionRun S app P s)
      (hsame : SameArchive app s t) : VersionRun S app P t
  | deploy {P : Set Bytes} {s : Target} (hrun : VersionRun S app P s) {env : Env}
      (henv : env.Reliable) (link : Link) (req : DeployRequest) (hname : req.appName = app)
      (hremote : Installable app req.remotePath) (n : Nat)
      (hversions : Versions S req.remotePath s (handleDeploy env link req n s)) :
      VersionRun S app
        (P ∪ overwritten req.remotePath s (handleDeploy env link req n s) ∪
          installed req.remotePath s (handleDeploy env link req n s))
        (handleDeploy env link req n s).state
  | upload {P : Set Bytes} {s : Target} (hrun : VersionRun S app P s) {env : Env}
      (henv : env.Reliable) (hname : s.session.appName = app)
      (htemp : s.session.active = true → s.session.tempPath = uploadTempPath app)
      (hremote : Installable app s.session.remotePath) (n : Nat)
      (hversions : Versions S s.session.remotePath s (handleUploadEnd env n s)) :
      VersionRun S app
        (P ∪ overwritten s.session.remotePath s (handleUploadEnd env n s) ∪
          installed s.session.remotePath s (handleUploadEnd env n s))
        (handleUploadEnd env n s).state
  | rollback {P : Set Bytes} {s : Target} (hrun : VersionRun S app P s) {env : Env}
      (henv : env.Reliable) (req : DeployRequest) (hname : req.appName = app)
      (hremote : ∀ remote, rollbackTarget req s = some remote → Installable app remote)
      (n : Nat)
      (hversions : ∀ remote, rollbackTarget req s = some remote →
        Versions S remote s (handleRollback env req n s)) :
      VersionRun S app
        (P ∪ {data | ∃ remote, rollbackTarget req s = some remote ∧
          data ∈ overwritten remote s (handleRollback env req n s)})
        (handleRollback env req n s).state

/-- The archive is in order and holds all that is recorded. -/
structure Kept (S : Set Bytes) (app : Bytes) (P : Set Bytes) (s : Target) : Prop where
  archived : Archived S app s
  versions : P ⊆ S
  backups : ∀ data ∈ P, s.HasBackup app (hexDigest data)

section Steps

variable {S P : Set Bytes} {env : Env} {app : Bytes} {s t : Target}

theorem Kept.same (h : Kept S app P s) (hsame : SameArchive app s t) : Kept S app P t :=
  ⟨h.archived.same hsame, h.versions, fun data hdata => hsame.hasBackup.mpr (h.backups data hdata)⟩

theorem Kept.mono {Q : Set Bytes} (h : Kept S app Q s) (hsub : P ⊆ Q) : Kept S app P s :=
  ⟨h.archived, hsub.trans h.versions, fun data hdata => h.backups data (hsub hdata)⟩

variable (happ : app.length < maxFiledLen)
include happ

/-- Filing a version. -/
theorem Kept.filed {x : Option Bytes} (h : Kept S app P s) (hfiled : Filed env app x s t)
    (hx : ∀ data, x = some data → data ∈ S) : Kept S app (P ∪ {data | x = some data}) t := by
  obtain ⟨harchived, hold, hnew⟩ := h.archived.filed happ hfiled hx
  refine ⟨harchived, Set.union_subset h.versions hx, ?_⟩
  rintro data (hdata | hdata)
  · exact hold data (h.backups data hdata)
  · exact hnew data hdata

/-- A deploy or an upload: what it overwrote and what it installed is filed. -/
theorem Kept.replaced {remote : Path} {o : Outcome Target DeployResponse} (h : Kept S app P s)
    (hreplaced : Replaced env app remote s o.result o.state) (hversions : Versions S remote s o) :
    Kept S app (P ∪ overwritten remote s o ∪ installed remote s o) o.state := by
  rcases hreplaced with ⟨hrefused, hsame, x, hx, hfiled⟩ | ⟨-, data, u, hdata, hold, hnew⟩
  · have hnever : ¬ Took remote s o := by
      rintro (⟨resp, hresp, hsuccess⟩ | hchanged)
      · rw [hrefused resp hresp] at hsuccess
        cases hsuccess
      · exact hchanged hsame
    have hbefore : ∀ data, x = some data → data ∈ S := by
      intro data hdata
      rcases hx with rfl | rfl
      · cases hdata
      · exact hversions data (Or.inl hdata)
    refine (h.filed happ hfiled hbefore).mono ?_
    rintro data ((hdata | hdata) | hdata)
    · exact Or.inl hdata
    · exact absurd hdata.2 hnever
    · exact absurd hdata.2 hnever
  · have hafter : ∀ found, some data = some found → found ∈ S := fun found hfound =>
      hversions found (Or.inr (hdata.trans hfound))
    have hfirst := h.filed happ hold fun found hfound => hversions found (Or.inl hfound)
    refine (hfirst.filed happ hnew hafter).mono ?_
    rintro found ((hfound | hfound) | hfound)
    · exact Or.inl (Or.inl hfound)
    · exact Or.inl (Or.inr hfound.1)
    · exact Or.inr (hdata.symm.trans hfound.1)

/-- What a rollback overwrote is filed, be it because the dial showed it. -/
theorem Restored.filed {remote : Path} {entries : List BackupEntry} {data : Bytes}
    {r : Option DeployResponse} (h : Restored env app remote entries data s r t)
    (harchived : Archived S app s) (hentries : ∀ e ∈ entries, s.Lists app e.hash e.path) :
    Filed env app (s.content remote) s t := by
  obtain ⟨-, -, hfiled | ⟨hsame, hlisted⟩⟩ := h
  · exact hfiled
  · obtain ⟨e, he, hhash⟩ := List.mem_map.mp hlisted
    obtain ⟨name, found, hname, hfound, hdigest⟩ := harchived.sound.lists happ (hentries e he)
    refine .kept hsame fun old hold => ?_
    refine (harchived.hasBackup_iff happ old).mpr ⟨e.path, name, found, hname, hfound, ?_⟩
    rw [← hdigest, hhash, Target.hashAt, hold]
    rfl

/-- A rollback: what it overwrote is filed. -/
theorem Kept.restored {remote : Path} {entries : List BackupEntry} {data : Bytes}
    {o : Outcome Target DeployResponse} (h : Kept S app P s)
    (hentries : ∀ e ∈ entries, s.Lists app e.hash e.path)
    (hrestored : Restored env app remote entries data s o.result o.state)
    (hversions : Versions S remote s o) :
    Kept S app (P ∪ overwritten remote s o) o.state := by
  have hbefore : ∀ old, s.content remote = some old → old ∈ S := fun old hold =>
    hversions old (Or.inl hold)
  refine (h.filed happ (hrestored.filed happ h.archived hentries) hbefore).mono ?_
  exact Set.union_subset_union_right P fun old hold => hold.1

theorem Archived.dialFiles (h : Archived S app s) :
    ∀ e ∈ dial env app s, (∃ name, nameIn (backupDir app) e.path = some name) ∧
      ∃ data, s.content e.path = some data := by
  intro e he
  obtain ⟨name, data, hin, hdata, -⟩ := h.sound.lists happ (mem_dial he).2.1
  exact ⟨⟨name, hin⟩, data, hdata⟩

theorem Kept.rollback (henv : env.Reliable) {req : DeployRequest} (hname : req.appName = app)
    (hremote : ∀ remote, rollbackTarget req s = some remote → Installable app remote) {n : Nat}
    (hversions : ∀ remote, rollbackTarget req s = some remote →
      Versions S remote s (handleRollback env req n s)) (h : Kept S app P s) :
    Kept S app (P ∪ {data | ∃ remote, rollbackTarget req s = some remote ∧
      data ∈ overwritten remote s (handleRollback env req n s)})
      (handleRollback env req n s).state := by
  have hunchanged : Prog.Lands (handleRollback env req) (fun r t => Refused r ∧ t.fs = s.fs) n s →
      Kept S app (P ∪ {data | ∃ remote, rollbackTarget req s = some remote ∧
        data ∈ overwritten remote s (handleRollback env req n s)})
        (handleRollback env req n s).state := by
    rintro ⟨hrefused, hfs⟩
    have hlookup : ∀ p, (handleRollback env req n s).state.fs.lookup p = s.fs.lookup p :=
      fun p => by rw [hfs]
    refine (h.same fun p _ => hlookup p).mono (Set.union_subset subset_rfl ?_)
    rintro data ⟨remote, -, -, ⟨resp, hresp, hsuccess⟩ | hchanged⟩
    · rw [hrefused resp hresp] at hsuccess
      cases hsuccess
    · exact absurd (Target.content_congr (hlookup remote)) hchanged
  by_cases hgoes : app ≠ [] ∧ ∃ remote, rollbackTarget req s = some remote
  · obtain ⟨hne, remote, htarget⟩ := hgoes
    have hlists : ∀ e ∈ dial env app s, s.Lists app e.hash e.path := fun e he => (mem_dial he).2.1
    have hlands : Prog.Lands (handleRollback env req) _ n s :=
      handleRollback_lands happ henv (hremote remote htarget) hname hne htarget h.archived.free
        (h.archived.dialFiles happ)
    cases hselect : selectBackup req.rollbackHash (s.hashAt remote) (dial env app s) with
    | none =>
        rw [hselect] at hlands
        exact hunchanged hlands
    | some selected =>
        rw [hselect] at hlands
        obtain ⟨data, -, hrestored⟩ := hlands
        refine (h.restored happ hlists hrestored (hversions remote htarget)).mono ?_
        apply Set.union_subset_union_right P
        rintro data ⟨remote', htarget', hdata⟩
        rw [← Option.some.inj (htarget.symm.trans htarget')] at hdata
        exact hdata
  · refine hunchanged (Prog.Lands.of_wp (C := fun t => t.fs = s.fs) ?_ ?_)
    · refine handleRollback_wp (fun _ ht => ht) ?_ ?_
      · exact fun m t code message hfs => ⟨refused_refuse code message, hfs⟩
      · intro m t remote current entries selected _ hne htarget _ _ _ _
        exact absurd ⟨hname ▸ hne, remote, htarget⟩ hgoes
    · exact fun t ht => ⟨refused_none, ht⟩

theorem VersionRun.kept (hrun : VersionRun S app P s) : Kept S app P s := by
  induction hrun with
  | start h => exact ⟨h, Set.empty_subset S, fun _ hdata => absurd hdata (Set.notMem_empty _)⟩
  | outside _ hsame ih => exact ih.same hsame
  | deploy _ henv link req hname hremote n hversions ih =>
      subst hname
      exact ih.replaced happ (handleDeploy_lands happ henv hremote link) hversions
  | upload _ henv hname htemp hremote n hversions ih =>
      subst hname
      exact ih.replaced happ (handleUploadEnd_lands happ henv hremote rfl htemp) hversions
  | rollback _ henv req hname hremote n hversions ih =>
      exact ih.rollback happ henv hname hremote hversions

end Steps

/-- What a run overwrote and installed is in the archive as one file, whose name
has its hash, and `backup_list` reports that file with that hash. -/
theorem versions_kept {S P : Set Bytes} {app : Bytes} {s : Target}
    (happ : app.length < maxFiledLen) (hinj : Set.InjOn hexDigest S)
    (hrun : VersionRun S app P s) {data : Bytes} (hdata : data ∈ P) :
    ∃ tm, s.content (backupPath app tm (hexDigest data)) = some data ∧
      nameIn (backupDir app) (backupPath app tm (hexDigest data)) =
        some (backupName tm (hexDigest data)) ∧
      (∀ p name, nameIn (backupDir app) p = some name → (s.content p).isSome →
        (s.content p = some data ∨ ∃ tm', name = backupName tm' (hexDigest data)) →
        p = backupPath app tm (hexDigest data)) ∧
      ∀ env : Env, env.Reliable → ∀ n, Prog.Ends (backupList env app) (fun listed _ _ =>
        ∀ hash, (hash, backupPath app tm (hexDigest data)) ∈ listed ↔ hash = hexDigest data)
        n s := by
  have hkept := hrun.kept happ
  have harchived := hkept.archived
  obtain ⟨p, name, found, hname, hfound, hdigest⟩ :=
    (harchived.hasBackup_iff happ data).mp (hkept.backups data hdata)
  obtain ⟨hmem, -⟩ := harchived.sound p name found hname hfound
  obtain rfl : found = data := hinj hmem (hkept.versions hdata) hdigest
  obtain ⟨tm, rfl, rfl⟩ := harchived.sound.name happ hname hfound
  have hlists : s.Lists app (hexDigest found) (backupPath app tm (hexDigest found)) := by
    refine ⟨_, Target.mem_namesIn.mpr ⟨_, found, hname, hfound⟩,
      parseBackupFilename_backupName, ?_⟩
    exact (existingPath_of_name hname (length_backupPath _ _ _)).symm
  refine ⟨tm, hfound, hname, ?_, ?_⟩
  · intro q name hq hsome hcase
    obtain ⟨other, hother⟩ := Option.isSome_iff_exists.mp hsome
    refine harchived.unique _ _ _ _ other found hq hname hother hfound ?_
    rcases hcase with heq | ⟨tm', rfl⟩
    · rw [Option.some.inj (hother.symm.trans heq)]
    · obtain ⟨_, rfl, -⟩ := harchived.sound.name happ hq hother
      exact (backupPath_hash hq (hashSuffix_backupName _ _) (length_hexDigest found)).symm
  · intro env henv n
    refine (backupList_ends henv).imp ?_
    rintro listed _ _ ⟨rfl, rfl⟩ hash
    rw [mem_dialListing]
    constructor
    · rintro ⟨-, hreported⟩
      obtain ⟨_, other, -, hother, rfl⟩ := harchived.sound.lists happ hreported
      rw [Option.some.inj (hother.symm.trans hfound)]
    · rintro rfl
      exact ⟨harchived.free, hlists⟩

theorem archived_empty {S : Set Bytes} {app : Bytes} {s : Target}
    (hfree : s.fs.lookup (backupDir app) = none) (h : s.namesIn (backupDir app) = []) :
    Archived S app s := by
  have hnone : ∀ p name data, nameIn (backupDir app) p = some name → s.content p ≠ some data := by
    intro p name data hname hdata
    have hmem := Target.mem_namesIn.mpr ⟨p, data, hname, hdata⟩
    rw [h] at hmem
    cases hmem
  refine ⟨hfree, fun p name data hname hdata => absurd hdata (hnone p name data hname), ?_⟩
  exact fun p _ name _ data _ hname _ hdata => absurd hdata (hnone p name data hname)

/-- All chunks of an upload of `hi` to `/opt/demo` are there. -/
def uploadedTarget : Target where
  fs := (∅ : Fs).insert (uploadTempPath (ascii "demo")) ⟨ascii "hi", 0o644, 0⟩
  cache := some []
  session := ⟨true, ascii "demo", ascii "/opt/demo", uploadTempPath (ascii "demo"),
    hexDigest (ascii "hi"), 2, 2, 1, 1, 0, true, []⟩

theorem installable_demo : Installable (ascii "demo") (ascii "/opt/demo") := by
  have hunder : ¬ underBackups (ascii "/opt/demo") ∧
      ¬ underBackups (tempPath (ascii "/opt/demo")) := by
    decide
  refine ⟨fun h => hunder.1 h.under, fun h => hunder.2 h.under, ?_, ?_, ?_, ?_⟩
  all_goals decide

theorem versions_kept_hi : ∃ tm,
    ((handleUploadEnd (calmEnv demoTime) 0 uploadedTarget).state.content
      (backupPath (ascii "demo") tm (hexDigest (ascii "hi")))) = some (ascii "hi") := by
  have hdone : ((handleUploadEnd (calmEnv demoTime) 0 uploadedTarget).result.map
        (·.success) = some true ∧
      (handleUploadEnd (calmEnv demoTime) 0 uploadedTarget).state.content (ascii "/opt/demo") =
        some (ascii "hi")) ∧
      uploadedTarget.content (ascii "/opt/demo") = none := by
    decide +kernel
  have hstart : VersionRun {ascii "hi"} (ascii "demo") ∅ uploadedTarget :=
    .start (archived_empty (by decide +kernel) (by decide +kernel))
  have hversions : Versions {ascii "hi"} (ascii "/opt/demo") uploadedTarget
      (handleUploadEnd (calmEnv demoTime) 0 uploadedTarget) := by
    rintro data (hdata | hdata)
    · rw [hdone.2] at hdata
      cases hdata
    · rw [hdone.1.2] at hdata
      exact (Option.some.inj hdata).symm
  have hrun := hstart.upload (calmEnv_reliable demoTime) rfl (fun _ => rfl) installable_demo 0
    hversions
  obtain ⟨resp, hresp, hsuccess⟩ := Option.map_eq_some_iff.mp hdone.1.1
  have hmem : ascii "hi" ∈ installed (ascii "/opt/demo") uploadedTarget
      (handleUploadEnd (calmEnv demoTime) 0 uploadedTarget) :=
    ⟨hdone.1.2, Or.inl ⟨resp, hresp, hsuccess⟩⟩
  obtain ⟨tm, hcontent, -⟩ := versions_kept (by decide)
    (Set.injOn_singleton hexDigest (ascii "hi")) hrun (Or.inr hmem)
  exact ⟨tm, hcontent⟩

end SatDeploy.Agent
