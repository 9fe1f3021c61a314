import SatDeploy.Agent.MetadataStore

/-!
The metadata store as a map from app names. Lookup compares the name of the
caller with a stored copy of at most 63 bytes, so a name that fits is found
again and a longer one never is. The text written for the table is read back
as the same table as long as no stored string needs an escape.
-/

namespace SatDeploy.Agent

open Lib

section Entries

variable {entries : List AppEntry} {app b : Bytes} {change : AppEntry → AppEntry}

/-- Changing the entry of `app` changes what is found for `app` only. -/
theorem findApp_modify (hname : ∀ e, (change e).appName = e.appName) :
    ∀ {i : Nat}, entries.findIdx? (fun e => e.appName = app) = some i → ∀ b,
      findApp (entries.modify i change) b =
        if b = app then (findApp entries app).map change else findApp entries b := by
  induction entries with
  | nil =>
      intro i hi
      simp at hi
  | cons x entries ih =>
      intro i hi b
      by_cases hx : x.appName = app
      · have hzero : i = 0 := by simpa [List.findIdx?_cons, hx] using hi.symm
        subst hzero
        by_cases hb : b = app
        · simp [findApp, hname, hx, hb]
        · have hother : ¬ app = b := fun h => hb h.symm
          simp [findApp, hname, hx, hb, hother]
      · obtain ⟨j, hj, rfl⟩ : ∃ j, entries.findIdx? (fun e => e.appName = app) = some j ∧
            j + 1 = i := by simpa [List.findIdx?_cons, hx] using hi
        have hlater := ih hj b
        by_cases hxb : x.appName = b
        · have hb : ¬ b = app := fun h => hx (hxb.trans h)
          simp [findApp, hxb, hb]
        · simpa [findApp, hx, hxb] using hlater

theorem map_appName_modify (hname : ∀ e, (change e).appName = e.appName) (i : Nat) :
    (entries.modify i change).map (·.appName) = entries.map (·.appName) := by
  apply List.ext_getElem?
  intro j
  rw [List.getElem?_map, List.getElem?_map, List.getElem?_modify]
  cases entries[j]? with
  | none => rfl
  | some e =>
      simp only [Option.map_eq_map, Option.map_some]
      split
      · rw [hname]
      · rfl

theorem findApp_eq_none : findApp entries app = none ↔ app ∉ entries.map (·.appName) := by
  simp [findApp]

/-- Bringing the entry of a name that fits up to date. -/
theorem updateEntry_short (hname : ∀ e, (change e).appName = e.appName)
    (happ : app.length < maxAppNameLen)
    (hroom : app ∈ entries.map (·.appName) ∨ entries.length < maxApps) :
    ∃ updated, updateEntry entries app change = some updated ∧
      updated.map (·.appName) = (if app ∈ entries.map (·.appName) then entries.map (·.appName)
        else entries.map (·.appName) ++ [app]) ∧
      findApp updated app =
        some (change ((findApp entries app).getD ⟨app, [], [], []⟩)) ∧
      ∀ b, b ≠ app → findApp updated b = findApp entries b := by
  unfold updateEntry
  cases hfind : entries.findIdx? (fun e => e.appName = app) with
  | some i =>
      obtain ⟨hlt, hhas, -⟩ := List.findIdx?_eq_some_iff_getElem.mp hfind
      have hmem : app ∈ entries.map (·.appName) :=
        List.mem_map.mpr ⟨entries[i], List.getElem_mem hlt, by simpa using hhas⟩
      obtain ⟨e, he⟩ : ∃ e, findApp entries app = some e := by
        cases he : findApp entries app with
        | none => exact absurd hmem (findApp_eq_none.mp he)
        | some e => exact ⟨e, rfl⟩
      refine ⟨_, rfl, ?_, ?_, fun b hb => ?_⟩
      · rw [map_appName_modify hname, if_pos hmem]
      · rw [findApp_modify hname hfind, if_pos rfl, he]
        rfl
      · rw [findApp_modify hname hfind, if_neg hb]
  | none =>
      have hmem : app ∉ entries.map (·.appName) := by
        simpa using List.findIdx?_eq_none_iff.mp hfind
      have hfits : ¬ entries.length ≥ maxApps := by
        have hlt := hroom.resolve_left hmem
        omega
      have hnone := findApp_eq_none.mpr hmem
      dsimp only
      rw [if_neg hfits, clip_of_lt happ]
      refine ⟨_, rfl, ?_, ?_, fun b hb => ?_⟩
      · rw [if_neg hmem, List.map_append, List.map_singleton, hname]
      · rw [findApp_append, hnone]
        simp [findApp, hname]
      · have hother : ¬ app = b := fun h => hb h.symm
        rw [findApp_append]
        simp [findApp, hname, hother]

end Entries

section Saves

variable {env : Env} {n : Nat} {s : Target} {entries : List AppEntry}

/-- What a save does when no call fails. -/
theorem appMetadataSave_reliable (henv : env.Reliable) (app remote hash : Bytes)
    (hmeta : s.metadata = some entries) :
    Prog.Ends (appMetadataSave env app remote hash) (fun saved _ t => ∃ now,
      match updateEntry entries app (·.deployed env remote hash now) with
      | none => saved = false ∧ t.cache = some entries
      | some updated => saved = true ∧ t.cache = some updated ∧
          t.content metadataFile = some (renderMetadata updated)) n s := by
  unfold appMetadataSave
  rw [Prog.ends_bind]
  refine (loadMetadata_ends (fun _ => henv _ _) (fun _ => henv _ _) hmeta).imp ?_
  rintro found m _ ⟨rfl, rfl⟩
  rw [Prog.ends_bind, timeNow, Prog.ends_call]
  dsimp only
  have hchange : (fun e : AppEntry => { e with
      remotePath := clip maxPathLen remote
      fileHash := clip 65 hash
      deployedAt := clip 32 (isoTime (env.localtime (env.clock m))) }) =
      (·.deployed env remote hash (env.clock m)) := rfl
  rw [hchange]
  cases hupdate : updateEntry found app (·.deployed env remote hash (env.clock m)) with
  | none =>
      rw [Prog.ends_pure]
      refine ⟨env.clock m, ?_⟩
      rw [hupdate]
      exact ⟨rfl, rfl⟩
  | some updated =>
      dsimp only
      rw [Prog.ends_bind, setCache, Prog.ends_update]
      refine ((saveMetadata_total env updated _ _).and_wp (saveMetadata_wp henv)).imp ?_
      rintro saved m' t ⟨-, rfl, hcache, hcontent⟩
      refine ⟨env.clock m, ?_⟩
      rw [hupdate]
      exact ⟨rfl, hcache, hcontent⟩

theorem metadata_of_cache {t : Target} (h : t.cache = some entries) :
    t.metadata = some entries := by
  rw [Target.metadata, h]

/-- A save leaves a table: the one it found, or that one brought up to date. -/
theorem appMetadataSave_table (henv : env.Reliable) (app remote hash : Bytes)
    (hmeta : s.metadata = some entries) :
    ∃ now, (appMetadataSave env app remote hash n s).state.metadata =
        some ((updateEntry entries app (·.deployed env remote hash now)).getD entries) ∧
      (appMetadataSave env app remote hash n s).result =
        some (updateEntry entries app (·.deployed env remote hash now)).isSome := by
  obtain ⟨saved, hresult, now, hend⟩ := appMetadataSave_reliable henv app remote hash hmeta
  refine ⟨now, ?_⟩
  rw [hresult]
  cases hupdate : updateEntry entries app (·.deployed env remote hash now) with
  | none =>
      rw [hupdate] at hend
      obtain ⟨rfl, hcache⟩ := hend
      exact ⟨metadata_of_cache hcache, rfl⟩
  | some updated =>
      rw [hupdate] at hend
      obtain ⟨rfl, hcache, -⟩ := hend
      exact ⟨metadata_of_cache hcache, rfl⟩

end Saves

/-- One call of `app_metadata_save`, made after `calls` library calls. -/
structure SaveCall where
  env : Env
  calls : Nat
  app : Bytes
  remote : Bytes
  hash : Bytes

def SaveCall.run (c : SaveCall) (s : Target) : Outcome Target Bool :=
  appMetadataSave c.env c.app c.remote c.hash c.calls s

/-- The target after a sequence of saves. -/
def runSaves (s : Target) (saves : List SaveCall) : Target :=
  saves.foldl (fun t c => (c.run t).state) s

/-- The last save for a name. -/
def lastSave (saves : List SaveCall) (app : Bytes) : Option SaveCall :=
  saves.reverse.find? fun c => c.app = app

/-- The saves `saves`, made one after another from `s`, treat the store as a map. -/
structure MapLike (s : Target) (saves : List SaveCall) : Prop where
  succeed : ∀ before c later, saves = before ++ c :: later →
    (c.run (runSaves s before)).result = some true
  one_each : ∃ entries, (runSaves s saves).metadata = some entries ∧
    (entries.map (·.appName)).Nodup ∧
    ∀ app, app ∈ entries.map (·.appName) ↔ ∃ c ∈ saves, c.app = app
  get_last : ∀ app c, lastSave saves app = some c → ∀ env : Env, env.Reliable → ∀ n,
    Prog.Ends (appMetadataGet env app) (fun r _ _ => ∃ e, r = some e ∧
      e.remotePath = c.remote ∧ e.fileHash = c.hash) n (runSaves s saves)
  frame : ∀ before c later, saves = before ++ c :: later → ∀ b, b ≠ c.app →
    (runSaves s (before ++ [c])).metadata.bind (findApp · b) =
      (runSaves s before).metadata.bind (findApp · b)

section Runs

variable {s : Target} {saves : List SaveCall} {c : SaveCall}

theorem runSaves_snoc : runSaves s (saves ++ [c]) = (c.run (runSaves s saves)).state := by
  simp [runSaves]

theorem lastSave_snoc (app : Bytes) :
    lastSave (saves ++ [c]) app = if c.app = app then some c else lastSave saves app := by
  by_cases h : c.app = app <;> simp [lastSave, h]

/-- Stored names are shorter than their field. -/
theorem updateEntry_names {entries updated : List AppEntry} {app : Bytes}
    {change : AppEntry → AppEntry} (hname : ∀ e, (change e).appName = e.appName)
    (h : updateEntry entries app change = some updated)
    (hshort : ∀ b ∈ entries.map (·.appName), b.length < maxAppNameLen) :
    ∀ b ∈ updated.map (·.appName), b.length < maxAppNameLen := by
  unfold updateEntry at h
  split at h
  next i hi =>
    rw [← Option.some.inj h, map_appName_modify hname]
    exact hshort
  next =>
    split at h
    · cases h
    · rw [← Option.some.inj h, List.map_append]
      intro b hb
      rcases List.mem_append.mp hb with hb | hb
      · exact hshort b hb
      · have hclipped : b = clip maxAppNameLen app := by simpa [hname] using hb
        rw [hclipped]
        simp only [clip, List.length_take, maxAppNameLen]
        omega

theorem runSaves_names (hempty : s.metadata = some []) (henv : ∀ c ∈ saves, c.env.Reliable) :
    ∃ entries, (runSaves s saves).metadata = some entries ∧
      ∀ b ∈ entries.map (·.appName), b.length < maxAppNameLen := by
  induction saves using List.reverseRecOn with
  | nil => exact ⟨[], hempty, by simp⟩
  | append_singleton saves c ih =>
      obtain ⟨entries, hmeta, hshort⟩ := ih fun d hd => henv d (List.mem_append_left _ hd)
      have hreliable : c.env.Reliable := henv c (by simp)
      obtain ⟨now, htable, -⟩ :=
        appMetadataSave_table (n := c.calls) hreliable c.app c.remote c.hash hmeta
      refine ⟨_, runSaves_snoc ▸ htable, ?_⟩
      have hname : ∀ e : AppEntry, (e.deployed c.env c.remote c.hash now).appName = e.appName :=
        fun _ => rfl
      cases hupdate : updateEntry entries c.app (·.deployed c.env c.remote c.hash now) with
      | none => exact hshort
      | some updated => exact updateEntry_names hname hupdate hshort

theorem appMetadataGet_ends {env : Env} {n : Nat} {entries : List AppEntry} (henv : env.Reliable)
    (hmeta : s.metadata = some entries) (app : Bytes) :
    Prog.Ends (appMetadataGet env app) (fun r _ _ => r = findApp entries app) n s := by
  unfold appMetadataGet
  rw [Prog.ends_bind]
  refine (loadMetadata_ends (fun _ => henv _ _) (fun _ => henv _ _) hmeta).imp ?_
  rintro _ m t ⟨rfl, -⟩
  rw [Prog.ends_pure]

/-- A store that treats its names as keys holds short names only. -/
theorem MapLike.short (h : MapLike s saves) (hempty : s.metadata = some [])
    (henv : ∀ c ∈ saves, c.env.Reliable) : ∀ c ∈ saves, c.app.length < maxAppNameLen := by
  intro c hc
  obtain ⟨entries, hmeta, -, hnames⟩ := h.one_each
  obtain ⟨stored, hstored, hshort⟩ := runSaves_names hempty henv
  obtain rfl : entries = stored := Option.some.inj (hmeta.symm.trans hstored)
  exact hshort c.app ((hnames c.app).mpr ⟨c, hc, rfl⟩)

/-- What the table looks like after saves of names that fit. -/
structure Tabled (saves : List SaveCall) (entries : List AppEntry) : Prop where
  nodup : (entries.map (·.appName)).Nodup
  names : ∀ app, app ∈ entries.map (·.appName) ↔ ∃ c ∈ saves, c.app = app
  last : ∀ app c, lastSave saves app = some c →
    ∃ e, findApp entries app = some e ∧ e.remotePath = c.remote ∧ e.fileHash = c.hash

/-- There is room for a name that is one of at most 64. -/
theorem Tabled.room {entries : List AppEntry} (h : Tabled saves entries)
    (hnames : ((saves ++ [c]).map (·.app)).dedup.length ≤ maxApps) :
    c.app ∈ entries.map (·.appName) ∨ entries.length < maxApps := by
  by_cases hmem : c.app ∈ entries.map (·.appName)
  · exact Or.inl hmem
  right
  have hnodup : (c.app :: entries.map (·.appName)).Nodup := List.nodup_cons.mpr ⟨hmem, h.nodup⟩
  have hsub : c.app :: entries.map (·.appName) ⊆ ((saves ++ [c]).map (·.app)).dedup := by
    intro b hb
    rw [List.mem_dedup, List.mem_map]
    rcases List.mem_cons.mp hb with rfl | hb
    · exact ⟨c, by simp, rfl⟩
    · obtain ⟨d, hd, hdb⟩ := (h.names b).mp hb
      exact ⟨d, List.mem_append_left _ hd, hdb⟩
  have hlen := (List.subperm_of_subset hnodup hsub).length_le
  rw [List.length_cons, List.length_map] at hlen
  omega

/-- One more save of a name that fits. -/
theorem Tabled.save {entries : List AppEntry} (h : Tabled saves entries)
    (hmeta : (runSaves s saves).metadata = some entries) (henv : c.env.Reliable)
    (hnames : ((saves ++ [c]).map (·.app)).dedup.length ≤ maxApps)
    (happ : c.app.length < maxAppNameLen) (hremote : c.remote.length < maxPathLen)
    (hhash : c.hash.length < 65) :
    (c.run (runSaves s saves)).result = some true ∧
    ∃ updated, (runSaves s (saves ++ [c])).metadata = some updated ∧
      Tabled (saves ++ [c]) updated ∧ ∀ b, b ≠ c.app → findApp updated b = findApp entries b := by
  obtain ⟨now, htable, hresult⟩ :=
    appMetadataSave_table (n := c.calls) henv c.app c.remote c.hash hmeta
  have hname : ∀ e : AppEntry, (e.deployed c.env c.remote c.hash now).appName = e.appName :=
    fun _ => rfl
  obtain ⟨updated, hupdate, hkeys, hfound, hother⟩ :=
    updateEntry_short hname happ (h.room hnames)
  rw [hupdate] at htable hresult
  refine ⟨hresult, updated, runSaves_snoc ▸ htable, ⟨?_, fun b => ?_, fun b d hd => ?_⟩, hother⟩
  · rw [hkeys]
    split
    next => exact h.nodup
    next hmem =>
      refine List.Nodup.append h.nodup (List.nodup_singleton _) ?_
      simpa using hmem
  · have hsaved : b ∈ updated.map (·.appName) ↔ b ∈ entries.map (·.appName) ∨ b = c.app := by
      rw [hkeys]
      split
      next hmem =>
        refine ⟨Or.inl, fun hb => hb.elim id fun hb => ?_⟩
        rw [hb]
        exact hmem
      next => rw [List.mem_append, List.mem_singleton]
    rw [hsaved, h.names]
    constructor
    · rintro (⟨d, hd, rfl⟩ | rfl)
      · exact ⟨d, List.mem_append_left _ hd, rfl⟩
      · exact ⟨c, by simp, rfl⟩
    · rintro ⟨d, hd, rfl⟩
      rcases List.mem_append.mp hd with hd | hd
      · exact Or.inl ⟨d, hd, rfl⟩
      · rw [List.mem_singleton.mp hd]
        exact Or.inr rfl
  · rw [lastSave_snoc] at hd
    by_cases hb : c.app = b
    · rw [if_pos hb] at hd
      rw [← Option.some.inj hd, ← hb]
      exact ⟨_, hfound, clip_of_lt hremote, clip_of_lt hhash⟩
    · rw [if_neg hb] at hd
      rw [hother b fun h => hb h.symm]
      exact h.last b d hd

end Runs

/-- Saves that the table has room for: at most 64 names, paths and hashes that
fit their fields, and no library call that fails. -/
structure SavesFit (saves : List SaveCall) : Prop where
  reliable : ∀ c ∈ saves, c.env.Reliable
  names : (saves.map (·.app)).dedup.length ≤ maxApps
  remote : ∀ c ∈ saves, c.remote.length < maxPathLen
  hash : ∀ c ∈ saves, c.hash.length < 65

theorem SavesFit.initial {saves before : List SaveCall} (h : SavesFit saves)
    (hbefore : before <+: saves) : SavesFit before := by
  refine ⟨fun c hc => h.reliable c (hbefore.subset hc), ?_,
    fun c hc => h.remote c (hbefore.subset hc), fun c hc => h.hash c (hbefore.subset hc)⟩
  have hsub : (before.map (·.app)).dedup ⊆ (saves.map (·.app)).dedup := by
    intro b hb
    rw [List.mem_dedup] at hb ⊢
    exact List.map_subset _ hbefore.subset hb
  exact le_trans (List.subperm_of_subset (List.nodup_dedup _) hsub).length_le h.names

section Map

variable {s : Target} {saves : List SaveCall}

theorem runSaves_tabled (hempty : s.metadata = some []) (hfit : SavesFit saves)
    (happ : ∀ c ∈ saves, c.app.length < maxAppNameLen) :
    ∃ entries, (runSaves s saves).metadata = some entries ∧ Tabled saves entries := by
  induction saves using List.reverseRecOn with
  | nil => exact ⟨[], hempty, by simp, by simp, by simp [lastSave]⟩
  | append_singleton saves c ih =>
      obtain ⟨entries, hmeta, htabled⟩ := ih (hfit.initial (List.prefix_append _ _))
        fun d hd => happ d (List.mem_append_left _ hd)
      have hlast : c ∈ saves ++ [c] := by simp
      obtain ⟨-, updated, hupdated, hnext, -⟩ := htabled.save hmeta (hfit.reliable c hlast)
        hfit.names (happ c hlast) (hfit.remote c hlast) (hfit.hash c hlast)
      exact ⟨updated, hupdated, hnext⟩

/-- One save of a sequence of names that fit. -/
theorem runSaves_save (hempty : s.metadata = some []) (hfit : SavesFit saves)
    (happ : ∀ c ∈ saves, c.app.length < maxAppNameLen) {before later : List SaveCall}
    {c : SaveCall} (hsaves : saves = before ++ c :: later) :
    (c.run (runSaves s before)).result = some true ∧ ∀ b, b ≠ c.app →
      (runSaves s (before ++ [c])).metadata.bind (findApp · b) =
        (runSaves s before).metadata.bind (findApp · b) := by
  have hinitial : before ++ [c] <+: saves := ⟨later, by simp [hsaves]⟩
  have hcall : c ∈ saves := by simp [hsaves]
  have hbefore := hfit.initial ((List.prefix_append _ _).trans hinitial)
  obtain ⟨entries, hmeta, htabled⟩ := runSaves_tabled hempty hbefore fun d hd =>
    happ d (hinitial.subset (List.mem_append_left _ hd))
  obtain ⟨hresult, updated, hupdated, -, hother⟩ := htabled.save hmeta (hfit.reliable c hcall)
    (hfit.initial hinitial).names (happ c hcall) (hfit.remote c hcall) (hfit.hash c hcall)
  refine ⟨hresult, fun b hb => ?_⟩
  rw [hupdated, hmeta]
  exact hother b hb

/-- The store is a map exactly when every name is shorter than its field. -/
theorem mapLike_iff (hempty : s.metadata = some []) (hfit : SavesFit saves) :
    MapLike s saves ↔ ∀ c ∈ saves, c.app.length < maxAppNameLen := by
  refine ⟨fun h => h.short hempty hfit.reliable, fun happ => ?_⟩
  obtain ⟨entries, hmeta, htabled⟩ := runSaves_tabled hempty hfit happ
  constructor
  · exact fun before c later hsaves => (runSaves_save hempty hfit happ hsaves).1
  · exact ⟨entries, hmeta, htabled.nodup, htabled.names⟩
  · intro app c hc env henv n
    refine (appMetadataGet_ends henv hmeta app).imp ?_
    rintro _ m t rfl
    exact htabled.last app c hc
  · exact fun before c later hsaves => (runSaves_save hempty hfit happ hsaves).2

end Map

/-- What the agent writes for `entries` it loads again as `entries`. -/
def RoundTrips (entries : List AppEntry) : Prop :=
  ∀ (env : Env) (n : Nat) (t : Target), env.Reliable → t.cache = none →
    t.content metadataFile = some (renderMetadata entries) →
    Prog.Ends (loadMetadata env) (fun r _ t' => r = entries ∧ t'.cache = some entries) n t

/-- What is stored of the strings of a save has no quote and no backslash. -/
structure SaveCall.PlainStored (c : SaveCall) : Prop where
  app : Plain (clip maxAppNameLen c.app)
  remote : Plain (clip maxPathLen c.remote)
  hash : Plain (clip 65 c.hash)

/-- A store without entries: nothing in the cache, and nothing to load. -/
def Target.EmptyStore (s : Target) : Prop :=
  s.cache = some [] ∨ s.cache = none ∧ s.content metadataFile = none

section RoundTrip

variable {env : Env} {n : Nat} {s : Target} {entries : List AppEntry}

theorem loadMetadata_emptyStore (h : s.EmptyStore) :
    Prog.Ends (loadMetadata env) (fun r _ t => r = [] ∧ t.cache = some []) n s := by
  rcases h with hcache | ⟨hcache, hfile⟩
  · rw [loadMetadata, Prog.ends_bind, Prog.ends_read, hcache, Prog.ends_pure]
    exact ⟨rfl, hcache⟩
  · have hfile' : Target.content { s with cache := some [] } metadataFile = none := hfile
    rw [loadMetadata, Prog.ends_bind, Prog.ends_read, hcache]
    dsimp only
    rw [Prog.ends_bind, setCache, Prog.ends_update, Prog.ends_bind, readMetadata, Prog.ends_bind,
      fopenRead, Prog.ends_call]
    simp [hfile']

theorem saveMetadata_memory : KeepsMemory (saveMetadata env entries) := by
  unfold saveMetadata
  refine .bind (.observe fun _ _ => rfl) fun _ => .ite ?_ (.pure _)
  refine .bind (fopenWrite_memory _) fun _ => .ite ?_ (.pure _)
  exact .bind (fwriteAll_memory _ _) fun _ => .bind (fcloseWritten_memory _) fun _ => .pure _

/-- A save leaves the table it found or the updated one in the cache, whatever
becomes of the file. -/
theorem appMetadataSave_cache (app remote hash : Bytes)
    (hload : Prog.Ends (loadMetadata env) (fun r _ t => r = entries ∧ t.cache = some entries) n s) :
    Prog.Ends (appMetadataSave env app remote hash) (fun _ _ t => ∃ now,
      t.cache = some ((updateEntry entries app (·.deployed env remote hash now)).getD entries))
      n s := by
  unfold appMetadataSave
  rw [Prog.ends_bind]
  refine hload.imp ?_
  rintro _ m t ⟨rfl, hcache⟩
  rw [Prog.ends_bind, timeNow, Prog.ends_call]
  dsimp only
  have hchange : (fun e : AppEntry => { e with
      remotePath := clip maxPathLen remote
      fileHash := clip 65 hash
      deployedAt := clip 32 (isoTime (env.localtime (env.clock m))) }) =
      (·.deployed env remote hash (env.clock m)) := rfl
  rw [hchange]
  split
  next hupdate =>
    rw [Prog.ends_pure]
    exact ⟨env.clock m, by simp [hupdate, hcache]⟩
  next updated hupdate =>
    rw [Prog.ends_bind, setCache, Prog.ends_update]
    refine ((saveMetadata_total env updated _ _).and_wp (saveMetadata_memory (some updated)
      t.session _ { t with cache := some updated } ⟨rfl, rfl⟩)).imp ?_
    rintro _ _ u ⟨-, hu, -⟩
    exact ⟨env.clock m, by simp [hupdate, hu]⟩

/-- A table of plain strings is written and read back. -/
theorem roundTrips_stored (hstored : ∀ e ∈ entries, e.Stored) (hroom : entries.length ≤ maxApps) :
    RoundTrips entries := by
  intro env n t henv hcache hfile
  have hheld : t.restarted.metadata = some entries := by
    cases hentries : entries with
    | nil =>
        rw [hentries] at hfile
        have hfile' : t.restarted.content metadataFile = some (renderMetadata []) := hfile
        have hparse : parseMetadata (renderMetadata []) = some [] := by decide
        have hsize : ¬ ((renderMetadata []).length = 0 ∨
            (renderMetadata []).length > 1024 * 1024) := by decide
        simp only [Target.metadata, hfile', if_neg hsize, hparse]
        rfl
    | cons e rest =>
        rw [← hentries]
        have hne : entries ≠ [] := by simp [hentries]
        exact ((CutAt.complete hne).holds hstored hroom (List.prefix_refl _) hfile
          (Or.inl hcache)).file
  have hmeta : t.metadata = some entries := by
    rw [← hheld]
    simp only [Target.metadata, hcache]
    rfl
  refine (loadMetadata_ends (fun _ => henv _ _) (fun _ => henv _ _) hmeta).imp ?_
  rintro _ _ _ ⟨rfl, rfl⟩
  exact ⟨rfl, rfl⟩

/-- The cache after saves of strings whose stored part is plain. -/
theorem runSaves_stored {saves : List SaveCall} (hempty : s.EmptyStore)
    (hplain : ∀ c ∈ saves, c.PlainStored) :
    (runSaves s saves).EmptyStore ∨ ∃ entries, (runSaves s saves).cache = some entries ∧
      (∀ e ∈ entries, e.Stored) ∧ entries.length ≤ maxApps := by
  induction saves using List.reverseRecOn with
  | nil => exact Or.inl hempty
  | append_singleton saves c ih =>
      have hc : c.PlainStored := hplain c (by simp)
      obtain ⟨entries, hstored, hroom, hload⟩ : ∃ entries : List AppEntry,
          (∀ e ∈ entries, e.Stored) ∧ entries.length ≤ maxApps ∧
          Prog.Ends (loadMetadata c.env) (fun r _ t => r = entries ∧ t.cache = some entries)
            c.calls (runSaves s saves) := by
        rcases ih fun d hd => hplain d (List.mem_append_left _ hd) with
          hstart | ⟨entries, hcache, hstored, hroom⟩
        · exact ⟨[], by simp, by simp, loadMetadata_emptyStore hstart⟩
        · refine ⟨entries, hstored, hroom, ?_⟩
          rw [loadMetadata, Prog.ends_bind, Prog.ends_read, hcache, Prog.ends_pure]
          exact ⟨rfl, hcache⟩
      obtain ⟨-, -, now, hcache⟩ := appMetadataSave_cache c.app c.remote c.hash hload
      refine Or.inr ⟨_, runSaves_snoc ▸ hcache, ?_⟩
      cases hupdate : updateEntry entries c.app (·.deployed c.env c.remote c.hash now) with
      | none => exact ⟨hstored, hroom⟩
      | some updated =>
          obtain ⟨hupdated, hfits, -⟩ := updateEntry_stored
            (fun e he => he.deployed hc.remote hc.hash now) hc.app hstored hroom hupdate
          exact ⟨hupdated, hfits⟩

/-- Every table that saves of such strings leave in the cache is written and
read back as it is. -/
theorem metadata_round_trip {saves : List SaveCall} (hempty : s.EmptyStore)
    (hplain : ∀ c ∈ saves, c.PlainStored) (hcache : (runSaves s saves).cache = some entries) :
    RoundTrips entries := by
  rcases runSaves_stored hempty hplain with hstart | ⟨stored, hcache', hstored, hroom⟩
  · rcases hstart with hnil | ⟨hnone, -⟩
    · rw [← Option.some.inj (hnil.symm.trans hcache)]
      exact roundTrips_stored (by simp) (by simp)
    · rw [hnone] at hcache
      cases hcache
  · rw [← Option.some.inj (hcache'.symm.trans hcache)]
    exact roundTrips_stored hstored hroom

end RoundTrip

section Demo

def demoCall (app : Bytes) : SaveCall :=
  ⟨calmEnv demoTime, 0, app, ascii "/opt/demo", ascii "aa"⟩

theorem demoCalls_fit (a b : Bytes) : SavesFit [demoCall a, demoCall b] := by
  refine ⟨?_, ?_, ?_, ?_⟩
  · simp [demoCall, calmEnv_reliable]
  · exact le_trans (List.dedup_sublist _).length_le (show 2 ≤ maxApps by decide)
  · simp [demoCall]
    decide
  · simp [demoCall]
    decide

theorem mapLike_demo : MapLike freshTarget [demoCall (ascii "heater"), demoCall (ascii "camera")] :=
  (mapLike_iff (by decide +kernel) (demoCalls_fit _ _)).mpr (by decide)

/-- A name of 64 bytes is stored without its last byte: a second save does not
find it, and neither does a lookup. -/
theorem not_mapLike_long : freshTarget.metadata = some [] ∧
    SavesFit [demoCall (List.replicate 64 97), demoCall (List.replicate 64 97)] ∧
    ¬ MapLike freshTarget [demoCall (List.replicate 64 97), demoCall (List.replicate 64 97)] := by
  have hfit := demoCalls_fit (List.replicate 64 97) (List.replicate 64 97)
  refine ⟨by decide +kernel, hfit, fun h => ?_⟩
  have hshort := h.short (by decide +kernel) hfit.reliable _ (List.mem_cons_self ..)
  exact absurd hshort (by decide)

theorem metadata_round_trip_demo :
    RoundTrips [demoEntry "heater", demoEntry "camera"] := by
  have hfields : Plain (clip maxPathLen (ascii "/opt/demo")) ∧ Plain (clip 65 (ascii "aa")) := by
    decide
  have hplain : ∀ app : Bytes, Plain (clip maxAppNameLen app) → (demoCall app).PlainStored :=
    fun app happ => ⟨happ, hfields.1, hfields.2⟩
  have hcalls : ∀ c ∈ [demoCall (ascii "heater"), demoCall (ascii "camera")], c.PlainStored := by
    intro c hc
    rcases List.mem_cons.mp hc with rfl | hc
    · exact hplain _ (by decide)
    · rw [List.mem_singleton.mp hc]
      exact hplain _ (by decide)
  have hempty : freshTarget.EmptyStore := Or.inr ⟨rfl, rfl⟩
  exact metadata_round_trip hempty hcalls (by decide +kernel)

/-- A name with a quote is written as it is and ends at the quote when it is
read, so that the entry is lost. -/
theorem not_roundTrips_quote : freshTarget.EmptyStore ∧
    (0 ∉ ascii "a\"b" ∧ 0 ∉ ascii "/opt/demo" ∧ 0 ∉ ascii "aa") ∧
    (runSaves freshTarget [demoCall (ascii "a\"b")]).cache = some [demoEntry "a\"b"] ∧
    ¬ RoundTrips [demoEntry "a\"b"] := by
  refine ⟨Or.inr ⟨rfl, rfl⟩, by decide, by decide +kernel, fun h => ?_⟩
  let t : Target :=
    freshTarget.put metadataFile ⟨renderMetadata [demoEntry "a\"b"], 0o644, 0⟩
  have hload : (loadMetadata (calmEnv demoTime) 0 t).result = some [] := by decide +kernel
  obtain ⟨r, hresult, hr, -⟩ := h (calmEnv demoTime) 0 t (calmEnv_reliable _) rfl
    Target.content_put
  rw [hload, hr] at hresult
  exact absurd hresult (by simp)

end Demo

end SatDeploy.Agent
