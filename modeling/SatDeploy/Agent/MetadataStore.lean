import SatDeploy.Agent.MetadataText
import SatDeploy.Agent.Reliable

/-!
The metadata store over whole lives of the agent. `save_metadata` empties
`apps.json` and writes it again, so a save that is interrupted leaves a part of
the new text. A run of the store is made of saves that end and of saves that are
cut where nothing of another app is missing; in such a run the file always holds
the entries, and the next agent finds them.
-/

namespace SatDeploy.Agent

open Lib

/-- The target as a new process finds it. -/
def Target.restarted (s : Target) : Target := { s with cache := none, session := .zero }

/-- What `app_metadata_save` makes of an entry. -/
def AppEntry.deployed (env : Env) (remote hash : Bytes) (now : Nat) (e : AppEntry) : AppEntry :=
  { e with
    remotePath := clip maxPathLen remote
    fileHash := clip 65 hash
    deployedAt := clip 32 (isoTime (env.localtime now)) }

section Updates

variable {entries updated : List AppEntry} {app b : Bytes} {change : AppEntry → AppEntry}

/-- Bringing an entry up to date leaves those of the other apps. -/
theorem updateEntry_finds (hname : ∀ e, (change e).appName = e.appName)
    (h : updateEntry entries app change = some updated) (hb : b ≠ app) {e : AppEntry}
    (hfound : findApp entries b = some e) : findApp updated b = some e := by
  unfold updateEntry at h
  split at h
  next i hi =>
    rw [← Option.some.inj h]
    clear h
    -- the changed entry is one of `app`, before and after
    induction entries generalizing i with
    | nil => simp at hi
    | cons x entries ih =>
        by_cases hx : x.appName = app
        · have hzero : i = 0 := by simpa [List.findIdx?_cons, hx] using hi.symm
          subst hzero
          have hother : ¬ app = b := fun h => hb h.symm
          simpa [findApp, hname, hx, hother] using hfound
        · obtain ⟨j, hj, rfl⟩ : ∃ j, entries.findIdx? (fun e => e.appName = app) = some j ∧
              j + 1 = i := by simpa [List.findIdx?_cons, hx] using hi
          by_cases hxb : x.appName = b
          · simpa [findApp, hxb] using hfound
          · have hlater : findApp entries b = some e := by simpa [findApp, hxb] using hfound
            simpa [findApp, hxb] using ih hlater j hj
  next =>
    split at h
    · cases h
    · rw [← Option.some.inj h, findApp_append, hfound]
      rfl

theorem updateEntry_stored (hchange : ∀ e : AppEntry, e.Stored → (change e).Stored)
    (happ : Plain (clip maxAppNameLen app)) (hstored : ∀ e ∈ entries, e.Stored)
    (hroom : entries.length ≤ maxApps) (h : updateEntry entries app change = some updated) :
    (∀ e ∈ updated, e.Stored) ∧ updated.length ≤ maxApps ∧ updated ≠ [] := by
  unfold updateEntry at h
  split at h
  next i hi =>
    rw [← Option.some.inj h]
    refine ⟨fun e he => ?_, by simpa using hroom, ?_⟩
    · obtain ⟨j, hj⟩ := List.mem_iff_getElem?.mp he
      rw [List.getElem?_modify] at hj
      obtain ⟨x, hx, rfl⟩ := Option.map_eq_some_iff.mp hj
      have hmem := hstored x (List.mem_of_getElem? hx)
      split
      · exact hchange x hmem
      · exact hmem
    · intro hnil
      have hlen := congrArg List.length hnil
      rw [List.length_modify] at hlen
      rw [List.length_eq_zero_iff.mp hlen] at hi
      simp at hi
  next =>
    split at h
    · cases h
    next hfree =>
      rw [← Option.some.inj h]
      refine ⟨fun e he => ?_, by simp; omega, by simp⟩
      rcases List.mem_append.mp he with he | he
      · exact hstored e he
      · rw [List.mem_singleton.mp he]
        have hplain : Plain [] := by decide
        refine hchange _ ⟨happ, hplain, hplain, hplain, ?_, Nat.zero_lt_succ _,
          Nat.zero_lt_succ _, Nat.zero_lt_succ _⟩
        simp only [clip, List.length_take, maxAppNameLen]
        omega

theorem plain_digits (width : Nat) : ∀ n, Plain (digits width n) := by
  have hdigit : ∀ d < 10, Plain [UInt8.ofNat (48 + d)] := by decide
  induction width with
  | zero =>
      intro n
      simp [digits, Plain]
  | succ width ih =>
      intro n c hc
      rcases List.mem_append.mp hc with hc | hc
      · exact ih _ c hc
      · exact hdigit (n % 10) (Nat.mod_lt _ (by decide)) c hc

theorem plain_isoTime (tm : Tm) : Plain (isoTime tm) := by
  have hmarks : Plain (ascii "-") ∧ Plain (ascii "T") ∧ Plain (ascii ":") := by decide
  intro c hc
  simp only [isoTime, List.mem_append] at hc
  rcases hc with (((((((((hc | hc) | hc) | hc) | hc) | hc) | hc) | hc) | hc) | hc) | hc
  all_goals first
    | exact plain_digits _ _ c hc
    | exact hmarks.1 c hc
    | exact hmarks.2.1 c hc
    | exact hmarks.2.2 c hc

theorem AppEntry.Stored.deployed {env : Env} {remote hash : Bytes} {e : AppEntry} (h : e.Stored)
    (hremote : Plain (clip maxPathLen remote)) (hhash : Plain (clip 65 hash)) (now : Nat) :
    (e.deployed env remote hash now).Stored := by
  have hfits : ∀ size (text : Bytes), 0 < size → (clip size text).length < size := by
    intro size text hsize
    simp only [clip, List.length_take]
    omega
  exact { h with
    remote := hremote
    hash := hhash
    time := (plain_isoTime _).clip
    remote_fits := hfits _ _ (by decide)
    hash_fits := hfits _ _ (by decide)
    time_fits := hfits _ _ (by decide) }

end Updates

section Saves

variable {env : Env} {n : Nat} {s : Target} {entries : List AppEntry}

/-- Bytes written one by one to an empty file: a part of them at every moment,
and all of them at the end. -/
theorem fwriteAll_wp {p : Path} {f : File} {bytes : Bytes} (henv : env.Reliable)
    (hlookup : s.fs.lookup p = some f) (hempty : f.data = []) :
    Prog.wp (fwriteAll env p bytes)
      (fun t => t.cache = s.cache ∧ ∃ written, written <+: bytes ∧ t.content p = some written)
      (fun _ _ t => t.cache = s.cache ∧ t.content p = some bytes) n s := by
  have happend : ∀ part : Bytes, (s.append p part (env.clock n)).cache = s.cache ∧
      (s.append p part (env.clock n)).content p = some part := by
    intro part
    simp only [Target.append, hlookup, Target.content_put, hempty, List.nil_append]
    exact ⟨rfl, trivial⟩
  have hend : Prog.Ends (fwriteAll env p bytes)
      (fun _ _ t => t.cache = s.cache ∧ t.content p = some bytes) n s := by
    rw [fwriteAll_ends henv]
    split
    next hnil => exact ⟨rfl, by rw [Target.content_of_lookup hlookup, hempty, hnil]⟩
    next => exact happend bytes
  refine ⟨fun t ht => ?_, hend.wp.2⟩
  have hmem : t ∈ (List.range bytes.length).map fun i =>
      s.append p (bytes.take (i + 1)) (env.clock n) := by
    simpa only [fwriteAll, Prog.call, henv n _] using ht
  obtain ⟨i, -, rfl⟩ := List.mem_map.mp hmem
  exact ⟨(happend _).1, _, List.take_prefix _ _, (happend _).2⟩

/-- A save leaves a part of the new text wherever it is interrupted, and all of
it at its end. -/
theorem saveMetadata_wp (henv : env.Reliable) :
    Prog.wp (saveMetadata env entries)
      (fun t => t.cache = s.cache ∧
        ∃ written, written <+: renderMetadata entries ∧ t.content metadataFile = some written)
      (fun saved _ t => saved = true ∧ t.cache = s.cache ∧
        t.content metadataFile = some (renderMetadata entries)) n s := by
  unfold saveMetadata
  rw [Prog.wp_bind, mkdir, Prog.wp_call]
  refine ⟨by simp, ?_⟩
  simp only [Env.ok, henv n _, Option.isNone_none, if_true, List.getLastD_nil]
  rw [Prog.wp_bind, fopenWrite, Prog.wp_call]
  simp only [Env.ok, henv _ _, Option.isNone_none, if_true, List.mem_singleton, forall_eq,
    List.getLastD_cons, List.getLastD_nil]
  refine ⟨⟨rfl, [], List.nil_prefix, Target.content_put⟩, ?_⟩
  rw [Prog.wp_bind]
  refine Prog.wp_imp (fwriteAll_wp henv Target.lookup_put rfl) ?_
  rintro _ m t ⟨hcache, hcontent⟩
  rw [Prog.wp_bind, fcloseWritten, Prog.wp_call, henv]
  refine ⟨by simp, ?_⟩
  rw [Prog.wp_pure]
  exact ⟨rfl, hcache, hcontent⟩

/-- A table that `app_metadata_save` may be writing. -/
def Updates (env : Env) (app remote hash : Bytes) (entries updated : List AppEntry) : Prop :=
  ∃ now, updateEntry entries app (·.deployed env remote hash now) = some updated

/-- Until the save opens `apps.json`, the file is as it was; from then on it
holds a part of the new table, and all of it at the end. -/
theorem appMetadataSave_wp (henv : env.Reliable) (app remote hash : Bytes)
    (hmeta : s.metadata = some entries) :
    Prog.wp (appMetadataSave env app remote hash)
      (fun t => t.content metadataFile = s.content metadataFile ∨
        ∃ updated, Updates env app remote hash entries updated ∧ t.cache = some updated ∧
          ∃ written, written <+: renderMetadata updated ∧ t.content metadataFile = some written)
      (fun saved _ t =>
        saved = false ∧ t.cache = some entries ∧
          t.content metadataFile = s.content metadataFile ∨
        ∃ updated, Updates env app remote hash entries updated ∧ t.cache = some updated ∧
          t.content metadataFile = some (renderMetadata updated)) n s := by
  have hload : Prog.wp (loadMetadata env) (fun t => t.fs = s.fs)
      (fun r _ t => r = entries ∧ t = { s with cache := some entries }) n s := by
    have hends := loadMetadata_ends (n := n) (fun _ => henv _ _) (fun _ => henv _ _) hmeta
    have hframe : Prog.wp (loadMetadata env) (fun t => t.fs = s.fs) (fun _ _ _ => True) n s :=
      loadMetadata_wp (fun _ ht => ht) (fun _ _ _ => trivial) (fun _ _ _ _ _ => trivial)
    refine Prog.wp_mono (Prog.wp_and hframe hends.wp) (fun t ht => ht.1) ?_
    exact fun _ _ _ h => h.2
  unfold appMetadataSave
  rw [Prog.wp_bind]
  refine Prog.wp_mono hload ?_ ?_
  · intro t ht
    exact Or.inl (Target.content_congr (by rw [ht]))
  · rintro _ m _ ⟨rfl, rfl⟩
    rw [Prog.wp_bind, timeNow, Prog.wp_call]
    refine ⟨by simp, ?_⟩
    dsimp only
    split
    next =>
      rw [Prog.wp_pure]
      exact Or.inl ⟨rfl, rfl, rfl⟩
    next updated hupdate =>
      have hupdates : Updates env app remote hash _ updated := ⟨env.clock m, hupdate⟩
      rw [Prog.wp_bind, setCache, Prog.wp_update]
      refine ⟨Or.inl rfl, Prog.wp_mono (saveMetadata_wp henv) ?_ ?_⟩
      · rintro t ⟨hcache, hwritten⟩
        exact Or.inr ⟨updated, hupdates, hcache, hwritten⟩
      · rintro saved m' t ⟨-, hcache, hwritten⟩
        exact Or.inr ⟨updated, hupdates, hcache, hwritten⟩

end Saves

/-- A cut of a save of `app` in `s` that is harmless: the file was not opened
yet, or it is cut where the parser can stop and no entry of another app is
missing. -/
def HarmlessCut (app : Bytes) (s t : Target) : Prop :=
  t.content metadataFile = s.content metadataFile ∨
  ∃ entries written held lost, t.cache = some entries ∧
    t.content metadataFile = some written ∧ CutAt entries written held lost ∧
    ∀ e ∈ lost, ∀ b, b ≠ app → s.metadata.bind (findApp · b) ≠ some e

/-- The life of the store, from a target without one: saves and lookups that end,
saves that are cut harmlessly, restarts, and whatever else leaves the file and
the cache alone. -/
inductive StoreRun : Target → Prop where
  | start {s : Target} (hfile : s.content metadataFile = none) (hcache : s.cache = none) :
      StoreRun s
  | other {s t : Target} (hrun : StoreRun s)
      (hfile : t.content metadataFile = s.content metadataFile) (hcache : t.cache = s.cache) :
      StoreRun t
  | get {s : Target} (hrun : StoreRun s) (env : Env) (henv : env.Reliable) (app : Bytes)
      (n : Nat) : StoreRun (appMetadataGet env app n s).state
  | save {s : Target} (hrun : StoreRun s) (env : Env) (henv : env.Reliable)
      (app remote hash : Bytes) (happ : Plain app) (hremote : Plain remote) (hhash : Plain hash)
      (n : Nat) : StoreRun (appMetadataSave env app remote hash n s).state
  | cut {s t : Target} (hrun : StoreRun s) (env : Env) (henv : env.Reliable)
      (app remote hash : Bytes) (happ : Plain app) (hremote : Plain remote) (hhash : Plain hash)
      (n : Nat) (ht : t ∈ (appMetadataSave env app remote hash n s).passed)
      (hcut : HarmlessCut app s t) : StoreRun t.restarted
  | restart {s : Target} (hrun : StoreRun s) : StoreRun s.restarted

/-- The file holds `entries`, and so does the cache once it is loaded. -/
structure Target.Holds (s : Target) (entries : List AppEntry) : Prop where
  stored : ∀ e ∈ entries, e.Stored
  room : entries.length ≤ maxApps
  file : s.restarted.metadata = some entries
  cache : s.cache = none ∨ s.cache = some entries

section Invariant

variable {env : Env} {n : Nat} {s t : Target} {entries : List AppEntry}

theorem Target.restarted_metadata (h : t.content metadataFile = s.content metadataFile) :
    t.restarted.metadata = s.restarted.metadata := by
  have hcontent : t.restarted.content metadataFile = s.restarted.content metadataFile := h
  simp only [Target.metadata, hcontent]
  rfl

theorem Target.Holds.metadata (h : s.Holds entries) : s.metadata = some entries := by
  rcases h.cache with hcache | hcache
  · have hsame : s.metadata = s.restarted.metadata := by
      simp only [Target.metadata, hcache]
      rfl
    rw [hsame, h.file]
  · simp only [Target.metadata, hcache]

/-- The same file with an empty or a loaded cache. -/
theorem Target.Holds.keep (h : s.Holds entries)
    (hfile : t.content metadataFile = s.content metadataFile)
    (hcache : t.cache = none ∨ t.cache = some entries) : t.Holds entries :=
  ⟨h.stored, h.room, (Target.restarted_metadata hfile).trans h.file, hcache⟩

/-- A file that is cut at a quiet place holds what is left of the table. -/
theorem CutAt.holds {written : Bytes} {held lost : List AppEntry}
    (h : CutAt entries written held lost) (hstored : ∀ e ∈ entries, e.Stored)
    (hroom : entries.length ≤ maxApps) (hpart : written <+: renderMetadata entries)
    (hcontent : t.content metadataFile = some written)
    (hcache : t.cache = none ∨ t.cache = some held) : t.Holds held := by
  refine ⟨(h.stored hstored).1, le_trans (h.stored hstored).2 hroom, ?_, hcache⟩
  have hshort : ¬ written.length > 1024 * 1024 := by
    have hlen := hpart.length_le
    have hwhole := length_renderMetadata hstored hroom
    omega
  have hcontent' : t.restarted.content metadataFile = some written := hcontent
  have hparse := h.parse hstored hroom
  simp only [Target.metadata, hcontent', hshort, or_false]
  split
  next hsome => cases hsome
  next =>
    split
    next hempty =>
      rw [List.length_eq_zero_iff.mp hempty] at hparse
      rw [← hparse]
      decide
    next => exact hparse

theorem Target.Holds.loads (h : s.Holds entries) (henv : env.Reliable) :
    Prog.Ends (loadMetadata env) (fun r _ t => r = entries ∧ t.Holds entries) n s := by
  refine (loadMetadata_ends (fun _ => henv _ _) (fun _ => henv _ _) h.metadata).imp ?_
  rintro _ m _ ⟨rfl, rfl⟩
  exact ⟨rfl, h.keep rfl (Or.inr rfl)⟩

/-- A lookup loads the cache. -/
theorem Target.Holds.get (h : s.Holds entries) (henv : env.Reliable) (app : Bytes) :
    Prog.Ends (appMetadataGet env app)
      (fun r _ t => r = findApp entries app ∧ t.Holds entries) n s := by
  unfold appMetadataGet
  rw [Prog.ends_bind]
  refine (h.loads henv).imp ?_
  rintro _ m t ⟨rfl, ht⟩
  rw [Prog.ends_pure]
  exact ⟨rfl, ht⟩

section Saved

variable {app remote hash : Bytes} (h : s.Holds entries) (happ : Plain app)
  (hremote : Plain remote) (hhash : Plain hash)
include h happ hremote hhash

theorem Target.Holds.updates {updated : List AppEntry}
    (hupdates : Updates env app remote hash entries updated) :
    (∀ e ∈ updated, e.Stored) ∧ updated.length ≤ maxApps ∧ updated ≠ [] := by
  obtain ⟨now, hupdate⟩ := hupdates
  exact updateEntry_stored (fun e he => he.deployed hremote.clip hhash.clip now) happ.clip h.stored
    h.room hupdate

/-- A save that ends leaves its table in the file and in the cache. -/
theorem Target.Holds.save (henv : env.Reliable) :
    ∃ updated, (appMetadataSave env app remote hash n s).state.Holds updated := by
  have hload : Prog.Ends (loadMetadata env) (fun _ _ _ => True) n s :=
    (h.loads henv).imp fun _ _ _ _ => trivial
  obtain ⟨saved, -, -, hend⟩ := (appMetadataSave_ends hload app remote hash).and_wp
    (appMetadataSave_wp henv app remote hash h.metadata)
  rcases hend with ⟨-, hcache, hfile⟩ | ⟨updated, hupdates, hcache, hfile⟩
  · exact ⟨entries, h.keep hfile (Or.inr hcache)⟩
  · obtain ⟨hstored, hroom, hne⟩ := h.updates happ hremote hhash hupdates
    exact ⟨updated, (CutAt.complete hne).holds hstored hroom (List.prefix_refl _) hfile
      (Or.inr hcache)⟩

/-- A save that is cut harmlessly leaves a table in which every other app is
found. -/
theorem Target.Holds.cut (henv : env.Reliable)
    (ht : t ∈ (appMetadataSave env app remote hash n s).passed)
    (hcut : HarmlessCut app s t) :
    ∃ held, t.restarted.Holds held ∧ ∀ b, b ≠ app → ∀ e, findApp entries b = some e →
      ∃ e', findApp held b = some e' ∧ e'.remotePath = e.remotePath ∧
        e'.fileHash = e.fileHash := by
  have hsame : t.content metadataFile = s.content metadataFile →
      ∃ held, t.restarted.Holds held ∧ ∀ b, b ≠ app → ∀ e, findApp entries b = some e →
        ∃ e', findApp held b = some e' ∧ e'.remotePath = e.remotePath ∧
          e'.fileHash = e.fileHash := fun hfile =>
    ⟨entries, h.keep hfile (Or.inl rfl), fun _ _ e he => ⟨e, he, rfl, rfl⟩⟩
  rcases (appMetadataSave_wp henv app remote hash h.metadata).1 t ht with
    hfile | ⟨updated, hupdates, hcache, part, hpart, hcontent⟩
  · exact hsame hfile
  rcases hcut with hfile | ⟨table, written, held, lost, htable, hwritten, hat, hlost⟩
  · exact hsame hfile
  -- the table in the cache is the one that was being written
  obtain rfl : updated = table := Option.some.inj (hcache.symm.trans htable)
  obtain rfl : part = written := Option.some.inj (hcontent.symm.trans hwritten)
  obtain ⟨hstored, hroom, -⟩ := h.updates happ hremote hhash hupdates
  refine ⟨held, hat.holds hstored hroom hpart hcontent (Or.inl rfl), fun b hb e he => ?_⟩
  obtain ⟨now, hupdate⟩ := hupdates
  have hname : ∀ x : AppEntry, (x.deployed env remote hash now).appName = x.appName :=
    fun _ => rfl
  refine hat.finds hstored (updateEntry_finds hname hupdate hb he) fun hmem => ?_
  refine hlost e hmem b hb ?_
  rw [h.metadata]
  exact he

end Saved

/-- In every run of the store the file holds its table. -/
theorem StoreRun.holds (hrun : StoreRun s) : ∃ entries, s.Holds entries := by
  induction hrun with
  | start hfile hcache =>
      refine ⟨[], by simp, by simp, ?_, Or.inl hcache⟩
      have hfile' : Target.content (Target.restarted _) metadataFile = none := hfile
      simp only [Target.metadata, hfile']
      rfl
  | other _ hfile hcache ih =>
      obtain ⟨entries, h⟩ := ih
      exact ⟨entries, h.keep hfile (hcache ▸ h.cache)⟩
  | get _ env henv app n ih =>
      obtain ⟨entries, h⟩ := ih
      obtain ⟨-, -, -, hend⟩ := h.get (n := n) henv app
      exact ⟨entries, hend⟩
  | save _ env henv app remote hash happ hremote hhash n ih =>
      obtain ⟨entries, h⟩ := ih
      exact h.save happ hremote hhash henv
  | cut _ env henv app remote hash happ hremote hhash n ht hcut ih =>
      obtain ⟨entries, h⟩ := ih
      obtain ⟨held, hheld, -⟩ := h.cut happ hremote hhash henv ht hcut
      exact ⟨held, hheld⟩
  | restart _ ih =>
      obtain ⟨entries, h⟩ := ih
      exact ⟨entries, h.keep rfl (Or.inl rfl)⟩

end Invariant

/-- A save that is cut harmlessly costs no other app its entry: the next agent
loads the file and finds every path and every hash that was found before. -/
theorem metadata_survives_cut {env env' : Env} {s t : Target} {app remote hash : Bytes}
    {n m : Nat} (hrun : StoreRun s) (henv : env.Reliable) (henv' : env'.Reliable)
    (happ : Plain app) (hremote : Plain remote) (hhash : Plain hash)
    (ht : t ∈ (appMetadataSave env app remote hash n s).passed) (hcut : HarmlessCut app s t) :
    Prog.Ends (loadMetadata env') (fun _ _ _ => True) m t.restarted ∧
    ∀ b, b ≠ app → ∀ e, (appMetadataGet env b n s).result = some (some e) →
      Prog.Ends (appMetadataGet env' b) (fun r _ _ => ∃ e', r = some e' ∧
        e'.remotePath = e.remotePath ∧ e'.fileHash = e.fileHash) m t.restarted := by
  obtain ⟨entries, h⟩ := hrun.holds
  obtain ⟨held, hheld, hfinds⟩ := h.cut happ hremote hhash henv ht hcut
  constructor
  · exact (hheld.loads henv').imp fun _ _ _ _ => trivial
  · intro b hb e hbefore
    obtain ⟨r, hresult, hr, -⟩ := h.get (n := n) henv b
    have hfound : findApp entries b = some e := by
      rw [← hr]
      exact Option.some.inj (hresult.symm.trans hbefore)
    obtain ⟨e', he', hsame⟩ := hfinds b hb e hfound
    refine (hheld.get henv' b).imp ?_
    rintro _ _ _ ⟨rfl, -⟩
    exact ⟨e', he', hsame⟩

section Demo

def freshTarget : Target := ⟨∅, none, .zero⟩

def demoSave (app : String) (s : Target) : Outcome Target Bool :=
  appMetadataSave (calmEnv demoTime) (ascii app) (ascii "/opt/demo") (ascii "aa") 0 s

/-- A store with one entry. -/
def heaterStore : Target := (demoSave "heater" freshTarget).state

/-- The states a save of a second entry goes through. -/
def cutStore (i : Nat) : Target := (demoSave "camera" heaterStore).passed.getD i freshTarget

def demoEntry (app : String) : AppEntry :=
  ⟨ascii app, ascii "/opt/demo", ascii "aa", isoTime demoTime⟩

theorem heaterStore_run : StoreRun heaterStore :=
  .save (.start rfl rfl) (calmEnv demoTime) (calmEnv_reliable _) (ascii "heater")
    (ascii "/opt/demo") (ascii "aa") (by decide) (by decide) (by decide) 0

theorem cutStore_passed {i : Nat} (h : i < (demoSave "camera" heaterStore).passed.length) :
    cutStore i ∈ (demoSave "camera" heaterStore).passed := by
  rw [cutStore, List.getD_eq_getElem?_getD, List.getElem?_eq_getElem h]
  exact List.getElem_mem h

/-- A cut in the name of the second entry. -/
theorem heater_survives_cut :
    StoreRun heaterStore ∧ cutStore 126 ∈ (demoSave "camera" heaterStore).passed ∧
    Prog.Ends (appMetadataGet (calmEnv demoTime) (ascii "heater")) (fun r _ _ => ∃ e', r = some e' ∧
      e'.remotePath = ascii "/opt/demo" ∧ e'.fileHash = ascii "aa") 0 (cutStore 126).restarted := by
  have hpassed : cutStore 126 ∈ (demoSave "camera" heaterStore).passed :=
    cutStore_passed (by decide +kernel)
  have hcut : HarmlessCut (ascii "camera") heaterStore (cutStore 126) := by
    have hbefore : heaterStore.metadata = some [demoEntry "heater"] := by decide +kernel
    refine Or.inr ⟨[demoEntry "heater", demoEntry "camera"], _, [demoEntry "heater"],
      [demoEntry "camera"], by decide +kernel, ?_,
      .head (u := ascii "  \"camer") rfl (by decide), ?_⟩
    · decide +kernel
    · intro e he b _ hfound
      rw [hbefore, Option.bind_some, findApp] at hfound
      have hmem := List.mem_singleton.mp (List.mem_of_find?_eq_some hfound)
      rw [List.mem_singleton.mp he] at hmem
      exact absurd hmem (by decide)
  have h := metadata_survives_cut (m := 0) heaterStore_run (calmEnv_reliable demoTime)
    (calmEnv_reliable demoTime) (by decide) (by decide) (by decide) hpassed hcut
  refine ⟨heaterStore_run, hpassed, ?_⟩
  exact h.2 (ascii "heater") (by decide) (demoEntry "heater") (by decide +kernel)

/-- A save that is cut after the file was emptied loses the other entry, and a
cut after the brace of an entry stops the next agent. -/
theorem heater_lost_at_cut :
    StoreRun heaterStore ∧
    (appMetadataGet (calmEnv demoTime) (ascii "heater") 0 heaterStore).result =
      some (some (demoEntry "heater")) ∧
    cutStore 1 ∈ (demoSave "camera" heaterStore).passed ∧
    (cutStore 1).content metadataFile = some [] ∧
    (appMetadataGet (calmEnv demoTime) (ascii "heater") 0 (cutStore 1).restarted).result =
      some none ∧
    cutStore 20 ∈ (demoSave "camera" heaterStore).passed ∧
    (loadMetadata (calmEnv demoTime) 0 (cutStore 20).restarted).result = none := by
  refine ⟨heaterStore_run, by decide +kernel, cutStore_passed (by decide +kernel),
    by decide +kernel, by decide +kernel, cutStore_passed (by decide +kernel),
    by decide +kernel⟩

end Demo

end SatDeploy.Agent
