import SatDeploy.Agent.InstallIntegrity
import SatDeploy.Agent.RollbackDial
import SatDeploy.Ground.Apm

/-!
Ground success means installed. A push that is not forced first asks for the
status, and takes an entry with the derived name and the local hash as proof
that the file is deployed. The entry is about the path in the metadata, which
need not be the path of the push.
-/

namespace SatDeploy.Ground

open Lib Agent

/-- Whenever a push of `artifact` from this state reports success, the file is
at the remote path. -/
def PushIntegrity (artifact : Bytes) (remote : Path) (force : Bool) (s : Target) : Prop :=
  ∀ (station : Station) (probe push : Exchange) (download : Path → Prog Target Bool) (n : Nat),
    (satdeployDeployCmd station probe push download (some artifact) remote force n s).result =
      some .success →
    (satdeployDeployCmd station probe push download (some artifact) remote force n
      s).state.Carries remote (hexDigest artifact)

/-- The metadata has an entry of the derived name whose file is the artifact,
while the file at the remote path is not. -/
def SkipsWrongly (artifact : Bytes) (remote : Path) (s : Target) : Prop :=
  ∃ entries e, s.metadata = some entries ∧ e ∈ entries ∧ e.appName = deriveAppName remote ∧
    s.Carries e.remotePath (hexDigest artifact) ∧ ¬ s.Carries remote (hexDigest artifact)

/-- The remote path is where the agent would back the artifact up. -/
def IsOwnBackup (artifact : Bytes) (remote : Path) : Prop :=
  deriveAppName remote ≠ [] ∧
    ∃ tm, remote = backupPath (deriveAppName remote) tm (hexDigest artifact)

section Status

variable {env : Env} {C : Target → Prop} {n : Nat} {s : Target}

/-- A status entry reports an entry of the metadata with the digest of its
file. -/
def Reports (s : Target) (entries : List AppEntry) (a : AppStatusEntry) : Prop :=
  ∃ e ∈ entries, a.appName = e.appName ∧ s.Carries e.remotePath a.fileHash

theorem statusEntries_wp (entries : List AppEntry) :
    ∀ {room n : Nat} {Q : List AppStatusEntry → Nat → Target → Prop},
      (∀ m apps, (∀ a ∈ apps, Reports s entries a) → Q apps m s) →
      Prog.wp (statusEntries env room entries) C Q n s := by
  induction entries with
  | nil =>
      intro room n Q h
      unfold statusEntries
      exact (Prog.wp_pure _).mpr (h _ [] fun a ha => by cases ha)
  | cons e rest ih =>
      intro room n Q h
      have hrest : ∀ apps : List AppStatusEntry, (∀ a ∈ apps, Reports s rest a) →
          ∀ a ∈ apps, Reports s (e :: rest) a := by
        intro apps happs a ha
        obtain ⟨e', he', hreports⟩ := happs a ha
        exact ⟨e', List.mem_cons_of_mem _ he', hreports⟩
      cases room with
      | zero =>
          unfold statusEntries
          exact (Prog.wp_pure _).mpr (h _ [] fun a ha => by cases ha)
      | succ room =>
          unfold statusEntries
          rw [Prog.wp_bind]
          apply computeFileChecksum_wp
          · intro m
            exact ih fun m' apps happs => h m' apps (hrest apps happs)
          · intro m data hdata
            dsimp only
            rw [Prog.wp_bind]
            refine ih fun m' apps happs => ?_
            rw [Prog.wp_pure]
            apply h
            intro a ha
            rcases List.mem_cons.mp ha with rfl | ha
            · exact ⟨e, List.mem_cons_self, rfl, data, hdata, rfl⟩
            · exact hrest apps happs a ha

theorem carries_congr {t : Target} (h : t.fs = s.fs) {p : Path} {checksum : Bytes} :
    t.Carries p checksum ↔ s.Carries p checksum := by
  unfold Target.Carries Target.content
  rw [h]

theorem handleStatus_wp {Q : DeployResponse → Nat → Target → Prop}
    (h : ∀ m t resp, t.fs = s.fs →
      (∀ a ∈ resp.apps, ∃ entries, s.metadata = some entries ∧ Reports s entries a) →
      Q resp m t) : Prog.wp (handleStatus env) (fun _ => True) Q n s := by
  unfold handleStatus
  rw [Prog.wp_bind]
  apply loadMetadata_wp (fun _ _ => trivial)
  · intro m t ht
    rw [Prog.wp_bind, statusEntries, Prog.wp_pure, Prog.wp_pure]
    exact h m t _ ht fun a ha => by cases ha
  · intro m t entries ht hmeta
    rw [Prog.wp_bind]
    refine statusEntries_wp entries fun m' apps happs => ?_
    rw [Prog.wp_pure]
    refine h m' t _ ht fun a ha => ?_
    obtain ⟨e, he, hname, hcarries⟩ := happs a ha
    exact ⟨entries, hmeta, e, he, hname, (carries_congr ht).mp hcarries⟩

theorem alreadyDeployed_mem {apps : List AppStatusEntry} {app checksum : Bytes}
    (h : alreadyDeployed apps app checksum = true) :
    ∃ a ∈ apps, a.appName = app ∧ a.fileHash = checksum := by
  unfold alreadyDeployed at h
  split at h
  next a ha =>
    refine ⟨a, List.mem_of_find?_eq_some ha, ?_, of_decide_eq_true h⟩
    simpa using List.find?_some ha
  · cases h

end Status

section Sufficiency

variable {station : Station} {probe push : Exchange} {download : Path → Prog Target Bool}
variable {artifact : Bytes} {remote : Path} {n : Nat} {s : Target}

/-- What a command promises when it returns success. -/
def Promise (artifact : Bytes) (remote : Path) (result : SlashResult) (_ : Nat)
    (t : Target) : Prop :=
  result = .success → t.Carries remote (hexDigest artifact)

theorem eio_promise : Prog.wp (pure .eio : Prog Target SlashResult) (fun _ => True)
    (Promise artifact remote) n s :=
  (Prog.wp_pure _).mpr fun h => by cases h

theorem pushArtifact_promise (hmeta : remote ≠ metadataFile)
    (hown : ¬ IsOwnBackup artifact remote) :
    Prog.wp (pushArtifact station push download (deriveAppName remote) remote artifact)
      (fun _ => True) (Promise artifact remote) n s := by
  have halone : ¬ BacksUpOntoItself (deployRequest station (deriveAppName remote) remote
      artifact) := by
    rintro ⟨happ, -, tm, -, -, hpath⟩
    exact hown ⟨happ, tm, hpath⟩
  unfold pushArtifact
  refine Prog.wp_ite ?_ eio_promise
  rw [Prog.wp_bind]
  cases push.delivery with
  | requestLost =>
      rw [sendDeployRequest, Prog.wp_pure]
      exact eio_promise
  | replyLost =>
      rw [sendDeployRequest, Prog.wp_bind]
      refine Prog.wp_any _ fun resp m t => ?_
      rw [Prog.wp_pure]
      exact eio_promise
  | answered =>
      rw [sendDeployRequest, Prog.wp_bind]
      refine Prog.wp_imp (handleDeployWith_installs push.env hmeta halone download n s) ?_
      intro resp m t hinstalled
      rw [Prog.wp_pure, Prog.wp_pure]
      intro hresult
      split at hresult
      next hsuccess => exact hinstalled hsuccess
      · cases hresult

theorem satdeployDeployCmd_promise (hmeta : remote ≠ metadataFile)
    (hown : ¬ IsOwnBackup artifact remote) {force : Bool}
    (hskip : force = true ∨ ¬ SkipsWrongly artifact remote s) :
    Prog.wp (satdeployDeployCmd station probe push download (some artifact) remote force)
      (fun _ => True) (Promise artifact remote) n s := by
  unfold satdeployDeployCmd deploySingleApp
  dsimp only
  split
  · exact pushArtifact_promise hmeta hown
  next hforce =>
    have hright := hskip.resolve_left hforce
    rw [Prog.wp_bind]
    cases probe.delivery with
    | requestLost =>
        rw [sendDeployRequest, Prog.wp_pure]
        exact eio_promise
    | replyLost =>
        rw [sendDeployRequest, Prog.wp_bind]
        refine Prog.wp_any _ fun resp m t => ?_
        rw [Prog.wp_pure]
        exact eio_promise
    | answered =>
        rw [sendDeployRequest, Prog.wp_bind]
        apply handleStatus_wp
        intro m t status ht happs
        rw [Prog.wp_pure]
        dsimp only
        split
        next hdeployed =>
          rw [Prog.wp_pure]
          intro _
          obtain ⟨a, ha, hname, hhash⟩ := alreadyDeployed_mem hdeployed.2
          obtain ⟨entries, hentries, e, he, hsame, hcarries⟩ := happs a ha
          by_contra hmissing
          rw [carries_congr ht] at hmissing
          exact hright ⟨entries, e, hentries, he, hsame.symm.trans hname,
            hhash ▸ hcarries, hmissing⟩
        · exact pushArtifact_promise hmeta hown

end Sufficiency

section Necessity

variable {artifact : Bytes} {remote : Path} {s : Target}

/-- An operating system that, once two calls are made, opens a file for reading
at call `k` only. -/
def openAtEnv (k : Nat) : Env where
  fault := fun n op =>
    match op with
    | .openRead _ => if 2 ≤ n ∧ n ≠ k then some 0 else none
    | _ => none
  clock := fun _ => 0
  localtime := fun _ => demoTime
  order := id
  order_perm := id_perm

theorem statusEntries_total (env : Env) (entries : List AppEntry) :
    ∀ room, Prog.Total (statusEntries env room entries) := by
  induction entries with
  | nil =>
      intro room
      unfold statusEntries
      exact .pure _
  | cons e rest ih =>
      intro room
      cases room with
      | zero =>
          unfold statusEntries
          exact .pure _
      | succ room =>
          unfold statusEntries
          refine .bind (computeFileChecksum_total _) fun hash => ?_
          cases hash with
          | none => exact ih _
          | some hash => exact .bind (ih _) fun _ => .pure _

/-- The entries before the call that can open its file are left out. -/
theorem statusEntries_first {k : Nat} {e : AppEntry} {data : Bytes}
    (hdata : s.content e.remotePath = some data) (later : List AppEntry) (room : Nat)
    (before : List AppEntry) : ∀ m, 2 ≤ m → m + before.length = k →
    Prog.Ends (statusEntries (openAtEnv k) (room + 1) (before ++ e :: later))
      (fun r _ t => t = s ∧ ∃ rest, r = ⟨e.appName, hexDigest data, e.remotePath⟩ :: rest) m s := by
  induction before with
  | nil =>
      intro m _ hk
      rw [List.nil_append, statusEntries, Prog.ends_bind]
      have hopen : (openAtEnv k).fault m (.openRead e.remotePath) = none :=
        if_neg (by simp at hk; omega)
      rw [computeFileChecksum, Prog.ends_bind, fopenRead_ends hopen, hdata, Prog.ends_bind,
        freadAll_ends rfl, Prog.ends_pure]
      simp only [if_true]
      rw [Prog.ends_bind]
      refine ((statusEntries_total _ later room _ _).and_wp (statusEntries_wp (C := fun _ => True)
        (Q := fun _ _ t => t = s) later fun _ _ _ => rfl)).imp ?_
      rintro rest m' _ ⟨-, rfl⟩
      rw [Prog.ends_pure]
      exact ⟨rfl, rest, rfl⟩
  | cons first before ih =>
      intro m hm hk
      rw [List.length_cons] at hk
      rw [List.cons_append, statusEntries, Prog.ends_bind]
      have hfault : (openAtEnv k).fault m (.openRead first.remotePath) = some 0 :=
        if_pos ⟨hm, by omega⟩
      rw [computeFileChecksum, Prog.ends_bind, fopenRead, Prog.ends_call]
      simp only [Env.ok, hfault, Option.isNone_some, Bool.false_eq_true, if_false,
        List.getLastD_nil]
      rw [Prog.ends_pure]
      exact ih (m + 1) (by omega) (by omega)

/-- A station that serves, at node 1. -/
def openStation : Station := ⟨true, 1, 0o755, 1024⟩

/-- A wrong entry is taken for the file at the remote path. -/
theorem skip_not_integrity (h : SkipsWrongly artifact remote s) :
    ¬ PushIntegrity artifact remote false s := by
  obtain ⟨entries, e, hmeta, he, hname, ⟨data, hdata, hdigest⟩, hmissing⟩ := h
  obtain ⟨before, later, rfl⟩ := List.append_of_mem he
  intro hintegrity
  obtain ⟨n, hload⟩ := loadMetadata_reads (openAtEnv (2 + before.length))
    (fun m hm => if_neg (by omega)) (fun _ _ => rfl) hmeta (by simp)
  have hends : Prog.Ends (satdeployDeployCmd openStation ⟨openAtEnv (2 + before.length), .answered⟩
      ⟨openAtEnv 0, .answered⟩ (deliver artifact) (some artifact) remote false)
      (fun result _ t => result = .success ∧ t.fs = s.fs) n s := by
    unfold satdeployDeployCmd deploySingleApp
    dsimp only
    rw [if_neg (by decide), Prog.ends_bind, sendDeployRequest, Prog.ends_bind, handleStatus,
      Prog.ends_bind]
    refine hload.imp ?_
    rintro _ _ t ⟨rfl, ht, rfl⟩
    have hcontent : t.content e.remotePath = some data := by
      unfold Target.content at hdata ⊢
      rw [ht]
      exact hdata
    rw [Prog.ends_bind]
    refine (statusEntries_first hcontent later 31 before 2 (le_refl _) rfl).imp ?_
    rintro _ m t ⟨rfl, rest, rfl⟩
    rw [Prog.ends_pure, Prog.ends_pure]
    have hfound : alreadyDeployed (⟨e.appName, hexDigest data, e.remotePath⟩ :: rest)
        (deriveAppName remote) (hexDigest artifact) = true := by
      simp [alreadyDeployed, hname, hdigest]
    dsimp only
    rw [if_pos ⟨rfl, hfound⟩, Prog.ends_pure]
    exact ⟨rfl, ht⟩
  obtain ⟨_, hresult, rfl, hsame⟩ := hends
  exact hmissing ((carries_congr hsame).mp (hintegrity _ _ _ _ _ hresult))

theorem fopenRead_blind {p : Path} {m : Nat} (hm : 2 ≤ m)
    {Q : Option Bytes → Nat → Target → Prop} (h : Q none (m + 1) s) :
    Prog.Ends (fopenRead (openAtEnv 0) p) Q m s := by
  have hfault : (openAtEnv 0).fault m (.openRead p) = some 0 := if_pos ⟨hm, by omega⟩
  rw [fopenRead, Prog.ends_call]
  simp only [Env.ok, hfault, Option.isNone_some, Bool.false_eq_true, if_false, List.getLastD_nil]
  exact h

theorem statusEntries_blind (entries : List AppEntry) :
    ∀ room m, 2 ≤ m → Prog.Ends (statusEntries (openAtEnv 0) room entries)
      (fun r _ _ => r = []) m s := by
  induction entries with
  | nil =>
      intro room m _
      rw [statusEntries, Prog.ends_pure]
  | cons e rest ih =>
      intro room m hm
      cases room with
      | zero =>
          rw [statusEntries, Prog.ends_pure]
          exact List.cons_ne_nil _ _
      | succ room =>
          rw [statusEntries, Prog.ends_bind, computeFileChecksum, Prog.ends_bind]
          refine fopenRead_blind hm ?_
          rw [Prog.ends_pure]
          exact ih (room + 1) (m + 1) (by omega)

/-- With no file to be opened the status is empty. -/
theorem handleStatus_blind (s : Target) :
    Prog.Ends (handleStatus (openAtEnv 0)) (fun resp _ _ => resp.apps = []) 2 s := by
  have hload : Prog.Ends (loadMetadata (openAtEnv 0)) (fun _ m _ => 2 ≤ m) 2 s := by
    rw [loadMetadata, Prog.ends_bind, Prog.ends_read]
    cases s.cache with
    | some entries =>
        rw [Prog.ends_pure]
    | none =>
        dsimp only
        rw [Prog.ends_bind, setCache, Prog.ends_update, Prog.ends_bind, readMetadata,
          Prog.ends_bind]
        refine fopenRead_blind (le_refl _) ?_
        rw [Prog.ends_pure, Prog.ends_pure]
        omega
  rw [handleStatus, Prog.ends_bind]
  refine hload.imp fun entries m t hm => ?_
  rw [Prog.ends_bind]
  refine (statusEntries_blind entries maxStatusEntries m hm).imp fun apps m' t' happs => ?_
  rw [Prog.ends_pure]
  exact happs

/-- A push onto its own backup path can lose the file. -/
theorem ownBackup_not_integrity (h : IsOwnBackup artifact remote) (force : Bool) :
    ¬ PushIntegrity artifact remote force s := by
  obtain ⟨happ, tm, hpath⟩ := h
  intro hintegrity
  have hpush : ∀ n t, Prog.Ends (pushArtifact openStation
      ⟨fullTableEnv remote tm false, .answered⟩ (deliver artifact) (deriveAppName remote) remote
      artifact) (fun result _ u => result = .success ∧ u.content remote = none) n t := by
    intro n t
    unfold pushArtifact
    rw [if_pos (show openStation.serving = true from rfl), Prog.ends_bind, sendDeployRequest,
      Prog.ends_bind]
    have hnode : (deployRequest openStation (deriveAppName remote) remote
        artifact).dtpServerNode ≠ 0 := by
      simp [deployRequest, openStation]
    refine (handleDeployWith_loses happ hnode rfl hpath n t).imp ?_
    rintro resp m u ⟨hsuccess, hgone⟩
    rw [Prog.ends_pure, Prog.ends_pure, if_pos hsuccess]
    exact ⟨rfl, hgone⟩
  have hends : Prog.Ends (satdeployDeployCmd openStation ⟨openAtEnv 0, .answered⟩
      ⟨fullTableEnv remote tm false, .answered⟩ (deliver artifact) (some artifact) remote force)
      (fun result _ t => result = .success ∧ t.content remote = none) 2 s := by
    unfold satdeployDeployCmd deploySingleApp
    dsimp only
    split
    · exact hpush _ _
    · rw [Prog.ends_bind, sendDeployRequest, Prog.ends_bind]
      refine (handleStatus_blind s).imp ?_
      intro resp m t hnone
      rw [Prog.ends_pure]
      dsimp only
      rw [hnone, if_neg (by simp [alreadyDeployed])]
      exact hpush m t
  obtain ⟨_, hresult, rfl, hgone⟩ := hends
  obtain ⟨data, hdata, -⟩ := hintegrity _ _ _ _ _ hresult
  rw [hgone] at hdata
  cases hdata

end Necessity

/-- A target with `hi` deployed to one of two paths with one name. -/
def crossedTarget : Target :=
  Target.put ⟨∅, some [⟨ascii "demo", ascii "/opt/a/demo", hexDigest (ascii "hi"), []⟩], .zero⟩
    (ascii "/opt/a/demo") ⟨ascii "hi", 0o755, 0⟩

end SatDeploy.Ground
