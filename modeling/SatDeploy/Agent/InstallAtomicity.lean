import SatDeploy.Agent.InstallIntegrity
import SatDeploy.Svu.Completion

/-!
Deploy failure atomicity: at every step of a deploy the requested path holds
its old content or a complete file with the requested digest, and a refused
deploy leaves it as it was. This rests on the requested path being none of the
other files a deploy writes: the temporary file, whose path is cut at 511
bytes, the sidecar of the app, the backups of the app, and `apps.json`.
-/

namespace SatDeploy.Agent

open Lib Svu

/-- No step of this deploy, and no failure or kill, leaves anything but the old
file or the complete new one. -/
def DeployAtomicity (req : DeployRequest) : Prop :=
  ∀ (env : Env) (link : Link) (n : Nat) (s : Target),
    (∀ t ∈ (handleDeploy env link req n s).passed,
      t.content req.remotePath = s.content req.remotePath ∨
        t.Carries req.remotePath req.expectedChecksum) ∧
    ∀ resp, (handleDeploy env link req n s).result = some resp → resp.success = false →
      (handleDeploy env link req n s).state.content req.remotePath =
        s.content req.remotePath

/-- The request passes the checks of `handle_deploy`. -/
structure DeployAccepted (req : DeployRequest) : Prop where
  app_ne : req.appName ≠ []
  remote_ne : req.remotePath ≠ []
  node_ne : req.dtpServerNode ≠ 0
  checksum_length : req.expectedChecksum.length = hashHexLen

/-- The requested path is another file of the deploy as well. -/
def Entangled (req : DeployRequest) : Prop :=
  DeployAccepted req ∧
    (req.dtpServerNode.toNat ≤ 0xFFFF ∧
        (req.remotePath.length = 511 ∨
          sessionStateSvuPath req.appName = some req.remotePath) ∨
      IsBackupPath req.appName req.remotePath ∨
      req.remotePath = metadataFile)

/-- The temporary path is the requested path exactly when it is cut there. -/
theorem tempPath_eq_iff (remote : Path) : tempPath remote = remote ↔ remote.length = 511 := by
  unfold tempPath clip maxPathLen
  constructor
  · intro heq
    have hlen := congrArg List.length heq
    rw [List.length_take, List.length_append] at hlen
    change min 511 (remote.length + 4) = remote.length at hlen
    omega
  · intro hlen
    exact List.take_left' hlen

section Sufficiency

variable {env : Env} {req : DeployRequest}

/-- What the requested path may hold during a deploy that found `old` there. -/
def OldOrNew (req : DeployRequest) (old : Option Bytes) (t : Target) : Prop :=
  t.content req.remotePath = old ∨ t.Carries req.remotePath req.expectedChecksum

/-- How a deploy that found `old` may end. -/
def EndsWell (req : DeployRequest) (old : Option Bytes) (resp : DeployResponse) (_ : Nat)
    (t : Target) : Prop :=
  resp.success = false → t.content req.remotePath = old

theorem refused_wp {old : Option Bytes} {n : Nat} {t : Target}
    (ht : t.content req.remotePath = old) (code : DeployError) (message : String) :
    Prog.wp (pure (refuse code message) : Prog Target DeployResponse) (OldOrNew req old)
      (EndsWell req old) n t := by
  rw [Prog.wp_pure]
  exact fun _ => ht

/-- A program that leaves the requested path alone, and what may follow it. -/
theorem untouched_wp {α : Type} {W : Path → Prop} {c : Prog Target α}
    {f : α → Prog Target DeployResponse} {old : Option Bytes} {n : Nat} {t : Target}
    (hc : Touches W c) (hW : ¬ W req.remotePath) (ht : t.content req.remotePath = old)
    (hf : ∀ a m u, u.content req.remotePath = old →
      Prog.wp (f a) (OldOrNew req old) (EndsWell req old) m u) :
    Prog.wp (c >>= f) (OldOrNew req old) (EndsWell req old) n t := by
  rw [Prog.wp_bind]
  exact Prog.wp_mono (hc req.remotePath old hW n t ht) (fun _ hu => Or.inl hu)
    (fun a m u hu => hf a m u hu)

theorem backupBefore_touches (app : Bytes) (remote : Path) :
    Touches (IsBackupPath app) (backupBefore env app remote) := by
  unfold backupBefore
  exact .bind (access_touches remote) fun _ => .ite (backupCreate_touches app remote) (.pure _)

/-- A server outside the CSP address range is refused at once. -/
theorem svuDownloadFile_out_of_range {link : Link} {node expectedSize mtu : Nat} {temp : Path}
    {app : Bytes} (h : ¬ node ≤ 0xFFFF) :
    svuDownloadFile env link node temp expectedSize app mtu = pure false := by
  unfold svuDownloadFile
  rw [if_pos (by omega : node > 0xFFFF), ite_self]

theorem verifyAndInstall_atomic (hmeta : req.remotePath ≠ metadataFile)
    (hbackup : ¬ IsBackupPath req.appName req.remotePath) {temp : Path}
    (htemp : temp ≠ req.remotePath) (backup : Bytes) {old : Option Bytes} {n : Nat}
    {t : Target} (ht : t.content req.remotePath = old) :
    Prog.wp (verifyAndInstall env req temp backup) (OldOrNew req old)
      (EndsWell req old) n t := by
  have hcleanup : ∀ {code : DeployError} {message : String} {m : Nat} {u : Target},
      u.content req.remotePath = old →
      Prog.wp (do
        let _ ← unlink env temp
        return refuse code message : Prog Target DeployResponse) (OldOrNew req old)
        (EndsWell req old) m u := by
    intro code message m u hu
    exact untouched_wp (unlink_touches (W := (· = temp)) rfl) htemp.symm hu
      fun _ _ _ hv => refused_wp hv code message
  unfold verifyAndInstall
  rw [Prog.wp_bind]
  apply computeFileChecksum_wp
  · intro m
    exact hcleanup ht
  · intro m data hdata
    dsimp only
    split
    · exact hcleanup ht
    next hsame =>
      have hdigest : hexDigest data = req.expectedChecksum := by
        by_contra hdiffer
        exact hsame hdiffer
      rw [Prog.wp_bind]
      apply rename_wp
      · exact hcleanup ht
      · intro u data' hdata' hinstalled
        have heq : data' = data := Option.some.inj (hdata'.symm.trans hdata)
        rw [heq] at hinstalled
        refine ⟨Or.inr ⟨data, hinstalled, hdigest⟩, ?_⟩
        have hdone := finishDeploy_wp env hmeta
          (fun tm hpath => hbackup ⟨tm, data, hpath⟩) backup (m + 1) hinstalled
        refine Prog.wp_mono hdone (fun _ hv => Or.inr ⟨data, hv, hdigest⟩) ?_
        intro resp _ v hv hfailed
        rw [hv.1] at hfailed
        cases hfailed

theorem handleDeploy_atomic (h : ¬ Entangled req) : DeployAtomicity req := by
  intro env link n s
  have hwp : Prog.wp (handleDeploy env link req)
      (OldOrNew req (s.content req.remotePath))
      (EndsWell req (s.content req.remotePath)) n s := by
    unfold handleDeploy handleDeployWith
    split
    · exact refused_wp rfl _ _
    next happ =>
      split
      · exact refused_wp rfl _ _
      next hremote =>
        split
        · exact refused_wp rfl _ _
        next hnode =>
          split
          · exact refused_wp rfl _ _
          next hlength =>
            have haccepted : DeployAccepted req :=
              ⟨happ, hremote, hnode, by simpa using hlength⟩
            have hmeta : req.remotePath ≠ metadataFile :=
              fun heq => h ⟨haccepted, Or.inr (Or.inr heq)⟩
            have hbackup : ¬ IsBackupPath req.appName req.remotePath :=
              fun hpath => h ⟨haccepted, Or.inr (Or.inl hpath)⟩
            refine untouched_wp (backupBefore_touches req.appName req.remotePath) hbackup rfl ?_
            intro backup m t ht
            cases backup with
            | none => exact refused_wp ht _ _
            | some backup =>
                dsimp only
                by_cases hrange : req.dtpServerNode.toNat ≤ 0xFFFF
                · have htemp : tempPath req.remotePath ≠ req.remotePath := by
                    rw [Ne, tempPath_eq_iff]
                    exact fun hlen => h ⟨haccepted, Or.inl ⟨hrange, Or.inl hlen⟩⟩
                  refine untouched_wp (svuDownloadFile_touches
                    (W := fun p => p = tempPath req.remotePath ∨
                      sessionStateSvuPath req.appName = some p)
                    (Or.inl rfl) (fun _ hpath => Or.inr hpath) link _ _ _) ?_ ht ?_
                  · rintro (heq | hside)
                    · exact htemp heq.symm
                    · exact h ⟨haccepted, Or.inl ⟨hrange, Or.inr hside⟩⟩
                  · intro downloaded m' u hu
                    split
                    · exact verifyAndInstall_atomic hmeta hbackup htemp backup hu
                    · exact refused_wp hu _ _
                · rw [svuDownloadFile_out_of_range hrange]
                  exact refused_wp ht _ _
  refine ⟨hwp.1, ?_⟩
  intro resp hresult hfailed
  have hend := hwp.2
  rw [hresult] at hend
  exact hend hfailed

end Sufficiency

section SmallTransfer

/-- A link over which the two-byte artifact `hi` arrives. -/
def smallLink : Link where
  ctrl := fun _ _ => smallCtrl
  drains := fun _ => [[svuPut32 0 ++ svuPut32 1 ++ smallArtifact]]
  allocated := true
  heap := fun _ => 0

def smallReply : CtrlReply :=
  ⟨2, 4096, 1, (ciSvuManifest smallArtifact 2 4096).2.map some⟩

def smallFresh : CiSvu :=
  ⟨2, 4096, 1, 0, [0, 0], [false, false], (ciSvuManifest smallArtifact 2 4096).2⟩

def smallFull : CiSvu :=
  ⟨2, 4096, 1, 2, smallArtifact, [true, true], (ciSvuManifest smallArtifact 2 4096).2⟩

/-- What the run does after its first request. -/
def smallTail : List ClientEvent :=
  [.metaHook 2 4096 [0, 0], .dataHook 0 smallArtifact smallArtifact,
   .verdict ⟨.completeVerified, [], 0⟩, .openOut true, .writeOut smallArtifact, .completeHook]

theorem smallLink_run (mtu : Nat) :
    svuClientRunHooked (clientConfig mtu) (smallLink.clientEnv none) =
      (0, .request 1 0 (buildRequest (clientConfig mtu) ⟨none, none, [], 0⟩) true ::
        smallTail) := by
  have hattach : attachReceiver (smallLink.clientEnv none) ⟨none, none, [], 0⟩ smallReply =
      some (smallFresh, [.metaHook 2 4096 [0, 0]]) := by
    decide +kernel
  have hdrain : drainLoop smallFresh (smallLink.drains 1) =
      (smallFull, ⟨.completeVerified, [], 0⟩,
        [.dataHook 0 smallArtifact smallArtifact, .verdict ⟨.completeVerified, [], 0⟩]) := by
    decide +kernel
  have hctrl : ctrlAttempts ((smallLink.clientEnv none).ctrl 1) 1 maxAttempts 0
      (buildRequest (clientConfig mtu) ⟨none, none, [], 0⟩) =
      (some smallReply,
        [.request 1 0 (buildRequest (clientConfig mtu) ⟨none, none, [], 0⟩) true]) :=
    ctrlAttempts_answered smallCtrl_reply
  exact roundLoop_verified (clientConfig mtu) (smallLink.clientEnv none) 23
    hctrl hattach hdrain rfl

end SmallTransfer

section Necessity

variable {req : DeployRequest}

/-- The requested path, which did not exist, holds something unfinished. -/
def Torn (req : DeployRequest) (t : Target) : Prop :=
  ¬ OldOrNew req none t

/-- Two different contents, one after the other, cannot both be complete. -/
theorem torn_of_two (req : DeployRequest) {t u : Target} {first second : Bytes}
    (ht : t.content req.remotePath = some first)
    (hu : u.content req.remotePath = some second)
    (hdiffer : hexDigest first ≠ hexDigest second) : Torn req t ∨ Torn req u := by
  by_cases hfirst : hexDigest first = req.expectedChecksum
  · refine Or.inr ?_
    rintro (hnone | ⟨data, hdata, hdigest⟩)
    · rw [hu] at hnone
      cases hnone
    · rw [hu] at hdata
      rw [← Option.some.inj hdata] at hdigest
      exact hdiffer (hfirst.trans hdigest.symm)
  · refine Or.inl ?_
    rintro (hnone | ⟨data, hdata, hdigest⟩)
    · rw [ht] at hnone
      cases hnone
    · rw [ht] at hdata
      rw [← Option.some.inj hdata] at hdigest
      exact hfirst hdigest

/-- The sidecar hook creates the file and then writes its header. -/
theorem sidecarMeta_torn {tm : Tm} (n : Nat) (s : Target) :
    Prog.Passes (sidecarMeta (calmEnv tm) req.remotePath .closed 2 4096) (Torn req) n s := by
  have hdiffer : hexDigest [] ≠ hexDigest (overwrite [] 0 (sidecarHeader 2 4096)) := by
    decide +kernel
  generalize hmode : (s.fs.lookup req.remotePath).elim 0o600 File.mode = mode
  have hopened : openCreate (calmEnv tm) req.remotePath n s =
      ⟨some true, s.put req.remotePath ⟨[], mode, 0⟩, n + 1,
        [s.put req.remotePath ⟨[], mode, 0⟩]⟩ := by
    rw [← hmode]
    cases hlookup : s.fs.lookup req.remotePath with
    | none =>
        simp only [openCreate, Prog.call, hlookup, Option.elim]
        rfl
    | some f =>
        simp only [openCreate, Prog.call, hlookup, Option.elim]
        rfl
  generalize ht : s.put req.remotePath ⟨[], mode, 0⟩ = t at hopened
  have hempty : t.fs.lookup req.remotePath = some ⟨[], mode, 0⟩ := by
    rw [← ht]
    exact AList.lookup_insert _
  have hwritten : ∀ bytes, pwrite (calmEnv tm) req.remotePath 0 bytes (n + 1) t =
      ⟨some true, t.put req.remotePath ⟨overwrite [] 0 bytes, mode, 0⟩, n + 1 + 1,
        [t.put req.remotePath ⟨overwrite [] 0 bytes, mode, 0⟩]⟩ := by
    intro bytes
    unfold pwrite Prog.call
    dsimp only
    rw [hempty]
    rfl
  have hmeta : sidecarMeta (calmEnv tm) req.remotePath .closed 2 4096 = (do
      if ← openCreate (calmEnv tm) req.remotePath then
        sidecarWriteHeader (calmEnv tm) req.remotePath 2 4096
      else return .closed) := rfl
  rw [hmeta]
  have hheader := Target.content_put (s := t) (p := req.remotePath)
    (f := ⟨overwrite [] 0 (sidecarHeader 2 4096), mode, 0⟩)
  rcases torn_of_two req (Target.content_of_lookup hempty) hheader hdiffer with htorn | htorn
  · exact .bind_left ⟨t, by rw [hopened]; simp, htorn⟩
  · refine .bind_right ⟨true, by rw [hopened], ?_⟩
    rw [hopened]
    dsimp only
    rw [if_pos rfl]
    exact .bind_left ⟨_, by rw [hwritten]; simp, htorn⟩

/-- The download opens the requested path and writes into it. -/
theorem writeOut_torn {tm : Tm} {sidecar : Option Path} {rest : List ClientEvent}
    (sc : Sidecar) (n : Nat) (s : Target) :
    Prog.Passes (runEvents (calmEnv tm) sidecar req.remotePath
      (.openOut true :: .writeOut smallArtifact :: rest) sc) (Torn req) n s := by
  have hdiffer : hexDigest [] ≠ hexDigest (ascii "h") := by decide +kernel
  generalize hmode : s.modeOf req.remotePath = mode
  have hopened : fopenWrite (calmEnv tm) req.remotePath n s =
      ⟨some true, s.put req.remotePath ⟨[], mode, 0⟩, n + 1,
        [s.put req.remotePath ⟨[], mode, 0⟩]⟩ := by
    rw [← hmode]
    rfl
  generalize ht : s.put req.remotePath ⟨[], mode, 0⟩ = t at hopened
  have hempty : t.fs.lookup req.remotePath = some ⟨[], mode, 0⟩ := by
    rw [← ht]
    exact AList.lookup_insert _
  have hfirst : (t.append req.remotePath (ascii "h") 0).content req.remotePath =
      some (ascii "h") := by
    unfold Target.append
    rw [hempty]
    exact Target.content_put
  have hpassed : t.append req.remotePath (ascii "h") 0 ∈
      (fwriteAll (calmEnv tm) req.remotePath smallArtifact (n + 1) t).passed := by
    change _ ∈ [t.append req.remotePath (ascii "h") 0, t.append req.remotePath (ascii "hi") 0]
    simp
  change Prog.Passes (do
    if ← fopenWrite (calmEnv tm) req.remotePath then
      runEvents (calmEnv tm) sidecar req.remotePath (.writeOut smallArtifact :: rest) sc
    else return false) (Torn req) n s
  rcases torn_of_two req (Target.content_of_lookup hempty) hfirst hdiffer with
    htorn | htorn
  · exact .bind_left ⟨t, by rw [hopened]; simp, htorn⟩
  · refine .bind_right ⟨true, by rw [hopened], ?_⟩
    rw [hopened]
    dsimp only
    rw [if_pos rfl]
    exact .bind_left ⟨_, hpassed, htorn⟩

/-- A deploy whose download tears the requested path is not atomic. -/
theorem handleDeploy_torn (haccepted : DeployAccepted req)
    (hrange : req.dtpServerNode.toNat ≤ 0xFFFF) (tm : Tm)
    (htorn : ∀ n s, Prog.Passes (runEvents (calmEnv tm) (sessionStateSvuPath req.appName)
      (tempPath req.remotePath) (svuClientRunHooked (clientConfig req.dtpMtu.toNat)
        (smallLink.clientEnv none)).2 .closed) (Torn req) n s) :
    ¬ DeployAtomicity req := by
  intro hatomic
  have hpasses : Prog.Passes (handleDeploy (calmEnv tm) smallLink req) (Torn req) 0
      ⟨∅, some [], .zero⟩ := by
    unfold handleDeploy handleDeployWith
    rw [if_neg haccepted.app_ne, if_neg haccepted.remote_ne, if_neg haccepted.node_ne,
      if_neg (by simpa using haccepted.checksum_length)]
    refine .bind_right ?_
    rw [backupBefore, Prog.ends_bind, access_ends rfl]
    simp only [AList.lookup_empty, Option.isSome_none, Bool.false_eq_true, if_false]
    rw [Prog.ends_pure]
    refine .bind_left ?_
    unfold svuDownloadFile
    have htemp : tempPath req.remotePath ≠ [] := by
      have hpos := List.length_pos_of_ne_nil haccepted.remote_ne
      intro hnil
      have hlen := congrArg List.length hnil
      rw [tempPath, clip, maxPathLen, List.length_take, List.length_append] at hlen
      change min 511 (req.remotePath.length + 4) = 0 at hlen
      omega
    rw [if_neg htemp, if_neg (by omega)]
    refine .bind_right ((mkdirP_ends (fun _ _ => rfl) _).imp ?_)
    rintro _ m t ⟨rfl, rfl⟩
    refine .bind_left (.bind_right ((restoreSeed_ends ?_).imp ?_))
    · intro path _
      exact AList.lookup_empty _
    · rintro _ m' t ⟨rfl, rfl⟩
      exact .bind_left (htorn m' _)
  obtain ⟨t, ht, htorn⟩ := hpasses
  exact htorn ((hatomic _ _ _ _).1 t ht)

/-- The sidecar hook writes into a requested path that is the sidecar. -/
theorem sidecar_torn (haccepted : DeployAccepted req)
    (hrange : req.dtpServerNode.toNat ≤ 0xFFFF)
    (hside : sessionStateSvuPath req.appName = some req.remotePath) :
    ¬ DeployAtomicity req := by
  refine handleDeploy_torn haccepted hrange demoTime ?_
  intro n s
  rw [smallLink_run, hside]
  -- the first request leaves the sidecar closed
  refine .bind_right (c := pure Sidecar.closed) ?_
  rw [Prog.ends_pure]
  exact .bind_left (sidecarMeta_torn n s)

/-- The download writes into a requested path that is its own temporary path. -/
theorem temp_torn (haccepted : DeployAccepted req) (hrange : req.dtpServerNode.toNat ≤ 0xFFFF)
    (hlen : req.remotePath.length = 511) : ¬ DeployAtomicity req := by
  refine handleDeploy_torn haccepted hrange demoTime ?_
  intro n s
  rw [smallLink_run, (tempPath_eq_iff req.remotePath).mpr hlen]
  apply runEvents_passes (by simp) (by simp)
  apply runEvents_passes (by simp) (by simp)
  apply runEvents_passes (by simp) (by simp)
  apply runEvents_passes (by simp) (by simp)
  exact fun sc m t => writeOut_torn sc m t

/-- The backup before the download removes a requested path that it backs up
onto itself, and the deploy is refused. -/
theorem backup_torn (haccepted : DeployAccepted req)
    (hbackup : IsBackupPath req.appName req.remotePath) : ¬ DeployAtomicity req := by
  obtain ⟨tm, data, hpath⟩ := hbackup
  intro hatomic
  generalize hstate : Target.put ⟨∅, some [], .zero⟩ req.remotePath ⟨data, 0o644, 0⟩ = s
  have hlookup : s.fs.lookup req.remotePath = some ⟨data, 0o644, 0⟩ := by
    rw [← hstate]
    exact AList.lookup_insert _
  have hdata := Target.content_of_lookup hlookup
  have hends : Prog.Ends (handleDeploy (fullTableEnv req.remotePath tm true) smallLink req)
      (fun resp _ t => resp.success = false ∧ t = s.remove req.remotePath) 0 s := by
    unfold handleDeploy handleDeployWith
    rw [if_neg haccepted.app_ne, if_neg haccepted.remote_ne, if_neg haccepted.node_ne,
      if_neg (by simpa using haccepted.checksum_length), Prog.ends_bind, backupBefore,
      Prog.ends_bind, access_ends rfl, hlookup]
    simp only [Option.isSome_some, if_true]
    refine (backupCreate_loses hdata hpath).imp ?_
    rintro _ m t ⟨rfl, rfl⟩
    rw [Prog.ends_pure]
    exact ⟨rfl, rfl⟩
  obtain ⟨resp, hresult, hfailed, hgone⟩ := hends
  have hsame := (hatomic _ _ _ _).2 resp hresult hfailed
  rw [hgone, Target.content_remove, hdata] at hsame
  cases hsame

end Necessity

/-- `/opt/` and a name of 250 bytes, and in that directory a name of 255. -/
def longPath : Path :=
  ascii "/opt/" ++ List.replicate 250 'a'.toUInt8 ++ ascii "/" ++ List.replicate 255 'b'.toUInt8

end SatDeploy.Agent
