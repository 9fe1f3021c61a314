import SatDeploy.Agent.Delivery
import SatDeploy.Agent.MetadataMap
import SatDeploy.Ground.PushIntegrity
import SatDeploy.Ground.RollbackIsolation

/-!
A push that nothing fails, from the command of the operator to the file on the target.
The transfer goes on from whatever earlier passes left in the sidecar, and everything the
satellite asks for arrives: the artifact ends up at the remote path, the metadata has the
new version, and neither the sidecar nor the temporary file is left behind.
-/

namespace SatDeploy.Ground

open Lib Svu Agent

/-! ### The deploy -/

/-- A request to deploy `src`. -/
structure Asks (req : DeployRequest) (src : Bytes) : Prop where
  app : req.appName ≠ []
  remote : req.remotePath ≠ []
  node : req.dtpServerNode ≠ 0
  address : req.dtpServerNode.toNat ≤ 0xFFFF
  checksum : req.expectedChecksum = hexDigest src
  size : req.expectedSize.toNat = 0 ∨ src.length % 2 ^ 32 = req.expectedSize.toNat
  mtu : mtuAllowed (clientConfig req.dtpMtu.toNat).mtu.toNat

/-- The remote path is short enough for its temporary file, and no file of the agent. -/
structure Remote (app : Bytes) (remote : Path) : Prop where
  fits : remote.length + 4 < maxPathLen
  sidecar : sessionStateSvuPath app ≠ some remote
  metadata : metadataFile ≠ remote
  backup : ¬ underBackups remote

section Paths

variable {app : Bytes} {remote sidecar : Path}

theorem Remote.temp_eq (h : Remote app remote) : tempPath remote = remote ++ ascii ".tmp" := by
  have hext : (ascii ".tmp").length = 4 := rfl
  exact clip_of_lt (by rw [List.length_append, hext]; exact h.fits)

theorem Remote.temp_ne_nil (h : Remote app remote) : tempPath remote ≠ [] := by
  rw [h.temp_eq]
  exact List.append_ne_nil_of_right_ne_nil _ (by decide)

theorem Remote.temp_ne (h : Remote app remote) : tempPath remote ≠ remote := by
  intro heq
  have hext : (ascii ".tmp").length = 4 := rfl
  have hlen := congrArg List.length (h.temp_eq.symm.trans heq)
  rw [List.length_append, hext] at hlen
  omega

theorem Remote.temp_getLast (h : Remote app remote) :
    (tempPath remote).getLast? = some 'p'.toUInt8 := by
  rw [h.temp_eq, List.getLast?_append]
  rfl

theorem Remote.temp_ne_sidecar (h : Remote app remote)
    (hpath : sessionStateSvuPath app = some sidecar) : tempPath remote ≠ sidecar := by
  intro heq
  have hlast := h.temp_getLast
  rw [heq, sidecar_eq hpath, List.getLast?_append,
    show sessionSvuExt.getLast? = some 't'.toUInt8 from rfl, Option.some_or] at hlast
  exact absurd hlast (by decide)

end Paths

/-- The files that a deploy may change. -/
def DeployFiles (remote sidecar p : Path) : Prop :=
  p = remote ∨ p = tempPath remote ∨ p = sidecar ∨ p = metadataFile ∨ underBackups p

section Deploy

variable {env : Env} {req : DeployRequest} {sidecar : Path} {n : Nat} {s : Target} {src : Bytes}
  {entries : List AppEntry}

theorem backupCreate_within (henv : env.Reliable) (app : Bytes) {remote : Path}
    (hdata : s.content remote = some src) :
    Prog.Ends (backupCreate env app remote)
      (fun r _ t => r.isSome = true ∧ Within underBackups s t) n s := by
  obtain ⟨r, hresult, hsome, hcases⟩ := @backupCreate_reliable env n s app remote src henv hdata
  refine ⟨r, hresult, hsome, fun p hp => ?_, ((backupCreate_memory app remote).state n s).1⟩
  rcases hcases with ⟨-, heq⟩ | hbacked
  · rw [heq]
  · exact hbacked.frame hp

theorem backupBefore_within (henv : env.Reliable) (app : Bytes) (remote : Path) :
    Prog.Ends (backupBefore env app remote)
      (fun r _ t => r.isSome = true ∧ Within underBackups s t) n s := by
  unfold backupBefore
  rw [Prog.ends_bind, access_ends (henv _ _)]
  split
  next hthere =>
    obtain ⟨f, hf⟩ := Option.isSome_iff_exists.mp hthere
    exact backupCreate_within henv app (Target.content_of_lookup hf)
  next => exact (Prog.ends_pure _).mpr ⟨rfl, .refl s⟩

/-- The steps after the rename file the new version and record it. -/
theorem finishDeploy_delivers (henv : env.Reliable) (hremote : Remote req.appName req.remotePath)
    (hdata : s.content req.remotePath = some src) (hmeta : s.metadata = some entries)
    (backup : Bytes) :
    Prog.Ends (finishDeploy env req backup) (fun resp _ t => resp.success = true ∧
      t.content req.remotePath = some src ∧
      (∃ now, t.metadata = some ((updateEntry entries req.appName
        (·.deployed env req.remotePath req.expectedChecksum now)).getD entries)) ∧
      ∀ p, p ≠ req.remotePath → p ≠ metadataFile → ¬ underBackups p →
        t.fs.lookup p = s.fs.lookup p) n s := by
  obtain ⟨f, hlookup, rfl⟩ := exists_lookup hdata
  unfold finishDeploy
  rw [Prog.ends_bind, chmod_ends henv hlookup, Prog.ends_bind]
  have hmode : Within (· = req.remotePath) s
      (s.put req.remotePath { f with mode := fileModeOf req.fileMode }) :=
    Within.put (W := (· = req.remotePath)) rfl _
  refine (backupCreate_within henv req.appName Target.content_put).imp ?_
  rintro _ m t ⟨-, hfiled⟩
  have hkept : t.metadata = some entries := by
    rw [hfiled.metadata metadataFile_apart, hmode.metadata hremote.metadata, hmeta]
  rw [Prog.ends_bind]
  obtain ⟨now, hsaved, hresult⟩ := appMetadataSave_table (n := m) henv req.appName req.remotePath
    req.expectedChecksum hkept
  have hspares : Prog.wp (appMetadataSave env req.appName req.remotePath req.expectedChecksum)
      _ _ m t := (appMetadataSave_spares (W := (· = metadataFile)) rfl _ _ _).frame m t
  have hends : Prog.Ends (appMetadataSave env req.appName req.remotePath req.expectedChecksum)
      (fun _ _ u => u.metadata = _) m t := ⟨_, hresult, hsaved⟩
  refine (hends.and_wp hspares).imp ?_
  rintro _ m' u ⟨hu, hfiles⟩
  rw [Prog.ends_pure]
  refine ⟨rfl, ?_, ⟨now, hu⟩, fun p hp hother hunder => ?_⟩
  · rw [Target.content_congr (hfiles _ hremote.metadata.symm), hfiled.content hremote.backup,
      Target.content_put]
  · rw [hfiles p hother, hfiled.files p hunder, hmode.files p hp]

/-- After a download of the artifact it is installed. -/
theorem verifyAndInstall_delivers (henv : env.Reliable) (hreq : Asks req src)
    (hremote : Remote req.appName req.remotePath)
    (hdata : s.content (tempPath req.remotePath) = some src) (hmeta : s.metadata = some entries)
    (backup : Bytes) :
    Prog.Ends (verifyAndInstall env req (tempPath req.remotePath) backup)
      (fun resp _ t => resp.success = true ∧ t.content req.remotePath = some src ∧
        t.fs.lookup (tempPath req.remotePath) = none ∧
        (∃ now, t.metadata = some ((updateEntry entries req.appName
          (·.deployed env req.remotePath req.expectedChecksum now)).getD entries)) ∧
        ∀ p, p ≠ req.remotePath → p ≠ tempPath req.remotePath → p ≠ metadataFile →
          ¬ underBackups p → t.fs.lookup p = s.fs.lookup p) n s := by
  obtain ⟨f, hlookup, rfl⟩ := exists_lookup hdata
  unfold verifyAndInstall
  rw [Prog.ends_bind]
  refine (computeFileChecksum_ends (fun _ => henv _ _) (fun _ => henv _ _) hdata).imp ?_
  rintro _ m t ⟨rfl, rfl⟩
  dsimp only
  rw [if_neg (by rw [hreq.checksum]; exact not_not_intro rfl), Prog.ends_bind,
    rename_ends henv hlookup hremote.temp_ne, if_pos rfl]
  have hrenamed : Within (fun p => p = req.remotePath ∨ p = tempPath req.remotePath) t
      ((t.remove (tempPath req.remotePath)).put req.remotePath f) :=
    (Within.remove (Or.inr rfl)).trans (.put (Or.inl rfl) f)
  have hkept : ((t.remove (tempPath req.remotePath)).put req.remotePath f).metadata =
      some entries := by
    rw [hrenamed.metadata, hmeta]
    rintro (heq | heq)
    · exact hremote.metadata heq
    · exact tempPath_ne_metadataFile _ heq.symm
  refine (finishDeploy_delivers henv hremote Target.content_put hkept backup).imp ?_
  rintro resp m' u ⟨hsuccess, hcontent, hrecorded, hothers⟩
  refine ⟨hsuccess, hcontent, ?_, hrecorded, fun p hp htemp hother hunder => ?_⟩
  · rw [hothers _ hremote.temp_ne (tempPath_ne_metadataFile _) (tempPath_apart hremote.backup),
      Target.lookup_put_ne hremote.temp_ne, Target.lookup_remove]
  · rw [hothers p hp hother hunder, hrenamed.files p (not_or.mpr ⟨hp, htemp⟩)]

/-- What a deploy of `src` that nothing fails leaves behind. -/
structure Delivered (env : Env) (app : Bytes) (remote sidecar : Path) (src : Bytes)
    (entries : List AppEntry) (s t : Target) : Prop where
  installed : t.content remote = some src
  temp_gone : t.fs.lookup (tempPath remote) = none
  sidecar_gone : t.fs.lookup sidecar = none
  recorded : ∃ now, t.metadata = some ((updateEntry entries app
    (·.deployed env remote (hexDigest src) now)).getD entries)
  others : ∀ p, ¬ DeployFiles remote sidecar p → t.fs.lookup p = s.fs.lookup p

theorem handleDeploy_delivers (henv : env.Reliable) (hreq : Asks req src)
    (hremote : Remote req.appName req.remotePath)
    (hpath : sessionStateSvuPath req.appName = some sidecar) {link : Link}
    (halloc : link.allocated = true) {found : Option Bytes} (hdisk : OnDisk sidecar s found)
    {events : List ClientEvent}
    (hrun : svuClientRunHooked (clientConfig req.dtpMtu.toNat) (link.clientEnv found) =
      (0, events ++ [.openOut true, .writeOut src, .completeHook]))
    (hevents : ∀ e ∈ events, e.transfers = true) (hmeta : s.metadata = some entries) :
    Prog.Ends (handleDeploy env link req) (fun resp _ t => resp.success = true ∧
      Delivered env req.appName req.remotePath sidecar src entries s t) n s := by
  have hlength : ¬ req.expectedChecksum.length ≠ hashHexLen := by
    rw [hreq.checksum, length_hexDigest]
    exact not_not_intro rfl
  unfold handleDeploy handleDeployWith
  rw [if_neg hreq.app, if_neg hreq.remote, if_neg hreq.node, if_neg hlength, Prog.ends_bind]
  refine (backupBefore_within henv req.appName req.remotePath).imp ?_
  rintro backup m t ⟨hsome, hbefore⟩
  obtain ⟨backup, rfl⟩ := Option.isSome_iff_exists.mp hsome
  dsimp only
  rw [Prog.ends_bind]
  have hdisk' : OnDisk sidecar t found := hdisk.congr (hbefore.files _ (sidecar_apart hpath))
  refine (svuDownloadFile_delivers henv hpath halloc hdisk' hremote.temp_ne_nil hreq.address
    (hremote.temp_ne_sidecar hpath) hreq.size hrun hevents).imp ?_
  rintro _ m' u ⟨rfl, hdata, hgone, hloaded⟩
  have hkept : u.metadata = some entries := by
    rw [hloaded.metadata, hbefore.metadata metadataFile_apart, hmeta]
    rintro (heq | heq)
    · exact tempPath_ne_metadataFile _ heq.symm
    · exact sidecar_ne_metadata hpath heq.symm
  rw [if_pos rfl]
  refine (verifyAndInstall_delivers henv hreq hremote hdata hkept backup).imp ?_
  rintro resp k v ⟨hsuccess, hcontent, htemp, hrecorded, hothers⟩
  refine ⟨hsuccess, hcontent, htemp, ?_, hreq.checksum ▸ hrecorded, fun p hp => ?_⟩
  · rw [hothers sidecar, hgone]
    · exact fun heq => hremote.sidecar (heq ▸ hpath)
    · exact (hremote.temp_ne_sidecar hpath).symm
    · exact sidecar_ne_metadata hpath
    · exact sidecar_apart hpath
  · simp only [DeployFiles, not_or] at hp
    obtain ⟨hnot, htempnot, hsidecar, hother, hunder⟩ := hp
    rw [hothers p hnot htempnot hother hunder, hloaded.files p (not_or.mpr ⟨htempnot, hsidecar⟩),
      hbefore.files p hunder]

end Deploy

/-! ### The push -/

/-- The transfer layer that an agent uses for a request. -/
def agentDownload (env : Env) (link : Link) (req : DeployRequest) (temp : Path) :
    Prog Target Bool :=
  svuDownloadFile env link req.dtpServerNode.toNat temp req.expectedSize.toNat req.appName
    req.dtpMtu.toNat

/-- The exchange takes place and no call fails at the agent. -/
structure Exchange.Good (x : Exchange) : Prop where
  answered : x.delivery = .answered
  reliable : x.env.Reliable

/-- The station serves the artifact and its parameters are legal. -/
structure Station.Ready (station : Station) : Prop where
  serving : station.serving = true
  node : station.groundNode ≠ 0
  mtu : mtuAllowed station.mtu.toNat

section Push

variable {station : Station} {probe push : Exchange} {link : Link} {artifact : Bytes}
  {remote sidecar : Path} {n : Nat} {s : Target} {entries : List AppEntry}

theorem Station.Ready.clientMtu (h : station.Ready) :
    mtuAllowed (clientConfig station.mtu.toNat).mtu.toNat := by
  obtain ⟨hlow, hhigh⟩ := h.mtu
  have hsmall : station.mtu.toNat % 2 ^ 16 = station.mtu.toNat := Nat.mod_eq_of_lt (by omega)
  unfold clientConfig
  dsimp only
  rw [hsmall, if_pos (by omega), UInt32.toNat_ofNat', Nat.mod_eq_of_lt (by omega)]
  exact h.mtu

theorem Station.Ready.asks (h : station.Ready) {app : Bytes} (happ : app ≠ [])
    (hremote : remote ≠ []) :
    Asks (deployRequest station app remote artifact) artifact where
  app := happ
  remote := hremote
  node := by
    intro hzero
    apply h.node
    have hnat := congrArg UInt32.toNat hzero
    rw [deployRequest, UInt16.toNat_toUInt32] at hnat
    exact UInt16.toNat_inj.mp hnat
  address := by
    have := station.groundNode.toNat_lt
    rw [deployRequest, UInt16.toNat_toUInt32]
    omega
  checksum := rfl
  size := by
    right
    rw [deployRequest, UInt32.toNat_ofNat']
  mtu := h.clientMtu

/-- Asking a good agent for its status changes no file, and shows what is in the
metadata. -/
theorem handleStatus_reads {env : Env} (henv : env.Reliable) (hmeta : s.metadata = some entries) :
    Prog.Ends (handleStatus env) (fun resp _ t => t.fs = s.fs ∧ t.metadata = some entries ∧
      ∀ a ∈ resp.apps, Reports s entries a) n s := by
  unfold handleStatus
  rw [Prog.ends_bind]
  refine (loadMetadata_ends (fun _ => henv _ _) (fun _ => henv _ _) hmeta).imp ?_
  rintro found m _ ⟨rfl, rfl⟩
  rw [Prog.ends_bind]
  have hentries : Prog.wp (statusEntries env maxStatusEntries found) (fun _ => True)
      (fun apps _ t => (∀ a ∈ apps, Reports s found a) ∧ t = { s with cache := some found }) m
      { s with cache := some found } := by
    refine statusEntries_wp found fun k apps happs => ⟨fun a ha => ?_, rfl⟩
    obtain ⟨e, he, hname, hcarries⟩ := happs a ha
    exact ⟨e, he, hname, (carries_congr rfl).mp hcarries⟩
  refine ((statusEntries_total env found maxStatusEntries m _).and_wp hentries).imp ?_
  rintro apps m' _ ⟨-, hreports, rfl⟩
  rw [Prog.ends_pure]
  exact ⟨rfl, rfl, hreports⟩

/-- Sending the deploy request of a push. -/
theorem pushArtifact_delivers (hstation : station.Ready) (hpush : push.Good) {app : Bytes}
    (happ : app ≠ []) (hname : remote ≠ []) (hremote : Remote app remote)
    (hpath : sessionStateSvuPath app = some sidecar) (halloc : link.allocated = true)
    {found : Option Bytes} (hdisk : OnDisk sidecar s found) {events : List ClientEvent}
    (hrun : svuClientRunHooked (clientConfig station.mtu.toNat) (link.clientEnv found) =
      (0, events ++ [.openOut true, .writeOut artifact, .completeHook]))
    (hevents : ∀ e ∈ events, e.transfers = true) (hmeta : s.metadata = some entries) :
    Prog.Ends (pushArtifact station push (agentDownload push.env link
        (deployRequest station app remote artifact)) app remote artifact)
      (fun result _ t => result = .success ∧
        Delivered push.env app remote sidecar artifact entries s t) n s := by
  unfold pushArtifact
  rw [if_pos hstation.serving, hpush.answered, sendDeployRequest, Prog.ends_bind, Prog.ends_bind]
  change Prog.Ends (handleDeploy push.env link (deployRequest station app remote artifact)) _ n s
  refine (handleDeploy_delivers hpush.reliable (hstation.asks happ hname) hremote hpath halloc
    hdisk hrun hevents hmeta).imp ?_
  rintro resp m t ⟨hsuccess, hdelivered⟩
  rw [Prog.ends_pure, Prog.ends_pure, if_pos hsuccess]
  exact ⟨rfl, hdelivered⟩

end Push

/-- A link that has no data to deliver. -/
def manifestLink : Link := { smallLink with drains := fun _ => [] }

theorem manifestLink_honest (seed : Option Bytes) :
    Honest smallArtifact (manifestLink.clientEnv seed) where
  ctrl := fun _ _ _ hp => ⟨_, _, smallServed, hp⟩
  data := by
    intro round packets hpackets
    cases hpackets

theorem manifestLink_answered : AllAnswered smallArtifact
    (manifestLink.clientEnv (some smallArtifact))
    (svuClientRunHooked (clientConfig 1024) (manifestLink.clientEnv (some smallArtifact))).2 := by
  refine allAnswered_of_requests [.request 1 0 (buildRequest (clientConfig 1024)
    (initialState (manifestLink.clientEnv (some smallArtifact)))) true] (by decide +kernel) ?_
  intro round req sent hmem
  simp only [List.mem_cons, List.not_mem_nil, or_false, ClientEvent.request.injEq] at hmem
  obtain ⟨rfl, -, rfl, -⟩ := hmem
  refine ⟨⟨rfl, rfl, rfl⟩, ⟨_, _, [], _, ?_, rfl, fun _ => Iff.rfl, ?_⟩, ?_⟩
  · decide +kernel
  · simp [manifestLink, Link.clientEnv]
  · simp [manifestLink, Link.clientEnv]

theorem telling_small : Telling smallArtifact := by
  intro data hmatches hbytes
  have hdigest := hmatches.digest_eq 0 (by decide)
  obtain ⟨a, b, rfl⟩ := List.length_eq_two.mp hmatches.length_eq
  have hfirst := hbytes 0 (by decide)
  have hsecond := hbytes 1 (by decide)
  simp only [List.getElem?_cons_zero, List.getElem?_cons_succ, Option.some.injEq] at hfirst hsecond
  have hh : smallArtifact[0]? = some 'h'.toUInt8 := rfl
  have hi : smallArtifact[1]? = some 'i'.toUInt8 := rfl
  rw [hh, Option.some.injEq] at hfirst
  rw [hi, Option.some.injEq] at hsecond
  rcases hfirst with rfl | rfl <;> rcases hsecond with rfl | rfl
  · rfl
  all_goals exact absurd hdigest (by decide +kernel)

end SatDeploy.Ground
