import SatDeploy.Agent.Serving
import SatDeploy.Agent.VersionHistory
import SatDeploy.Ground.PushDelivers

/-!
The history of the ground: what the commands of `satdeploy_apm.c` hand to
`satdeploy_history_record`. The ground sees the target only through the replies that
reach it, and the hash of a rollback only as a part of a file name. Still, what its
records say is installed at a path is installed there.
-/

namespace SatDeploy.Ground

open Lib Agent

inductive HistoryAction where
  | upload
  | rollback
  deriving DecidableEq, Repr

/-- `satdeploy_history_write_t`; the module is always `default`, the transport always
`csp`, and no command sets the git hash. -/
structure HistoryWrite where
  app : Bytes
  fileHash : Bytes
  remotePath : Path
  action : HistoryAction
  success : Bool
  backupPath : Option Bytes
  errorMessage : Option String
  deriving DecidableEq, Repr

/-- The error of a record when no reply came. -/
def noResponse : String := "No response from agent (timeout)"

section Upload

variable (station : Station) (probe push : Exchange) (download : Path → Prog Target Bool)

def uploadRecord (app : Bytes) (remote : Path) (artifact : Bytes) : HistoryWrite :=
  ⟨app, hexDigest artifact, remote, .upload, false, none, none⟩

/-- `pushArtifact`, with the record it hands on. -/
def pushArtifactRecorded (app : Bytes) (remote : Path) (artifact : Bytes) :
    Prog Target (SlashResult × Option HistoryWrite) := do
  if station.serving then
    match ← sendDeployRequest push.delivery (handleDeployWith push.env download
        (deployRequest station app remote artifact)) with
    | none =>
        return (.eio, some { uploadRecord app remote artifact with
          errorMessage := some noResponse })
    | some resp =>
        return if resp.success then
          (.success, some { uploadRecord app remote artifact with
            success := true
            backupPath := some resp.backupPath })
        else (.eio, some { uploadRecord app remote artifact with
          errorMessage := some resp.errorMessage })
  else return (.eio, none)

/-- `deploySingleApp`, with the record it hands on. -/
def deploySingleAppRecorded (app : Bytes) (localFile : Option Bytes) (remote : Path)
    (force : Bool) : Prog Target (SlashResult × Option HistoryWrite) := do
  match localFile with
  | none => return (.eio, none)
  | some artifact =>
      if force then pushArtifactRecorded station push download app remote artifact
      else
        match ← sendDeployRequest probe.delivery (handleStatus probe.env) with
        | none => return (.eio, none)
        | some status =>
            if status.success ∧ alreadyDeployed status.apps app (hexDigest artifact) then
              return (.success, none)
            else pushArtifactRecorded station push download app remote artifact

variable {station probe push download}

/-- Without the record it is `pushArtifact`. -/
theorem pushArtifactRecorded_result (app : Bytes) (remote : Path) (artifact : Bytes) :
    (do return (← pushArtifactRecorded station push download app remote artifact).1 :
      Prog Target SlashResult) = pushArtifact station push download app remote artifact := by
  unfold pushArtifactRecorded pushArtifact
  split
  · rw [Prog.bind_assoc]
    refine congrArg (_ >>= ·) (funext fun reply => ?_)
    cases reply with
    | none => rfl
    | some resp =>
        dsimp only
        split
        · rfl
        · rfl
  · rfl

theorem deploySingleAppRecorded_result (app : Bytes) (localFile : Option Bytes) (remote : Path)
    (force : Bool) :
    (do return (← deploySingleAppRecorded station probe push download app localFile remote
      force).1 : Prog Target SlashResult) =
      deploySingleApp station probe push download app localFile remote force := by
  unfold deploySingleAppRecorded deploySingleApp
  cases localFile with
  | none => rfl
  | some artifact =>
      dsimp only
      split
      · exact pushArtifactRecorded_result app remote artifact
      · rw [Prog.bind_assoc]
        refine congrArg (_ >>= ·) (funext fun reply => ?_)
        cases reply with
        | none => rfl
        | some status =>
            dsimp only
            split
            · rfl
            · exact pushArtifactRecorded_result app remote artifact

end Upload

section Rollback

/-- The return codes of `satdeploy_rollback_cmd`. -/
inductive RollbackResult where
  | success
  | eusage
  | einval
  | eio
  deriving DecidableEq, Repr

/-- The hash that the rollback command reads off the path of the restored backup: what is
between the last dash of the file name and its `.bak`; empty when there is none or it does
not fit. -/
def restoredHash (backupPath : Bytes) : Bytes :=
  let filename := baseName backupPath
  if filename.length > 4 ∧ (ascii ".bak").isSuffixOf filename then
    let stem := filename.take (filename.length - 4)
    let hash := (stem.reverse.takeWhile (· ≠ '-'.toUInt8)).reverse
    if stem.contains '-'.toUInt8 ∧ hash.length < 65 then hash else []
  else []

def rollbackRequest (app : Bytes) (remote : Path) (hash : Bytes) : DeployRequest where
  appName := app
  remotePath := remote
  dtpServerNode := 0
  expectedSize := 0
  expectedChecksum := []
  rollbackHash := hash
  chunkSeq := 0
  totalChunks := 0
  chunkData := []
  fileMode := 0
  dtpMtu := 0

/-- `satdeploy_rollback_cmd` once its arguments are parsed, with the record it hands on. -/
def satdeployRollbackCmd (x : Exchange) (target hash : Option Bytes) :
    Prog Target (RollbackResult × Option HistoryWrite) := do
  match target with
  | none => return (.eusage, none)
  | some remote =>
      if remote = [] then return (.einval, none)
      else
        let app := deriveAppName remote
        let record : HistoryWrite := ⟨app, [], remote, .rollback, false, none, none⟩
        match ← sendDeployRequest x.delivery (handleRollback x.env
            (rollbackRequest app remote (hash.getD []))) with
        | none => return (.eio, some { record with errorMessage := some noResponse })
        | some resp =>
            return if resp.success then
              (.success, some { record with
                fileHash := restoredHash resp.backupPath
                success := true
                backupPath := some resp.backupPath })
            else (.eio, some { record with errorMessage := some resp.errorMessage })

end Rollback

/-- What the records, newest first, say is installed at a path: the hash of the last
success, unless a command got no reply since. -/
def lastKnown (remote : Path) : List HistoryWrite → Option Bytes
  | [] => none
  | r :: earlier =>
      if r.remotePath ≠ remote then lastKnown remote earlier
      else if r.success then some r.fileHash
      else if r.errorMessage = some noResponse then none
      else lastKnown remote earlier

/-! ### The hash in a name -/

section Hash

variable {app : Bytes}

theorem dash_notMem_hexDigest (data : Bytes) : '-'.toUInt8 ∉ hexDigest data := by
  intro hmem
  obtain ⟨d, hd, heq⟩ := exists_hexDigit_of_mem_hex hmem
  have hdash : ∀ d < 16, '-'.toUInt8 ≠ hexDigit d := by decide
  exact hdash d hd heq

theorem baseName_backupPath (happ : app.length < maxFiledLen) (tm : Tm) (data : Bytes) :
    baseName (backupPath app tm (hexDigest data)) = backupName tm (hexDigest data) := by
  have hstop : ∀ c ∈ (backupName tm (hexDigest data)).reverse, decide (c ≠ slash) = true := by
    intro c hc
    have hne : c ≠ slash := fun heq => slash_notMem_backupName (heq ▸ List.mem_reverse.mp hc)
    simpa using hne
  have hcut : (backupDir app ++ ascii "/" ++ backupName tm (hexDigest data)).reverse =
      (backupName tm (hexDigest data)).reverse ++ slash :: (backupDir app).reverse := by
    rw [List.reverse_append, List.reverse_append]
    rfl
  rw [backupPath_eq happ, baseName, hcut, List.takeWhile_append_of_pos hstop,
    List.takeWhile_cons_of_neg (by simp), List.append_nil, List.reverse_reverse]

/-- The ground reads the hash that the agent wrote. -/
theorem restoredHash_backupPath (happ : app.length < maxFiledLen) (tm : Tm) (data : Bytes) :
    restoredHash (backupPath app tm (hexDigest data)) = hexDigest data := by
  have hstem : (backupName tm (hexDigest data)).take 80 =
      timestamp tm ++ ascii "-" ++ hexDigest data := by
    refine List.take_left' ?_
    rw [List.length_append, List.length_append, length_timestamp, length_hexDigest]
    rfl
  have hstop : ∀ c ∈ (hexDigest data).reverse, decide (c ≠ '-'.toUInt8) = true := by
    intro c hc
    have hne : c ≠ '-'.toUInt8 := fun heq =>
      dash_notMem_hexDigest data (heq ▸ List.mem_reverse.mp hc)
    simpa using hne
  have hcut : (timestamp tm ++ ascii "-" ++ hexDigest data).reverse =
      (hexDigest data).reverse ++ '-'.toUInt8 :: (timestamp tm).reverse := by
    rw [List.reverse_append, List.reverse_append]
    rfl
  have hhash : ((timestamp tm ++ ascii "-" ++ hexDigest data).reverse.takeWhile
      (· ≠ '-'.toUInt8)).reverse = hexDigest data := by
    rw [hcut, List.takeWhile_append_of_pos hstop, List.takeWhile_cons_of_neg (by simp),
      List.append_nil, List.reverse_reverse]
  have hdash : (timestamp tm ++ ascii "-" ++ hexDigest data).contains '-'.toUInt8 = true := by
    rw [List.contains_iff_mem]
    exact List.mem_append_left _ (List.mem_append_right _ (by decide))
  have hsuffix : (ascii ".bak").isSuffixOf (backupName tm (hexDigest data)) = true :=
    List.isSuffixOf_iff_suffix.mpr ⟨_, rfl⟩
  unfold restoredHash
  dsimp only
  rw [baseName_backupPath happ, length_backupName, if_pos ⟨by decide, hsuffix⟩,
    show 84 - 4 = 80 from rfl, hstem, hhash, length_hexDigest, if_pos ⟨hdash, by decide⟩]

end Hash

/-! ### Paths that do not meet -/

/-- The remote paths that the ground deploys to: no two of them have one name, and none is a
file that the agent keeps for one of them. -/
structure Sites (paths : Set Path) : Prop where
  names : Set.InjOn deriveAppName paths
  named : ∀ P ∈ paths, deriveAppName P ≠ []
  installable : ∀ P ∈ paths, ∀ Q ∈ paths, Installable (deriveAppName P) Q
  temps : ∀ P ∈ paths, ∀ Q ∈ paths, tempPath P ≠ Q

section Apart

variable {paths : Set Path} {P Q p : Path}

theorem backup_inArchive {app : Bytes} (happ : app.length < maxFiledLen)
    (hbackup : IsBackupPath app p) : InArchive app p := by
  obtain ⟨tm, data, rfl⟩ := hbackup
  exact Or.inr ⟨_, nameIn_backupPath happ⟩

/-- A derived name leaves room for the paths of the backups. -/
theorem deriveAppName_filed (P : Path) : (deriveAppName P).length < maxFiledLen :=
  lt_of_le_of_lt (length_deriveAppName P) (by decide)

theorem ne_nil_of_named (hnamed : deriveAppName P ≠ []) : P ≠ [] := by
  rintro rfl
  exact hnamed rfl

theorem backupDir_derived (R : Path) :
    backupDir (deriveAppName R) = backupRoot ++ (ascii "/" ++ deriveAppName R) := by
  have hlen := length_deriveAppName R
  have hfits : (backupRoot ++ ascii "/" ++ deriveAppName R).length < maxPathLen := by
    rw [List.length_append, List.length_append, length_backupRoot]
    change 22 + 1 + _ < 512
    omega
  rw [backupDir, clip_of_lt hfits, List.append_assoc]

variable (h : Sites paths) (hP : P ∈ paths) (hQ : Q ∈ paths) (hne : Q ≠ P)
include h hP hQ hne

/-- A backup of one path is not in the archive of another. -/
theorem Sites.backup_apart (hbackup : IsBackupPath (deriveAppName P) p) :
    ¬ InArchive (deriveAppName Q) p := by
  obtain ⟨tm, data, rfl⟩ := hbackup
  rintro (hdir | ⟨name, hname⟩)
  · rw [backupPath_eq (deriveAppName_filed P), backupDir_derived, backupDir_derived] at hdir
    simp only [List.append_assoc] at hdir
    have hrest := List.append_cancel_left (List.append_cancel_left hdir)
    have hmem : slash ∈ deriveAppName P ++ (ascii "/" ++ backupName tm (hexDigest data)) :=
      List.mem_append_right _ (List.mem_append_left _ (by decide))
    rw [hrest] at hmem
    exact slash_notMem_deriveAppName Q hmem
  · exact hne (h.names hQ hP (backupPath_dir hname))

theorem Sites.content_apart : ¬ (DeployWrites (deriveAppName P) P Q ∨ Q = metadataFile) := by
  have hinstall := h.installable P hP Q hQ
  rintro ((hremote | htemp | hside | hbackup) | hmeta)
  · exact hne hremote
  · exact h.temps P hP Q hQ htemp.symm
  · exact hinstall.sidecar hside
  · exact hinstall.archive (backup_inArchive (deriveAppName_filed P) hbackup)
  · exact hinstall.metadata hmeta.symm

theorem Sites.archive_apart (hp : InArchive (deriveAppName Q) p) :
    ¬ (DeployWrites (deriveAppName P) P p ∨ p = metadataFile) := by
  have hinstall := h.installable Q hQ P hP
  rintro ((hremote | htemp | hside | hbackup) | hmeta)
  · exact hinstall.archive (hremote ▸ hp)
  · exact hinstall.temp_archive (htemp ▸ hp)
  · exact sidecar_apart hside hp.under
  · exact h.backup_apart hP hQ hne hbackup hp
  · exact metadataFile_notInArchive (hmeta ▸ hp)

end Apart

/-! ### What a reply tells -/

/-- What a handler did for `P` from `s` to `t`, and what its reply says of it: a refusal
that the file is the old one, a success that it is one of that hash. -/
structure Handled (paths : Set Path) (P : Path) (hash : DeployResponse → Bytes) (s : Target)
    (r : Option DeployResponse) (t : Target) : Prop where
  archived : ∀ Q ∈ paths, Archived Set.univ (deriveAppName Q) s →
    Archived Set.univ (deriveAppName Q) t
  others : ∀ Q ∈ paths, Q ≠ P → t.content Q = s.content Q
  refused : ∀ resp, r = some resp → resp.success = false → t.content P = s.content P
  done : ∀ resp, r = some resp → resp.success = true → t.Carries P (hash resp)

section Replies

variable {paths : Set Path} {P : Path} {hash : DeployResponse → Bytes} {s t : Target}
  {r : Option DeployResponse} {n : Nat} {env : Env} {req : DeployRequest}

theorem Handled.forget (h : Handled paths P hash s r t) : Handled paths P hash s none t where
  archived := h.archived
  others := h.others
  refused := fun _ hresp => by cases hresp
  done := fun _ hresp => by cases hresp

theorem Handled.unsent : Handled paths P hash s none s where
  archived := fun _ _ harchived => harchived
  others := fun _ _ _ => rfl
  refused := fun _ hresp => by cases hresp
  done := fun _ hresp => by cases hresp

/-- A handler for `P` that writes only what goes with `P`. -/
theorem Handled.of_frame (hsites : Sites paths) (hP : P ∈ paths)
    (hframe : ∀ p, ¬ (DeployWrites (deriveAppName P) P p ∨ p = metadataFile) →
      t.fs.lookup p = s.fs.lookup p)
    (hown : Archived Set.univ (deriveAppName P) s → Archived Set.univ (deriveAppName P) t)
    (hrefused : ∀ resp, r = some resp → resp.success = false → t.content P = s.content P)
    (hdone : ∀ resp, r = some resp → resp.success = true → t.Carries P (hash resp)) :
    Handled paths P hash s r t where
  archived := by
    intro Q hQ harchived
    by_cases hne : Q = P
    · subst hne
      exact hown harchived
    · exact harchived.same fun p hp => hframe p (hsites.archive_apart hP hQ hne hp)
  others := fun Q hQ hne => Target.content_congr (hframe Q (hsites.content_apart hP hQ hne))
  refused := hrefused
  done := hdone

theorem archived_replaced {app : Bytes} {remote : Path} (happ : app.length < maxFiledLen)
    (h : Archived Set.univ app s) (hreplaced : Replaced env app remote s r t) :
    Archived Set.univ app t := by
  rcases hreplaced with ⟨-, -, x, -, hfiled⟩ | ⟨-, data, u, -, hold, hnew⟩
  · exact (h.filed happ hfiled fun _ _ => Set.mem_univ _).1
  · have hmid := (h.filed happ hold fun _ _ => Set.mem_univ _).1
    exact (hmid.filed happ hnew fun _ _ => Set.mem_univ _).1

theorem deploy_handled (hsites : Sites paths) (hP : P ∈ paths) (henv : env.Reliable)
    (link : Link) (happ : req.appName = deriveAppName P) (hremote : req.remotePath = P) :
    Prog.Lands (handleDeploy env link req)
      (Handled paths P (fun _ => req.expectedChecksum) s) n s := by
  subst hremote
  have hinstall := hsites.installable _ hP _ hP
  have hfits := deriveAppName_filed req.remotePath
  have hsteady : Steady False (DeployWrites req.appName req.remotePath)
      (handleDeploy env link req) := handleDeploy_steady link
  have hself : ¬ BacksUpOntoItself req := by
    rintro ⟨-, -, tm, data, hsum, hpath⟩
    rw [hsum, happ] at hpath
    exact hinstall.archive (backup_inArchive hfits ⟨tm, data, hpath⟩)
  have hinstalls : Prog.wp (handleDeploy env link req) (fun _ => True)
      (fun resp _ t => resp.success = true → t.Carries req.remotePath req.expectedChecksum) n s :=
    handleDeployWith_installs env hinstall.metadata.symm hself _ n s
  rw [happ] at hsteady
  have hreplaced : Prog.Lands (handleDeploy env link req)
      (Replaced env req.appName req.remotePath s) n s :=
    handleDeploy_lands (happ ▸ hfits) henv (happ ▸ hinstall) link
  have hframe : Prog.Lands (handleDeploy env link req) (fun _ t => ∀ p,
      ¬ (DeployWrites (deriveAppName req.remotePath) req.remotePath p ∨ p = metadataFile) →
      t.fs.lookup p = s.fs.lookup p) n s :=
    .of_wp (hsteady.files.frame n s) fun _ ht => ht
  have hcarries : Prog.Lands (handleDeploy env link req) (fun r t => ∀ resp, r = some resp →
      resp.success = true → t.Carries req.remotePath req.expectedChecksum) n s := by
    refine .of_wp (Prog.wp_imp hinstalls fun a m t ht resp hresp hsuccess => ?_)
      fun _ _ resp hresp => by cases hresp
    rw [← Option.some.inj hresp] at hsuccess
    exact ht hsuccess
  refine Handled.of_frame hsites hP hframe (fun harchived => ?_) ?_ hcarries
  · rw [← happ] at harchived ⊢
    exact archived_replaced (happ ▸ hfits) harchived hreplaced
  · intro resp hresp hfailed
    rcases hreplaced with ⟨-, hsame, -⟩ | ⟨hsucceeds, -⟩
    · exact hsame
    · rw [hsucceeds resp hresp] at hfailed
      cases hfailed

/-- A rollback that restores a backup reports its path. -/
theorem restoreSelected_reports {app : Bytes} {remote : Path} {current : Bytes}
    {entries : List BackupEntry} {selected : BackupEntry} :
    Prog.wp (restoreSelected env app remote current entries selected) (fun _ => True)
      (fun resp _ _ => resp.success = true → resp.backupPath = selected.path) n s := by
  have hrestore : ∀ m t, Prog.wp (do
      if ← backupRestore env selected.path remote then
        let _ ← appMetadataSave env app remote selected.hash
        return succeed selected.path
      else return refuse .errRestoreFailed "Failed to restore backup")
      (fun _ => True) (fun resp _ _ => resp.success = true → resp.backupPath = selected.path)
      m t := by
    intro m t
    rw [Prog.wp_bind]
    refine Prog.wp_any _ fun restored m t => ?_
    split
    · rw [Prog.wp_bind]
      exact Prog.wp_any _ fun _ m t => (Prog.wp_pure _).mpr fun _ => rfl
    · exact (Prog.wp_pure _).mpr fun hsuccess => by cases hsuccess
  unfold restoreSelected
  dsimp only
  split
  · rw [Prog.wp_bind]
    exact Prog.wp_any _ fun _ m t => hrestore m t
  · exact hrestore n s

theorem handleRollback_reports (henv : env.Reliable) {app : Bytes} (hname : req.appName = app)
    (hne : app ≠ []) {remote : Path} (htarget : rollbackTarget req s = some remote) :
    Prog.Lands (handleRollback env req) (fun r _ => ∀ resp, r = some resp →
      resp.success = true → ∃ selected,
        selectBackup req.rollbackHash (s.hashAt remote) (dial env app s) = some selected ∧
        resp.backupPath = selected.path) n s := by
  refine handleRollback_selects henv hname hne htarget ?_ ?_
  · intro _ t code message _ resp hresp hsuccess
    rw [← Option.some.inj hresp] at hsuccess
    cases hsuccess
  · intro selected m t hselect _ _
    refine .of_wp (Prog.wp_imp restoreSelected_reports fun a _ _ ha resp hresp hsuccess => ?_)
      fun _ _ resp hresp => by cases hresp
    rw [← Option.some.inj hresp] at hsuccess ⊢
    exact ⟨selected, hselect, ha hsuccess⟩

theorem rollback_handled (hsites : Sites paths) (hP : P ∈ paths) (henv : env.Reliable)
    (happ : req.appName = deriveAppName P) (hremote : req.remotePath = P)
    (harchived : Archived Set.univ (deriveAppName P) s) :
    Prog.Lands (handleRollback env req)
      (Handled paths P (fun resp => restoredHash resp.backupPath) s) n s := by
  have hinstall := hsites.installable _ hP _ hP
  have hfits := deriveAppName_filed P
  have hnamed := hsites.named _ hP
  have htarget : rollbackTarget req s = some P := by
    rw [rollbackTarget, hremote, if_pos (ne_nil_of_named hnamed)]
  have hsteady : SteadyAt False _ (handleRollback env req) n s := handleRollback_at
  have hwithin : ∀ p, (∃ remote, rollbackTarget req s = some remote ∧
      RestoreWrites req.appName remote p) → DeployWrites (deriveAppName P) P p := by
    rintro p ⟨remote, hfound, hwrites⟩
    rw [htarget, Option.some.injEq] at hfound
    subst hfound
    rw [happ] at hwrites
    exact hwrites.imp_right fun hbackup => Or.inr (Or.inr hbackup)
  have hframe : Prog.Lands (handleRollback env req) (fun _ t => ∀ p,
      ¬ (DeployWrites (deriveAppName P) P p ∨ p = metadataFile) →
      t.fs.lookup p = s.fs.lookup p) n s := by
    refine Prog.Lands.of_wp (Prog.wp_mono hsteady.files ?_ ?_) fun _ ht => ht
    · exact fun t ht p hp => ht p fun hw => hp (hw.imp_left (hwithin p))
    · exact fun _ _ t ht p hp => ht p fun hw => hp (hw.imp_left (hwithin p))
  have hreports : Prog.Lands (handleRollback env req) _ n s :=
    handleRollback_reports henv happ hnamed htarget
  have hlands : Prog.Lands (handleRollback env req) _ n s :=
    handleRollback_lands hfits henv hinstall happ hnamed htarget harchived.free
      (harchived.dialFiles hfits)
  cases hselect : selectBackup req.rollbackHash (s.hashAt P) (dial env (deriveAppName P) s) with
  | none =>
      rw [hselect] at hlands
      obtain ⟨hrefused, hfs⟩ := hlands
      have hlookup : ∀ p, (handleRollback env req n s).state.fs.lookup p = s.fs.lookup p :=
        fun p => by rw [hfs]
      refine Handled.of_frame hsites hP hframe (fun h => h.same fun p _ => hlookup p) ?_ ?_
      · exact fun _ _ _ => Target.content_congr (hlookup P)
      · intro resp hresp hsuccess
        rw [hrefused resp hresp] at hsuccess
        cases hsuccess
  | some selected =>
      rw [hselect] at hlands
      obtain ⟨data, hdata, hrestored⟩ := hlands
      have hlists : ∀ e ∈ dial env (deriveAppName P) s,
          s.Lists (deriveAppName P) e.hash e.path := fun e he => (mem_dial he).2.1
      refine Handled.of_frame hsites hP hframe (fun h => ?_) ?_ ?_
      · exact (h.filed hfits (hrestored.filed hfits h hlists) fun _ _ => Set.mem_univ _).1
      · intro resp hresp hfailed
        rw [hrestored.1 resp hresp] at hfailed
        cases hfailed
      · intro resp hresp hsuccess
        obtain ⟨other, hother, hpath⟩ := hreports resp hresp hsuccess
        rw [hselect, Option.some.injEq] at hother
        subst hother
        -- the name of the backup has the hash of its content
        obtain ⟨⟨name, hname⟩, -⟩ :=
          harchived.dialFiles hfits selected (selectBackup_mem hselect)
        obtain ⟨tm, hbackup, -⟩ := harchived.sound.name hfits hname hdata
        refine ⟨data, hrestored.2.1, ?_⟩
        rw [hpath, hbackup, restoredHash_backupPath hfits]

/-- A request may not arrive, and its reply may not. -/
theorem sendDeployRequest_wp {delivery : Delivery} {handler : Prog Target DeployResponse}
    {R : Option DeployResponse → Target → Prop} (hlost : R none s)
    (hforget : ∀ r t, R r t → R none t) (h : Prog.Lands handler R n s) :
    Prog.wp (sendDeployRequest delivery handler) (fun _ => True) (fun r _ t => R r t) n s := by
  have hhandler : Prog.wp handler (fun _ => True) (fun resp _ t => R (some resp) t) n s := by
    refine ⟨fun _ _ => trivial, ?_⟩
    unfold Prog.Lands at h
    cases hresult : (handler n s).result with
    | none => trivial
    | some resp =>
        rw [hresult] at h
        exact h
  cases delivery with
  | requestLost => exact (Prog.wp_pure _).mpr hlost
  | replyLost =>
      rw [sendDeployRequest, Prog.wp_bind]
      exact Prog.wp_imp hhandler fun _ _ t ht => (Prog.wp_pure _).mpr (hforget _ t ht)
  | answered =>
      rw [sendDeployRequest, Prog.wp_bind]
      exact Prog.wp_imp hhandler fun _ _ t ht => (Prog.wp_pure _).mpr ht

end Replies

/-! ### What a record tells -/

/-- What a command for `P` did from `s` to `t`, and what its record says of it. -/
structure Told (paths : Set Path) (P : Path) (s : Target) (record : Option HistoryWrite)
    (t : Target) : Prop where
  archived : ∀ Q ∈ paths, Archived Set.univ (deriveAppName Q) s →
    Archived Set.univ (deriveAppName Q) t
  others : ∀ Q ∈ paths, Q ≠ P → t.content Q = s.content Q
  silent : record = none → t.content P = s.content P
  remote : ∀ r ∈ record, r.remotePath = P
  failed : ∀ r ∈ record, r.success = false → r.errorMessage ≠ some noResponse →
    t.content P = s.content P
  done : ∀ r ∈ record, r.success = true → t.Carries P r.fileHash

section Records

variable {paths : Set Path} {P : Path} {hash : DeployResponse → Bytes} {s t u : Target} {n : Nat}
  {record : Option HistoryWrite}

theorem Told.unchanged (s : Target) : Told paths P s none s where
  archived := fun _ _ harchived => harchived
  others := fun _ _ _ => rfl
  silent := fun _ => rfl
  remote := fun _ hr => by cases hr
  failed := fun _ hr => by cases hr
  done := fun _ hr => by cases hr

/-- A first part that leaves all but the metadata alone. -/
theorem Told.after (hsites : Sites paths) (hP : P ∈ paths)
    (hquiet : ∀ p, p ≠ metadataFile → u.fs.lookup p = s.fs.lookup p)
    (h : Told paths P u record t) : Told paths P s record t := by
  have hcontent : ∀ Q ∈ paths, u.content Q = s.content Q := fun Q hQ =>
    Target.content_congr (hquiet Q (hsites.installable P hP Q hQ).metadata.symm)
  refine ⟨fun Q hQ harchived => ?_, fun Q hQ hne => ?_, fun hr => ?_, h.remote, ?_, h.done⟩
  · refine h.archived Q hQ (harchived.same fun p hp => hquiet p fun hmeta => ?_)
    exact metadataFile_notInArchive (hmeta ▸ hp)
  · rw [h.others Q hQ hne, hcontent Q hQ]
  · rw [h.silent hr, hcontent P hP]
  · intro r hr hfailed hheard
    rw [h.failed r hr hfailed hheard, hcontent P hP]

/-- The record when no reply came. -/
theorem Handled.told_lost (h : Handled paths P hash s none t) {r : HistoryWrite}
    (hremote : r.remotePath = P) (hfailed : r.success = false)
    (hlost : r.errorMessage = some noResponse) : Told paths P s (some r) t where
  archived := h.archived
  others := h.others
  silent := fun hr => by cases hr
  remote := by
    rintro _ ⟨⟩
    exact hremote
  failed := by
    rintro _ ⟨⟩ - hheard
    exact absurd hlost hheard
  done := by
    rintro _ ⟨⟩ hsuccess
    rw [hfailed] at hsuccess
    cases hsuccess

/-- The record of a reply. -/
theorem Handled.told_reply {resp : DeployResponse} (h : Handled paths P hash s (some resp) t)
    {r : HistoryWrite} (hremote : r.remotePath = P) (hsame : r.success = resp.success)
    (hhash : resp.success = true → r.fileHash = hash resp) : Told paths P s (some r) t where
  archived := h.archived
  others := h.others
  silent := fun hr => by cases hr
  remote := by
    rintro _ ⟨⟩
    exact hremote
  failed := by
    rintro _ ⟨⟩ hfailed -
    exact h.refused resp rfl (hsame.symm.trans hfailed)
  done := by
    rintro _ ⟨⟩ hsuccess
    have hdone := hsame.symm.trans hsuccess
    rw [hhash hdone]
    exact h.done resp rfl hdone

section Upload

variable {station : Station} {probe push : Exchange} {link : Link} {artifact : Bytes}

theorem pushArtifactRecorded_told (hsites : Sites paths) (hP : P ∈ paths)
    (hpush : push.env.Reliable) :
    Prog.wp (pushArtifactRecorded station push (agentDownload push.env link
      (deployRequest station (deriveAppName P) P artifact)) (deriveAppName P) P artifact)
      (fun _ => True) (fun r _ t => Told paths P s r.2 t) n s := by
  unfold pushArtifactRecorded
  split
  · have hhandled : Prog.Lands (handleDeployWith push.env (agentDownload push.env link
        (deployRequest station (deriveAppName P) P artifact))
        (deployRequest station (deriveAppName P) P artifact))
        (Handled paths P (fun _ => hexDigest artifact) s) n s :=
      deploy_handled hsites hP hpush link rfl rfl
    rw [Prog.wp_bind]
    refine Prog.wp_imp (sendDeployRequest_wp .unsent (fun _ _ h => h.forget) hhandled) ?_
    intro reply m t ht
    cases reply with
    | none => exact (Prog.wp_pure _).mpr (ht.told_lost rfl rfl rfl)
    | some resp =>
        dsimp only
        rw [Prog.wp_pure]
        split
        next hsuccess => exact ht.told_reply rfl hsuccess.symm fun _ => rfl
        next hfailed =>
          have hrefused : resp.success = false := Bool.eq_false_iff.mpr hfailed
          exact ht.told_reply rfl hrefused.symm fun hsuccess => absurd hsuccess hfailed
  · exact (Prog.wp_pure _).mpr (.unchanged s)

/-- What an upload tells the history. -/
theorem deploySingleAppRecorded_told (hsites : Sites paths) (hP : P ∈ paths)
    (hpush : push.env.Reliable) (force : Bool) :
    Prog.wp (deploySingleAppRecorded station probe push (agentDownload push.env link
      (deployRequest station (deriveAppName P) P artifact)) (deriveAppName P) (some artifact) P
      force) (fun _ => True) (fun r _ t => Told paths P s r.2 t) n s := by
  unfold deploySingleAppRecorded
  dsimp only
  split
  · exact pushArtifactRecorded_told hsites hP hpush
  · have hsteady : Steady False (fun _ => False) (handleStatus probe.env) := handleStatus_steady
    have hprobe : Prog.Lands (handleStatus probe.env) (fun _ t => ∀ p, p ≠ metadataFile →
        t.fs.lookup p = s.fs.lookup p) n s := by
      refine Prog.Lands.of_wp (Prog.wp_mono (hsteady.files.frame n s) ?_ ?_) fun _ ht => ht
      · exact fun t ht p hp => ht p (not_or.mpr ⟨id, hp⟩)
      · exact fun _ _ t ht p hp => ht p (not_or.mpr ⟨id, hp⟩)
    rw [Prog.wp_bind]
    refine Prog.wp_imp (sendDeployRequest_wp (fun _ _ => rfl) (fun _ _ h => h) hprobe) ?_
    intro status m u hquiet
    cases status with
    | none => exact (Prog.wp_pure _).mpr (Told.after hsites hP hquiet (.unchanged u))
    | some status =>
        dsimp only
        split
        · exact (Prog.wp_pure _).mpr (Told.after hsites hP hquiet (.unchanged u))
        · exact Prog.wp_imp (pushArtifactRecorded_told hsites hP hpush) fun _ _ _ ht =>
            Told.after hsites hP hquiet ht

end Upload

/-- What a rollback tells the history. -/
theorem satdeployRollbackCmd_told (hsites : Sites paths) (hP : P ∈ paths) {x : Exchange}
    (henv : x.env.Reliable) (wanted : Option Bytes)
    (harchived : Archived Set.univ (deriveAppName P) s) :
    Prog.wp (satdeployRollbackCmd x (some P) wanted) (fun _ => True)
      (fun r _ t => Told paths P s r.2 t) n s := by
  unfold satdeployRollbackCmd
  dsimp only
  rw [if_neg (ne_nil_of_named (hsites.named P hP)), Prog.wp_bind]
  have hhandled : Prog.Lands (handleRollback x.env (rollbackRequest (deriveAppName P) P
      (wanted.getD []))) (Handled paths P (fun resp => restoredHash resp.backupPath) s) n s :=
    rollback_handled hsites hP henv rfl rfl harchived
  refine Prog.wp_imp (sendDeployRequest_wp .unsent (fun _ _ h => h.forget) hhandled) ?_
  intro reply m t ht
  cases reply with
  | none => exact (Prog.wp_pure _).mpr (ht.told_lost rfl rfl rfl)
  | some resp =>
      dsimp only
      rw [Prog.wp_pure]
      split
      next hsuccess => exact ht.told_reply rfl hsuccess.symm fun _ => rfl
      next hfailed =>
        have hrefused : resp.success = false := Bool.eq_false_iff.mpr hfailed
        exact ht.told_reply rfl hrefused.symm fun hsuccess => absurd hsuccess hfailed

end Records

/-! ### The run -/

/-- The history of a ground station, newest record first, and the target it deals with.
Each command runs to its end at an agent at which no call fails; its request or its reply
may be lost, its transfer may fail, and its record is kept. -/
inductive LedgerRun (paths : Set Path) : List HistoryWrite → Target → Prop where
  | start {s : Target} (h : ∀ P ∈ paths, Archived Set.univ (deriveAppName P) s) :
      LedgerRun paths [] s
  /-- Anything that leaves the installed files and the archives alone. -/
  | outside {ledger : List HistoryWrite} {s t : Target} (hrun : LedgerRun paths ledger s)
      (hcontent : ∀ P ∈ paths, t.content P = s.content P)
      (harchive : ∀ P ∈ paths, SameArchive (deriveAppName P) s t) : LedgerRun paths ledger t
  | upload {ledger : List HistoryWrite} {s : Target} (hrun : LedgerRun paths ledger s)
      (station : Station) (probe push : Exchange) (hpush : push.env.Reliable) (link : Link)
      {P : Path} (hP : P ∈ paths) (artifact : Bytes) (force : Bool) (n : Nat)
      (result : SlashResult) (record : Option HistoryWrite)
      (hresult : (deploySingleAppRecorded station probe push (agentDownload push.env link
        (deployRequest station (deriveAppName P) P artifact)) (deriveAppName P) (some artifact)
        P force n s).result = some (result, record)) :
      LedgerRun paths (record.toList ++ ledger)
        (deploySingleAppRecorded station probe push (agentDownload push.env link
          (deployRequest station (deriveAppName P) P artifact)) (deriveAppName P) (some artifact)
          P force n s).state
  | rollback {ledger : List HistoryWrite} {s : Target} (hrun : LedgerRun paths ledger s)
      (x : Exchange) (henv : x.env.Reliable) {P : Path} (hP : P ∈ paths) (wanted : Option Bytes)
      (n : Nat) (result : RollbackResult) (record : Option HistoryWrite)
      (hresult : (satdeployRollbackCmd x (some P) wanted n s).result = some (result, record)) :
      LedgerRun paths (record.toList ++ ledger) (satdeployRollbackCmd x (some P) wanted n s).state

/-- The archives are in order, and what the records say is installed is there. -/
structure Truthful (paths : Set Path) (ledger : List HistoryWrite) (s : Target) : Prop where
  archived : ∀ P ∈ paths, Archived Set.univ (deriveAppName P) s
  known : ∀ P ∈ paths, ∀ hash, lastKnown P ledger = some hash → s.Carries P hash

section Run

variable {paths : Set Path} {P : Path} {ledger : List HistoryWrite} {s t : Target}

theorem carries_of_content {hash : Bytes} (hsame : t.content P = s.content P)
    (h : s.Carries P hash) : t.Carries P hash := by
  obtain ⟨data, hdata, hdigest⟩ := h
  exact ⟨data, hsame.trans hdata, hdigest⟩

/-- A record of another path says nothing of this one. -/
theorem lastKnown_other {record : Option HistoryWrite} (h : ∀ r ∈ record, r.remotePath ≠ P) :
    lastKnown P (record.toList ++ ledger) = lastKnown P ledger := by
  cases record with
  | none => rfl
  | some r =>
      change lastKnown P (r :: ledger) = _
      rw [lastKnown, if_pos (h r rfl)]

theorem Truthful.told (h : Truthful paths ledger s) {Q : Path} {record : Option HistoryWrite}
    (htold : Told paths Q s record t) : Truthful paths (record.toList ++ ledger) t where
  archived := fun P hP => htold.archived P hP (h.archived P hP)
  known := by
    intro P hP hash hknown
    by_cases hne : P = Q
    · subst hne
      cases record with
      | none => exact carries_of_content (htold.silent rfl) (h.known P hP hash hknown)
      | some r =>
          have hknown : lastKnown P (r :: ledger) = some hash := hknown
          rw [lastKnown, if_neg (not_not_intro (htold.remote r rfl))] at hknown
          split at hknown
          next hsuccess =>
            rw [← Option.some.inj hknown]
            exact htold.done r rfl hsuccess
          next hfailed =>
            split at hknown
            · cases hknown
            next hheard =>
              have hkept := htold.failed r rfl (Bool.eq_false_iff.mpr hfailed) hheard
              exact carries_of_content hkept (h.known P hP hash hknown)
    · rw [lastKnown_other fun r hr => htold.remote r hr ▸ Ne.symm hne] at hknown
      exact carries_of_content (htold.others P hP hne) (h.known P hP hash hknown)

theorem LedgerRun.truthful (hsites : Sites paths) (hrun : LedgerRun paths ledger s) :
    Truthful paths ledger s := by
  induction hrun with
  | start h => exact ⟨h, fun _ _ _ hknown => by cases hknown⟩
  | outside _ hcontent harchive ih =>
      exact ⟨fun P hP => (ih.archived P hP).same (harchive P hP),
        fun P hP hash hknown => carries_of_content (hcontent P hP) (ih.known P hP hash hknown)⟩
  | @upload ledger s _ station probe push hpush link P hP artifact force n result record hresult
      ih =>
      have htold := (@deploySingleAppRecorded_told paths P s n station probe push link artifact
        hsites hP hpush force).2
      rw [hresult] at htold
      exact ih.told htold
  | @rollback ledger s _ x henv P hP wanted n result record hresult ih =>
      have htold := (satdeployRollbackCmd_told (n := n) hsites hP henv wanted
        (ih.archived P hP)).2
      rw [hresult] at htold
      exact ih.told htold

theorem sites_demo : Sites {ascii "/opt/demo"} where
  names := Set.injOn_singleton _ _
  named := by
    rintro P rfl
    decide
  installable := by
    rintro P rfl Q rfl
    have happ : deriveAppName (ascii "/opt/demo") = ascii "demo" := by decide
    rw [happ]
    exact installable_demo
  temps := by
    rintro P rfl Q rfl
    decide

end Run

end SatDeploy.Ground
