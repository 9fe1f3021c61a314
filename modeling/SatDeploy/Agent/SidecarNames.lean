import SatDeploy.Agent.DtpClient

/-!
The names of the sidecars, `app_name_is_safe` and the two path functions of
`session_state.c`, for every buffer size. An accepted name gives one component
below the state directory, and the last byte of a path tells which arm it belongs
to and whether it is the temporary of a checkpoint.
-/

namespace SatDeploy.Agent

open Lib Svu

/-- The longest text `snprintf` can count. -/
def intMax : Nat := 2 ^ 31 - 1

/-- The two path functions but for their extension: the text of
`"%s/%s%s"` in a buffer of `outSize` bytes. A longer text has a negative count. -/
def sidecarPathIn (ext : Bytes) (outSize : Nat) (app : Bytes) : Option Path :=
  if outSize = 0 ∨ ¬ appNameIsSafe app then none
  else
    let path := sessionStateDir ++ ascii "/" ++ app ++ ext
    if path.length > intMax ∨ path.length ≥ outSize then none else some path

def sessionStatePathIn : Nat → Bytes → Option Path := sidecarPathIn sessionStateExt

def sessionStateSvuPathIn : Nat → Bytes → Option Path := sidecarPathIn sessionSvuExt

/-- The two functions' results on all names and buffers. -/
def IsSidecar (path : Path) : Prop :=
  ∃ outSize app, sessionStatePathIn outSize app = some path ∨
    sessionStateSvuPathIn outSize app = some path

section Names

variable {ext : Bytes} {outSize outSize' : Nat} {app app' : Bytes} {path : Path}

theorem sidecarPathIn_eq_some : sidecarPathIn ext outSize app = some path ↔
    appNameIsSafe app = true ∧ path = sessionStateDir ++ ascii "/" ++ app ++ ext ∧
      path.length ≤ intMax ∧ path.length < outSize := by
  unfold sidecarPathIn
  dsimp only
  split
  case isTrue hbad =>
    constructor
    · intro h
      cases h
    · rintro ⟨hsafe, -, -, hfits⟩
      rcases hbad with hzero | hunsafe
      · omega
      · exact absurd hsafe hunsafe
  case isFalse hok =>
    have hsafe : appNameIsSafe app = true := by
      by_contra hunsafe
      exact hok (Or.inr hunsafe)
    split
    case isTrue hlong =>
      constructor
      · intro h
        cases h
      · rintro ⟨-, rfl, hmax, hfits⟩
        omega
    case isFalse hshort =>
      constructor
      · intro h
        rw [← Option.some.inj h]
        exact ⟨hsafe, rfl, by omega, by omega⟩
      · rintro ⟨-, rfl, -, -⟩
        rfl

/-- The buffer of both callers. -/
theorem sidecarPathIn_caller (ext app : Bytes) :
    sidecarPathIn ext 640 app =
      if appNameIsSafe app ∧ (sessionStateDir ++ ascii "/" ++ app ++ ext).length < 640 then
        some (sessionStateDir ++ ascii "/" ++ app ++ ext)
      else none := by
  have hmax : (640 : Nat) ≤ intMax := by decide
  apply Option.ext
  intro path
  rw [sidecarPathIn_eq_some]
  split
  case isTrue hok =>
    constructor
    · rintro ⟨-, rfl, -, -⟩
      rfl
    · intro h
      rw [← Option.some.inj h]
      exact ⟨hok.1, rfl, by omega, hok.2⟩
  case isFalse hbad =>
    constructor
    · rintro ⟨hsafe, rfl, -, hfits⟩
      exact absurd ⟨hsafe, hfits⟩ hbad
    · intro h
      cases h

theorem sessionStatePath_eq (app : Bytes) : sessionStatePath app = sessionStatePathIn 640 app :=
  (sidecarPathIn_caller sessionStateExt app).symm

theorem sessionStateSvuPath_eq (app : Bytes) :
    sessionStateSvuPath app = sessionStateSvuPathIn 640 app :=
  (sidecarPathIn_caller sessionSvuExt app).symm

theorem slash_notMem_of_safe (hsafe : appNameIsSafe app = true) : '/'.toUInt8 ∉ app := by
  intro hslash
  simp only [appNameIsSafe, Bool.and_eq_true, List.all_eq_true] at hsafe
  have hno := hsafe.2 _ hslash
  simp at hno

theorem sidecarPathIn_inj (h : sidecarPathIn ext outSize app = some path)
    (h' : sidecarPathIn ext outSize' app' = some path) : app = app' := by
  obtain ⟨-, rfl, -, -⟩ := sidecarPathIn_eq_some.mp h
  obtain ⟨-, heq, -, -⟩ := sidecarPathIn_eq_some.mp h'
  simpa using heq

/-- The last byte of a path is that of its extension. -/
theorem sidecarPathIn_last (hext : ext ≠ []) (h : sidecarPathIn ext outSize app = some path) :
    path.getLast? = ext.getLast? := by
  obtain ⟨-, rfl, -, -⟩ := sidecarPathIn_eq_some.mp h
  exact List.getLast?_append_of_ne_nil _ hext

theorem sessionStatePathIn_last (h : sessionStatePathIn outSize app = some path) :
    path.getLast? = some 'e'.toUInt8 :=
  sidecarPathIn_last (by decide) h

theorem sessionStateSvuPathIn_last (h : sessionStateSvuPathIn outSize app = some path) :
    path.getLast? = some 't'.toUInt8 :=
  sidecarPathIn_last (by decide) h

theorem sessionTmpPath_last (path : Path) :
    (sessionTmpPath path).getLast? = some 'p'.toUInt8 :=
  List.getLast?_append_of_ne_nil _ (by decide)

/-- The temporary of a checkpoint is no sidecar of any name. -/
theorem sessionTmpPath_not_sidecar (path : Path) : ¬ IsSidecar (sessionTmpPath path) := by
  rintro ⟨outSize, app, h | h⟩
  · have hlast := (sessionTmpPath_last path).symm.trans (sessionStatePathIn_last h)
    exact absurd hlast (by decide)
  · have hlast := (sessionTmpPath_last path).symm.trans (sessionStateSvuPathIn_last h)
    exact absurd hlast (by decide)

theorem dtp_ne_svu {dtp svu : Path} (hdtp : sessionStatePathIn outSize app = some dtp)
    (hsvu : sessionStateSvuPathIn outSize' app' = some svu) : dtp ≠ svu := by
  rintro rfl
  have hlast := (sessionStatePathIn_last hdtp).symm.trans (sessionStateSvuPathIn_last hsvu)
  exact absurd hlast (by decide)

/-- One component below the state directory, which is no way out of it. -/
def Confined (path : Path) : Prop :=
  ∃ name, path = sessionStateDir ++ ascii "/" ++ name ∧
    name ≠ [] ∧ '/'.toUInt8 ∉ name ∧ name ≠ ascii "." ∧ name ≠ ascii ".."

theorem sidecarPathIn_confined (hslash : '/'.toUInt8 ∉ ext) (hext : 3 ≤ ext.length)
    (h : sidecarPathIn ext outSize app = some path) : Confined path := by
  obtain ⟨hsafe, rfl, -, -⟩ := sidecarPathIn_eq_some.mp h
  have hlong : 3 ≤ (app ++ ext).length := by
    rw [List.length_append]
    omega
  refine ⟨app ++ ext, by simp, ?_, ?_, ?_, ?_⟩
  · intro hnil
    simp [hnil] at hlong
  · intro hmem
    rcases List.mem_append.mp hmem with happ | hin
    · exact slash_notMem_of_safe hsafe happ
    · exact hslash hin
  · intro hdot
    rw [hdot] at hlong
    exact absurd hlong (by decide)
  · intro hdots
    rw [hdots] at hlong
    exact absurd hlong (by decide)

theorem IsSidecar.confined (h : IsSidecar path) : Confined path := by
  obtain ⟨outSize, app, h | h⟩ := h
  · exact sidecarPathIn_confined (by decide) (by decide) h
  · exact sidecarPathIn_confined (by decide) (by decide) h

theorem sidecarPathIn_too_long (h : outSize ≤ (sessionStateDir ++ ascii "/" ++ app ++ ext).length) :
    sidecarPathIn ext outSize app = none := by
  rw [Option.eq_none_iff_forall_ne_some]
  intro path hpath
  obtain ⟨-, rfl, -, hfits⟩ := sidecarPathIn_eq_some.mp hpath
  omega

end Names

/-! ### What the two arms write -/

section Frames

variable {env : Env} {lib : Libdtp} {W : Path → Prop} {dest path : Path}

theorem freadItem_touches (p : Path) (size : Nat) (rest : Bytes) :
    Touches W (freadItem env p size rest) := by
  apply Touches.call
  intro n s t ht
  split at ht <;> cases ht

theorem sessionStateSave_touches (hpath : W path) (htmp : W (sessionTmpPath path))
    (key : SessionTuple) (bitmap : Bytes) : Touches W (sessionStateSave env path key bitmap) := by
  unfold sessionStateSave
  refine .bind sessionStateDirEnsure_touches fun made => .ite ?_ (.pure _)
  refine .ite (.pure _) (.bind (fopenWrite_touches htmp) fun opened => .ite ?_ (.pure _))
  refine .bind (fwritePieces_touches htmp _ _) fun ok => .bind (fflush_touches htmp) fun flushed =>
    .bind (fcloseFlushed_touches htmp _) fun _ => .ite ?_ ?_
  · refine .bind (rename_touches htmp hpath) fun renamed => .ite (.pure _) ?_
    exact .bind (unlink_touches htmp) fun _ => .pure _
  · exact .bind (unlink_touches htmp) fun _ => .pure _

theorem sessionStateLoad_touches (hpath : W path) (key : SessionTuple) (out : Bytes) :
    Touches W (sessionStateLoad env path key out) := by
  have hdiscard (r : Bool × Bytes) :
      Touches W (do let _ ← unlink env path; return r : Prog Target (Bool × Bytes)) :=
    .bind (unlink_touches hpath) fun _ => .pure _
  unfold sessionStateLoad
  refine .bind (fopenRead_touches _) fun data => ?_
  cases data with
  | none => exact .pure _
  | some data =>
      refine .bind (freadItem_touches _ _ _) fun _ => .bind (freadItem_touches _ _ _) fun _ =>
        .bind (freadItem_touches _ _ _) fun _ => .bind (freadItem_touches _ _ _) fun _ =>
        .bind (freadItem_touches _ _ _) fun _ => .bind (freadItem_touches _ _ _) fun _ => ?_
      refine .ite (.ite (.ite ?_ (.pure _)) (hdiscard _)) (hdiscard _)
      exact .bind (freadItem_touches _ _ _) fun _ => .ite (.pure _) (hdiscard _)

theorem deliverPackets_touches (hdest : W dest) (packets : List (Option DtpPacket)) :
    ∀ ctx, Touches W (deliverPackets env dest packets ctx) := by
  induction packets with
  | nil => exact fun _ => .pure _
  | cons packet rest ih =>
      intro ctx
      refine .bind ?_ fun delivery => .bind (ih _) fun _ => .pure _
      cases packet with
      | none => exact .pure _
      | some packet =>
          refine .ite (.pure _) (.bind (pwrite_spares hdest _ _).touches fun ok => ?_)
          exact .ite (.ite .die (.pure _)) (.pure _)

theorem dtpStartTransfer_touches (hdest : W dest) (k : Nat)
    (request : Option (List DtpInterval)) (ctx : DownloadCtx) :
    Touches W (dtpStartTransfer env lib dest k request ctx) :=
  .bind (deliverPackets_touches hdest _ _) fun _ => .pure _

theorem retryLoop_touches (hdest : W dest) (left : Nat) :
    ∀ k ctx result calls, Touches W (retryLoop env lib dest left k ctx result calls) := by
  induction left with
  | zero => exact fun _ _ _ _ => .pure _
  | succ left ih =>
      intro k ctx result calls
      refine .ite (.pure _) (.ite (.pure _) (.ite (.pure _) (.ite (.pure _) ?_)))
      exact .bind (dtpStartTransfer_touches hdest _ _ _) fun _ => ih _ _ _ _

theorem transferRounds_touches (hdest : W dest) (ctx : DownloadCtx) (resumed : Bool) :
    Touches W (transferRounds env lib dest ctx resumed) := by
  refine .ite (.pure _) ?_
  exact .bind (dtpStartTransfer_touches hdest _ _ _) fun _ => retryLoop_touches hdest _ _ _ _ _

theorem unlinkState_touches {state : Option Path} (hstate : ∀ p, state = some p → W p) :
    Touches W (unlinkState env state) := by
  cases state with
  | none => exact .pure _
  | some p => exact .bind (unlink_touches (hstate p rfl)) fun _ => .pure _

theorem settleSidecar_touches {state : Option Path} (hstate : ∀ p, state = some p → W p)
    (htmp : ∀ p, state = some p → W (sessionTmpPath p)) (key : SessionTuple)
    (ctx : DownloadCtx) (got : Nat) (fullyReceived : Bool) :
    Touches W (settleSidecar env state key ctx got fullyReceived) := by
  cases state with
  | none => exact .pure _
  | some p =>
      refine .ite (.pure _) (.ite (unlinkState_touches hstate) (.ite ?_ (.pure _)))
      exact .bind (sessionStateSave_touches (hstate p rfl) (htmp p rfl) _ _) fun _ => .pure _

theorem openDownload_touches {state : Option Path} (hdest : W dest)
    (hstate : ∀ p, state = some p → W p) (resumed : Bool) (bitmap : Bytes) :
    Touches W (openDownload env dest state resumed bitmap) := by
  refine .ite (.bind (openUpdate_spares dest).touches fun _ => .ite (.pure _) ?_) ?_
  · refine .bind (unlinkState_touches hstate) fun _ => ?_
    exact .bind (fopenWrite_touches hdest) fun _ => .ite (.pure _) (.pure _)
  · exact .bind (fopenWrite_touches hdest) fun _ => .ite (.pure _) (.pure _)

theorem resumeState_touches {state : Option Path} (hstate : ∀ p, state = some p → W p)
    (key : SessionTuple) (bitmapBytes : Nat) :
    Touches W (resumeState env state key bitmapBytes) := by
  cases state with
  | none => exact .pure _
  | some p => exact sessionStateLoad_touches (hstate p rfl) _ _

theorem receiveInto_touches (hdest : W dest) (nofPackets : Nat) (resumed : Bool)
    (bitmap : Bytes) : Touches W (receiveInto env lib dest nofPackets resumed bitmap) := by
  unfold receiveInto
  refine .ite (.bind (transferRounds_touches hdest _ _) fun _ => .pure _) ?_
  exact .bind (fcloseWritten_touches hdest) fun _ => .pure _

theorem closeDownload_touches {plan : DownloadPlan} (hdest : W dest)
    (hstate : ∀ p, plan.state = some p → W p)
    (htmp : ∀ p, plan.state = some p → W (sessionTmpPath p)) (ctx : DownloadCtx)
    (hardError : Int) (calls : List TransferCall) :
    Touches W (closeDownload env dest plan ctx hardError calls) :=
  .bind (fflush_touches hdest) fun _ => .bind (fflush_touches hdest) fun _ =>
    .bind (fcloseFlushed_touches hdest _) fun _ =>
      .bind (settleSidecar_touches hstate htmp _ _ _ _) fun _ => .pure _

/-- A packet download writes its destination, the sidecar of the app and the
temporary of the sidecar. -/
theorem dtpDownloadFile_touches {app : Option Bytes} (hdest : W dest)
    (hstate : ∀ p, app.bind sessionStatePath = some p → W p ∧ W (sessionTmpPath p))
    (expectedSize : UInt32) (expectedHash : Option Bytes) (mtu : UInt16) :
    Touches W (dtpDownloadFile env lib dest expectedSize expectedHash app mtu) := by
  have hchosen (c : Prop) [Decidable c] :
      ∀ p, (if c then app.bind sessionStatePath else none) = some p →
        W p ∧ W (sessionTmpPath p) := by
    intro p hp
    split at hp
    · exact hstate p hp
    · cases hp
  have hkept : ∀ p, (downloadPlan expectedSize expectedHash app mtu).state = some p →
      W p ∧ W (sessionTmpPath p) := fun p hp => hchosen _ p hp
  unfold dtpDownloadFile
  generalize downloadPlan expectedSize expectedHash app mtu = plan at hkept
  have hreceive : Touches W (dtpReceive env lib dest plan) := by
    refine .bind (resumeState_touches (fun p hp => (hkept p hp).1) _ _) fun resumed => ?_
    refine .bind (openDownload_touches hdest (fun p hp => (hkept p hp).1) _ _) fun opened => ?_
    cases opened with
    | none => exact .pure _
    | some opened => exact receiveInto_touches hdest _ _ _
  refine .bind hreceive fun r => ?_
  cases r with
  | none => exact .pure _
  | some r =>
      exact .bind (closeDownload_touches hdest (fun p hp => (hkept p hp).1)
        (fun p hp => (hkept p hp).2) _ _ _) fun _ => .pure _

/-- A packet download leaves the sidecar of the other arm as it is. -/
theorem dtpDownloadFile_keeps_svu {outSize : Nat} {app : Bytes} {svu : Path}
    (hsvu : sessionStateSvuPathIn outSize app = some svu) (hdest : dest ≠ svu)
    (expectedSize : UInt32) (expectedHash dtpApp : Option Bytes) (mtu : UInt16) :
    Touches (fun p => p ≠ svu)
      (dtpDownloadFile env lib dest expectedSize expectedHash dtpApp mtu) := by
  apply dtpDownloadFile_touches
  · exact hdest
  intro p hp
  obtain ⟨name, -, hname⟩ := Option.bind_eq_some_iff.mp hp
  rw [sessionStatePath_eq] at hname
  refine ⟨dtp_ne_svu hname hsvu, fun htmp => ?_⟩
  exact sessionTmpPath_not_sidecar p (by rw [htmp]; exact ⟨outSize, app, Or.inr hsvu⟩)

/-- A block download leaves the sidecar of the other arm and its temporary as
they are. -/
theorem svuDownloadFile_keeps_dtp {outSize : Nat} {app : Bytes} {dtp : Path}
    (hdtp : sessionStatePathIn outSize app = some dtp)
    (hpath : path = dtp ∨ path = sessionTmpPath dtp) (hdest : dest ≠ path)
    (link : Link) (serverNode expectedSize mtu : Nat) (svuApp : Bytes) :
    Touches (fun p => p ≠ path)
      (svuDownloadFile env link serverNode dest expectedSize svuApp mtu) := by
  apply svuDownloadFile_touches
  · exact hdest
  intro p hp
  rw [sessionStateSvuPath_eq] at hp
  rcases hpath with rfl | rfl
  · exact (dtp_ne_svu hdtp hp).symm
  · intro htmp
    exact sessionTmpPath_not_sidecar dtp (by rw [← htmp]; exact ⟨640, svuApp, Or.inr hp⟩)

end Frames

/-- Every accepted name gives one component below the state directory; on accepted
names both functions are injective; a path of one arm is none of the other's, and the
temporary of a path is the path of no accepted name; a path that does not fit the
buffer is refused. So a download of either arm leaves the sidecars of the other as
they are, at every point of its run, unless it is told to write there. -/
theorem sidecars_confined_and_apart :
    (∀ path, IsSidecar path → Confined path) ∧
    (∀ outSize outSize' app app' path, sessionStatePathIn outSize app = some path →
      sessionStatePathIn outSize' app' = some path → app = app') ∧
    (∀ outSize outSize' app app' path, sessionStateSvuPathIn outSize app = some path →
      sessionStateSvuPathIn outSize' app' = some path → app = app') ∧
    (∀ outSize outSize' app app' dtp svu, sessionStatePathIn outSize app = some dtp →
      sessionStateSvuPathIn outSize' app' = some svu → dtp ≠ svu) ∧
    (∀ path other, IsSidecar path → IsSidecar other → sessionTmpPath path ≠ other) ∧
    (∀ outSize app,
      (outSize ≤ (sessionStateDir ++ ascii "/" ++ app ++ sessionStateExt).length →
        sessionStatePathIn outSize app = none) ∧
      (outSize ≤ (sessionStateDir ++ ascii "/" ++ app ++ sessionSvuExt).length →
        sessionStateSvuPathIn outSize app = none)) ∧
    (∀ outSize app svu env lib dest expectedSize expectedHash dtpApp mtu,
      sessionStateSvuPathIn outSize app = some svu → dest ≠ svu →
      Touches (fun p => p ≠ svu)
        (dtpDownloadFile env lib dest expectedSize expectedHash dtpApp mtu)) ∧
    (∀ outSize app dtp path env link serverNode dest expectedSize svuApp mtu,
      sessionStatePathIn outSize app = some dtp → path = dtp ∨ path = sessionTmpPath dtp →
      dest ≠ path →
      Touches (fun p => p ≠ path)
        (svuDownloadFile env link serverNode dest expectedSize svuApp mtu)) := by
  refine ⟨fun path h => h.confined, ?_, ?_, ?_, ?_, ?_, ?_, ?_⟩
  · intro outSize outSize' app app' path h h'
    exact sidecarPathIn_inj h h'
  · intro outSize outSize' app app' path h h'
    exact sidecarPathIn_inj h h'
  · intro outSize outSize' app app' dtp svu hdtp hsvu
    exact dtp_ne_svu hdtp hsvu
  · intro path other _ hother htmp
    exact sessionTmpPath_not_sidecar path (by rw [htmp]; exact hother)
  · intro outSize app
    exact ⟨sidecarPathIn_too_long, sidecarPathIn_too_long⟩
  · intro outSize app svu env lib dest expectedSize expectedHash dtpApp mtu hsvu hdest
    exact dtpDownloadFile_keeps_svu hsvu hdest _ _ _ _
  · intro outSize app dtp path env link serverNode dest expectedSize svuApp mtu hdtp hpath hdest
    exact svuDownloadFile_keeps_dtp hdtp hpath hdest link _ _ _ _

/-- The sidecars of `demo`. -/
theorem sidecars_demo : ∃ dtp svu, sessionStatePathIn 640 (ascii "demo") = some dtp ∧
    sessionStateSvuPathIn 640 (ascii "demo") = some svu ∧ Confined dtp ∧ dtp ≠ svu ∧
    sessionTmpPath dtp ≠ svu ∧ sessionStateSvuPathIn 20 (ascii "demo") = none ∧
    Touches (fun p => p ≠ svu) (dtpDownloadFile (calmEnv demoTime) lossyLibdtp
      (ascii "/opt/demo.tmp") 3 none (some (ascii "demo")) 9) := by
  obtain ⟨dtp, hdtp⟩ := Option.isSome_iff_exists.mp
    (show (sessionStatePathIn 640 (ascii "demo")).isSome = true by decide)
  obtain ⟨svu, hsvu⟩ := Option.isSome_iff_exists.mp
    (show (sessionStateSvuPathIn 640 (ascii "demo")).isSome = true by decide)
  have hdest : ascii "/opt/demo.tmp" ≠ svu := by
    rintro rfl
    exact absurd hsvu (by decide)
  have hdtpIs : IsSidecar dtp := ⟨640, ascii "demo", Or.inl hdtp⟩
  have hsvuIs : IsSidecar svu := ⟨640, ascii "demo", Or.inr hsvu⟩
  have hall := sidecars_confined_and_apart
  exact ⟨dtp, svu, hdtp, hsvu, hall.1 dtp hdtpIs,
    hall.2.2.2.1 640 640 _ _ dtp svu hdtp hsvu, hall.2.2.2.2.1 dtp svu hdtpIs hsvuIs,
    (hall.2.2.2.2.2.1 20 _).2 (by decide),
    hall.2.2.2.2.2.2.1 640 _ svu _ _ _ _ _ _ _ hsvu hdest⟩

end SatDeploy.Agent
