import SatDeploy.Agent.BackupManager
import SatDeploy.Svu.Session

/-!
The agent's transfer layer, `satdeploy-agent/src/svu_transfer.c` and the path
helper of `session_state.c`. The sidecar hooks are calls on files; a run of
the transfer loop is its events, carried out in order. This is the flight
build: the naive baseline compiles the sidecar out.
-/

namespace SatDeploy.Agent

open Lib Svu

def sessionStateDir : Path := ascii "/var/lib/satdeploy/state"
def sessionSvuExt : Bytes := ascii ".svupart"
def svuBlockSize : UInt32 := 4096
def svuMaxRounds : Nat := 24
def sidecarMagic : Nat := 0x53565550
def sidecarVersion : Nat := 1
def sidecarHdr : Nat := 16

def appNameIsSafe (app : Bytes) : Bool :=
  app ≠ [] && !(app.tails.any (ascii "..").isPrefixOf) &&
    app.all fun c => c ≠ '/'.toUInt8 && c ≠ '\\'.toUInt8 && 0x20 ≤ c

/-- The sidecar path, or none for a name that is unsafe or does not fit. -/
def sessionStateSvuPath (app : Bytes) : Option Path :=
  let path := sessionStateDir ++ ascii "/" ++ app ++ sessionSvuExt
  if appNameIsSafe app ∧ path.length < 640 then some path else none

/-- Big-endian 32-bit words. -/
def sidecarPut32 (v : Nat) : Bytes :=
  [UInt8.ofNat (v / 2 ^ 24), UInt8.ofNat (v / 2 ^ 16), UInt8.ofNat (v / 2 ^ 8), UInt8.ofNat v]

def sidecarGet32 (buf : Bytes) (p : Nat) : Nat :=
  (buf.getD p 0).toNat * 2 ^ 24 + (buf.getD (p + 1) 0).toNat * 2 ^ 16 +
    (buf.getD (p + 2) 0).toNat * 2 ^ 8 + (buf.getD (p + 3) 0).toNat

def sidecarHeader (total block : Nat) : Bytes :=
  sidecarPut32 sidecarMagic ++ sidecarPut32 sidecarVersion ++ sidecarPut32 total ++
    sidecarPut32 block

/-- What `pwrite` makes of a file: a gap before the bytes reads as zeros. -/
def overwrite (data : Bytes) (offset : Nat) (bytes : Bytes) : Bytes :=
  if bytes = [] then data
  else splice (data ++ List.replicate (offset + bytes.length - data.length) 0) offset bytes

section Calls

variable (env : Env)

/-- `open(path, O_RDWR)`. -/
def openUpdate (p : Path) : Prog Target Bool :=
  .call fun n s => (env.ok n (.openUpdate p) && (s.fs.lookup p).isSome, [])

/-- `open(path, O_RDWR | O_CREAT | O_TRUNC, 0600)`. -/
def openCreate (p : Path) : Prog Target Bool :=
  .call fun n s =>
    if env.ok n (.openWrite p) then
      let mode := match s.fs.lookup p with
        | some f => f.mode
        | none => 0o600
      (true, [s.put p ⟨[], mode, env.clock n⟩])
    else (false, [])

/-- `pread`; a fault is an error, or a short read. -/
def pread (p : Path) (offset len : Nat) : Prog Target (Option Bytes) :=
  .call fun n s =>
    let bytes := slice ((s.content p).getD []) offset (offset + len)
    match env.fault n (.read p) with
    | none => (some bytes, [])
    | some 0 => (none, [])
    | some k => (some (bytes.take k), [])

/-- `pwrite` through a descriptor of the file at `p`, in one step. -/
def pwrite (p : Path) (offset : Nat) (bytes : Bytes) : Prog Target Bool :=
  .call fun n s =>
    match s.fs.lookup p, env.fault n (.write p) with
    | none, fault => (fault.isNone, [])
    | some f, none =>
        (true, [s.put p { f with data := overwrite f.data offset bytes, mtime := env.clock n }])
    | some f, some k =>
        (false, [s.put p { f with
          data := overwrite f.data offset (bytes.take k), mtime := env.clock n }])

/-- `ftruncate(fd, 0)`. -/
def ftruncate (p : Path) : Prog Target Unit :=
  .call fun n s =>
    match env.ok n (.truncate p), s.fs.lookup p with
    | true, some f => ((), [s.put p { f with data := [], mtime := env.clock n }])
    | _, _ => ((), [])

end Calls

/-- `svu_sidecar_t` of a usable path; `fdOpen` says that `fd` is not -1. -/
structure Sidecar where
  fdOpen : Bool
  total : Nat
  deriving DecidableEq, Repr

def Sidecar.closed : Sidecar := ⟨false, 0⟩

/-- The header is one that `sidecar_restore` takes. -/
def sidecarHeaderOk (hdr : Bytes) : Bool :=
  hdr.length = sidecarHdr && sidecarGet32 hdr 0 = sidecarMagic &&
    sidecarGet32 hdr 4 = sidecarVersion && sidecarGet32 hdr 8 ≠ 0

section Hooks

variable (env : Env) (path : Path)

def sidecarRestore (allocated : Bool) : Prog Target (Option Bytes × Sidecar) := do
  if ← openUpdate env path then
    let hdr := (← pread env path 0 sidecarHdr).getD []
    if sidecarHeaderOk hdr then
      let total := sidecarGet32 hdr 8
      if allocated then
        match ← pread env path sidecarHdr total with
        | none => do
            let _ ← unlink env path
            return (none, .closed)
        | some got =>
            return (some (got ++ List.replicate (total - got.length) 0), ⟨true, total⟩)
      else return (none, .closed)
    else do
      let _ ← unlink env path
      return (none, .closed)
  else return (none, .closed)

/-- Writing the header; without it the descriptor is given up. -/
def sidecarWriteHeader (total block : Nat) : Prog Target Sidecar := do
  if ← pwrite env path 0 (sidecarHeader total block) then return ⟨true, total⟩
  else return ⟨false, total⟩

def sidecarMeta (sc : Sidecar) (total block : Nat) : Prog Target Sidecar := do
  if sc.fdOpen = false then
    if ← openCreate env path then sidecarWriteHeader env path total block
    else return sc
  else if sc.total ≠ total then do
    ftruncate env path
    sidecarWriteHeader env path total block
  else sidecarWriteHeader env path total block

def sidecarData (sc : Sidecar) (offset : Nat) (buf : Bytes) : Prog Target Sidecar := do
  if sc.fdOpen = false ∨ offset > sc.total ∨ buf.length > sc.total - offset then return sc
  else if ← pwrite env path (sidecarHdr + offset) buf then return sc
  else do
    let _ ← unlink env path
    return { sc with fdOpen := false }

def sidecarComplete (sc : Sidecar) : Prog Target Sidecar := do
  let _ ← unlink env path
  return { sc with fdOpen := false }

/-- What one event of a run does to the sidecar. -/
def hookEvent (sc : Sidecar) : ClientEvent → Prog Target Sidecar
  | .metaHook total block _ => sidecarMeta env path sc total block
  | .dataHook offset payload _ => sidecarData env path sc offset payload
  | .completeHook => sidecarComplete env path sc
  | _ => pure sc

end Hooks

/-- What the network and the allocator do during one pass. -/
structure Link where
  ctrl : Nat → Nat → CtrlIo
  drains : Nat → List (List Bytes)
  allocated : Bool
  heap : Nat → UInt8

def Link.clientEnv (link : Link) (seed : Option Bytes) : ClientEnv where
  seed := seed
  ctrl := link.ctrl
  drains := link.drains
  allocated := link.allocated
  heap := link.heap
  outfileOpens := true

section Download

variable (env : Env)

/-- Carrying out the events of a run; `false` when the output file cannot be
opened, which ends the run. -/
def runEvents (sidecar : Option Path) (dest : Path) :
    List ClientEvent → Sidecar → Prog Target Bool
  | [], _ => pure true
  | .openOut _ :: rest, sc => do
      if ← fopenWrite env dest then runEvents sidecar dest rest sc else return false
  | .writeOut payload :: rest, sc => do
      let _ ← fwriteAll env dest payload
      fcloseWritten env dest
      runEvents sidecar dest rest sc
  | event :: rest, sc => do
      match sidecar with
      | none => runEvents sidecar dest rest sc
      | some path => do
          let sc ← hookEvent env path sc event
          runEvents sidecar dest rest sc

/-- Where a pass keeps its sidecar; `made` says that the state directory is
there. -/
def sidecarPath (made : Bool) (app : Bytes) : Option Path :=
  if made then sessionStateSvuPath app else none

def restoreSeed (sidecar : Option Path) (allocated : Bool) :
    Prog Target (Option Bytes × Sidecar) :=
  match sidecar with
  | none => pure (none, .closed)
  | some path => sidecarRestore env path allocated

def clientConfig (mtu : Nat) : ClientConfig :=
  let mtu := mtu % 2 ^ 16
  ⟨svuBlockSize, if mtu ≠ 0 then UInt32.ofNat mtu else 1024, svuMaxRounds⟩

/-- `svu_client_run_hooked` with the sidecar hooks. -/
def clientRun (link : Link) (cfg : ClientConfig) (sidecar : Option Path) (dest : Path) :
    Prog Target Bool := do
  let (seed, sc) ← restoreSeed env sidecar link.allocated
  let run := svuClientRunHooked cfg (link.clientEnv seed)
  let opened ← runEvents env sidecar dest run.2 sc
  return opened && run.1 == 0

def sizeMatches (dest : Path) (expectedSize : Nat) : Prog Target Bool := do
  if expectedSize = 0 then return true
  else
    match ← statFile env dest with
    | none => return false
    | some st => return st.data.length % 2 ^ 32 = expectedSize

def svuDownloadFile (link : Link) (serverNode : Nat) (dest : Path) (expectedSize : Nat)
    (app : Bytes) (mtu : Nat) : Prog Target Bool := do
  if dest = [] then return false
  else if serverNode > 0xFFFF then return false
  else
    let made ← mkdirP env sessionStateDir
    if ← clientRun env link (clientConfig mtu) (sidecarPath made app) dest then
      sizeMatches env dest expectedSize
    else return false

end Download

section Frames

variable {env : Env} {W : Path → Prop} {path dest : Path}

theorem openUpdate_spares (p : Path) : Spares W (openUpdate env p) :=
  .observe fun _ _ => rfl

theorem pread_spares (p : Path) (offset len : Nat) : Spares W (pread env p offset len) := by
  apply Spares.observe
  intro n s
  dsimp only
  split <;> rfl

theorem openCreate_spares (h : W path) : Spares W (openCreate env path) := by
  apply Spares.call
  intro n s t ht q hq
  split at ht
  · rw [List.mem_singleton.mp ht]
    exact Target.lookup_put_ne (fun heq => hq (heq ▸ h))
  · cases ht

theorem pwrite_spares (h : W path) (offset : Nat) (bytes : Bytes) :
    Spares W (pwrite env path offset bytes) := by
  apply Spares.call
  intro n s t ht q hq
  have hne : q ≠ path := fun heq => hq (heq ▸ h)
  split at ht
  · cases ht
  · rw [List.mem_singleton.mp ht]
    exact Target.lookup_put_ne hne
  · rw [List.mem_singleton.mp ht]
    exact Target.lookup_put_ne hne

theorem ftruncate_spares (h : W path) : Spares W (ftruncate env path) := by
  apply Spares.call
  intro n s t ht q hq
  split at ht
  · rw [List.mem_singleton.mp ht]
    exact Target.lookup_put_ne (fun heq => hq (heq ▸ h))
  · cases ht

theorem sidecarRestore_spares (h : W path) (allocated : Bool) :
    Spares W (sidecarRestore env path allocated) := by
  unfold sidecarRestore
  refine .bind (openUpdate_spares path) fun _ => .ite ?_ (.pure _)
  refine .bind (pread_spares path _ _) fun hdr => .ite ?_ ?_
  · refine .ite (.bind (pread_spares path _ _) fun got => ?_) (.pure _)
    cases got with
    | none => exact .bind (unlink_spares h) fun _ => .pure _
    | some got => exact .pure _
  · exact .bind (unlink_spares h) fun _ => .pure _

theorem sidecarWriteHeader_spares (h : W path) (total block : Nat) :
    Spares W (sidecarWriteHeader env path total block) := by
  unfold sidecarWriteHeader
  exact .bind (pwrite_spares h _ _) fun _ => .ite (.pure _) (.pure _)

theorem hookEvent_spares (h : W path) (sc : Sidecar) (event : ClientEvent) :
    Spares W (hookEvent env path sc event) := by
  cases event with
  | metaHook total block buffer =>
      change Spares W (sidecarMeta env path sc total block)
      unfold sidecarMeta
      refine .ite ?_ (.ite ?_ (sidecarWriteHeader_spares h _ _))
      · exact .bind (openCreate_spares h) fun _ =>
          .ite (sidecarWriteHeader_spares h _ _) (.pure _)
      · exact .bind (ftruncate_spares h) fun _ => sidecarWriteHeader_spares h _ _
  | dataHook offset payload buffer =>
      change Spares W (sidecarData env path sc offset payload)
      unfold sidecarData
      refine .ite (.pure _) (.bind (pwrite_spares h _ _) fun _ => .ite (.pure _) ?_)
      exact .bind (unlink_spares h) fun _ => .pure _
  | completeHook =>
      change Spares W (sidecarComplete env path sc)
      unfold sidecarComplete
      exact .bind (unlink_spares h) fun _ => .pure _
  | _ => exact .pure _

theorem runEvents_spares {sidecar : Option Path} (hdest : W dest)
    (hside : ∀ path, sidecar = some path → W path) (events : List ClientEvent) :
    ∀ sc, Spares W (runEvents env sidecar dest events sc) := by
  induction events with
  | nil =>
      intro sc
      exact .pure _
  | cons event rest ih =>
      intro sc
      have hhook : Spares W (match sidecar with
          | none => runEvents env sidecar dest rest sc
          | some path => do
              let sc ← hookEvent env path sc event
              runEvents env sidecar dest rest sc) := by
        cases sidecar with
        | none => exact ih sc
        | some path =>
            exact .bind (hookEvent_spares (hside path rfl) sc event) fun sc => ih sc
      cases event with
      | openOut ok =>
          exact .bind (fopenWrite_spares hdest) fun _ => .ite (ih sc) (.pure _)
      | writeOut payload =>
          refine .bind (fwriteAll_spares hdest _) fun _ => ?_
          exact .bind (fcloseWritten_spares hdest) fun _ => ih sc
      | request round attempt req sent => exact hhook
      | metaHook total block buffer => exact hhook
      | dataHook offset payload buffer => exact hhook
      | verdict v => exact hhook
      | completeHook => exact hhook

theorem sizeMatches_spares (expectedSize : Nat) :
    Spares W (sizeMatches env dest expectedSize) := by
  unfold sizeMatches
  refine .ite (.pure _) (.bind (statFile_spares dest) fun st => ?_)
  cases st with
  | none => exact .pure _
  | some st => exact .pure _

/-- A download writes its destination and the sidecar of the app. -/
theorem svuDownloadFile_spares {app : Bytes} (hdest : W dest)
    (hside : ∀ path, sessionStateSvuPath app = some path → W path) (link : Link)
    (serverNode expectedSize mtu : Nat) :
    Spares W (svuDownloadFile env link serverNode dest expectedSize app mtu) := by
  have hrun : ∀ (cfg : ClientConfig) (sidecar : Option Path),
      (∀ path, sidecar = some path → W path) →
      Spares W (clientRun env link cfg sidecar dest) := by
    intro cfg sidecar hsidecar
    unfold clientRun
    refine .bind ?_ fun seed => ?_
    · cases sidecar with
      | none => exact .pure _
      | some path => exact sidecarRestore_spares (hsidecar path rfl) _
    · exact .bind (runEvents_spares hdest hsidecar _ _) fun _ => .pure _
  unfold svuDownloadFile
  refine .ite (.pure _) (.ite (.pure _) (.bind (mkdirP_spares _) fun made => ?_))
  refine .bind (hrun _ _ ?_) fun _ => .ite (sizeMatches_spares _) (.pure _)
  intro path hpath
  unfold sidecarPath at hpath
  split at hpath
  · exact hside path hpath
  · cases hpath

theorem svuDownloadFile_touches {app : Bytes} (hdest : W dest)
    (hside : ∀ path, sessionStateSvuPath app = some path → W path) (link : Link)
    (serverNode expectedSize mtu : Nat) :
    Touches W (svuDownloadFile env link serverNode dest expectedSize app mtu) :=
  (svuDownloadFile_spares hdest hside link serverNode expectedSize mtu).touches

end Frames

section Running

variable {env : Env} {path dest : Path}

theorem sidecarWriteHeader_total (total block : Nat) :
    Prog.Total (sidecarWriteHeader env path total block) :=
  .bind (.call _) fun _ => .ite (.pure _) (.pure _)

theorem hookEvent_total (sc : Sidecar) (event : ClientEvent) :
    Prog.Total (hookEvent env path sc event) := by
  cases event with
  | metaHook total block buffer =>
      change Prog.Total (sidecarMeta env path sc total block)
      unfold sidecarMeta
      refine .ite ?_ (.ite ?_ (sidecarWriteHeader_total _ _))
      · exact .bind (.call _) fun _ => .ite (sidecarWriteHeader_total _ _) (.pure _)
      · exact .bind (.call _) fun _ => sidecarWriteHeader_total _ _
  | dataHook offset payload buffer =>
      change Prog.Total (sidecarData env path sc offset payload)
      unfold sidecarData
      refine .ite (.pure _) (.bind (.call _) fun _ => .ite (.pure _) ?_)
      exact .bind (.call _) fun _ => .pure _
  | completeHook => exact .bind (.call _) fun _ => .pure _
  | _ => exact .pure _

theorem runEvents_total (sidecar : Option Path) (events : List ClientEvent) :
    ∀ sc, Prog.Total (runEvents env sidecar dest events sc) := by
  induction events with
  | nil =>
      intro sc
      exact .pure _
  | cons event rest ih =>
      intro sc
      have hhook : Prog.Total (match sidecar with
          | none => runEvents env sidecar dest rest sc
          | some path => do
              let sc ← hookEvent env path sc event
              runEvents env sidecar dest rest sc) := by
        cases sidecar with
        | none => exact ih sc
        | some path => exact .bind (hookEvent_total sc event) fun sc => ih sc
      cases event with
      | openOut ok => exact .bind (.call _) fun _ => .ite (ih sc) (.pure _)
      | writeOut payload => exact .bind (.call _) fun _ => .bind (.call _) fun _ => ih sc
      | request round attempt req sent => exact hhook
      | metaHook total block buffer => exact hhook
      | dataHook offset payload buffer => exact hhook
      | verdict v => exact hhook
      | completeHook => exact hhook

theorem restoreSeed_total (sidecar : Option Path) (allocated : Bool) :
    Prog.Total (restoreSeed env sidecar allocated) := by
  cases sidecar with
  | none => exact .pure _
  | some path =>
      change Prog.Total (sidecarRestore env path allocated)
      unfold sidecarRestore
      refine .bind (.call _) fun _ => .ite ?_ (.pure _)
      refine .bind (.call _) fun hdr => .ite (.ite (.bind (.call _) fun got => ?_) (.pure _)) ?_
      · cases got with
        | none => exact .bind (.call _) fun _ => .pure _
        | some got => exact .pure _
      · exact .bind (.call _) fun _ => .pure _

/-- A download always returns. -/
theorem svuDownloadFile_total (link : Link) (serverNode expectedSize mtu : Nat) (app : Bytes) :
    Prog.Total (svuDownloadFile env link serverNode dest expectedSize app mtu) := by
  have hsize : Prog.Total (sizeMatches env dest expectedSize) := by
    unfold sizeMatches
    refine .ite (.pure _) (.bind (.call _) fun st => ?_)
    cases st with
    | none => exact .pure _
    | some st => exact .pure _
  unfold svuDownloadFile clientRun
  refine .ite (.pure _) (.ite (.pure _) (.bind (mkdirP_total _) fun made => ?_))
  refine .bind (.bind (restoreSeed_total _ _) fun seed => ?_) fun _ => .ite hsize (.pure _)
  exact .bind (runEvents_total _ _ _) fun _ => .pure _

/-- Events other than writes of the output file are over after their hook. -/
theorem runEvents_passes {P : Target → Prop} {sidecar : Option Path} {event : ClientEvent}
    {rest : List ClientEvent} (hopen : ∀ ok, event ≠ .openOut ok)
    (hwrite : ∀ payload, event ≠ .writeOut payload)
    (hrest : ∀ sc n s, Prog.Passes (runEvents env sidecar dest rest sc) P n s)
    (sc : Sidecar) (n : Nat) (s : Target) :
    Prog.Passes (runEvents env sidecar dest (event :: rest) sc) P n s := by
  have hhook : Prog.Passes (match sidecar with
      | none => runEvents env sidecar dest rest sc
      | some path => do
          let sc ← hookEvent env path sc event
          runEvents env sidecar dest rest sc) P n s := by
    cases sidecar with
    | none => exact hrest sc n s
    | some path => exact .after (hookEvent_total sc event) fun sc m t => hrest sc m t
  cases event with
  | openOut ok => exact absurd rfl (hopen ok)
  | writeOut payload => exact absurd rfl (hwrite payload)
  | request round attempt req sent => exact hhook
  | metaHook total block buffer => exact hhook
  | dataHook offset payload buffer => exact hhook
  | verdict v => exact hhook
  | completeHook => exact hhook

/-- Without a sidecar on disk there is no seed. -/
theorem restoreSeed_ends {sidecar : Option Path} {allocated : Bool} {n : Nat} {s : Target}
    (h : ∀ path, sidecar = some path → s.fs.lookup path = none) :
    Prog.Ends (restoreSeed env sidecar allocated)
      (fun r _ t => r = (none, .closed) ∧ t = s) n s := by
  cases sidecar with
  | none =>
      rw [restoreSeed, Prog.ends_pure]
      exact ⟨rfl, rfl⟩
  | some path =>
      change Prog.Ends (sidecarRestore env path allocated) _ n s
      rw [sidecarRestore, Prog.ends_bind, openUpdate, Prog.ends_call, h path rfl]
      simp

end Running

end SatDeploy.Agent
