import SatDeploy.Agent.BackupManager

/-!
The metadata manager, `satdeploy-agent/src/app_metadata.c`: a cache of at most
64 entries, read once from `apps.json` by a small parser and written back in
full on every save. Text positions are the rest of the buffer; its end is the
terminating NUL. The parser runs into a null pointer when a key or a value is
not quoted, and then the process dies.
-/

namespace SatDeploy.Agent

open Lib

def metadataFile : Path := ascii "/opt/satdeploy/apps.json"
def metadataDir : Path := ascii "/opt/satdeploy"
def maxApps : Nat := 64

section Parser

def jsonSpace (c : UInt8) : Bool := c = 32 || c = 9 || c = 10 || c = 13

def skipWs (p : Bytes) : Bytes := p.dropWhile jsonSpace

/-- `*p`. -/
def peek (p : Bytes) : UInt8 := p.headD 0

/-- The loop of `parse_string`: the characters stored and what follows them;
`room` counts the characters that still fit. -/
def stringBody : Nat → Bytes → Bytes × Bytes
  | 0, p => ([], p)
  | _ + 1, [] => ([], [])
  | room + 1, c :: rest =>
      if c = 0 ∨ c = '"'.toUInt8 then ([], c :: rest)
      else
        match rest with
        | d :: rest' =>
            if c = '\\'.toUInt8 ∧ d ≠ 0 then
              let out := stringBody room rest'
              (d :: out.1, out.2)
            else
              let out := stringBody room rest
              (c :: out.1, out.2)
        | [] => ([c], [])

/-- The string and the position after it; `none` is the null pointer. -/
def parseString (p : Bytes) (outSize : Nat) : Option (Bytes × Bytes) :=
  let p := skipWs p
  if peek p ≠ '"'.toUInt8 then none
  else
    let out := stringBody (outSize - 1) (p.drop 1)
    some (out.1, if peek out.2 = '"'.toUInt8 then out.2.drop 1 else out.2)

def AppEntry.setField (entry : AppEntry) (key value : Bytes) : AppEntry :=
  if key = ascii "remote_path" then { entry with remotePath := clip maxPathLen value }
  else if key = ascii "file_hash" then { entry with fileHash := clip 65 value }
  else if key = ascii "deployed_at" then { entry with deployedAt := clip 32 value }
  else entry

/-- The field loop of `load_metadata`: the entry and the position where it
stops, the null pointer included. -/
def parseFields : Nat → Bytes → AppEntry → AppEntry × Option Bytes
  | 0, p, entry => (entry, some p)
  | fuel + 1, p, entry =>
      if peek p = 0 ∨ peek p = '\x7d'.toUInt8 then (entry, some p)
      else
        let p := skipWs p
        if peek p = ','.toUInt8 then parseFields fuel (p.drop 1) entry
        else if peek p = '\x7d'.toUInt8 then (entry, some p)
        else
          match parseString p 64 with
          | none => (entry, none)
          | some (key, p) =>
              let p := skipWs p
              if peek p ≠ ':'.toUInt8 then (entry, some p)
              else
                match parseString (p.drop 1) maxPathLen with
                | none => (entry, none)
                | some (value, p) => parseFields fuel p (entry.setField key value)

/-- The entry loop of `load_metadata`; `none` is the null pointer read. -/
def parseEntries : Nat → Bytes → List AppEntry → Option (List AppEntry)
  | 0, _, entries => some entries
  | fuel + 1, p, entries =>
      if peek p = 0 ∨ entries.length ≥ maxApps then some entries
      else
        let p := skipWs p
        if peek p = '\x7d'.toUInt8 then some entries
        else if peek p = ','.toUInt8 then parseEntries fuel (p.drop 1) entries
        else
          match parseString p maxAppNameLen with
          | none => some entries
          | some (appName, p) =>
              let p := skipWs p
              if peek p ≠ ':'.toUInt8 then some entries
              else
                let p := skipWs (p.drop 1)
                if peek p ≠ '\x7b'.toUInt8 then some entries
                else
                  let fields := parseFields (p.length + 1) (p.drop 1) ⟨appName, [], [], []⟩
                  match fields.2 with
                  | none => none
                  | some p =>
                      let p := if peek p = '\x7d'.toUInt8 then p.drop 1 else p
                      parseEntries fuel p (entries ++ [fields.1])

def parseMetadata (json : Bytes) : Option (List AppEntry) :=
  let p := skipWs json
  if peek p ≠ '\x7b'.toUInt8 then some []
  else parseEntries (json.length + 1) (p.drop 1) []

end Parser

/-- The text `save_metadata` writes. -/
def renderEntry (e : AppEntry) (last : Bool) : Bytes :=
  ascii "  \"" ++ e.appName ++ ascii "\": \x7b\n" ++
  ascii "    \"remote_path\": \"" ++ e.remotePath ++ ascii "\",\n" ++
  ascii "    \"file_hash\": \"" ++ e.fileHash ++ ascii "\",\n" ++
  ascii "    \"deployed_at\": \"" ++ e.deployedAt ++ ascii "\"\n" ++
  ascii "  \x7d" ++ (if last then [] else ascii ",") ++ ascii "\n"

def renderEntries : List AppEntry → Bytes
  | [] => []
  | [e] => renderEntry e true
  | e :: rest => renderEntry e false ++ renderEntries rest

def renderMetadata (entries : List AppEntry) : Bytes :=
  ascii "\x7b\n" ++ renderEntries entries ++ ascii "\x7d\n"

/-- `%04d-%02d-%02dT%02d:%02d:%02d`. -/
def isoTime (tm : Tm) : Bytes :=
  digits 4 tm.year ++ ascii "-" ++ digits 2 (tm.mon.val + 1) ++ ascii "-" ++ digits 2 tm.day ++
    ascii "T" ++ digits 2 tm.hour ++ ascii ":" ++ digits 2 tm.min ++ ascii ":" ++
    digits 2 tm.sec

section Programs

variable (env : Env)

def setCache (entries : List AppEntry) : Prog Target Unit :=
  .update fun s => { s with cache := some entries }

/-- The part of `load_metadata` that reads the file: its text, if the file can
be had and its size is accepted. -/
def readMetadata : Prog Target (Option Bytes) := do
  match ← fopenRead env metadataFile with
  | none => return none
  | some data =>
      if data.length = 0 ∨ data.length > 1024 * 1024 then return none
      else
        let (got, clean) ← freadAll env metadataFile data
        return if clean then some got else none

/-- The entries in the cache, loaded on first use. -/
def loadMetadata : Prog Target (List AppEntry) := do
  match ← Prog.read (fun s : Target => s.cache) with
  | some entries => return entries
  | none =>
      setCache []
      match ← readMetadata env with
      | none => return []
      | some json =>
          match parseMetadata json with
          | none => Prog.die
          | some entries => do
              setCache entries
              return entries

def saveMetadata (entries : List AppEntry) : Prog Target Bool := do
  if ← mkdir env metadataDir then
    if ← fopenWrite env metadataFile then
      let _ ← fwriteAll env metadataFile (renderMetadata entries)
      fcloseWritten env metadataFile
      return true
    else return false
  else return false

def findApp (entries : List AppEntry) (app : Bytes) : Option AppEntry :=
  entries.find? fun e => e.appName = app

/-- The cache with the entry of `app` brought up to date; `none` when a new
entry does not fit. -/
def updateEntry (entries : List AppEntry) (app : Bytes) (change : AppEntry → AppEntry) :
    Option (List AppEntry) :=
  match entries.findIdx? (fun e => e.appName = app) with
  | some i => some (entries.modify i change)
  | none =>
      if entries.length ≥ maxApps then none
      else some (entries ++ [change ⟨clip maxAppNameLen app, [], [], []⟩])

def appMetadataSave (app remote hash : Bytes) : Prog Target Bool := do
  let entries ← loadMetadata env
  let now ← timeNow env
  let change : AppEntry → AppEntry := fun e =>
    { e with
      remotePath := clip maxPathLen remote
      fileHash := clip 65 hash
      deployedAt := clip 32 (isoTime (env.localtime now)) }
  match updateEntry entries app change with
  | none => return false
  | some entries => do
      setCache entries
      saveMetadata env entries

def appMetadataGet (app : Bytes) : Prog Target (Option AppEntry) := do
  let entries ← loadMetadata env
  return findApp entries app

end Programs

section Frames

variable {env : Env} {W : Path → Prop}

theorem setCache_spares (entries : List AppEntry) : Spares W (setCache entries) :=
  .update fun _ => rfl

theorem readMetadata_spares : Spares W (readMetadata env) := by
  unfold readMetadata
  refine .bind (fopenRead_spares _) fun data => ?_
  cases data with
  | none => exact .pure _
  | some data =>
      exact .ite (.pure _) (.bind (freadAll_spares _ data) fun _ => .pure _)

theorem loadMetadata_spares : Spares W (loadMetadata env) := by
  unfold loadMetadata
  refine .bind (.read _) fun cache => ?_
  cases cache with
  | some entries => exact .pure _
  | none =>
      refine .bind (setCache_spares _) fun _ => ?_
      refine .bind readMetadata_spares fun json => ?_
      cases json with
      | none => exact .pure _
      | some json =>
          dsimp only
          split
          · exact .die
          · exact .bind (setCache_spares _) fun _ => .pure _

theorem saveMetadata_spares (h : W metadataFile) (entries : List AppEntry) :
    Spares W (saveMetadata env entries) := by
  unfold saveMetadata
  refine .bind (mkdir_spares _) fun _ => .ite ?_ (.pure _)
  refine .bind (fopenWrite_spares h) fun _ => .ite ?_ (.pure _)
  refine .bind (fwriteAll_spares h _) fun _ => ?_
  exact .bind (fcloseWritten_spares h) fun _ => .pure _

theorem appMetadataSave_spares (h : W metadataFile) (app remote hash : Bytes) :
    Spares W (appMetadataSave env app remote hash) := by
  unfold appMetadataSave
  refine .bind loadMetadata_spares fun entries => ?_
  refine .bind timeNow_spares fun now => ?_
  dsimp only
  split
  · exact .pure _
  · exact .bind (setCache_spares _) fun _ => saveMetadata_spares h _

theorem appMetadataSave_touches (h : W metadataFile) (app remote hash : Bytes) :
    Touches W (appMetadataSave env app remote hash) :=
  (appMetadataSave_spares h app remote hash).touches

end Frames

theorem saveMetadata_total (env : Env) (entries : List AppEntry) :
    Prog.Total (saveMetadata env entries) := by
  unfold saveMetadata
  refine .bind (.call _) fun _ => .ite ?_ (.pure _)
  refine .bind (.call _) fun _ => .ite ?_ (.pure _)
  exact .bind (.call _) fun _ => .bind (.call _) fun _ => .pure _

/-- Saving metadata dies only where loading it dies. -/
theorem appMetadataSave_ends {env : Env} {n : Nat} {s : Target}
    (hload : Prog.Ends (loadMetadata env) (fun _ _ _ => True) n s) (app remote hash : Bytes) :
    Prog.Ends (appMetadataSave env app remote hash) (fun _ _ _ => True) n s := by
  unfold appMetadataSave
  rw [Prog.ends_bind]
  refine hload.imp fun entries m t _ => ?_
  rw [Prog.ends_bind]
  refine (Prog.Total.call _ _ _).imp fun now m' t' _ => ?_
  dsimp only
  split
  · exact Prog.Total.pure _ _ _
  · exact Prog.Total.bind (.update _) (fun _ => saveMetadata_total env _) _ _

theorem loadMetadata_cached {env : Env} {n : Nat} {s : Target} {entries : List AppEntry}
    (hcache : s.cache = some entries) :
    Prog.Ends (loadMetadata env) (fun _ _ _ => True) n s := by
  rw [loadMetadata, Prog.ends_bind, Prog.ends_read, hcache, Prog.ends_pure]
  trivial

end SatDeploy.Agent
