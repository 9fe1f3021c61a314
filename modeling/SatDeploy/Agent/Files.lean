import Mathlib.Data.List.AList
import SatDeploy.Lib.Bytes
import SatDeploy.Lib.Crash
import SatDeploy.Lib.Splice

/-!
The agent's world: the regular files of the target by path, the metadata cache
and the upload session it holds in memory, and the C library calls it makes.
Two paths name one file only if they are the same string. Any call may fail;
a failing transfer stops after some of its bytes. Reads and writes through
stdio go byte by byte, so a kill may leave any prefix, and the tail of a
buffered file may be lost when it is closed. The stream of an upload is open
over many requests; what it holds back is not in the file yet.
-/

namespace SatDeploy.Agent

open Lib

abbrev Path := Bytes

structure File where
  data : Bytes
  mode : Nat
  mtime : Nat
  deriving DecidableEq, Repr

abbrev Fs := AList (fun _ : Path => File)

/-- `app_entry_t`. -/
structure AppEntry where
  appName : Bytes
  remotePath : Bytes
  fileHash : Bytes
  deployedAt : Bytes
  deriving DecidableEq, Repr

/-- `upload_session_t`; `tempOpen` says that `temp_file` is not null, and `pending` is
what its stream was given and holds back. -/
structure UploadSession where
  active : Bool
  appName : Bytes
  remotePath : Bytes
  tempPath : Bytes
  expectedChecksum : Bytes
  expectedSize : Nat
  receivedSize : Nat
  nextChunk : Nat
  totalChunks : Nat
  fileMode : Nat
  tempOpen : Bool
  pending : Bytes
  deriving DecidableEq, Repr

def UploadSession.zero : UploadSession :=
  ⟨false, [], [], [], [], 0, 0, 0, 0, 0, false, []⟩

/-- `cache` is `none` while `cache_loaded` is zero. -/
structure Target where
  fs : Fs
  cache : Option (List AppEntry)
  session : UploadSession

instance neZeroYears : NeZero 10000 := ⟨by decide⟩

/-- The days of a month, counted from 0 as in `tm_mon`. -/
def monthDays (year mon : Nat) : Nat :=
  match mon with
  | 1 => if year % 4 = 0 ∧ (year % 100 ≠ 0 ∨ year % 400 = 0) then 29 else 28
  | 3 | 5 | 8 | 10 => 30
  | _ => 31

/-- Broken-down time, a day of the calendar with a time of that day. -/
structure Tm where
  year : Fin 10000
  mon : Fin 12
  day : Fin 32
  hour : Fin 24
  min : Fin 60
  sec : Fin 61
  day_exists : 1 ≤ day.val ∧ day.val ≤ monthDays year mon
  deriving DecidableEq, Repr

/-- The calls that can fail. -/
inductive Op where
  | access (path : Path)
  | stat (path : Path)
  | openRead (path : Path)
  | openWrite (path : Path)
  | openUpdate (path : Path)
  | read (path : Path)
  | write (path : Path)
  | close (path : Path)
  | truncate (path : Path)
  | unlink (path : Path)
  | rename (source target : Path)
  | chmod (path : Path)
  | mkdir (path : Path)
  | opendir (path : Path)
  deriving DecidableEq, Repr

/-- The operating system. `fault n op` says whether call number `n`, made as
`op`, fails, and after how many bytes; `flushed n` is how many of the bytes it
holds a stream passes on at call `n`; `order` is the order of `readdir`. -/
structure Env where
  fault : Nat → Op → Option Nat
  flushed : Nat → Nat := fun _ => 0
  clock : Nat → Nat
  localtime : Nat → Tm
  order : List Bytes → List Bytes
  order_perm : ∀ names, (order names).Perm names

/-- An operating system that finishes what it begins: a file that is open is
read, written and closed without a failure, and a file that is there can be
removed. -/
structure Env.Finishes (env : Env) : Prop where
  read : ∀ n p, env.fault n (.read p) = none
  write : ∀ n p, env.fault n (.write p) = none
  close : ∀ n p, env.fault n (.close p) = none
  unlink : ∀ n p, env.fault n (.unlink p) = none

theorem id_perm (names : List Bytes) : (id names).Perm names := .refl _

/-- An operating system on which nothing fails, at the time `tm`. -/
def calmEnv (tm : Tm) : Env where
  fault := fun _ _ => none
  clock := fun _ => 0
  localtime := fun _ => tm
  order := id
  order_perm := id_perm

theorem calmEnv_finishes (tm : Tm) : (calmEnv tm).Finishes :=
  ⟨fun _ _ => rfl, fun _ _ => rfl, fun _ _ => rfl, fun _ _ => rfl⟩

section State

def Target.content (s : Target) (p : Path) : Option Bytes :=
  (s.fs.lookup p).map (·.data)

def Target.put (s : Target) (p : Path) (f : File) : Target :=
  { s with fs := s.fs.insert p f }

def Target.remove (s : Target) (p : Path) : Target :=
  { s with fs := s.fs.erase p }

variable {s : Target} {p q : Path} {f : File}

theorem Target.content_of_lookup (h : s.fs.lookup p = some f) : s.content p = some f.data := by
  simp [Target.content, h]

@[simp] theorem Target.content_put : (s.put p f).content p = some f.data := by
  simp [Target.content, Target.put]

theorem Target.content_put_ne (h : q ≠ p) : (s.put p f).content q = s.content q := by
  simp [Target.content, Target.put, h]

@[simp] theorem Target.content_remove : (s.remove p).content p = none := by
  simp [Target.content, Target.remove]

theorem Target.content_remove_ne (h : q ≠ p) : (s.remove p).content q = s.content q := by
  simp [Target.content, Target.remove, h]

@[simp] theorem Target.lookup_put : (s.put p f).fs.lookup p = some f := by
  simp [Target.put]

theorem Target.lookup_put_ne (h : q ≠ p) : (s.put p f).fs.lookup q = s.fs.lookup q := by
  simp [Target.put, h]

@[simp] theorem Target.lookup_remove : (s.remove p).fs.lookup p = none := by
  simp [Target.remove]

theorem Target.lookup_remove_ne (h : q ≠ p) : (s.remove p).fs.lookup q = s.fs.lookup q := by
  simp [Target.remove, h]

theorem Target.content_congr {t : Target} (h : t.fs.lookup p = s.fs.lookup p) :
    t.content p = s.content p := by
  unfold Target.content
  rw [h]

end State

/-- The components of a path, with an empty one before the slash of an absolute path. -/
def components (p : Path) : List Bytes := p.splitOn '/'.toUInt8

/-- A path a file can have as it is spelled: absolute, and every component a name of 1
to 255 bytes. -/
def Ordinary (p : Path) : Prop :=
  (components p).head? = some [] ∧ (components p).length ≠ 1 ∧
    ∀ name ∈ (components p).tail, name ≠ [] ∧ name ≠ ascii "." ∧ name ≠ ascii ".." ∧
      name.length ≤ 255

instance (p : Path) : Decidable (Ordinary p) :=
  inferInstanceAs (Decidable (_ ∧ _ ∧ ∀ name ∈ (components p).tail, _))

/-- The name of `p` inside the directory `dir`. -/
def nameIn (dir p : Path) : Option Bytes :=
  if (dir ++ ascii "/").isPrefixOf p then
    let name := p.drop (dir.length + 1)
    if name = [] ∨ name.contains '/'.toUInt8 then none else some name
  else none

/-- The names of the files in `dir`. -/
def Target.namesIn (s : Target) (dir : Path) : List Bytes :=
  s.fs.keys.filterMap (nameIn dir)

theorem nameIn_eq_some {dir p : Path} {name : Bytes} (h : nameIn dir p = some name) :
    p = dir ++ ascii "/" ++ name := by
  unfold nameIn at h
  split at h
  next hinitial =>
    obtain ⟨rest, rfl⟩ := List.isPrefixOf_iff_prefix.mp hinitial
    dsimp only at h
    split at h
    · cases h
    · have hlen : dir.length + 1 = (dir ++ ascii "/").length := by
        rw [List.length_append]
        rfl
      rw [hlen, List.drop_left] at h
      rw [Option.some.inj h]
  · cases h

theorem Target.mem_namesIn {s : Target} {dir : Path} {name : Bytes} :
    name ∈ s.namesIn dir ↔ ∃ p data, nameIn dir p = some name ∧ s.content p = some data := by
  unfold Target.namesIn
  rw [List.mem_filterMap]
  constructor
  · rintro ⟨p, hp, hname⟩
    obtain ⟨f, hlookup⟩ := Option.isSome_iff_exists.mp (AList.lookup_isSome.mpr hp)
    exact ⟨p, f.data, hname, Target.content_of_lookup hlookup⟩
  · rintro ⟨p, data, hname, hdata⟩
    refine ⟨p, ?_, hname⟩
    apply AList.lookup_isSome.mp
    cases hlookup : s.fs.lookup p with
    | none => simp [Target.content, hlookup] at hdata
    | some f => rfl

section Calls

variable (env : Env)

def Env.ok (n : Nat) (op : Op) : Bool := (env.fault n op).isNone

def access (p : Path) : Prog Target Bool :=
  .call fun n s => (env.ok n (.access p) && (s.fs.lookup p).isSome, [])

def statFile (p : Path) : Prog Target (Option File) :=
  .call fun n s => (if env.ok n (.stat p) then s.fs.lookup p else none, [])

/-- `fopen(path, "rb")`; the answer is what the stream will read. -/
def fopenRead (p : Path) : Prog Target (Option Bytes) :=
  .call fun n s => (if env.ok n (.openRead p) then s.content p else none, [])

/-- An `fread` loop to the end of the stream: the bytes it delivers, and
whether it ended without `ferror`. -/
def freadAll (p : Path) (data : Bytes) : Prog Target (Bytes × Bool) :=
  .call fun n _ =>
    match env.fault n (.read p) with
    | none => ((data, true), [])
    | some k => ((data.take k, false), [])

/-- The mode of a file that is opened for writing. -/
def Target.modeOf (s : Target) (p : Path) : Nat :=
  match s.fs.lookup p with
  | some f => f.mode
  | none => 0o644

/-- `fopen(path, "wb")`: the file is created or emptied. -/
def fopenWrite (p : Path) : Prog Target Bool :=
  .call fun n s =>
    if env.ok n (.openWrite p) then
      (true, [s.put p ⟨[], s.modeOf p, env.clock n⟩])
    else (false, [])

/-- `s` with `bytes` added at the end of file `p`. -/
def Target.append (s : Target) (p : Path) (bytes : Bytes) (now : Nat) : Target :=
  match s.fs.lookup p with
  | some f => s.put p { f with data := f.data ++ bytes, mtime := now }
  | none => s

/-- An `fwrite` loop; after a failure the file holds the bytes before it, and a
failure after the last byte is none. -/
def fwriteAll (p : Path) (bytes : Bytes) : Prog Target Bool :=
  .call fun n s =>
    match env.fault n (.write p) with
    | none => (true, (List.range bytes.length).map fun i =>
        s.append p (bytes.take (i + 1)) (env.clock n))
    | some k => (bytes.length ≤ k, (List.range (min k bytes.length)).map fun i =>
        s.append p (bytes.take (i + 1)) (env.clock n))

/-- `fclose` on a stream that was written: a failing flush loses the tail, and
no caller looks at the result. -/
def fcloseWritten (p : Path) : Prog Target Unit :=
  .call fun n s =>
    match env.fault n (.close p), s.fs.lookup p with
    | some k, some f => ((), [s.put p { f with data := f.data.take k }])
    | _, _ => ((), [])

/-- `fwrite` on a stream that stays open and holds `pending` back: whether it
succeeded, and what the stream holds back now. A failure is one of passing on. -/
def fwriteBuffered (p : Path) (pending bytes : Bytes) : Prog Target (Bool × Bytes) :=
  .call fun n s =>
    let held := pending ++ bytes
    let grown := fun k => (List.range (min k held.length)).map fun i =>
      s.append p (held.take (i + 1)) (env.clock n)
    match env.fault n (.write p) with
    | none => ((true, held.drop (env.flushed n)), grown (env.flushed n))
    | some k => ((held.length ≤ k, held.drop k), grown k)

/-- `fclose` on a stream that holds `pending` back. -/
def fcloseBuffered (p : Path) (pending : Bytes) : Prog Target Unit := do
  let _ ← fwriteAll env p pending
  fcloseWritten env p

def unlink (p : Path) : Prog Target Bool :=
  .call fun n s =>
    if env.ok n (.unlink p) && (s.fs.lookup p).isSome then (true, [s.remove p])
    else (false, [])

def rename (p q : Path) : Prog Target Bool :=
  .call fun n s =>
    match env.ok n (.rename p q), s.fs.lookup p with
    | true, some f =>
        if p = q then (true, []) else (true, [(s.remove p).put q f])
    | _, _ => (false, [])

def chmod (p : Path) (mode : Nat) : Prog Target Unit :=
  .call fun n s =>
    match env.ok n (.chmod p), s.fs.lookup p with
    | true, some f => ((), [s.put p { f with mode := mode }])
    | _, _ => ((), [])

/-- `mkdir`, which counts a directory that is already there as made. -/
def mkdir (p : Path) : Prog Target Bool :=
  .call fun n _ => (env.ok n (.mkdir p), [])

/-- `opendir` and the names `readdir` gives; a regular file cannot be opened
as a directory. -/
def opendir (p : Path) : Prog Target (Option (List Bytes)) :=
  .call fun n s =>
    if env.ok n (.opendir p) && (s.fs.lookup p).isNone then
      (some (env.order (s.namesIn p)), [])
    else (none, [])

def timeNow : Prog Target Nat := .call fun n _ => (env.clock n, [])

end Calls

/-- The program leaves every file outside `W` as it is, its mode and its
modification time included. -/
def Spares {α : Type} (W : Path → Prop) (c : Prog Target α) : Prop :=
  ∀ p x, ¬ W p → Prog.Keeps (fun s => s.fs.lookup p = x) c

/-- The program changes the content of no file outside `W`. -/
def Touches {α : Type} (W : Path → Prop) (c : Prog Target α) : Prop :=
  ∀ p x, ¬ W p → Prog.Keeps (fun s => s.content p = x) c

section Frames

variable {α β : Type} {W : Path → Prop} {env : Env}

theorem Touches.pure (a : α) : Touches W (pure a : Prog Target α) :=
  fun _ _ _ => Prog.Keeps.pure a

theorem Touches.read (f : Target → α) : Touches W (Prog.read f) :=
  fun _ _ _ => Prog.Keeps.read f

theorem Touches.die : Touches W (Prog.die : Prog Target α) :=
  fun _ _ _ => Prog.Keeps.die

theorem Touches.update {f : Target → Target} (h : ∀ s, (f s).fs = s.fs) :
    Touches W (Prog.update f) := by
  intro p x _
  apply Prog.Keeps.update
  intro s hs
  unfold Target.content at hs ⊢
  rw [h]
  exact hs

theorem Touches.bind {c : Prog Target α} {f : α → Prog Target β} (hc : Touches W c)
    (hf : ∀ a, Touches W (f a)) : Touches W (c >>= f) :=
  fun p x hp => (hc p x hp).bind (fun a => hf a p x hp)

theorem Touches.ite {b : Prop} [Decidable b] {c d : Prog Target α} (hc : Touches W c)
    (hd : Touches W d) : Touches W (if b then c else d) :=
  fun p x hp => (hc p x hp).ite (hd p x hp)

theorem Touches.mono {V : Path → Prop} {c : Prog Target α} (h : Touches V c)
    (hsub : ∀ p, V p → W p) : Touches W c :=
  fun p x hp => h p x (fun hv => hp (hsub p hv))

/-- All the files a program leaves alone, at once. -/
theorem Touches.frame {c : Prog Target α} (h : Touches W c) (n : Nat) (s : Target) :
    Prog.wp c (fun t => ∀ p, ¬ W p → t.content p = s.content p)
      (fun _ _ t => ∀ p, ¬ W p → t.content p = s.content p) n s := by
  refine ⟨fun t ht p hp => (h p _ hp n s rfl).1 t ht, ?_⟩
  cases hresult : (c n s).result with
  | none => exact fun p hp => (h p _ hp).state rfl
  | some a => exact fun p hp => (h p _ hp).state rfl

/-- A call that changes files in `W` only. -/
theorem Touches.call {f : Nat → Target → α × List Target}
    (h : ∀ n s, ∀ t ∈ (f n s).2, ∀ p, ¬ W p → t.content p = s.content p) :
    Touches W (Prog.call f) := by
  intro p x hp
  apply Prog.Keeps.call
  intro n s hs t ht
  rw [h n s t ht p hp]
  exact hs

theorem Spares.pure (a : α) : Spares W (pure a : Prog Target α) :=
  fun _ _ _ => Prog.Keeps.pure a

theorem Spares.read (f : Target → α) : Spares W (Prog.read f) :=
  fun _ _ _ => Prog.Keeps.read f

theorem Spares.die : Spares W (Prog.die : Prog Target α) :=
  fun _ _ _ => Prog.Keeps.die

theorem Spares.update {f : Target → Target} (h : ∀ s, (f s).fs = s.fs) :
    Spares W (Prog.update f) := by
  intro p x _
  apply Prog.Keeps.update
  intro s hs
  rw [h]
  exact hs

theorem Spares.bind {c : Prog Target α} {f : α → Prog Target β} (hc : Spares W c)
    (hf : ∀ a, Spares W (f a)) : Spares W (c >>= f) :=
  fun p x hp => (hc p x hp).bind (fun a => hf a p x hp)

theorem Spares.ite {b : Prop} [Decidable b] {c d : Prog Target α} (hc : Spares W c)
    (hd : Spares W d) : Spares W (if b then c else d) :=
  fun p x hp => (hc p x hp).ite (hd p x hp)

theorem Spares.call {f : Nat → Target → α × List Target}
    (h : ∀ n s, ∀ t ∈ (f n s).2, ∀ p, ¬ W p → t.fs.lookup p = s.fs.lookup p) :
    Spares W (Prog.call f) := by
  intro p x hp
  apply Prog.Keeps.call
  intro n s hs t ht
  rw [h n s t ht p hp]
  exact hs

/-- A call that only looks. -/
theorem Spares.observe {f : Nat → Target → α × List Target} (h : ∀ n s, (f n s).2 = []) :
    Spares W (Prog.call f) := by
  apply Spares.call
  intro n s t ht
  rw [h] at ht
  cases ht

/-- Files that are left as they are keep their content. -/
theorem Spares.touches {c : Prog Target α} (h : Spares W c) : Touches W c := by
  intro p x hp n s hs
  have hkept := h p (s.fs.lookup p) hp n s rfl
  exact Prog.wp_mono hkept (fun t ht => (Target.content_congr ht).trans hs)
    (fun _ _ t ht => (Target.content_congr ht).trans hs)

/-- All the files a program spares, at once. -/
theorem Spares.frame {c : Prog Target α} (h : Spares W c) (n : Nat) (s : Target) :
    Prog.wp c (fun t => ∀ p, ¬ W p → t.fs.lookup p = s.fs.lookup p)
      (fun _ _ t => ∀ p, ¬ W p → t.fs.lookup p = s.fs.lookup p) n s := by
  refine ⟨fun t ht p hp => (h p _ hp n s rfl).1 t ht, ?_⟩
  cases hresult : (c n s).result with
  | none => exact fun p hp => (h p _ hp).state rfl
  | some a => exact fun p hp => (h p _ hp).state rfl

theorem statFile_spares (p : Path) : Spares W (statFile env p) :=
  .observe fun _ _ => rfl

theorem fopenRead_spares (p : Path) : Spares W (fopenRead env p) :=
  .observe fun _ _ => rfl

theorem freadAll_spares (p : Path) (data : Bytes) : Spares W (freadAll env p data) := by
  apply Spares.observe
  intro n s
  cases env.fault n (.read p) <;> rfl

theorem mkdir_spares (p : Path) : Spares W (mkdir env p) :=
  .observe fun _ _ => rfl

theorem timeNow_spares : Spares W (timeNow env) :=
  .observe fun _ _ => rfl

theorem access_touches (p : Path) : Touches W (access env p) :=
  Spares.touches (.observe fun _ _ => rfl)

theorem statFile_touches (p : Path) : Touches W (statFile env p) :=
  (statFile_spares p).touches

theorem fopenRead_touches (p : Path) : Touches W (fopenRead env p) :=
  (fopenRead_spares p).touches

theorem freadAll_touches (p : Path) (data : Bytes) : Touches W (freadAll env p data) :=
  (freadAll_spares p data).touches

theorem fopenWrite_spares {p : Path} (hp : W p) : Spares W (fopenWrite env p) := by
  apply Spares.call
  intro n s t ht q hq
  split at ht
  · rw [List.mem_singleton.mp ht]
    exact Target.lookup_put_ne (fun h => hq (h ▸ hp))
  · cases ht

theorem fopenWrite_touches {p : Path} (hp : W p) : Touches W (fopenWrite env p) :=
  (fopenWrite_spares hp).touches

theorem Target.lookup_append_ne {s : Target} {p q : Path} (h : q ≠ p) (bytes : Bytes)
    (now : Nat) : (s.append p bytes now).fs.lookup q = s.fs.lookup q := by
  unfold Target.append
  split
  · exact Target.lookup_put_ne h
  · rfl

theorem Target.content_append_ne {s : Target} {p q : Path} (h : q ≠ p) (bytes : Bytes)
    (now : Nat) : (s.append p bytes now).content q = s.content q :=
  Target.content_congr (Target.lookup_append_ne h bytes now)

theorem fwriteAll_spares {p : Path} (hp : W p) (bytes : Bytes) :
    Spares W (fwriteAll env p bytes) := by
  apply Spares.call
  intro n s t ht q hq
  have hne : q ≠ p := fun h => hq (h ▸ hp)
  split at ht
  · obtain ⟨i, -, rfl⟩ := List.mem_map.mp ht
    exact Target.lookup_append_ne hne _ _
  · obtain ⟨i, -, rfl⟩ := List.mem_map.mp ht
    exact Target.lookup_append_ne hne _ _

theorem fwriteAll_touches {p : Path} (hp : W p) (bytes : Bytes) :
    Touches W (fwriteAll env p bytes) :=
  (fwriteAll_spares hp bytes).touches

theorem fcloseWritten_spares {p : Path} (hp : W p) : Spares W (fcloseWritten env p) := by
  apply Spares.call
  intro n s t ht q hq
  split at ht
  · rw [List.mem_singleton.mp ht]
    exact Target.lookup_put_ne (fun h => hq (h ▸ hp))
  · cases ht

theorem fcloseWritten_touches {p : Path} (hp : W p) : Touches W (fcloseWritten env p) :=
  (fcloseWritten_spares hp).touches

theorem fwriteBuffered_spares {p : Path} (hp : W p) (pending bytes : Bytes) :
    Spares W (fwriteBuffered env p pending bytes) := by
  apply Spares.call
  intro n s t ht q hq
  have hne : q ≠ p := fun h => hq (h ▸ hp)
  dsimp only at ht
  split at ht
  · obtain ⟨i, -, rfl⟩ := List.mem_map.mp ht
    exact Target.lookup_append_ne hne _ _
  · obtain ⟨i, -, rfl⟩ := List.mem_map.mp ht
    exact Target.lookup_append_ne hne _ _

theorem fcloseBuffered_spares {p : Path} (hp : W p) (pending : Bytes) :
    Spares W (fcloseBuffered env p pending) :=
  .bind (fwriteAll_spares hp pending) fun _ => fcloseWritten_spares hp

theorem unlink_spares {p : Path} (hp : W p) : Spares W (unlink env p) := by
  apply Spares.call
  intro n s t ht q hq
  split at ht
  · rw [List.mem_singleton.mp ht]
    exact Target.lookup_remove_ne (fun h => hq (h ▸ hp))
  · cases ht

theorem unlink_touches {p : Path} (hp : W p) : Touches W (unlink env p) :=
  (unlink_spares hp).touches

theorem rename_spares {p q : Path} (hp : W p) (hq : W q) : Spares W (rename env p q) := by
  apply Spares.call
  intro n s t ht r hr
  split at ht
  · split at ht
    · cases ht
    · have hrp : r ≠ p := fun h => hr (h ▸ hp)
      have hrq : r ≠ q := fun h => hr (h ▸ hq)
      rw [List.mem_singleton.mp ht, Target.lookup_put_ne hrq, Target.lookup_remove_ne hrp]
  · cases ht

theorem rename_touches {p q : Path} (hp : W p) (hq : W q) : Touches W (rename env p q) :=
  (rename_spares hp hq).touches

theorem chmod_spares {p : Path} (hp : W p) (mode : Nat) : Spares W (chmod env p mode) := by
  apply Spares.call
  intro n s t ht q hq
  split at ht
  · rw [List.mem_singleton.mp ht]
    exact Target.lookup_put_ne (fun h => hq (h ▸ hp))
  · cases ht

/-- Changing the mode of a file leaves its content alone. -/
theorem chmod_touches (p : Path) (mode : Nat) : Touches W (chmod env p mode) := by
  apply Touches.call
  intro n s t ht q _
  split at ht
  next f _ hlookup =>
    rw [List.mem_singleton.mp ht]
    by_cases hq : q = p
    · rw [hq, Target.content_put, Target.content_of_lookup hlookup]
    · exact Target.content_put_ne hq
  · cases ht

/-- What a successful rename leaves at its target is the source's content. -/
theorem rename_wp {C : Target → Prop} {Q : Bool → Nat → Target → Prop} {p q : Path}
    {n : Nat} {s : Target} (hfail : Q false (n + 1) s)
    (hdone : ∀ t data, s.content p = some data → t.content q = some data →
      C t ∧ Q true (n + 1) t) : Prog.wp (rename env p q) C Q n s := by
  unfold rename
  rw [Prog.wp_call]
  split
  next f _ hlookup =>
    have hcontent := Target.content_of_lookup hlookup
    split
    next heq =>
      have hsame := hdone s f.data hcontent (heq ▸ hcontent)
      exact ⟨by simp, hsame.2⟩
    next =>
      obtain ⟨hC, hQ⟩ := hdone ((s.remove p).put q f) f.data hcontent Target.content_put
      exact ⟨fun t ht => List.mem_singleton.mp ht ▸ hC, hQ⟩
  · exact ⟨by simp, hfail⟩

end Frames

/-- The program works on files only: what the process has in memory stays. -/
def KeepsMemory {α : Type} (c : Prog Target α) : Prop :=
  ∀ cache ss, Prog.Keeps (fun s => s.cache = cache ∧ s.session = ss) c

section Memory

variable {α β : Type} {env : Env}

theorem KeepsMemory.pure (a : α) : KeepsMemory (pure a : Prog Target α) :=
  fun _ _ => Prog.Keeps.pure a

theorem KeepsMemory.bind {c : Prog Target α} {f : α → Prog Target β} (hc : KeepsMemory c)
    (hf : ∀ a, KeepsMemory (f a)) : KeepsMemory (c >>= f) :=
  fun cache ss => (hc cache ss).bind fun a => hf a cache ss

theorem KeepsMemory.ite {b : Prop} [Decidable b] {c d : Prog Target α} (hc : KeepsMemory c)
    (hd : KeepsMemory d) : KeepsMemory (if b then c else d) :=
  fun cache ss => (hc cache ss).ite (hd cache ss)

theorem KeepsMemory.call {f : Nat → Target → α × List Target}
    (h : ∀ n s, ∀ t ∈ (f n s).2, t.cache = s.cache ∧ t.session = s.session) :
    KeepsMemory (Prog.call f) := by
  intro cache ss
  apply Prog.Keeps.call
  intro n s hs t ht
  obtain ⟨hcache, hsession⟩ := h n s t ht
  exact ⟨hcache.trans hs.1, hsession.trans hs.2⟩

theorem KeepsMemory.observe {f : Nat → Target → α × List Target} (h : ∀ n s, (f n s).2 = []) :
    KeepsMemory (Prog.call f) := by
  apply KeepsMemory.call
  intro n s t ht
  rw [h] at ht
  cases ht

theorem KeepsMemory.state {c : Prog Target α} (h : KeepsMemory c) (n : Nat) (s : Target) :
    (c n s).state.cache = s.cache ∧ (c n s).state.session = s.session :=
  (h s.cache s.session).state ⟨rfl, rfl⟩

theorem freadAll_memory (p : Path) (data : Bytes) : KeepsMemory (freadAll env p data) := by
  apply KeepsMemory.observe
  intro n s
  cases env.fault n (.read p) <;> rfl

theorem opendir_memory (p : Path) : KeepsMemory (opendir env p) := by
  apply KeepsMemory.observe
  intro n s
  split <;> rfl

theorem fopenWrite_memory (p : Path) : KeepsMemory (fopenWrite env p) := by
  apply KeepsMemory.call
  intro n s t ht
  split at ht
  · rw [List.mem_singleton.mp ht]
    exact ⟨rfl, rfl⟩
  · cases ht

theorem Target.append_memory (s : Target) (p : Path) (bytes : Bytes) (now : Nat) :
    (s.append p bytes now).cache = s.cache ∧ (s.append p bytes now).session = s.session := by
  unfold Target.append
  split
  · exact ⟨rfl, rfl⟩
  · exact ⟨rfl, rfl⟩

theorem fwriteAll_memory (p : Path) (bytes : Bytes) : KeepsMemory (fwriteAll env p bytes) := by
  apply KeepsMemory.call
  intro n s t ht
  split at ht
  · obtain ⟨i, -, rfl⟩ := List.mem_map.mp ht
    exact s.append_memory p _ _
  · obtain ⟨i, -, rfl⟩ := List.mem_map.mp ht
    exact s.append_memory p _ _

theorem fcloseWritten_memory (p : Path) : KeepsMemory (fcloseWritten env p) := by
  apply KeepsMemory.call
  intro n s t ht
  split at ht
  · rw [List.mem_singleton.mp ht]
    exact ⟨rfl, rfl⟩
  · cases ht

theorem fwriteBuffered_memory (p : Path) (pending bytes : Bytes) :
    KeepsMemory (fwriteBuffered env p pending bytes) := by
  apply KeepsMemory.call
  intro n s t ht
  dsimp only at ht
  split at ht
  · obtain ⟨i, -, rfl⟩ := List.mem_map.mp ht
    exact s.append_memory p _ _
  · obtain ⟨i, -, rfl⟩ := List.mem_map.mp ht
    exact s.append_memory p _ _

theorem fcloseBuffered_memory (p : Path) (pending : Bytes) :
    KeepsMemory (fcloseBuffered env p pending) :=
  .bind (fwriteAll_memory p pending) fun _ => fcloseWritten_memory p

theorem fcloseBuffered_total (p : Path) (pending : Bytes) :
    Prog.Total (fcloseBuffered env p pending) :=
  .bind (.call _) fun _ => .call _

theorem unlink_memory (p : Path) : KeepsMemory (unlink env p) := by
  apply KeepsMemory.call
  intro n s t ht
  split at ht
  · rw [List.mem_singleton.mp ht]
    exact ⟨rfl, rfl⟩
  · cases ht

theorem rename_memory (p q : Path) : KeepsMemory (rename env p q) := by
  apply KeepsMemory.call
  intro n s t ht
  split at ht
  · split at ht
    · cases ht
    · rw [List.mem_singleton.mp ht]
      exact ⟨rfl, rfl⟩
  · cases ht

theorem chmod_memory (p : Path) (mode : Nat) : KeepsMemory (chmod env p mode) := by
  apply KeepsMemory.call
  intro n s t ht
  split at ht
  · rw [List.mem_singleton.mp ht]
    exact ⟨rfl, rfl⟩
  · cases ht

end Memory

section Looking

variable {env : Env}

theorem statFile_observes (p : Path) : Prog.Observes (statFile env p) fun _ _ => True :=
  .call (fun _ _ => rfl) fun _ _ => trivial

theorem opendir_observes (p : Path) :
    Prog.Observes (opendir env p) fun s r => ∀ names, r = some names →
      s.fs.lookup p = none ∧ names = env.order (s.namesIn p) := by
  apply Prog.Observes.call
  · intro n s
    split <;> rfl
  · intro n s names hnames
    split at hnames
    next hopen =>
      have hfree : s.fs.lookup p = none := by
        simpa using (Bool.and_eq_true_iff.mp hopen).2
      exact ⟨hfree, (Option.some.inj hnames).symm⟩
    · cases hnames

theorem opendir_opens {p : Path} (hopen : ∀ m, env.fault m (.opendir p) = none) :
    Prog.Observes (opendir env p) fun s r =>
      r = if (s.fs.lookup p).isSome then none else some (env.order (s.namesIn p)) := by
  apply Prog.Observes.call
  · intro n s
    split <;> rfl
  · intro n s
    have hok : env.ok n (.opendir p) = true := by simp [Env.ok, hopen]
    rw [hok, Bool.true_and]
    cases s.fs.lookup p with
    | none => rfl
    | some f => rfl

end Looking

section Reliable

variable {env : Env} {n : Nat} {s : Target} {p : Path}

theorem access_ends {Q : Bool → Nat → Target → Prop} (h : env.fault n (.access p) = none) :
    Prog.Ends (access env p) Q n s ↔ Q (s.fs.lookup p).isSome (n + 1) s := by
  simp [access, Env.ok, h]

theorem statFile_ends {Q : Option File → Nat → Target → Prop}
    (h : env.fault n (.stat p) = none) :
    Prog.Ends (statFile env p) Q n s ↔ Q (s.fs.lookup p) (n + 1) s := by
  simp [statFile, Env.ok, h]

theorem fopenRead_ends {Q : Option Bytes → Nat → Target → Prop}
    (h : env.fault n (.openRead p) = none) :
    Prog.Ends (fopenRead env p) Q n s ↔ Q (s.content p) (n + 1) s := by
  simp [fopenRead, Env.ok, h]

theorem freadAll_ends {Q : Bytes × Bool → Nat → Target → Prop} {data : Bytes}
    (h : env.fault n (.read p) = none) :
    Prog.Ends (freadAll env p data) Q n s ↔ Q (data, true) (n + 1) s := by
  simp [freadAll, h]

theorem unlink_ends {Q : Bool → Nat → Target → Prop} (h : env.fault n (.unlink p) = none)
    {f : File} (hlookup : s.fs.lookup p = some f) :
    Prog.Ends (unlink env p) Q n s ↔ Q true (n + 1) (s.remove p) := by
  simp [unlink, Env.ok, h, hlookup]

theorem mkdir_ends {Q : Bool → Nat → Target → Prop} (h : env.fault n (.mkdir p) = none) :
    Prog.Ends (mkdir env p) Q n s ↔ Q true (n + 1) s := by
  simp [mkdir, Env.ok, h]

theorem timeNow_ends {Q : Nat → Nat → Target → Prop} :
    Prog.Ends (timeNow env) Q n s ↔ Q (env.clock n) (n + 1) s := by
  simp [timeNow]

theorem exists_lookup {data : Bytes} (h : s.content p = some data) :
    ∃ f, s.fs.lookup p = some f ∧ f.data = data := by
  simpa [Target.content] using h

end Reliable

end SatDeploy.Agent
