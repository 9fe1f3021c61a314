import SatDeploy.Agent.BackupHistory
import SatDeploy.Agent.RollbackDial

/-!
The agent's programs on an operating system on which no call fails. A copy is
then complete and stamped with the time of the call, a backup is found or made,
and everything else is as it was, the modification times included.
-/

namespace SatDeploy.Agent

open Lib

/-- No call fails. -/
def Env.Reliable (env : Env) : Prop := ∀ n op, env.fault n op = none

theorem calmEnv_reliable (tm : Tm) : (calmEnv tm).Reliable := fun _ _ => rfl

section Calls

variable {env : Env} {n : Nat} {s : Target} {p : Path}

theorem fopenWrite_ends (henv : env.Reliable) {Q : Bool → Nat → Target → Prop} :
    Prog.Ends (fopenWrite env p) Q n s ↔
      Q true (n + 1) (s.put p ⟨[], s.modeOf p, env.clock n⟩) := by
  simp [fopenWrite, Env.ok, henv n _]

theorem fcloseWritten_ends (henv : env.Reliable) {Q : Unit → Nat → Target → Prop} :
    Prog.Ends (fcloseWritten env p) Q n s ↔ Q () (n + 1) s := by
  simp [fcloseWritten, henv n _]

/-- The last state of a transfer that passes `k` bytes on, one by one. -/
theorem grown_last {α : Type} (f : Bytes → α) (bytes : Bytes) (k : Nat) (start : α) :
    ((List.range (min k bytes.length)).map fun i => f (bytes.take (i + 1))).getLastD start =
      if bytes.take k = [] then start else f (bytes.take k) := by
  cases hcount : min k bytes.length with
  | zero =>
      have hnone : bytes.take k = [] := by
        apply List.eq_nil_of_length_eq_zero
        rw [List.length_take, hcount]
      rw [if_pos hnone]
      rfl
  | succ m =>
      have hsame : bytes.take (m + 1) = bytes.take k := by
        rw [List.take_eq_take_iff]
        omega
      have hsome : bytes.take k ≠ [] := by
        intro hnone
        have hlen := congrArg List.length hnone
        rw [List.length_take, hcount] at hlen
        cases hlen
      rw [if_neg hsome, List.range_succ, List.map_append, List.map_cons, List.map_nil,
        List.getLastD_concat, hsame]

/-- Writing to an open file adds the bytes and stamps it. -/
theorem fwriteAll_unfailing (h : env.fault n (.write p) = none)
    {Q : Bool → Nat → Target → Prop} {bytes : Bytes} :
    Prog.Ends (fwriteAll env p bytes) Q n s ↔
      Q true (n + 1) (if bytes = [] then s else s.append p bytes (env.clock n)) := by
  have hlast := grown_last (fun part => s.append p part (env.clock n)) bytes bytes.length s
  rw [min_self, List.take_length] at hlast
  unfold fwriteAll
  rw [Prog.ends_call, h]
  dsimp only
  rw [hlast]

theorem fwriteAll_ends (henv : env.Reliable) {Q : Bool → Nat → Target → Prop} {bytes : Bytes} :
    Prog.Ends (fwriteAll env p bytes) Q n s ↔
      Q true (n + 1) (if bytes = [] then s else s.append p bytes (env.clock n)) :=
  fwriteAll_unfailing (henv _ _)

/-- A stream that holds bytes back adds those it passes on. -/
theorem fwriteBuffered_ends (henv : env.Reliable) {Q : Bool × Bytes → Nat → Target → Prop}
    {pending bytes : Bytes} :
    Prog.Ends (fwriteBuffered env p pending bytes) Q n s ↔
      Q (true, (pending ++ bytes).drop (env.flushed n)) (n + 1)
        (if (pending ++ bytes).take (env.flushed n) = [] then s
          else s.append p ((pending ++ bytes).take (env.flushed n)) (env.clock n)) := by
  unfold fwriteBuffered
  rw [Prog.ends_call]
  dsimp only
  rw [henv]
  dsimp only
  rw [grown_last (fun part => s.append p part (env.clock n))]

theorem fcloseBuffered_ends (henv : env.Reliable) {Q : Unit → Nat → Target → Prop}
    {pending : Bytes} :
    Prog.Ends (fcloseBuffered env p pending) Q n s ↔
      Q () (n + 2) (if pending = [] then s else s.append p pending (env.clock n)) := by
  unfold fcloseBuffered
  rw [Prog.ends_bind, fwriteAll_ends henv, fcloseWritten_ends henv]

/-- Bytes that are added, or none, end up at the end of the file. -/
theorem content_added {bytes data : Bytes} {now : Nat} (h : s.content p = some data) :
    (if bytes = [] then s else s.append p bytes now).content p = some (data ++ bytes) := by
  obtain ⟨f, hlookup, rfl⟩ := exists_lookup h
  split
  next hnone => rw [hnone, List.append_nil, h]
  next =>
    rw [Target.append, hlookup]
    exact Target.content_put

theorem chmod_ends (henv : env.Reliable) {mode : Nat} {f : File}
    {Q : Unit → Nat → Target → Prop} (hlookup : s.fs.lookup p = some f) :
    Prog.Ends (chmod env p mode) Q n s ↔ Q () (n + 1) (s.put p { f with mode := mode }) := by
  simp [chmod, Env.ok, henv n _, hlookup]

theorem rename_ends (henv : env.Reliable) {q : Path} {f : File}
    {Q : Bool → Nat → Target → Prop} (hlookup : s.fs.lookup p = some f) (hne : p ≠ q) :
    Prog.Ends (rename env p q) Q n s ↔ Q true (n + 1) ((s.remove p).put q f) := by
  simp [rename, Env.ok, henv n _, hlookup, hne]

/-- A program that does not die leaves what it spares. -/
theorem Spares.ends {α : Type} {W : Path → Prop} {c : Prog Target α} (h : Spares W c)
    (htotal : Prog.Total c) (n : Nat) (s : Target) :
    Prog.Ends c (fun _ _ t => ∀ p, ¬ W p → t.fs.lookup p = s.fs.lookup p) n s :=
  ((htotal n s).and_wp (h.frame n s)).imp fun _ _ _ ht => ht.2

end Calls

/-- A file that was just written with that content. -/
def Fresh (env : Env) (data : Bytes) (f : File) : Prop :=
  f.data = data ∧ ∃ k, f.mtime = env.clock k

section Copies

variable {env : Env} {n : Nat} {s : Target} {src dst : Path} {data : Bytes}

theorem copyBytes_reliable (henv : env.Reliable) {f : File} (hdst : s.fs.lookup dst = some f)
    (hempty : f.data = []) (htime : ∃ k, f.mtime = env.clock k) :
    Prog.Ends (copyBytes env src dst data) (fun copied _ t => copied = true ∧
      (∃ g, t.fs.lookup dst = some g ∧ Fresh env data g) ∧
      ∀ p, p ≠ dst → t.fs.lookup p = s.fs.lookup p) n s := by
  unfold copyBytes
  rw [Prog.ends_bind, freadAll_ends (henv _ _)]
  dsimp only
  rw [Prog.ends_bind, fwriteAll_ends henv, Prog.ends_bind, fcloseWritten_ends henv, if_pos rfl,
    Prog.ends_bind, statFile_ends (henv _ _)]
  -- the destination after the write
  have hwritten : ∃ g, (if data = [] then s else s.append dst data (env.clock (n + 1))).fs.lookup
      dst = some g ∧ Fresh env data g := by
    split
    next hnil => exact ⟨f, hdst, hempty.trans hnil.symm, htime⟩
    next =>
      refine ⟨⟨f.data ++ data, f.mode, env.clock (n + 1)⟩, ?_, ?_, n + 1, rfl⟩
      · simp [Target.append, hdst]
      · simp [hempty]
  have hothers : ∀ p, p ≠ dst →
      (if data = [] then s else s.append dst data (env.clock (n + 1))).fs.lookup p =
        s.fs.lookup p := by
    intro p hp
    split
    · rfl
    · simp only [Target.append, hdst]
      exact Target.lookup_put_ne hp
  generalize (if data = [] then s else s.append dst data (env.clock (n + 1))) = t
    at hwritten hothers ⊢
  obtain ⟨g, hg, hfresh⟩ := hwritten
  cases t.fs.lookup src with
  | none =>
      rw [Prog.ends_pure]
      exact ⟨rfl, ⟨g, hg, hfresh⟩, hothers⟩
  | some st =>
      rw [Prog.ends_bind, chmod_ends henv hg, Prog.ends_pure]
      refine ⟨rfl, ⟨{ g with mode := st.mode }, Target.lookup_put, hfresh⟩, fun p hp => ?_⟩
      exact (Target.lookup_put_ne hp).trans (hothers p hp)

/-- A copy is complete, stamped with the time, and changes nothing else. -/
theorem copyFile_reliable (henv : env.Reliable) (hdata : s.content src = some data) :
    Prog.Ends (copyFile env src dst) (fun copied _ t => copied = true ∧
      (∃ g, t.fs.lookup dst = some g ∧ Fresh env data g) ∧
      ∀ p, p ≠ dst → t.fs.lookup p = s.fs.lookup p) n s := by
  unfold copyFile
  rw [Prog.ends_bind, fopenRead_ends (henv _ _), hdata]
  dsimp only
  have hunlink : Prog.Ends (unlink env dst) (fun unlinked _ t =>
      (∀ p, p ≠ dst → t.fs.lookup p = s.fs.lookup p) ∧ ¬ (src = dst ∧ unlinked = false))
      (n + 1) s := by
    cases hlookup : s.fs.lookup dst with
    | none =>
        have hanswer : unlink env dst (n + 1) s = ⟨some false, s, n + 2, []⟩ := by
          simp [unlink, Prog.call, hlookup]
        refine ⟨false, by rw [hanswer], fun p _ => by rw [hanswer], ?_⟩
        rintro ⟨rfl, -⟩
        simp [Target.content, hlookup] at hdata
    | some f =>
        rw [unlink_ends (henv _ _) hlookup]
        exact ⟨fun p hp => Target.lookup_remove_ne hp, by simp⟩
  rw [Prog.ends_bind]
  refine hunlink.imp ?_
  rintro unlinked m t ⟨hothers, hself⟩
  rw [if_neg hself, Prog.ends_bind, fopenWrite_ends henv, if_pos rfl]
  refine (copyBytes_reliable henv Target.lookup_put rfl ⟨m, rfl⟩).imp ?_
  rintro copied m' u ⟨rfl, hfresh, hrest⟩
  refine ⟨rfl, hfresh, fun p hp => ?_⟩
  rw [hrest p hp, Target.lookup_put_ne hp, hothers p hp]

/-- A restore of an existing backup succeeds and changes its destination only. -/
theorem backupRestore_reliable (henv : env.Reliable) (hdata : s.content src = some data) :
    Prog.Ends (backupRestore env src dst) (fun restored _ t => restored = true ∧
      t.content dst = some data ∧ ∀ p, p ≠ dst → t.fs.lookup p = s.fs.lookup p) n s := by
  obtain ⟨f, hlookup, -⟩ := exists_lookup hdata
  unfold backupRestore
  rw [Prog.ends_bind, statFile_ends (henv _ _), hlookup]
  dsimp only
  rw [Prog.ends_bind]
  refine (copyFile_reliable henv hdata).imp ?_
  rintro _ m t ⟨rfl, ⟨g, hg, hfresh⟩, hothers⟩
  have hchmod : ∀ mode m', Prog.Ends (do
      chmod env dst mode
      return true : Prog Target Bool) (fun restored _ u => restored = true ∧
        u.content dst = some data ∧ ∀ p, p ≠ dst → u.fs.lookup p = s.fs.lookup p) m' t := by
    intro mode m'
    rw [Prog.ends_bind, chmod_ends henv hg, Prog.ends_pure]
    refine ⟨rfl, ?_, fun p hp => (Target.lookup_put_ne hp).trans (hothers p hp)⟩
    rw [Target.content_put, hfresh.1]
  rw [if_pos rfl, Prog.ends_bind, statFile_ends (henv _ _)]
  cases t.fs.lookup src with
  | none => exact hchmod _ _
  | some bst => exact hchmod _ _

end Copies

section Backups

variable {env : Env} {n : Nat} {s : Target} {app : Bytes} {src : Path} {data : Bytes}

/-- The directory has a file whose name ends in the hash. -/
def Target.HasBackup (s : Target) (app hash : Bytes) : Prop :=
  s.fs.lookup (backupDir app) = none ∧
    ∃ name ∈ s.namesIn (backupDir app), hashSuffix hash <:+ name

/-- `s` with one more backup, a fresh copy of `data`. -/
def BackedUp (env : Env) (app : Bytes) (data : Bytes) (s t : Target) : Prop :=
  ¬ s.HasBackup app (hexDigest data) ∧ ∃ k,
    (∃ f, t.fs.lookup (backupPath app (env.localtime (env.clock k)) (hexDigest data)) = some f ∧
      Fresh env data f) ∧
    ∀ p, p ≠ backupPath app (env.localtime (env.clock k)) (hexDigest data) →
      t.fs.lookup p = s.fs.lookup p

theorem findBackup_reliable (henv : env.Reliable) (hash : Bytes) :
    Prog.Ends (findBackup env app hash) (fun r _ t => t = s ∧
      (r.isSome ↔ s.HasBackup app hash)) n s := by
  have hopen := (opendir_opens (fun _ => henv _ (.opendir (backupDir app)))).ends n s
  rw [findBackup, Prog.ends_bind]
  refine hopen.imp ?_
  rintro names m s ⟨rfl, rfl⟩
  unfold Target.HasBackup
  cases hdir : s.fs.lookup (backupDir app) with
  | some f => simp
  | none =>
      simp only [Option.isSome_none, Bool.false_eq_true, if_false]
      rw [Prog.ends_pure]
      refine ⟨rfl, ?_⟩
      simp only [Option.isSome_map, List.find?_isSome, List.isSuffixOf_iff_suffix, true_and]
      constructor
      · rintro ⟨name, hname, hsuffix⟩
        exact ⟨name, (env.order_perm _).mem_iff.mp hname, hsuffix⟩
      · rintro ⟨name, hname, hsuffix⟩
        exact ⟨name, (env.order_perm _).mem_iff.mpr hname, hsuffix⟩

/-- A backup of an existing file succeeds: nothing is done if the directory has
one, else one is made. -/
theorem backupCreate_reliable (henv : env.Reliable) (hdata : s.content src = some data) :
    Prog.Ends (backupCreate env app src) (fun r _ t => r.isSome ∧
      (s.HasBackup app (hexDigest data) ∧ t = s ∨ BackedUp env app data s t)) n s := by
  obtain ⟨f, hlookup, -⟩ := exists_lookup hdata
  unfold backupCreate
  rw [Prog.ends_bind, statFile_ends (henv _ _), hlookup]
  dsimp only
  rw [Prog.ends_bind]
  refine (computeFileChecksum_ends (fun _ => henv _ _) (fun _ => henv _ _) hdata).imp ?_
  rintro _ m _ ⟨rfl, rfl⟩
  dsimp only
  rw [Prog.ends_bind]
  refine (mkdirP_ends (fun _ _ => henv _ _) _).imp ?_
  rintro _ m _ ⟨rfl, rfl⟩
  rw [if_pos rfl, Prog.ends_bind]
  refine (mkdirP_ends (fun _ _ => henv _ _) _).imp ?_
  rintro _ m s ⟨rfl, rfl⟩
  rw [if_pos rfl, Prog.ends_bind, timeNow_ends, Prog.ends_bind]
  refine (findBackup_reliable henv _).imp ?_
  rintro existing m' s ⟨rfl, hfound⟩
  cases existing with
  | some path =>
      dsimp only
      rw [Prog.ends_pure]
      exact ⟨rfl, Or.inl ⟨hfound.mp rfl, rfl⟩⟩
  | none =>
      have hnone : ¬ s.HasBackup app (hexDigest data) := fun h => by simpa using hfound.mpr h
      dsimp only
      rw [Prog.ends_bind]
      refine (copyFile_reliable henv hdata).imp ?_
      rintro _ m'' t ⟨rfl, hfresh, hothers⟩
      rw [if_pos rfl, Prog.ends_pure]
      exact ⟨rfl, Or.inr ⟨hnone, m, hfresh, hothers⟩⟩

/-- The source of a backup keeps its content. -/
theorem BackedUp.source {t : Target} (h : BackedUp env app data s t)
    (hdata : s.content src = some data) : t.content src = some data := by
  obtain ⟨-, k, ⟨f, hf, hfresh⟩, hothers⟩ := h
  by_cases hself : src = backupPath app (env.localtime (env.clock k)) (hexDigest data)
  · rw [hself, Target.content_of_lookup hf, hfresh.1]
  · rw [Target.content_congr (hothers src hself), hdata]

theorem BackedUp.frame {t : Target} (h : BackedUp env app data s t) {p : Path}
    (hp : ¬ underBackups p) : t.fs.lookup p = s.fs.lookup p := by
  obtain ⟨-, k, -, hothers⟩ := h
  apply hothers
  rintro rfl
  exact hp (backupPath_under _ _ _)

end Backups

end SatDeploy.Agent
