import SatDeploy.Agent.HonestResume
import SatDeploy.Agent.Reliable

/-!
A transfer that returns 0 on an operating system on which no call fails. Its payload is
in the destination, the sidecar is gone, and nothing else has changed.
-/

namespace SatDeploy.Agent

open Lib Svu

/-- `t` differs from `s` in files of `W` only, and not in memory. -/
structure Within (W : Path → Prop) (s t : Target) : Prop where
  files : ∀ p, ¬ W p → t.fs.lookup p = s.fs.lookup p
  cache : t.cache = s.cache

section Changes

variable {α : Type} {V W : Path → Prop} {s t u : Target} {c : Prog Target α}

theorem Within.refl (s : Target) : Within W s s := ⟨fun _ _ => rfl, rfl⟩

theorem Within.trans (hst : Within W s t) (htu : Within W t u) : Within W s u :=
  ⟨fun p hp => (htu.files p hp).trans (hst.files p hp), htu.cache.trans hst.cache⟩

theorem Within.mono (h : Within V s t) (hsub : ∀ p, V p → W p) : Within W s t :=
  ⟨fun p hp => h.files p (mt (hsub p) hp), h.cache⟩

theorem Within.put {p : Path} (hp : W p) (f : File) : Within W s (s.put p f) where
  files := fun _ hq => Target.lookup_put_ne fun heq => hq (heq ▸ hp)
  cache := rfl

theorem Within.remove {p : Path} (hp : W p) : Within W s (s.remove p) where
  files := fun _ hq => Target.lookup_remove_ne fun heq => hq (heq ▸ hp)
  cache := rfl

theorem Within.content (h : Within W s t) {p : Path} (hp : ¬ W p) : t.content p = s.content p :=
  Target.content_congr (h.files p hp)

/-- The metadata is that of before where its file is. -/
theorem Within.metadata (h : Within W s t) (hmeta : ¬ W metadataFile) :
    t.metadata = s.metadata := by
  unfold Target.metadata
  rw [h.cache, h.content hmeta]

theorem Spares.within (h : Spares W c) (hmemory : KeepsMemory c) (htotal : Prog.Total c) (n : Nat)
    (s : Target) : Prog.Ends c (fun _ _ t => Within W s t) n s := by
  obtain ⟨a, hresult, hfiles⟩ := h.ends htotal n s
  exact ⟨a, hresult, hfiles, (hmemory.state n s).1⟩

end Changes

section Memory

variable {env : Env} {path : Path}

theorem pwrite_memory (offset : Nat) (bytes : Bytes) :
    KeepsMemory (pwrite env path offset bytes) := by
  apply KeepsMemory.call
  intro n s t ht
  split at ht
  · cases ht
  · rw [List.mem_singleton.mp ht]
    exact ⟨rfl, rfl⟩
  · rw [List.mem_singleton.mp ht]
    exact ⟨rfl, rfl⟩

theorem openCreate_memory : KeepsMemory (openCreate env path) := by
  apply KeepsMemory.call
  intro n s t ht
  split at ht
  · rw [List.mem_singleton.mp ht]
    exact ⟨rfl, rfl⟩
  · cases ht

theorem ftruncate_memory : KeepsMemory (ftruncate env path) := by
  apply KeepsMemory.call
  intro n s t ht
  split at ht
  · rw [List.mem_singleton.mp ht]
    exact ⟨rfl, rfl⟩
  · cases ht

theorem pread_memory (offset len : Nat) : KeepsMemory (pread env path offset len) := by
  apply KeepsMemory.observe
  intro n s
  dsimp only
  split <;> rfl

theorem sidecarWriteHeader_memory (total block : Nat) :
    KeepsMemory (sidecarWriteHeader env path total block) :=
  .bind (pwrite_memory _ _) fun _ => .ite (.pure _) (.pure _)

theorem hookEvent_memory (sc : Sidecar) (event : ClientEvent) :
    KeepsMemory (hookEvent env path sc event) := by
  cases event with
  | metaHook total block buffer =>
      refine .ite ?_ (.ite ?_ (sidecarWriteHeader_memory _ _))
      · exact .bind openCreate_memory fun _ => .ite (sidecarWriteHeader_memory _ _) (.pure _)
      · exact .bind ftruncate_memory fun _ => sidecarWriteHeader_memory _ _
  | dataHook offset payload buffer =>
      refine .ite (.pure _) (.bind (pwrite_memory _ _) fun _ => .ite (.pure _) ?_)
      exact .bind (unlink_memory _) fun _ => .pure _
  | completeHook => exact .bind (unlink_memory _) fun _ => .pure _
  | _ => exact .pure _

theorem sidecarRestore_memory (allocated : Bool) :
    KeepsMemory (sidecarRestore env path allocated) := by
  unfold sidecarRestore
  refine .bind (.observe fun _ _ => rfl) fun _ => .ite ?_ (.pure _)
  refine .bind (pread_memory _ _) fun hdr => .ite ?_ ?_
  · refine .ite (.bind (pread_memory _ _) fun got => ?_) (.pure _)
    cases got with
    | none => exact .bind (unlink_memory _) fun _ => .pure _
    | some got => exact .pure _
  · exact .bind (unlink_memory _) fun _ => .pure _

end Memory

/-! ### The transfer -/

section Download

variable {env : Env} {path dest : Path} {n : Nat} {s : Target} {src : Bytes}

theorem unlink_reliable (henv : env.Reliable) (p : Path) :
    Prog.Ends (unlink env p) (fun _ _ t => t.fs.lookup p = none ∧ Within (· = p) s t) n s := by
  cases hlookup : s.fs.lookup p with
  | none =>
      have hanswer : unlink env p n s = ⟨some false, s, n + 1, []⟩ := by
        simp [unlink, Prog.call, hlookup]
      refine ⟨false, by rw [hanswer], ?_⟩
      rw [hanswer]
      exact ⟨hlookup, .refl s⟩
  | some f =>
      rw [unlink_ends (henv _ _) hlookup]
      exact ⟨Target.lookup_remove, .remove rfl⟩

/-- Writing to a file that was just opened. -/
theorem fwriteAll_reliable (henv : env.Reliable) {p : Path} {f : File}
    (hlookup : s.fs.lookup p = some f) (hempty : f.data = []) (bytes : Bytes) :
    Prog.Ends (fwriteAll env p bytes)
      (fun _ _ t => t.content p = some bytes ∧ Within (· = p) s t) n s := by
  rw [fwriteAll_ends henv]
  split
  next hnil =>
    rw [hnil, Target.content_of_lookup hlookup, hempty]
    exact ⟨rfl, .refl s⟩
  next =>
    simp only [Target.append, hlookup]
    exact ⟨by simp [hempty], Within.put (W := (· = p)) rfl _⟩

/-- The hooks of a transfer change the sidecar only. -/
theorem runEvents_transfers {events rest : List ClientEvent} {Q : Bool → Nat → Target → Prop}
    (hevents : ∀ e ∈ events, e.transfers = true)
    (hrest : ∀ sc m t, Within (· = path) s t →
      Prog.Ends (runEvents env (some path) dest rest sc) Q m t) :
    ∀ sc m t, Within (· = path) s t →
      Prog.Ends (runEvents env (some path) dest (events ++ rest) sc) Q m t := by
  induction events with
  | nil => exact hrest
  | cons e events ih =>
      intro sc m t ht
      have hstep : runEvents env (some path) dest (e :: (events ++ rest)) sc =
          hookEvent env path sc e >>= runEvents env (some path) dest (events ++ rest) := by
        have htransfers := hevents e List.mem_cons_self
        cases e with
        | openOut | writeOut | completeHook => cases htransfers
        | _ => rfl
      rw [List.cons_append, hstep, Prog.ends_bind]
      have hhook : Prog.Ends (hookEvent env path sc e) (fun _ _ u => Within (· = path) t u) m t :=
        (hookEvent_spares (W := (· = path)) rfl sc e).within (hookEvent_memory sc e)
          (hookEvent_total sc e) m t
      refine hhook.imp fun sc' m' u hu => ?_
      exact ih (fun e he => hevents e (List.mem_cons_of_mem _ he)) sc' m' u (ht.trans hu)

/-- The end of a transfer: the payload is written and the sidecar is gone. -/
theorem runEvents_closing (henv : env.Reliable) (hne : dest ≠ path) (sc : Sidecar) :
    Prog.Ends (runEvents env (some path) dest
        [.openOut true, .writeOut src, .completeHook] sc)
      (fun opened _ t => opened = true ∧ t.content dest = some src ∧
        t.fs.lookup path = none ∧ Within (fun p => p = dest ∨ p = path) s t) n s := by
  simp only [runEvents]
  rw [Prog.ends_bind, fopenWrite_ends henv, if_pos rfl, Prog.ends_bind]
  refine (fwriteAll_reliable henv Target.lookup_put rfl src).imp ?_
  rintro _ m t ⟨hdata, hwithin⟩
  rw [Prog.ends_bind, fcloseWritten_ends henv, Prog.ends_bind]
  change Prog.Ends (sidecarComplete env path sc) _ _ _
  rw [sidecarComplete, Prog.ends_bind]
  refine (unlink_reliable henv path).imp ?_
  rintro _ m' u ⟨hgone, hlast⟩
  rw [Prog.ends_pure, Prog.ends_pure]
  refine ⟨rfl, (hlast.content hne).trans hdata, hgone, ?_⟩
  have hopened : Within (fun p => p = dest ∨ p = path) s
      (s.put dest ⟨[], s.modeOf dest, env.clock n⟩) := .put (Or.inl rfl) _
  exact (hopened.trans (hwithin.mono fun _ => Or.inl)).trans (hlast.mono fun _ => Or.inr)

/-- A transfer that returns 0 leaves its payload in the destination. -/
theorem svuDownloadFile_delivers (henv : env.Reliable) {link : Link} {app : Bytes}
    {found : Option Bytes} {node expectedSize mtu : Nat} {events : List ClientEvent}
    (hpath : sessionStateSvuPath app = some path) (halloc : link.allocated = true)
    (hdisk : OnDisk path s found) (hdest : dest ≠ []) (hnode : node ≤ 0xFFFF)
    (hne : dest ≠ path) (hsize : expectedSize = 0 ∨ src.length % 2 ^ 32 = expectedSize)
    (hrun : svuClientRunHooked (clientConfig mtu) (link.clientEnv found) =
      (0, events ++ [.openOut true, .writeOut src, .completeHook]))
    (hevents : ∀ e ∈ events, e.transfers = true) :
    Prog.Ends (svuDownloadFile env link node dest expectedSize app mtu)
      (fun done _ t => done = true ∧ t.content dest = some src ∧ t.fs.lookup path = none ∧
        Within (fun p => p = dest ∨ p = path) s t) n s := by
  have hserves : env.Serves path :=
    ⟨fun _ => henv _ _, fun _ => henv _ _, fun _ => henv _ _, fun _ => henv _ _,
      fun _ => henv _ _⟩
  unfold svuDownloadFile
  rw [if_neg hdest, if_neg (by omega), Prog.ends_bind]
  refine (mkdirP_ends (fun _ _ => henv _ _) _).imp ?_
  rintro _ m s ⟨rfl, rfl⟩
  rw [Prog.ends_bind, clientRun, Prog.ends_bind, sidecarPath, if_pos rfl, hpath, restoreSeed,
    halloc]
  have hrestored := ((sidecarRestore_spares (W := (· = path)) rfl true).within
    (sidecarRestore_memory true) (restoreSeed_total (some path) true) m s).and_wp
    (sidecarRestore_ends hserves hdisk m).wp
  refine hrestored.imp ?_
  rintro ⟨seed, sc⟩ m t ⟨ht, rfl⟩
  dsimp only
  rw [hrun, Prog.ends_bind]
  refine runEvents_transfers hevents (fun sc' m' u hu => ?_) sc m t ht
  refine (runEvents_closing henv hne sc').imp ?_
  rintro _ k v ⟨rfl, hdata, hgone, hlast⟩
  have hwithin : Within (fun p => p = dest ∨ p = path) s v :=
    (hu.mono fun _ => Or.inr).trans hlast
  rw [Prog.ends_pure]
  simp only [Bool.true_and, beq_self_eq_true, if_true]
  unfold sizeMatches
  split
  next => exact (Prog.ends_pure _).mpr ⟨rfl, hdata, hgone, hwithin⟩
  next hgiven =>
    obtain ⟨f, hlookup, rfl⟩ := exists_lookup hdata
    rw [Prog.ends_bind, statFile_ends (henv _ _), hlookup]
    dsimp only
    rw [Prog.ends_pure]
    exact ⟨decide_eq_true (hsize.resolve_left hgiven), hdata, hgone, hwithin⟩

end Download

section Apart

variable {app : Bytes} {sidecar : Path}

theorem tempPath_ne_metadataFile (remote : Path) : tempPath remote ≠ metadataFile := by
  intro heq
  have hlen := congrArg List.length heq
  have hcut : (tempPath remote).length = min 511 (remote.length + 4) := by
    rw [tempPath, clip, List.length_take, List.length_append]
    rfl
  have hmeta : metadataFile.length = 24 := rfl
  have hfits : (remote ++ ascii ".tmp").length < maxPathLen := by
    have hext : (remote ++ ascii ".tmp").length = remote.length + 4 := by
      rw [List.length_append]
      rfl
    have hmax : maxPathLen = 512 := rfl
    omega
  rw [tempPath, clip_of_lt hfits] at heq
  have hlast := congrArg List.getLast? heq
  rw [List.getLast?_append_of_ne_nil _ (by decide)] at hlast
  exact absurd hlast (by decide)

theorem sidecar_eq (h : sessionStateSvuPath app = some sidecar) :
    sidecar = sessionStateDir ++ ascii "/" ++ app ++ sessionSvuExt := by
  unfold sessionStateSvuPath at h
  dsimp only at h
  split at h
  · exact (Option.some.inj h).symm
  · cases h

theorem sidecar_ne_metadata (h : sessionStateSvuPath app = some sidecar) :
    sidecar ≠ metadataFile := by
  rw [sidecar_eq h, List.append_assoc, List.append_assoc]
  intro heq
  have hfirst := congrArg (List.take 2) heq
  rw [List.take_append_of_le_length (by decide)] at hfirst
  exact absurd hfirst (by decide)

end Apart

end SatDeploy.Agent
