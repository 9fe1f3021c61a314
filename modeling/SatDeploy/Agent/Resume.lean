import SatDeploy.Agent.InstallAtomicity
import SatDeploy.Agent.SidecarDisk

/-!
Resuming a transfer after any number of passes that were cut short. A pass is
killed between two system calls; what its sidecar then holds is followed event
by event, next to the reassembly buffer in memory, and the next pass restores
that buffer.
-/

namespace SatDeploy.Agent

open Lib Svu

/-! ### A pass cut short -/

def isMeta : ClientEvent → Bool
  | .metaHook .. => true
  | _ => false

/-- What a pass did until it was cut short: the events whose calls were all made,
and the event of which only some were. -/
structure Record where
  done : List ClientEvent
  cut : Option ClientEvent

namespace Record

/-- The meta hook neither ran nor began. -/
def NoMeta (r : Record) : Prop :=
  (∀ e ∈ r.done, isMeta e = false) ∧ r.cut.any isMeta = false

/-- The kill fell between the truncation of the sidecar and its header. -/
def TornMeta (r : Record) : Prop := r.cut.any isMeta = true

/-- A fragment with byte `i` was received, and its data hook returned. -/
def Received (r : Record) (i : Nat) : Prop :=
  ∃ offset payload buffer, ClientEvent.dataHook offset payload buffer ∈ r.done ∧
    offset ≤ i ∧ i < offset + payload.length

/-- What can be restored after the pass, if `found` could be before it. -/
def leaves (r : Record) (found : Option Bytes) : Option Bytes :=
  if r.cut.any isMeta then none else lastBuffer found r.done

end Record

def resumable (records : List Record) : Option Bytes :=
  records.foldl (fun found r => r.leaves found) none

section Running

variable (env : Env) (path dest : Path)

/-- What a pass does for one event; `none` ends the pass. -/
def carryOut (sc : Sidecar) : ClientEvent → Prog Target (Option Sidecar)
  | .openOut _ => do
      if ← fopenWrite env dest then return some sc else return none
  | .writeOut payload => do
      let _ ← fwriteAll env dest payload
      fcloseWritten env dest
      return some sc
  | event => do
      let sc ← hookEvent env path sc event
      return some sc

/-- The pass can be cut short with `r` done, leaving the target in the last
state. An event is done once its last call is made. -/
inductive StoppedIn : List ClientEvent → Sidecar → Nat → Target → Record → Target → Prop
  | before (events : List ClientEvent) (sc : Sidecar) (n : Nat) (s : Target) :
      StoppedIn events sc n s ⟨[], none⟩ s
  | inside {event : ClientEvent} {rest : List ClientEvent} {sc : Sidecar} {n : Nat}
      {s t : Target} (ht : t ∈ (carryOut env path dest sc event n s).passed.dropLast) :
      StoppedIn (event :: rest) sc n s ⟨[], some event⟩ t
  | after {event : ClientEvent} {rest : List ClientEvent} {sc sc' : Sidecar} {n : Nat}
      {s t : Target} {r : Record}
      (hret : (carryOut env path dest sc event n s).result = some (some sc'))
      (hrest : StoppedIn rest sc' (carryOut env path dest sc event n s).calls
        (carryOut env path dest sc event n s).state r t) :
      StoppedIn (event :: rest) sc n s ⟨event :: r.done, r.cut⟩ t
  | failed {event : ClientEvent} {rest : List ClientEvent} {sc : Sidecar} {n : Nat} {s : Target}
      (hret : (carryOut env path dest sc event n s).result = some none) :
      StoppedIn (event :: rest) sc n s ⟨[event], none⟩ (carryOut env path dest sc event n s).state

variable {env path dest}

theorem runEvents_cons (event : ClientEvent) (rest : List ClientEvent) (sc : Sidecar) :
    runEvents env (some path) dest (event :: rest) sc =
      carryOut env path dest sc event >>= fun next =>
        match next with
        | some sc => runEvents env (some path) dest rest sc
        | none => pure false := by
  cases event with
  | openOut ok =>
      simp only [runEvents, carryOut]
      rw [Prog.bind_assoc]
      congr 1
      funext opened
      cases opened <;> rfl
  | writeOut payload =>
      simp only [runEvents, carryOut]
      rw [Prog.bind_assoc]
      congr 1
      funext written
      rw [Prog.bind_assoc]
      rfl
  | _ =>
      simp only [runEvents, carryOut]
      rw [Prog.bind_assoc]
      rfl

theorem hookEvent_settles (sc : Sidecar) (event : ClientEvent) :
    Prog.Settles (hookEvent env path sc event) := by
  have hheader (total block : Nat) : Prog.Settles (sidecarWriteHeader env path total block) :=
    .bind (.call _) fun _ => .ite (.pure _) (.pure _)
  cases event with
  | metaHook total block buffer =>
      refine .ite ?_ (.ite ?_ (hheader _ _))
      · exact .bind (.call _) fun _ => .ite (hheader _ _) (.pure _)
      · exact .bind (.call _) fun _ => hheader _ _
  | dataHook offset payload buffer =>
      refine .ite (.pure _) (.bind (.call _) fun _ => .ite (.pure _) ?_)
      exact .bind (.call _) fun _ => .pure _
  | completeHook => exact .bind (.call _) fun _ => .pure _
  | _ => exact .pure _

theorem carryOut_settles (sc : Sidecar) (event : ClientEvent) :
    Prog.Settles (carryOut env path dest sc event) := by
  cases event with
  | openOut ok => exact .bind (.call _) fun _ => .ite (.pure _) (.pure _)
  | writeOut payload => exact .bind (.call _) fun _ => .bind (.call _) fun _ => .pure _
  | _ => exact .bind (hookEvent_settles sc _) fun _ => .pure _

theorem carryOut_total (sc : Sidecar) (event : ClientEvent) :
    Prog.Total (carryOut env path dest sc event) := by
  cases event with
  | openOut ok => exact .bind (.call _) fun _ => .ite (.pure _) (.pure _)
  | writeOut payload => exact .bind (.call _) fun _ => .bind (.call _) fun _ => .pure _
  | _ => exact .bind (hookEvent_total sc _) fun _ => .pure _

/-- Wherever the events of a pass are cut short, something is on record. -/
theorem runEvents_stopped (events : List ClientEvent) : ∀ {sc : Sidecar} {n : Nat} {s t : Target},
    t = s ∨ t ∈ (runEvents env (some path) dest events sc n s).passed →
    ∃ r, StoppedIn env path dest events sc n s r t := by
  induction events with
  | nil =>
      rintro sc n s t (rfl | ht)
      · exact ⟨_, .before _ _ _ _⟩
      · cases ht
  | cons event rest ih =>
      rintro sc n s t (rfl | ht)
      · exact ⟨_, .before _ _ _ _⟩
      obtain ⟨next, hnext, -⟩ := @carryOut_total env path dest sc event n s
      rw [runEvents_cons] at ht
      change t ∈ (Prog.andThen _ _ n s).passed at ht
      rw [Prog.andThen_ended hnext] at ht
      have hleft : ∃ r, StoppedIn env path dest (event :: rest) sc n s r
          (carryOut env path dest sc event n s).state := by
        cases next with
        | none => exact ⟨_, .failed hnext⟩
        | some sc' => exact ⟨_, .after hnext (.before _ _ _ _)⟩
      rcases List.mem_append.mp ht with ht | ht
      · rcases (carryOut_settles sc event).passed ht with ht | rfl
        · exact ⟨_, .inside ht⟩
        · exact hleft
      · cases next with
        | none => cases ht
        | some sc' =>
            obtain ⟨r, hr⟩ := ih (Or.inr ht)
            exact ⟨_, .after hnext hr⟩

end Running

/-! ### The sidecar follows the buffer -/

section Following

variable {env : Env} {path dest : Path} {n : Nat} {s t : Target} {sc : Sidecar}
  {event : ClientEvent} {events : List ClientEvent} {r : Record}

theorem isMeta_of_other (h : event.buffer = none) : isMeta event = false := by
  cases event with
  | metaHook total block buffer => cases h
  | _ => rfl

/-- Events without a buffer leave the sidecar alone, but for the complete hook. -/
theorem carryOut_other (env : Env) (sc : Sidecar) (n : Nat) (s : Target) (hdest : dest ≠ path)
    (h : event.buffer = none) (hopen : event ≠ .completeHook) :
    (∀ u ∈ (carryOut env path dest sc event n s).passed, u.fs.lookup path = s.fs.lookup path) ∧
      (carryOut env path dest sc event n s).state.fs.lookup path = s.fs.lookup path ∧
      ∀ sc', (carryOut env path dest sc event n s).result = some (some sc') → sc' = sc := by
  have hframe : Spares (fun p => p = dest) (carryOut env path dest sc event) ∧
      Prog.Answers (carryOut env path dest sc event) fun next =>
        ∀ sc', next = some sc' → sc' = sc := by
    have hsame : ∀ sc', some sc = some sc' → sc' = sc := fun _ heq => (Option.some.inj heq).symm
    cases event with
    | openOut ok =>
        refine ⟨.bind (fopenWrite_spares (W := fun p => p = dest) rfl) fun _ =>
          .ite (.pure _) (.pure _), ?_⟩
        exact .after fun _ => .ite (.pure hsame) (.pure (by simp))
    | writeOut payload =>
        refine ⟨.bind (fwriteAll_spares (W := fun p => p = dest) rfl _) fun _ =>
          .bind (fcloseWritten_spares (W := fun p => p = dest) rfl) fun _ => .pure _, ?_⟩
        exact .after fun _ => .after fun _ => .pure hsame
    | completeHook => exact absurd rfl hopen
    | metaHook total block buffer => cases h
    | dataHook offset payload buffer => cases h
    | request round attempt req sent => exact ⟨.bind (.pure _) fun _ => .pure _, .pure hsame⟩
    | verdict v => exact ⟨.bind (.pure _) fun _ => .pure _, .pure hsame⟩
  obtain ⟨hspares, hanswers⟩ := hframe
  have hkeeps := hspares path (s.fs.lookup path) (fun heq => hdest heq.symm)
  refine ⟨hkeeps.passed rfl, hkeeps.state rfl, ?_⟩
  intro sc' hret
  have hend := (hanswers n s).2
  rw [hret] at hend
  exact hend sc' rfl

/-- The complete hook makes one call. -/
theorem carryOut_complete_inside :
    (carryOut env path dest sc .completeHook n s).passed.dropLast = [] := by
  change ((unlink env path n s).passed ++ [] ++ []).dropLast = []
  unfold unlink Prog.call
  dsimp only
  split <;> rfl

theorem carryOut_other_inside (hdest : dest ≠ path) (h : event.buffer = none)
    (ht : t ∈ (carryOut env path dest sc event n s).passed.dropLast) :
    t.fs.lookup path = s.fs.lookup path := by
  by_cases hcomplete : event = .completeHook
  · subst hcomplete
    rw [carryOut_complete_inside] at ht
    cases ht
  · exact (carryOut_other env sc n s hdest h hcomplete).1 t (List.mem_of_mem_dropLast ht)

theorem carryOut_data (dest : Path) (n : Nat) (henv : env.Serves path) {buffer payload : Bytes}
    {offset : Nat}
    (h : OnDisk path s (some buffer)) (hfits : offset + payload.length ≤ buffer.length)
    (kept : Bytes) :
    ∃ t m, carryOut env path dest (.holding (some buffer)) (.dataHook offset payload kept) n s =
        ⟨some (some (.holding (some (splice buffer offset payload)))), t, m, [t]⟩ ∧
      OnDisk path t (some (splice buffer offset payload)) := by
  obtain ⟨t, m, hrun, hdisk⟩ := dataHook_run (n := n) henv h hfits
  refine ⟨t, m, ?_, hdisk⟩
  change (sidecarData env path _ offset payload >>= _) n s = _
  rw [Prog.bind_run hrun]
  rfl

theorem carryOut_meta (dest : Path) (block n : Nat) (henv : env.Serves path)
    {found : Option Bytes} {total : Nat}
    (h : OnDisk path s found) (hpos : 0 < total) (hlt : total < 2 ^ 32) (kept : Bytes) :
    ∃ inside t m, carryOut env path dest (.holding found) (.metaHook total block kept) n s =
        ⟨some (some (.holding (some (startBuffer found total)))), t, m, inside ++ [t]⟩ ∧
      OnDisk path t (some (startBuffer found total)) ∧ ∀ u ∈ inside, OnDisk path u none := by
  obtain ⟨inside, t, m, hrun, hdisk, hinside⟩ :=
    metaHook_run block n henv h hpos hlt
  refine ⟨inside, t, m, ?_, hdisk, hinside⟩
  change (sidecarMeta env path _ total block >>= _) n s = _
  rw [Prog.bind_run hrun]
  simp only [List.append_assoc]
  rfl

/-- How a pass goes on that has its receiver: `later` is the buffer after the last
hook. -/
structure Continues (path : Path) (buffer : Bytes) (r : Record) (t : Target)
    (later : Bytes) : Prop where
  noMeta : r.NoMeta
  last_eq : lastBuffer (some buffer) r.done = some later
  onDisk : OnDisk path t (some later)
  length_eq : later.length = buffer.length
  received : ∀ i, later.getD i 0 ≠ 0 → r.Received i ∨ buffer.getD i 0 ≠ 0

theorem Continues.start {buffer : Bytes} {cut : Option ClientEvent} (hcut : cut.any isMeta = false)
    (h : OnDisk path t (some buffer)) : Continues path buffer ⟨[], cut⟩ t buffer :=
  ⟨⟨by simp, hcut⟩, rfl, h, rfl, fun _ hi => Or.inr hi⟩

theorem Record.Received.cons {done : List ClientEvent} {cut : Option ClientEvent} {i : Nat}
    (h : Record.Received ⟨done, cut⟩ i) : Record.Received ⟨event :: done, cut⟩ i := by
  obtain ⟨offset, payload, buffer, hmem, hi⟩ := h
  exact ⟨offset, payload, buffer, List.mem_cons_of_mem _ hmem, hi⟩

theorem Continues.other {buffer later : Bytes} (hevent : event.buffer = none)
    (h : Continues path buffer r t later) :
    Continues path buffer ⟨event :: r.done, r.cut⟩ t later := by
  refine ⟨⟨?_, h.noMeta.2⟩, ?_, h.onDisk, h.length_eq, fun i hi => (h.received i hi).imp_left .cons⟩
  · intro e he
    rcases List.mem_cons.mp he with rfl | he
    · exact isMeta_of_other hevent
    · exact h.noMeta.1 e he
  · rw [← h.last_eq]
    simp only [lastBuffer, List.foldl_cons, hevent, Option.none_or]

theorem Continues.data {buffer payload later : Bytes} {offset : Nat}
    (hfits : offset + payload.length ≤ buffer.length)
    (h : Continues path (splice buffer offset payload) r t later) :
    Continues path buffer
      ⟨.dataHook offset payload (splice buffer offset payload) :: r.done, r.cut⟩ t later := by
  refine ⟨⟨?_, h.noMeta.2⟩, h.last_eq, h.onDisk, ?_, ?_⟩
  · intro e he
    rcases List.mem_cons.mp he with rfl | he
    · rfl
    · exact h.noMeta.1 e he
  · rw [h.length_eq, length_splice hfits]
  · intro i hi
    rcases h.received i hi with hi | hi
    · exact Or.inl hi.cons
    · rw [getD_splice hfits] at hi
      split at hi
      next hin => exact Or.inl ⟨offset, payload, _, List.mem_cons_self, hin⟩
      next hout => exact Or.inr hi

/-- After the meta hook the sidecar holds the buffer of the last data hook. -/
theorem StoppedIn.filling (henv : env.Serves path) (hdest : dest ≠ path)
    (h : StoppedIn env path dest events sc n s r t) : ∀ {buffer : Bytes},
    Filling buffer events → sc = .holding (some buffer) → OnDisk path s (some buffer) →
    .completeHook ∉ r.done → ∃ later, Continues path buffer r t later := by
  induction h with
  | before events sc n s =>
      intro buffer _ _ hdisk _
      exact ⟨buffer, .start rfl hdisk⟩
  | @inside event rest sc n s t ht =>
      intro buffer hfill hsc hdisk _
      cases hfill with
      | other hevent hrest =>
          refine ⟨buffer, .start ?_ (hdisk.congr (carryOut_other_inside hdest hevent ht))⟩
          exact isMeta_of_other hevent
      | data hfits hrest =>
          subst hsc
          obtain ⟨u, m, hrun, -⟩ := carryOut_data dest n henv hdisk hfits _
          rw [hrun] at ht
          cases ht
  | @after event rest sc sc' n s t r hret hrest ih =>
      intro buffer hfill hsc hdisk hopen
      simp only [List.mem_cons, not_or] at hopen
      cases hfill with
      | other hevent hfill =>
          obtain ⟨-, hstate, hkept⟩ :=
            carryOut_other env sc n s hdest hevent (fun heq => hopen.1 heq.symm)
          obtain ⟨later, hlater⟩ := ih hfill ((hkept _ hret).trans hsc) (hdisk.congr hstate) hopen.2
          exact ⟨later, hlater.other hevent⟩
      | data hfits hfill =>
          subst hsc
          obtain ⟨u, m, hrun, hdisk'⟩ := carryOut_data dest n henv hdisk hfits _
          rw [hrun] at hret ih
          obtain ⟨later, hlater⟩ := ih hfill (Option.some.inj (Option.some.inj hret)).symm hdisk'
            hopen.2
          exact ⟨later, hlater.data hfits⟩
  | @failed event rest sc n s hret =>
      intro buffer hfill hsc hdisk hopen
      cases hfill with
      | other hevent hfill =>
          obtain ⟨-, hstate, -⟩ :=
            carryOut_other env sc n s hdest hevent (fun heq => hopen (by simp [heq]))
          exact ⟨buffer, (Continues.start rfl (hdisk.congr hstate)).other hevent⟩
      | data hfits hfill =>
          subst hsc
          obtain ⟨u, m, hrun, -⟩ := carryOut_data dest n henv hdisk hfits _
          rw [hrun] at hret
          cases hret

/-- How a pass ends that starts from what the passes before it left. -/
inductive PassEnds (path : Path) (found : Option Bytes) (r : Record) (t : Target) : Prop
  | quiet (hmeta : r.NoMeta) (hlast : lastBuffer found r.done = found) (hdisk : OnDisk path t found)
  | torn (hcut : r.TornMeta) (hdisk : OnDisk path t none)
  | held {block : Nat} {start later : Bytes}
      (hmeta : .metaHook later.length block start ∈ r.done) (hcut : r.cut.any isMeta = false)
      (hlast : ∀ found, lastBuffer found r.done = some later) (hdisk : OnDisk path t (some later))
      (hreceived : ∀ i, later.getD i 0 ≠ 0 →
        r.Received i ∨ ∃ old, found = some old ∧ old.getD i 0 ≠ 0)

theorem PassEnds.start {found : Option Bytes} {cut : Option ClientEvent}
    (hcut : cut.any isMeta = false) (h : OnDisk path t found) : PassEnds path found ⟨[], cut⟩ t :=
  .quiet ⟨by simp, hcut⟩ rfl h

theorem PassEnds.other {found : Option Bytes} (hevent : event.buffer = none)
    (h : PassEnds path found r t) : PassEnds path found ⟨event :: r.done, r.cut⟩ t := by
  have hlast (found : Option Bytes) :
      lastBuffer found (event :: r.done) = lastBuffer found r.done := by
    simp only [lastBuffer, List.foldl_cons, hevent, Option.none_or]
  cases h with
  | quiet hmeta hquiet hdisk =>
      refine .quiet ⟨?_, hmeta.2⟩ ((hlast found).trans hquiet) hdisk
      intro e he
      rcases List.mem_cons.mp he with rfl | he
      · exact isMeta_of_other hevent
      · exact hmeta.1 e he
  | torn hcut hdisk => exact .torn hcut hdisk
  | held hmeta hcut hheld hdisk hreceived =>
      refine .held (List.mem_cons_of_mem _ hmeta) hcut
        (fun found => (hlast found).trans (hheld found)) hdisk fun i hi => ?_
      exact (hreceived i hi).imp_left .cons

/-- What a run starts with comes from the seed. -/
theorem startBuffer_getD {found : Option Bytes} {total i : Nat}
    (h : (startBuffer found total).getD i 0 ≠ 0) :
    ∃ old, found = some old ∧ old.getD i 0 ≠ 0 := by
  unfold startBuffer at h
  split at h
  · split at h
    · exact ⟨_, rfl, h⟩
    · exact absurd (getD_zeros total i) h
  · exact absurd (getD_zeros total i) h

theorem Continues.begun {found : Option Bytes} {total block : Nat} {later : Bytes}
    (h : Continues path (startBuffer found total) r t later) :
    PassEnds path found ⟨.metaHook total block (startBuffer found total) :: r.done, r.cut⟩ t := by
  have hlen : later.length = total := h.length_eq.trans (length_startBuffer found total)
  refine @PassEnds.held _ _ _ _ block (startBuffer found total) later ?_ h.noMeta.2
    (fun _ => h.last_eq) h.onDisk ?_
  · rw [hlen]
    exact List.mem_cons_self
  · intro i hi
    rcases h.received i hi with hi | hi
    · exact Or.inl hi.cons
    · exact Or.inr (startBuffer_getD hi)

/-- What a pass leaves on disk, wherever it is cut short. -/
theorem StoppedIn.ends (henv : env.Serves path) (hdest : dest ≠ path)
    (h : StoppedIn env path dest events sc n s r t) {found : Option Bytes} :
    Starting found events → sc = .holding found → OnDisk path s found →
    .completeHook ∉ r.done → PassEnds path found r t := by
  induction h with
  | before events sc n s =>
      intro _ _ hdisk _
      exact .start rfl hdisk
  | @inside event rest sc n s t ht =>
      intro hstart hsc hdisk _
      cases hstart with
      | other hevent hrest =>
          have hcut : (some event).any isMeta = false := isMeta_of_other hevent
          exact .start hcut (hdisk.congr (carryOut_other_inside hdest hevent ht))
      | @begun total block rest hpos hlt hrest =>
          subst hsc
          obtain ⟨inside, u, m, hrun, -, hinside⟩ :=
            carryOut_meta dest block n henv hdisk hpos hlt
              (startBuffer found total)
          rw [hrun, List.dropLast_concat] at ht
          exact .torn rfl (hinside t ht)
  | @after event rest sc sc' n s t r hret hrest ih =>
      intro hstart hsc hdisk hopen
      simp only [List.mem_cons, not_or] at hopen
      cases hstart with
      | other hevent hstart =>
          obtain ⟨-, hstate, hkept⟩ :=
            carryOut_other env sc n s hdest hevent (fun heq => hopen.1 heq.symm)
          exact (ih hstart ((hkept _ hret).trans hsc) (hdisk.congr hstate) hopen.2).other hevent
      | @begun total block rest hpos hlt hfill =>
          subst hsc
          obtain ⟨inside, u, m, hrun, hdisk', -⟩ :=
            carryOut_meta dest block n henv hdisk hpos hlt
              (startBuffer found total)
          rw [hrun] at hret hrest
          obtain ⟨later, hlater⟩ := hrest.filling henv hdest hfill
            (Option.some.inj (Option.some.inj hret)).symm hdisk' hopen.2
          exact hlater.begun
  | @failed event rest sc n s hret =>
      intro hstart hsc hdisk hopen
      cases hstart with
      | other hevent hstart =>
          obtain ⟨-, hstate, -⟩ :=
            carryOut_other env sc n s hdest hevent (fun heq => hopen (by simp [heq]))
          exact (PassEnds.start rfl (hdisk.congr hstate)).other hevent
      | @begun total block rest hpos hlt hfill =>
          subst hsc
          obtain ⟨inside, u, m, hrun, -⟩ :=
            carryOut_meta dest block n henv hdisk hpos hlt
              (startBuffer found total)
          rw [hrun] at hret
          cases hret

theorem PassEnds.onDisk_leaves {found : Option Bytes} (h : PassEnds path found r t) :
    OnDisk path t (r.leaves found) := by
  unfold Record.leaves
  cases h with
  | quiet hmeta hlast hdisk =>
      rw [hmeta.2, hlast]
      exact hdisk
  | torn hcut hdisk =>
      rw [hcut, if_pos rfl]
      exact hdisk
  | held hmeta hcut hlast hdisk hreceived =>
      rw [hcut, hlast]
      exact hdisk

end Following

/-! ### Passes of `svu_download_file` -/

/-- One call of `svu_download_file` and the world it runs in. -/
structure Pass where
  env : Env
  link : Link
  serverNode : Nat
  dest : Path
  expectedSize : Nat
  mtu : Nat

namespace Pass

def run (p : Pass) (app : Bytes) : Prog Target Bool :=
  svuDownloadFile p.env p.link p.serverNode p.dest p.expectedSize app p.mtu

/-- The arguments are taken. -/
def Accepted (p : Pass) : Prop := p.dest ≠ [] ∧ p.serverNode ≤ 0xFFFF

/-- The part of a pass before the transfer loop: where the sidecar is, and what the
restore hook gave. -/
def setup (p : Pass) (app : Bytes) : Prog Target (Option Path × Option Bytes × Sidecar) := do
  let made ← mkdirP p.env sessionStateDir
  let seed ← restoreSeed p.env (sidecarPath made app) p.link.allocated
  return (sidecarPath made app, seed)

def events (p : Pass) (seed : Option Bytes) : List ClientEvent :=
  (svuClientRunHooked (clientConfig p.mtu) (p.link.clientEnv seed)).2

/-- A pass for `app` that starts in `s` can be cut short, or end, with `r` done and
the target in the last state. Without a sidecar no hook is called. -/
inductive Stops (p : Pass) (app : Bytes) (s : Target) : Record → Target → Prop
  | unstarted : Stops p app s ⟨[], none⟩ s
  | setup {t : Target} (hargs : p.Accepted) (ht : t ∈ (p.setup app 0 s).passed) :
      Stops p app s ⟨[], none⟩ t
  | bare {seed : Option Bytes} {sc : Sidecar} {t : Target} (hargs : p.Accepted)
      (hset : (p.setup app 0 s).result = some (none, seed, sc))
      (ht : t ∈ (runEvents p.env none p.dest (p.events seed) sc (p.setup app 0 s).calls
        (p.setup app 0 s).state).passed) : Stops p app s ⟨[], none⟩ t
  | hooked {path : Path} {seed : Option Bytes} {sc : Sidecar} {r : Record} {t : Target}
      (hargs : p.Accepted) (hset : (p.setup app 0 s).result = some (some path, seed, sc))
      (hstop : StoppedIn p.env path p.dest (p.events seed) sc (p.setup app 0 s).calls
        (p.setup app 0 s).state r t) : Stops p app s r t

/-- The pass is served: nothing fails that its sidecar needs, and it does not
download onto it. -/
structure Served (p : Pass) (path : Path) : Prop where
  serves : p.env.Serves path
  allocated : p.link.allocated = true
  dest_ne : p.dest ≠ path

section Stopping

variable {p : Pass} {app : Bytes} {path : Path} {s t : Target} {r : Record}

theorem run_eq (h : p.Accepted) :
    p.run app = p.setup app >>= fun start => do
      let opened ← runEvents p.env start.1 p.dest (p.events start.2.1) start.2.2
      if opened && (svuClientRunHooked (clientConfig p.mtu) (p.link.clientEnv start.2.1)).1 == 0
      then sizeMatches p.env p.dest p.expectedSize
      else return false := by
  unfold run svuDownloadFile setup clientRun
  rw [if_neg h.1, if_neg (by have := h.2; omega)]
  simp only [Prog.bind_assoc]
  rfl

theorem sizeMatches_observes (env : Env) (dest : Path) (expectedSize : Nat) :
    Prog.Observes (sizeMatches env dest expectedSize) fun _ _ => True := by
  unfold sizeMatches
  split
  · exact .pure fun _ => trivial
  · refine (statFile_observes dest).bind fun st => ?_
    cases st with
    | none => exact .pure fun _ _ => trivial
    | some st => exact .pure fun _ _ => trivial

theorem setup_total : Prog.Total (p.setup app) :=
  .bind (mkdirP_total _) fun _ => .bind (restoreSeed_total _ _) fun _ => .pure _

/-- Wherever a pass is cut short, something is on record. -/
theorem stops_of_passed (h : t = s ∨ t ∈ (p.run app 0 s).passed) : ∃ r, p.Stops app s r t := by
  rcases h with rfl | ht
  · exact ⟨_, .unstarted⟩
  by_cases hargs : p.Accepted
  · rw [run_eq hargs] at ht
    obtain ⟨start, hset, -⟩ := @setup_total p app 0 s
    change t ∈ (Prog.andThen _ _ 0 s).passed at ht
    rw [Prog.andThen_ended hset] at ht
    rcases List.mem_append.mp ht with ht | ht
    · exact ⟨_, .setup hargs ht⟩
    -- the loop, and the look at the size after it
    obtain ⟨opened, hopened, -⟩ := @runEvents_total p.env p.dest start.1
      (p.events start.2.1) start.2.2 (p.setup app 0 s).calls (p.setup app 0 s).state
    change t ∈ (Prog.andThen _ _ _ _).passed at ht
    rw [Prog.andThen_ended hopened] at ht
    have hlast (b : Bool) (m : Nat) (u : Target) : ((if b then
        sizeMatches p.env p.dest p.expectedSize else return false : Prog Target Bool) m u).passed =
          [] := by
      cases b with
      | false => rfl
      | true =>
          obtain ⟨_, _, hrun, -⟩ := sizeMatches_observes p.env p.dest p.expectedSize m u
          rw [if_pos rfl, hrun]
    rw [hlast, List.append_nil] at ht
    obtain ⟨sidecar, seed, sc⟩ := start
    cases sidecar with
    | none => exact ⟨_, .bare hargs hset ht⟩
    | some path =>
        obtain ⟨r, hr⟩ := runEvents_stopped _ (Or.inr ht)
        exact ⟨r, .hooked hargs hset hr⟩
  · have hrefused : p.run app = pure false := by
      unfold run svuDownloadFile
      by_cases hdest : p.dest = []
      · rw [if_pos hdest]
      · have hnode : ¬ p.serverNode ≤ 0xFFFF := fun h => hargs ⟨hdest, h⟩
        rw [if_neg hdest, if_pos (by omega)]
    rw [hrefused] at ht
    cases ht

theorem run_settles : Prog.Settles (p.run app) := by
  have hmkdir : ∀ paths, Prog.Settles (mkdirAll p.env paths) := by
    intro paths
    induction paths with
    | nil => exact .pure _
    | cons q rest ih => exact .bind (.call _) fun _ => .ite ih (.pure _)
  have hrestore : ∀ sidecar, Prog.Settles (restoreSeed p.env sidecar p.link.allocated) := by
    intro sidecar
    cases sidecar with
    | none => exact .pure _
    | some path =>
        refine .bind (.call _) fun _ => .ite (.bind (.call _) fun _ => .ite (.ite ?_ (.pure _)) ?_)
          (.pure _)
        · refine .bind (.call _) fun got => ?_
          cases got with
          | none => exact .bind (.call _) fun _ => .pure _
          | some got => exact .pure _
        · exact .bind (.call _) fun _ => .pure _
  have hsize : Prog.Settles (sizeMatches p.env p.dest p.expectedSize) := by
    refine .ite (.pure _) (.bind (.call _) fun st => ?_)
    cases st with
    | none => exact .pure _
    | some st => exact .pure _
  have hevents : ∀ sidecar events sc, Prog.Settles (runEvents p.env sidecar p.dest events sc) := by
    intro sidecar events
    induction events with
    | nil => exact fun _ => .pure _
    | cons event rest ih =>
        intro sc
        cases sidecar with
        | some path =>
            rw [runEvents_cons]
            refine .bind (carryOut_settles sc event) fun next => ?_
            cases next with
            | none => exact .pure _
            | some sc' => exact ih sc'
        | none =>
            cases event with
            | openOut ok => exact .bind (.call _) fun _ => .ite (ih sc) (.pure _)
            | writeOut payload => exact .bind (.call _) fun _ => .bind (.call _) fun _ => ih sc
            | _ => exact ih sc
  refine .ite (.pure _) (.ite (.pure _) (.bind (hmkdir _) fun made => ?_))
  refine .bind (.bind (hrestore _) fun seed => ?_) fun _ => .ite hsize (.pure _)
  exact .bind (hevents _ _ _) fun _ => .pure _

/-- The parts before the loop leave what is on disk, and find it. -/
theorem setup_wp (hpath : sessionStateSvuPath app = some path) (hp : p.Served path)
    {found : Option Bytes} (h : OnDisk path s found) :
    Prog.wp (p.setup app) (fun t => OnDisk path t found)
      (fun start _ t => OnDisk path t found ∧ ∀ q, start.1 = some q →
        q = path ∧ start.2 = (found, .holding found)) 0 s := by
  have hmkdir := @mkdirP_spares p.env (fun _ => False) sessionStateDir path
    (s.fs.lookup path) id 0 s rfl
  unfold setup
  rw [Prog.wp_bind]
  refine Prog.wp_mono hmkdir (fun t ht => h.congr ht) fun made n t ht => ?_
  have hdisk := h.congr ht
  rw [Prog.wp_bind]
  cases made with
  | false =>
      simp only [sidecarPath, Bool.false_eq_true, if_false, restoreSeed, Prog.wp_pure]
      exact ⟨hdisk, by simp⟩
  | true =>
      simp only [sidecarPath, if_true, hpath, restoreSeed, hp.allocated]
      refine Prog.wp_imp (sidecarRestore_wp hp.serves hdisk) fun seed m u hseed => ?_
      rw [Prog.wp_pure]
      refine ⟨hseed.2, fun q hq => ?_⟩
      exact ⟨(Option.some.inj hq).symm, hseed.1⟩

/-- What a served pass leaves on disk. -/
theorem Stops.ends (hpath : sessionStateSvuPath app = some path) (hp : p.Served path)
    (h : p.Stops app s r t) {found : Option Bytes} (hdisk : OnDisk path s found)
    (hopen : .completeHook ∉ r.done) : PassEnds path found r t := by
  cases h with
  | unstarted => exact .start rfl hdisk
  | setup hargs ht => exact .start rfl ((setup_wp hpath hp hdisk).1 t ht)
  | @bare seed sc t hargs hset ht =>
      have hend := (setup_wp hpath hp hdisk).2
      rw [hset] at hend
      have hspares := @runEvents_spares p.env (fun q => q = p.dest) p.dest none rfl (by simp)
      have hkeeps := hspares (p.events seed) sc path ((p.setup app 0 s).state.fs.lookup path)
        (fun heq => hp.dest_ne heq.symm)
      exact .start rfl (hend.1.congr (hkeeps.passed rfl t ht))
  | @hooked path' seed sc r t hargs hset hstop =>
      have hend := (setup_wp hpath hp hdisk).2
      rw [hset] at hend
      obtain ⟨rfl, hseed⟩ := hend.2 _ rfl
      obtain ⟨rfl, rfl⟩ := Prod.mk.inj hseed
      have hstart := svuClientRunHooked_starting (clientConfig p.mtu) (p.link.clientEnv seed)
      exact hstop.ends hp.serves hp.dest_ne hstart rfl hend.1 hopen

end Stopping

end Pass

/-! ### Any number of passes -/

/-- Passes for one app, each cut short before its complete hook; between them
anything may happen that leaves the sidecar alone. -/
inductive History (app : Bytes) (path : Path) : List Record → Target → Prop
  | fresh {s : Target} (h : s.fs.lookup path = none) : History app path [] s
  | pass {records : List Record} {s s' t : Target} {p : Pass} {r : Record}
      (hist : History app path records s) (hsame : s'.fs.lookup path = s.fs.lookup path)
      (hp : p.Served path) (hstop : p.Stops app s' r t) (hopen : .completeHook ∉ r.done) :
      History app path (records ++ [r]) t

/-- Where what can be restored comes from: the last pass whose meta hook ran or
began. -/
inductive Accounts (records : List Record) : Option Bytes → Prop
  | unbegun (hmeta : ∀ r ∈ records, r.NoMeta) : Accounts records none
  | torn {earlier later : List Record} {r : Record} (heq : records = earlier ++ r :: later)
      (hcut : r.TornMeta) (hlater : ∀ q ∈ later, q.NoMeta) : Accounts records none
  | held {earlier later : List Record} {r : Record} {block : Nat} {start buffer : Bytes}
      (heq : records = earlier ++ r :: later)
      (hmeta : .metaHook buffer.length block start ∈ r.done)
      (hlast : lastBuffer none r.done = some buffer)
      (hlater : ∀ q ∈ later, q.NoMeta) : Accounts records (some buffer)

section Histories

variable {app : Bytes} {path : Path} {records : List Record} {s : Target}

theorem resumable_append (records : List Record) (r : Record) :
    resumable (records ++ [r]) = r.leaves (resumable records) :=
  List.foldl_append

theorem Accounts.quiet {found : Option Bytes} {r : Record} (h : Accounts records found)
    (hr : r.NoMeta) : Accounts (records ++ [r]) found := by
  have hsnoc {later : List Record} (hlater : ∀ q ∈ later, q.NoMeta) :
      ∀ q ∈ later ++ [r], q.NoMeta := by
    intro q hq
    rcases List.mem_append.mp hq with hq | hq
    · exact hlater q hq
    · rw [List.mem_singleton.mp hq]
      exact hr
  cases h with
  | unbegun hmeta => exact .unbegun (hsnoc hmeta)
  | torn heq hcut hlater =>
      exact .torn (by rw [heq, List.append_assoc, List.cons_append]) hcut (hsnoc hlater)
  | held heq hmeta hlast hlater =>
      exact .held (by rw [heq, List.append_assoc, List.cons_append]) hmeta hlast (hsnoc hlater)

/-- One more pass: what it leaves on disk, where that comes from, and whose bytes
it has. -/
theorem PassEnds.step {r : Record} {t : Target} (h : PassEnds path (resumable records) r t)
    (haccounts : Accounts records (resumable records))
    (hreceived : ∀ buffer, resumable records = some buffer →
      ∀ i, buffer.getD i 0 ≠ 0 → ∃ q ∈ records, q.Received i) :
    Accounts (records ++ [r]) (resumable (records ++ [r])) ∧
      ∀ buffer, resumable (records ++ [r]) = some buffer →
        ∀ i, buffer.getD i 0 ≠ 0 → ∃ q ∈ records ++ [r], q.Received i := by
  have hold {buffer : Bytes} (hbuffer : resumable records = some buffer) {i : Nat}
      (hi : buffer.getD i 0 ≠ 0) : ∃ q ∈ records ++ [r], q.Received i := by
    obtain ⟨q, hq, hgot⟩ := hreceived buffer hbuffer i hi
    exact ⟨q, List.mem_append_left _ hq, hgot⟩
  rw [resumable_append, Record.leaves]
  cases h with
  | quiet hmeta hlast hdisk =>
      simp only [hmeta.2, Bool.false_eq_true, if_false, hlast]
      exact ⟨haccounts.quiet hmeta, fun buffer hbuffer i hi => hold hbuffer hi⟩
  | torn hcut hdisk =>
      have hcut' : r.cut.any isMeta = true := hcut
      simp only [hcut', if_true]
      exact ⟨.torn rfl hcut (by simp), by simp⟩
  | held hmeta hcut hlast hdisk hgot =>
      simp only [hcut, Bool.false_eq_true, if_false, hlast]
      refine ⟨.held rfl hmeta (hlast none) (by simp), ?_⟩
      rintro buffer hbuffer i hi
      rw [← Option.some.inj hbuffer] at hi
      rcases hgot i hi with hi | ⟨old, hfound, hi⟩
      · exact ⟨r, by simp, hi⟩
      · exact hold hfound hi

/-- The sidecar after any history. -/
theorem History.sound (hpath : sessionStateSvuPath app = some path)
    (h : History app path records s) :
    OnDisk path s (resumable records) ∧ Accounts records (resumable records) ∧
      ∀ buffer, resumable records = some buffer →
        ∀ i, buffer.getD i 0 ≠ 0 → ∃ r ∈ records, r.Received i := by
  induction h with
  | fresh hnone =>
      refine ⟨Or.inl ?_, .unbegun (by simp), fun buffer hbuffer => ?_⟩
      · rw [Target.content, hnone]
        rfl
      · cases hbuffer
  | pass hist hsame hp hstop hopen ih =>
      obtain ⟨hdisk, haccounts, hreceived⟩ := ih
      have hend := hstop.ends hpath hp (hdisk.congr hsame) hopen
      refine ⟨?_, hend.step haccounts hreceived⟩
      rw [resumable_append]
      exact hend.onDisk_leaves

theorem sidecarRestore_ends {env : Env} (henv : env.Serves path) {found : Option Bytes}
    (h : OnDisk path s found) (n : Nat) :
    Prog.Ends (sidecarRestore env path true) (fun r _ _ => r.1 = found) n s := by
  have htotal : Prog.Total (sidecarRestore env path true) :=
    @restoreSeed_total env (some path) true
  exact ((htotal n s).and_wp (sidecarRestore_wp henv h)).imp fun _ _ _ hend =>
    congrArg Prod.fst hend.2.1

/-- Only blocks that differ are in the reported ranges. -/
theorem differs_of_reported {v : Verdict} {bytes : Bytes} {block : Nat} {digest : Nat → Bytes}
    (hblock : 0 < block) (h : ReportsRuns v bytes block digest) {span : Span}
    (hspan : span ∈ v.out) {i : Nat} (hlow : span.start ≤ i) (hhigh : i < span.stop) :
    Differs bytes block digest (i / block) := by
  obtain ⟨ranges, -, hout, -, hruns⟩ := h
  rw [hout] at hspan
  obtain ⟨w, hw, rfl⟩ := (hruns span).mp (List.mem_of_mem_take hspan)
  exact ((hw.positions hblock fun b hb => hb.1).inside i hlow hhigh).2

end Histories

/-- A transfer resumes wherever the passes before were cut short. The restore hook
gives the buffer of the last pass whose meta hook ran, after its last data hook, with
zeros where no fragment of any pass came; nothing before the first meta hook, and
nothing when the last one was cut short inside. The next run that gets a manifest for
the same length first verifies these bytes, with the fragments written over them that
came before, and reports the runs of blocks that differ and no other block. -/
theorem resume_after_kills {app : Bytes} {path : Path}
    (hpath : sessionStateSvuPath app = some path) {records : List Record} {s : Target}
    (hist : History app path records s) :
    (∀ env : Env, env.Serves path → ∀ n,
      Prog.Ends (sidecarRestore env path true) (fun r _ _ => r.1 = resumable records) n s) ∧
    Accounts records (resumable records) ∧
    ∀ buffer, resumable records = some buffer →
      (∀ i, buffer.getD i 0 ≠ 0 → ∃ r ∈ records, r.Received i) ∧
      ∀ (link : Link) (mtu : Nat) (reply : CtrlReply),
        firstReply (link.clientEnv (some buffer)) 1 = some reply →
        reply.total = buffer.length →
        (ciSvuNew link.allocated reply.total reply.block (reply.memory link.heap)
          reply.nblocks).isSome →
        ∃ before v after,
          (svuClientRunHooked (clientConfig mtu) (link.clientEnv (some buffer))).2 =
            before ++ .verdict v :: after ∧
          (∀ w, .verdict w ∉ before) ∧
          ReportsRuns v (overlay buffer before) reply.block (reply.digest link.heap) ∧
          ∀ span ∈ v.out, ∀ i, span.start ≤ i → i < span.stop →
            Differs (overlay buffer before) reply.block (reply.digest link.heap)
              (i / reply.block) := by
  obtain ⟨hdisk, haccounts, hreceived⟩ := hist.sound hpath
  refine ⟨fun env henv n => sidecarRestore_ends henv hdisk n, haccounts, ?_⟩
  intro buffer hbuffer
  refine ⟨hreceived buffer hbuffer, ?_⟩
  intro link mtu reply hreply hsame hnew
  have hrounds : (clientConfig mtu).maxRounds ≠ 0 := by
    change svuMaxRounds ≠ 0
    decide
  obtain ⟨before, v, after, hrun, hquiet, hreport⟩ :=
    first_verdict (link.clientEnv (some buffer)) hrounds rfl hreply hsame hnew
  obtain ⟨fresh, hfresh⟩ := Option.isSome_iff_exists.mp hnew
  have hblock : 0 < reply.block := by
    obtain ⟨hne, -, -⟩ := ciSvuNew_eq_some hfresh
    unfold ciSvuNblocks at hne
    split at hne
    · exact absurd rfl hne
    · omega
  exact ⟨before, v, after, hrun, hquiet, hreport, fun span hspan i hlow hhigh =>
    differs_of_reported hblock hreport hspan hlow hhigh⟩

/-! ### A transfer of two bytes -/

section SmallPasses

def resumeApp : Bytes := ascii "a"

def resumeSidecar : Path := ascii "/var/lib/satdeploy/state/a.svupart"

def emptyTarget : Target := ⟨∅, some [], .zero⟩

def quietEnv : Env := calmEnv demoTime

/-- A pass that nothing disturbs, over the link of the artifact `hi`. -/
def smallPass (dest : Path) : Pass := ⟨quietEnv, smallLink, 1, dest, 0, 0⟩

def smallRequest : ClientEvent :=
  .request 1 0 (buildRequest (clientConfig 0) ⟨none, none, [], 0⟩) true

/-- Killed after the meta hook. -/
def metaRecord : Record := ⟨[smallRequest, .metaHook 2 4096 [0, 0]], none⟩

/-- Killed with the output file open. -/
def openRecord : Record :=
  ⟨[smallRequest, .metaHook 2 4096 [0, 0], .dataHook 0 smallArtifact smallArtifact,
    .verdict ⟨.completeVerified, [], 0⟩, .openOut true], none⟩

theorem quietEnv_serves (path : Path) : quietEnv.Serves path :=
  ⟨fun _ => rfl, fun _ => rfl, fun _ => rfl, fun _ => rfl, fun _ => rfl⟩

theorem resumeApp_path : sessionStateSvuPath resumeApp = some resumeSidecar := by
  decide +kernel

theorem smallPass_setup (dest : Path) :
    ((smallPass dest).setup resumeApp 0 emptyTarget).result =
        some (some resumeSidecar, none, .closed) ∧
      ((smallPass dest).setup resumeApp 0 emptyTarget).state = emptyTarget := by
  have hends : Prog.Ends ((smallPass dest).setup resumeApp)
      (fun start _ t => start = (some resumeSidecar, none, .closed) ∧ t = emptyTarget)
      0 emptyTarget := by
    unfold Pass.setup
    rw [Prog.ends_bind]
    refine (mkdirP_ends (fun _ _ => rfl) _).imp fun made n t hmade => ?_
    obtain ⟨rfl, rfl⟩ := hmade
    have hside : sidecarPath true resumeApp = some resumeSidecar := resumeApp_path
    rw [Prog.ends_bind, hside]
    refine (restoreSeed_ends fun _ _ => rfl).imp fun seed m u hseed => ?_
    obtain ⟨rfl, rfl⟩ := hseed
    rw [Prog.ends_pure]
    exact ⟨rfl, rfl⟩
  obtain ⟨start, hresult, rfl, hstate⟩ := hends
  exact ⟨hresult, hstate⟩

theorem smallPass_stops {dest : Path} (hdest : dest ≠ []) {r : Record} {t : Target}
    (h : StoppedIn quietEnv resumeSidecar dest (smallRequest :: smallTail) .closed
      ((smallPass dest).setup resumeApp 0 emptyTarget).calls emptyTarget r t) :
    (smallPass dest).Stops resumeApp emptyTarget r t := by
  obtain ⟨hset, hstate⟩ := smallPass_setup dest
  have hevents : (smallPass dest).events none = smallRequest :: smallTail :=
    congrArg Prod.snd (smallLink_run 0)
  have hnode : (1 : Nat) ≤ 0xFFFF := by decide
  refine .hooked ⟨hdest, hnode⟩ hset ?_
  rw [hevents, hstate]
  exact h

theorem StoppedIn.next {env : Env} {path dest : Path} {event : ClientEvent}
    {rest : List ClientEvent} {sc sc' : Sidecar} {n m : Nat} {s u t : Target}
    {passed : List Target} {r : Record}
    (hrun : carryOut env path dest sc event n s = ⟨some (some sc'), u, m, passed⟩)
    (hrest : StoppedIn env path dest rest sc' m u r t) :
    StoppedIn env path dest (event :: rest) sc n s ⟨event :: r.done, r.cut⟩ t :=
  .after (by rw [hrun]) (by rw [hrun]; exact hrest)

theorem emptyTarget_onDisk : OnDisk resumeSidecar emptyTarget none := Or.inl rfl

/-- A first pass that is killed after its meta hook. -/
theorem history_meta : ∃ s, History resumeApp resumeSidecar [metaRecord] s := by
  let dest := ascii "/tmp/a"
  have hdest : dest ≠ [] := by decide
  obtain ⟨inside, t, m, hrun, -⟩ := carryOut_meta dest 4096
    ((smallPass dest).setup resumeApp 0 emptyTarget).calls (quietEnv_serves _)
    emptyTarget_onDisk (by decide : 0 < 2) (by decide) [0, 0]
  have hstop : (smallPass dest).Stops resumeApp emptyTarget metaRecord t :=
    smallPass_stops hdest (.next rfl (.next hrun (.before _ _ _ _)))
  have hserved : (smallPass dest).Served resumeSidecar :=
    ⟨quietEnv_serves _, rfl, by decide +kernel⟩
  exact ⟨t, .pass (.fresh rfl) rfl hserved hstop (by decide +kernel)⟩

/-- A first pass that is killed after its meta hook leaves two zeros. -/
theorem resume_after_kills_zeros :
    ∃ s, Prog.Ends (sidecarRestore quietEnv resumeSidecar true)
      (fun r _ _ => r.1 = some [0, 0]) 0 s := by
  obtain ⟨s, hist⟩ := history_meta
  exact ⟨s, (resume_after_kills resumeApp_path hist).1 quietEnv (quietEnv_serves _) 0⟩

/-- The next run, into whose first drain the artifact falls. -/
theorem smallLink_resumed :
    ∃ after, (svuClientRunHooked (clientConfig 0) (smallLink.clientEnv (some [0, 0]))).2 =
      [.request 1 0 (buildRequest (clientConfig 0) ⟨none, some [0, 0], [⟨0, 0⟩], 1⟩) true,
        .metaHook 2 4096 [0, 0], .dataHook 0 smallArtifact smallArtifact] ++
        .verdict ⟨.completeVerified, [], 0⟩ :: after := by
  have hattach : attachReceiver (smallLink.clientEnv (some [0, 0]))
      ⟨none, some [0, 0], [⟨0, 0⟩], 1⟩ smallReply =
      some ({ smallFull with data := [0, 0] }, [.metaHook 2 4096 [0, 0]]) := by
    decide +kernel
  have hdrain : drainLoop { smallFull with data := [0, 0] } (smallLink.drains 1) =
      (smallFull, ⟨.completeVerified, [], 0⟩,
        [.dataHook 0 smallArtifact smallArtifact, .verdict ⟨.completeVerified, [], 0⟩]) := by
    decide +kernel
  have hctrl : ctrlAttempts ((smallLink.clientEnv (some [0, 0])).ctrl 1) 1 maxAttempts 0
      (buildRequest (clientConfig 0) ⟨none, some [0, 0], [⟨0, 0⟩], 1⟩) =
      (some smallReply,
        [.request 1 0 (buildRequest (clientConfig 0) ⟨none, some [0, 0], [⟨0, 0⟩], 1⟩) true]) :=
    ctrlAttempts_answered smallCtrl_reply
  have hrun := roundLoop_verified (clientConfig 0) (smallLink.clientEnv (some [0, 0])) 23
    hctrl hattach hdrain rfl
  exact ⟨_, congrArg Prod.snd hrun⟩

/-- The two restored zeros are a block that differs, and a verdict without ranges
does not report it. -/
theorem zeros_not_reported :
    ¬ ReportsRuns ⟨.completeVerified, [], 0⟩ [0, 0] 4096
      (smallReply.digest smallLink.heap) := by
  have hzeros : Differs [0, 0] 4096 (smallReply.digest smallLink.heap) 0 :=
    ⟨by decide, by decide +kernel⟩
  rintro ⟨ranges, -, -, hcount, hruns⟩
  have hnil : ranges = [] := List.length_eq_zero_iff.mp hcount.symm
  have hmem : Span.ofBlocks 2 4096 ⟨0, 1⟩ ∈ ranges := by
    refine (hruns _).mpr ⟨⟨0, 1⟩, ⟨by decide, ?_, ?_, ?_⟩, rfl⟩
    · intro b _ hb
      have hb0 : b = 0 := Nat.lt_one_iff.mp hb
      rw [hb0]
      exact hzeros
    · rintro ⟨hlt, -⟩
      exact absurd hlt (by decide)
    · intro b hb
      cases hb
  rw [hnil] at hmem
  cases hmem

/-- An operating system on which the sidecar cannot be opened again. -/
def shutEnv : Env :=
  { quietEnv with fault := fun _ op => if op = .openUpdate resumeSidecar then some 0 else none }

theorem shutEnv_restores (s : Target) :
    Prog.Ends (sidecarRestore shutEnv resumeSidecar true) (fun r _ _ => r.1 = none) 0 s := by
  have hshut : shutEnv.ok 0 (.openUpdate resumeSidecar) = false := by
    simp [Env.ok, shutEnv]
  rw [sidecarRestore, Prog.ends_bind, openUpdate, Prog.ends_call]
  simp only [hshut, Bool.false_and, Bool.false_eq_true, if_false, Prog.ends_pure]

/-- A pass that downloads onto its own sidecar, killed once the output file is
open. -/
theorem own_sidecar_emptied :
    ∃ t, (smallPass resumeSidecar).Stops resumeApp emptyTarget openRecord t ∧
      OnDisk resumeSidecar t none := by
  have hdest : resumeSidecar ≠ [] := by decide
  obtain ⟨inside, t, m, hmeta, hdisk, -⟩ := carryOut_meta resumeSidecar 4096
    ((smallPass resumeSidecar).setup resumeApp 0 emptyTarget).calls (quietEnv_serves _)
    emptyTarget_onDisk (by decide : 0 < 2) (by decide) [0, 0]
  obtain ⟨u, k, hdata, -⟩ := carryOut_data resumeSidecar m (quietEnv_serves _) hdisk
    (show 0 + smallArtifact.length ≤ _ by decide) smallArtifact
  have hopen : carryOut quietEnv resumeSidecar resumeSidecar
      (.holding (some (splice (startBuffer none 2) 0 smallArtifact))) (.openOut true) k u =
      ⟨some (some (.holding (some (splice (startBuffer none 2) 0 smallArtifact)))),
        u.put resumeSidecar ⟨[], u.modeOf resumeSidecar, 0⟩, k + 1,
        [u.put resumeSidecar ⟨[], u.modeOf resumeSidecar, 0⟩]⟩ := rfl
  refine ⟨_, smallPass_stops hdest (.next rfl (.next hmeta (.next hdata (.next rfl
    (.next hopen (.before _ _ _ _)))))), Or.inr ?_⟩
  rw [Target.content_put]

/-- A fragment that comes before the first verification is verified with what was
restored; a sidecar that cannot be opened is not restored; and a pass that downloads
onto its own sidecar loses it. -/
theorem resume_is_disturbed :
    (∃ records s, History resumeApp resumeSidecar records s ∧ resumable records = some [0, 0] ∧
      firstReply (smallLink.clientEnv (some [0, 0])) 1 = some smallReply ∧
      ∃ before v after,
        (svuClientRunHooked (clientConfig 0) (smallLink.clientEnv (some [0, 0]))).2 =
          before ++ .verdict v :: after ∧
        (∀ w, .verdict w ∉ before) ∧
        ¬ ReportsRuns v [0, 0] smallReply.block (smallReply.digest smallLink.heap)) ∧
    (∃ records s, History resumeApp resumeSidecar records s ∧ resumable records = some [0, 0] ∧
      Prog.Ends (sidecarRestore shutEnv resumeSidecar true) (fun r _ _ => r.1 = none) 0 s) ∧
    ∃ s, (smallPass resumeSidecar).Stops resumeApp emptyTarget openRecord s ∧
      resumable [openRecord] = some smallArtifact ∧
      Prog.Ends (sidecarRestore quietEnv resumeSidecar true) (fun r _ _ => r.1 = none) 0 s := by
  obtain ⟨s, hist⟩ := history_meta
  refine ⟨⟨_, s, hist, rfl, ?_, ?_⟩, ⟨_, s, hist, rfl, shutEnv_restores s⟩, ?_⟩
  · decide +kernel
  · obtain ⟨after, hrun⟩ := smallLink_resumed
    exact ⟨_, _, after, hrun, by simp, zeros_not_reported⟩
  · obtain ⟨t, hstop, hdisk⟩ := own_sidecar_emptied
    exact ⟨t, hstop, rfl, sidecarRestore_ends (quietEnv_serves _) hdisk 0⟩

end SmallPasses

end SatDeploy.Agent
