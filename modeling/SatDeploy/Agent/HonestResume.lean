import SatDeploy.Agent.Resume
import SatDeploy.Svu.ClosedLoop

/-!
Resuming a transfer from the server of one artifact. However often and wherever
the passes before were killed, no byte that was received is lost, and nothing but
the artifact's bytes and zeros is in the sidecar.
-/

namespace SatDeploy.Agent

open Lib Svu

/-- A fragment with byte `i` is handed to a data hook in `events`. -/
def HandedOver (events : List ClientEvent) (i : Nat) : Prop :=
  ∃ offset payload buffer, ClientEvent.dataHook offset payload buffer ∈ events ∧
    offset ≤ i ∧ i < offset + payload.length

/-- The events of a run for `src`: its length is announced and its fragments are handed
over. -/
structure For (src : Bytes) (events : List ClientEvent) : Prop where
  announced : ∀ total block buffer, .metaHook total block buffer ∈ events → total = src.length
  fragment : ∀ offset payload buffer, .dataHook offset payload buffer ∈ events →
    offset + payload.length ≤ src.length ∧ payload = slice src offset (offset + payload.length)

/-- `later` has the artifact's bytes where `earlier` or a fragment of `done` has them, and
those of `earlier` elsewhere. -/
structure Advances (src : Bytes) (done : List ClientEvent) (earlier later : Bytes) : Prop where
  length_eq : later.length = src.length
  known : ∀ i : Nat, HandedOver done i ∨ earlier[i]? = src[i]? → later[i]? = src[i]?
  mixed : ∀ i : Nat, later[i]? = src[i]? ∨ later[i]? = earlier[i]?

section Prefixes

variable {src buffer : Bytes} {events done rest : List ClientEvent} {event : ClientEvent}

theorem For.tail (h : For src (event :: events)) : For src events :=
  ⟨fun t b m hmem => h.announced t b m (List.mem_cons_of_mem _ hmem),
    fun o p m hmem => h.fragment o p m (List.mem_cons_of_mem _ hmem)⟩

theorem HandedOver.cons {i : Nat} (h : HandedOver done i) : HandedOver (event :: done) i := by
  obtain ⟨offset, payload, buffer, hmem, hi⟩ := h
  exact ⟨offset, payload, buffer, List.mem_cons_of_mem _ hmem, hi⟩

theorem handedOver_cons {i : Nat} (h : HandedOver (event :: done) i) : HandedOver done i ∨
    ∃ offset payload buffer, event = .dataHook offset payload buffer ∧ offset ≤ i ∧
      i < offset + payload.length := by
  obtain ⟨offset, payload, buffer, hmem, hi⟩ := h
  rcases List.mem_cons.mp hmem with rfl | hmem
  · exact Or.inr ⟨offset, payload, buffer, rfl, hi⟩
  · exact Or.inl ⟨offset, payload, buffer, hmem, hi⟩

theorem not_handedOver_nil (i : Nat) : ¬ HandedOver [] i := by
  rintro ⟨_, _, _, hmem, -⟩
  cases hmem

theorem handedOver_of_other {i : Nat} (hevent : event.buffer = none)
    (h : HandedOver (event :: done) i) : HandedOver done i := by
  rcases handedOver_cons h with h | ⟨offset, payload, buffer, rfl, -⟩
  · exact h
  · cases hevent

theorem Advances.refl (hlen : buffer.length = src.length) : Advances src [] buffer buffer :=
  ⟨hlen, fun i hi => hi.resolve_left (not_handedOver_nil i), fun _ => Or.inr rfl⟩

theorem Advances.other {later : Bytes} (hevent : event.buffer = none)
    (h : Advances src done buffer later) : Advances src (event :: done) buffer later :=
  ⟨h.length_eq, fun i hi => h.known i (hi.imp_left (handedOver_of_other hevent)), h.mixed⟩

/-- A fragment of the artifact written over the buffer. -/
theorem Advances.data {payload later kept : Bytes} {offset : Nat}
    (hfits : offset + payload.length ≤ buffer.length)
    (hslice : payload = slice src offset (offset + payload.length))
    (h : Advances src done (splice buffer offset payload) later) :
    Advances src (.dataHook offset payload kept :: done) buffer later := by
  have hget : ∀ i : Nat, (splice buffer offset payload)[i]? =
      if offset ≤ i ∧ i < offset + payload.length then src[i]? else buffer[i]? := by
    intro i
    rw [getElem?_splice hfits]
    split
    next hi =>
      rw [hslice, getElem?_slice, if_pos (by omega), Nat.add_sub_cancel' hi.1]
    next => rfl
  refine ⟨h.length_eq, ?_, ?_⟩
  · intro i hi
    apply h.known
    rw [hget]
    rcases hi with hi | hi
    · rcases handedOver_cons hi with hi | ⟨_, _, _, heq, hin⟩
      · exact Or.inl hi
      · cases heq
        exact Or.inr (if_pos hin)
    · right
      split
      · rfl
      · exact hi
  · intro i
    rcases h.mixed i with hi | hi
    · exact Or.inl hi
    · rw [hget] at hi
      split at hi
      · exact Or.inl hi
      · exact Or.inr hi

/-- What the hooks of a filling leave behind, wherever one looks at it. -/
theorem filling_advances (h : Filling buffer events) : ∀ {done : List ClientEvent},
    events = done ++ rest → For src events → buffer.length = src.length →
    ∃ held, lastBuffer (some buffer) done = some held ∧ Advances src done buffer held := by
  induction h with
  | done buffer =>
      intro done heq _ hlen
      obtain ⟨rfl, -⟩ := List.append_eq_nil_iff.mp heq.symm
      exact ⟨buffer, rfl, .refl hlen⟩
  | @other buffer event later hevent hlater ih =>
      intro done heq hfor hlen
      cases done with
      | nil => exact ⟨buffer, rfl, .refl hlen⟩
      | cons found done =>
          obtain ⟨rfl, rfl⟩ := List.cons.inj heq
          obtain ⟨held, hlast, hadv⟩ := ih rfl hfor.tail hlen
          refine ⟨held, ?_, hadv.other hevent⟩
          rw [← hlast]
          simp only [lastBuffer, List.foldl_cons, hevent, Option.none_or]
  | @data buffer payload offset later hfits hlater ih =>
      intro done heq hfor hlen
      cases done with
      | nil => exact ⟨buffer, rfl, .refl hlen⟩
      | cons found done =>
          obtain ⟨rfl, rfl⟩ := List.cons.inj heq
          obtain ⟨held, hlast, hadv⟩ := ih rfl hfor.tail (by rw [length_splice hfits, hlen])
          exact ⟨held, hlast, hadv.data hfits (hfor.fragment _ _ _ List.mem_cons_self).2⟩

theorem filling_noMeta (h : Filling buffer events) : ∀ e ∈ events, isMeta e = false := by
  induction h with
  | done => simp
  | other hevent hrest ih =>
      intro e he
      rcases List.mem_cons.mp he with rfl | he
      · exact isMeta_of_other hevent
      · exact ih e he
  | data hfits hrest ih =>
      intro e he
      rcases List.mem_cons.mp he with rfl | he
      · rfl
      · exact ih e he

/-- What the hooks of a run leave behind: what was there, if the meta hook has not
been called yet, and else a buffer that started as the run did. -/
theorem starting_advances {seed : Option Bytes} (h : Starting seed events) :
    ∀ {done : List ClientEvent}, events = done ++ rest → For src events →
    (lastBuffer seed done = seed ∧ ∀ i, ¬ HandedOver done i) ∨
    ∃ held, (∀ found, lastBuffer found done = some held) ∧
      Advances src done (startBuffer seed src.length) held ∧
      ∀ e ∈ rest, isMeta e = false := by
  induction h with
  | done =>
      intro done heq _
      obtain ⟨rfl, -⟩ := List.append_eq_nil_iff.mp heq.symm
      exact Or.inl ⟨rfl, not_handedOver_nil⟩
  | @other event later hevent hlater ih =>
      intro done heq hfor
      cases done with
      | nil => exact Or.inl ⟨rfl, not_handedOver_nil⟩
      | cons found done =>
          obtain ⟨rfl, rfl⟩ := List.cons.inj heq
          have hlast (held : Option Bytes) :
              lastBuffer held (event :: done) = lastBuffer held done := by
            simp only [lastBuffer, List.foldl_cons, hevent, Option.none_or]
          rcases ih rfl hfor.tail with ⟨hquiet, hnone⟩ | ⟨held, hheld, hadv, hlater⟩
          · exact Or.inl ⟨(hlast seed).trans hquiet,
              fun i hi => hnone i (handedOver_of_other hevent hi)⟩
          · exact Or.inr ⟨held, fun found => (hlast found).trans (hheld found),
              hadv.other hevent, hlater⟩
  | @begun total block later hpos hlt hlater =>
      intro done heq hfor
      cases done with
      | nil => exact Or.inl ⟨rfl, not_handedOver_nil⟩
      | cons found done =>
          obtain ⟨rfl, rfl⟩ := List.cons.inj heq
          obtain rfl := hfor.announced _ _ _ List.mem_cons_self
          obtain ⟨held, hlast, hadv⟩ := filling_advances hlater rfl hfor.tail
            (length_startBuffer seed src.length)
          refine Or.inr ⟨held, fun found => hlast, ⟨hadv.length_eq, ?_, hadv.mixed⟩, ?_⟩
          · intro i hi
            refine hadv.known i (hi.imp_left fun hi => ?_)
            rcases handedOver_cons hi with hi | ⟨_, _, _, heq, -⟩
            · exact hi
            · cases heq
          · exact fun e he => filling_noMeta hlater e (List.mem_append_right _ he)

end Prefixes

/-! ### One pass -/

section OnePass

variable {env : Env} {path dest : Path} {events : List ClientEvent} {sc : Sidecar} {n : Nat}
  {s t : Target} {r : Record}

/-- What was done when a pass was cut short, and the event that was cut, are the first of
its events. -/
theorem StoppedIn.prefix_events (h : StoppedIn env path dest events sc n s r t) :
    ∃ rest, events = r.done ++ (r.cut.toList ++ rest) := by
  induction h with
  | before events => exact ⟨events, rfl⟩
  | inside ht => exact ⟨_, rfl⟩
  | after hret hrest ih =>
      obtain ⟨rest, rfl⟩ := ih
      exact ⟨rest, rfl⟩
  | failed hret => exact ⟨_, rfl⟩

/-- The meta hook makes one call when the length on disk is the announced one. -/
theorem carryOut_meta_once (henv : env.Serves path) {buffer : Bytes} (block : Nat)
    (hdisk : OnDisk path s (some buffer)) (hpos : 0 < buffer.length)
    (hlt : buffer.length < 2 ^ 32) (kept : Bytes) :
    (carryOut env path dest (.holding (some buffer)) (.metaHook buffer.length block kept) n
      s).passed.dropLast = [] := by
  obtain ⟨f, hf, hholds⟩ := hdisk.lookup
  have hopen := sidecarMeta_open env path buffer.length block
    (show (Sidecar.holding (some buffer)).fdOpen = true from rfl)
  have hkeep : ¬ (Sidecar.holding (some buffer)).total ≠ buffer.length := not_not_intro rfl
  rw [if_neg hkeep] at hopen
  obtain ⟨t, hrun, -⟩ := sidecarWriteHeader_run buffer block n henv hf hpos hlt hholds.bytes_eq
  change ((sidecarMeta env path _ buffer.length block >>= _) n s).passed.dropLast = []
  rw [hopen, Prog.bind_run hrun]
  rfl

/-- A sidecar of the announced length is never caught empty. -/
theorem StoppedIn.not_torn (henv : env.Serves path) (hdest : dest ≠ path)
    (h : StoppedIn env path dest events sc n s r t) {buffer : Bytes} :
    Starting (some buffer) events → sc = .holding (some buffer) →
    OnDisk path s (some buffer) → .completeHook ∉ r.done →
    (∀ total block kept, .metaHook total block kept ∈ events → total = buffer.length) →
    ¬ r.TornMeta := by
  induction h with
  | before events sc n s =>
      intro _ _ _ _ _ htorn
      cases htorn
  | @inside event rest sc n s t ht =>
      intro hstart hsc hdisk _ hlen htorn
      cases hstart with
      | other hevent hrest =>
          have hcut : isMeta event = false := isMeta_of_other hevent
          exact absurd htorn (by simp [Record.TornMeta, hcut])
      | begun hpos hlt hrest =>
          subst hsc
          obtain rfl := hlen _ _ _ List.mem_cons_self
          rw [carryOut_meta_once henv _ hdisk hpos hlt] at ht
          cases ht
  | @after event rest sc sc' n s t r hret hrest ih =>
      intro hstart hsc hdisk hopen hlen
      simp only [List.mem_cons, not_or] at hopen
      cases hstart with
      | other hevent hstart =>
          obtain ⟨-, hstate, hkept⟩ := carryOut_other env sc n s hdest hevent
            (fun heq => hopen.1 heq.symm)
          exact ih hstart ((hkept _ hret).trans hsc) (hdisk.congr hstate) hopen.2
            fun total block kept hmem => hlen total block kept (List.mem_cons_of_mem _ hmem)
      | @begun total block rest hpos hlt hfill =>
          subst hsc
          obtain ⟨inside, u, m, hrun, hdisk', -⟩ := carryOut_meta dest block n henv hdisk hpos hlt
            (startBuffer (some buffer) total)
          rw [hrun] at hret hrest
          obtain ⟨later, hlater⟩ := hrest.filling henv hdest hfill
            (Option.some.inj (Option.some.inj hret)).symm hdisk' hopen.2
          intro htorn
          have hcut := hlater.noMeta.2
          rw [htorn] at hcut
          cases hcut
  | failed hret =>
      intro _ _ _ _ _ htorn
      cases htorn

end OnePass

/-! ### Any number of passes -/

/-- Passes for one app from the server of `src`, each cut short before its complete
hook; between them anything may happen that leaves the sidecar alone. -/
inductive HonestHistory (app : Bytes) (path : Path) (src : Bytes) : List Record → Target → Prop
  | fresh {s : Target} (h : s.fs.lookup path = none) : HonestHistory app path src [] s
  | pass {records : List Record} {s s' t : Target} {p : Pass} {r : Record}
      (hist : HonestHistory app path src records s)
      (hsame : s'.fs.lookup path = s.fs.lookup path) (hp : p.Served path)
      (hlink : ∀ seed, Honest src (p.link.clientEnv seed)) (hstop : p.Stops app s' r t)
      (hopen : .completeHook ∉ r.done) : HonestHistory app path src (records ++ [r]) t

/-- The sidecar has every byte that was received, and zeros for the others. -/
structure Keeps (src : Bytes) (records : List Record) : Prop where
  nothing : resumable records = none → ∀ r ∈ records, ∀ i, ¬ r.Received i
  length_eq : ∀ buffer, resumable records = some buffer → buffer.length = src.length
  received : ∀ buffer, resumable records = some buffer →
    ∀ r ∈ records, ∀ i, r.Received i → buffer[i]? = src[i]?
  mixed : ∀ buffer, resumable records = some buffer →
    ∀ i < src.length, buffer[i]? = src[i]? ∨ buffer[i]? = some 0

section Histories

variable {app : Bytes} {path : Path} {src : Bytes} {records : List Record} {s : Target}

theorem HonestHistory.history (h : HonestHistory app path src records s) :
    History app path records s := by
  induction h with
  | fresh hnone => exact .fresh hnone
  | pass hist hsame hp hlink hstop hopen ih => exact .pass ih hsame hp hstop hopen

/-- The events of a run for the artifact's server are for the artifact. -/
theorem events_for (hsrc : src.length + 1024 < 2 ^ 32) (cfg : ClientConfig) {env : ClientEnv}
    (hlink : Honest src env) : For src (svuClientRunHooked cfg env).2 := by
  have hevents : ∀ e ∈ (svuClientRunHooked cfg env).2, Explained cfg src (fun _ => True) e :=
    run_explained (fun _ _ _ _ => trivial) hsrc hlink fun _ _ _ => trivial
  refine ⟨?_, ?_⟩
  · intro total block buffer hmem
    cases hevents _ hmem with
    | metaHook hs hI => rfl
  · intro offset payload buffer hmem
    cases hevents _ hmem with
    | @dataHook s f hs hI hf =>
        have hstop : f.start + (slice src f.start f.stop).length = f.stop := by
          have := hf.nonempty
          have := hf.inside
          rw [length_slice]
          omega
        exact ⟨by rw [hstop]; exact hf.inside, by rw [hstop]⟩

/-- What one pass was cut short with, next to what was there before it. -/
theorem Pass.Stops.advances {p : Pass} {r : Record} {t : Target}
    (hpath : sessionStateSvuPath app = some path) (hsrc : src.length + 1024 < 2 ^ 32)
    (hp : p.Served path) (hlink : ∀ seed, Honest src (p.link.clientEnv seed))
    (h : p.Stops app s r t) {found : Option Bytes} (hdisk : OnDisk path s found)
    (hfound : ∀ buffer, found = some buffer → buffer.length = src.length)
    (hopen : .completeHook ∉ r.done) :
    (found ≠ none → ¬ r.TornMeta) ∧
    ((lastBuffer found r.done = found ∧ ∀ i, ¬ r.Received i) ∨
      ∃ held, lastBuffer found r.done = some held ∧
        Advances src r.done (startBuffer found src.length) held ∧ ¬ r.TornMeta) := by
  have hquiet : (found ≠ none → ¬ (⟨[], none⟩ : Record).TornMeta) ∧
      ((lastBuffer found [] = found ∧ ∀ i, ¬ (⟨[], none⟩ : Record).Received i) ∨
        ∃ held, lastBuffer found [] = some held ∧
          Advances src [] (startBuffer found src.length) held ∧
          ¬ (⟨[], none⟩ : Record).TornMeta) := by
    refine ⟨?_, Or.inl ⟨rfl, not_handedOver_nil⟩⟩
    intro _ htorn
    cases htorn
  cases h with
  | unstarted => exact hquiet
  | setup hargs ht => exact hquiet
  | bare hargs hset ht => exact hquiet
  | @hooked path' seed sc r t hargs hset hstop =>
      have hend := (Pass.setup_wp hpath hp hdisk).2
      rw [hset] at hend
      obtain ⟨rfl, hseed⟩ := hend.2 _ rfl
      obtain ⟨rfl, rfl⟩ := Prod.mk.inj hseed
      have hfor := events_for hsrc (clientConfig p.mtu) (hlink seed)
      have hstart := svuClientRunHooked_starting (clientConfig p.mtu) (p.link.clientEnv seed)
      obtain ⟨rest, heq⟩ := hstop.prefix_events
      refine ⟨?_, ?_⟩
      · intro hne
        obtain ⟨buffer, rfl⟩ := Option.ne_none_iff_exists'.mp hne
        refine hstop.not_torn hp.serves hp.dest_ne hstart rfl hend.1 hopen ?_
        intro total block kept hmem
        rw [hfor.announced _ _ _ hmem, hfound buffer rfl]
      · rcases starting_advances hstart heq hfor with
          ⟨hlast, hnone⟩ | ⟨held, hheld, hadv, hlater⟩
        · exact Or.inl ⟨hlast, hnone⟩
        · refine Or.inr ⟨held, hheld _, hadv, fun htorn => ?_⟩
          rw [Record.TornMeta] at htorn
          cases hcut : r.cut with
          | none =>
              rw [hcut] at htorn
              cases htorn
          | some e =>
              rw [hcut] at htorn
              have hfirst := hlater e (by simp [hcut])
              rw [Option.any_some, hfirst] at htorn
              cases htorn

theorem startBuffer_get {found : Option Bytes} {i : Nat} (hi : i < src.length)
    (hmixed : ∀ buffer, found = some buffer → buffer[i]? = src[i]? ∨ buffer[i]? = some 0) :
    (startBuffer found src.length)[i]? = src[i]? ∨
      (startBuffer found src.length)[i]? = some 0 := by
  unfold startBuffer
  split
  next bytes =>
    split
    · exact hmixed bytes rfl
    · exact Or.inr (by simp [hi])
  · exact Or.inr (by simp [hi])

/-- One more pass keeps every byte. -/
theorem Keeps.pass {r : Record} (h : Keeps src records)
    (htorn : resumable records ≠ none → ¬ r.TornMeta)
    (hends : (lastBuffer (resumable records) r.done = resumable records ∧
        ∀ i, ¬ r.Received i) ∨
      ∃ held, lastBuffer (resumable records) r.done = some held ∧
        Advances src r.done (startBuffer (resumable records) src.length) held ∧
        ¬ r.TornMeta) :
    Keeps src (records ++ [r]) := by
  have hmem {q : Record} (hq : q ∈ records ++ [r]) : q ∈ records ∨ q = r := by
    rcases List.mem_append.mp hq with hq | hq
    · exact Or.inl hq
    · exact Or.inr (List.mem_singleton.mp hq)
  rcases hends with ⟨hlast, hnone⟩ | ⟨held, hlast, hadv, hwhole⟩
  · -- nothing was received, and what can be restored is still there
    have hsame : resumable (records ++ [r]) = resumable records := by
      rw [resumable_append, Record.leaves, hlast]
      split
      next hcut =>
        by_contra hne
        exact htorn (fun heq => hne heq.symm) hcut
      next => rfl
    refine ⟨?_, ?_, ?_, ?_⟩
    · intro hempty q hq i hi
      rcases hmem hq with hq | rfl
      · exact h.nothing (hsame ▸ hempty) q hq i hi
      · exact hnone i hi
    · exact fun buffer hbuffer => h.length_eq buffer (hsame ▸ hbuffer)
    · intro buffer hbuffer q hq i hi
      rcases hmem hq with hq | rfl
      · exact h.received buffer (hsame ▸ hbuffer) q hq i hi
      · exact absurd hi (hnone i)
    · exact fun buffer hbuffer => h.mixed buffer (hsame ▸ hbuffer)
  · have hleft : resumable (records ++ [r]) = some held := by
      rw [resumable_append, Record.leaves, hlast]
      exact if_neg hwhole
    refine ⟨?_, ?_, ?_, ?_⟩
    · intro hempty
      rw [hleft] at hempty
      cases hempty
    · intro buffer hbuffer
      obtain rfl := Option.some.inj (hleft.symm.trans hbuffer)
      exact hadv.length_eq
    · intro buffer hbuffer q hq i hi
      obtain rfl := Option.some.inj (hleft.symm.trans hbuffer)
      apply hadv.known
      rcases hmem hq with hq | rfl
      · right
        cases hfound : resumable records with
        | none => exact absurd hi (h.nothing hfound q hq i)
        | some old =>
            rw [startBuffer, if_pos (h.length_eq old hfound)]
            exact h.received old hfound q hq i hi
      · exact Or.inl hi
    · intro buffer hbuffer i hi
      obtain rfl := Option.some.inj (hleft.symm.trans hbuffer)
      rcases hadv.mixed i with hsame | hold
      · exact Or.inl hsame
      · rw [hold]
        exact startBuffer_get hi fun old hfound => h.mixed old hfound i hi

theorem HonestHistory.keeps (hpath : sessionStateSvuPath app = some path)
    (hsrc : src.length + 1024 < 2 ^ 32) (h : HonestHistory app path src records s) :
    Keeps src records := by
  induction h with
  | fresh hnone =>
      refine ⟨by simp, ?_, ?_, ?_⟩
      all_goals
        intro buffer hbuffer
        cases hbuffer
  | pass hist hsame hp hlink hstop hopen ih =>
      obtain ⟨hdisk, -, -⟩ := hist.history.sound hpath
      obtain ⟨htorn, hends⟩ := hstop.advances hpath hsrc hp hlink (hdisk.congr hsame)
        ih.length_eq hopen
      exact ih.pass htorn hends

/-- No byte is lost. After any number of passes from the server of one artifact, each
killed anywhere before its complete hook, the restore hook gives back every byte that
any of them received, and zeros for the others; and a block that the next verification
finds damaged has a byte that none of them received. -/
theorem resume_keeps_received (hpath : sessionStateSvuPath app = some path)
    (hsrc : src.length + 1024 < 2 ^ 32) (hist : HonestHistory app path src records s) :
    (∀ env : Env, env.Serves path → ∀ n,
      Prog.Ends (sidecarRestore env path true) (fun r _ _ => r.1 = resumable records) n s) ∧
    (∀ r ∈ records, ∀ i, r.Received i →
      ∃ buffer, resumable records = some buffer ∧ buffer[i]? = src[i]?) ∧
    ∀ buffer, resumable records = some buffer → buffer.length = src.length ∧
      (∀ i < src.length, buffer[i]? = src[i]? ∨
        buffer[i]? = some 0 ∧ ∀ r ∈ records, ¬ r.Received i) ∧
      ∀ b, seedDiffers src buffer b = true →
        ∃ i, i / 4096 = b ∧ i < src.length ∧ ∀ r ∈ records, ¬ r.Received i := by
  obtain ⟨hdisk, -, -⟩ := hist.history.sound hpath
  have hkeeps := hist.keeps hpath hsrc
  refine ⟨fun env henv n => sidecarRestore_ends henv hdisk n, ?_, ?_⟩
  · intro r hr i hi
    cases hfound : resumable records with
    | none => exact absurd hi (hkeeps.nothing hfound r hr i)
    | some buffer => exact ⟨buffer, rfl, hkeeps.received buffer hfound r hr i hi⟩
  · intro buffer hbuffer
    refine ⟨hkeeps.length_eq buffer hbuffer, ?_, ?_⟩
    · intro i hi
      by_cases hgot : ∃ r ∈ records, r.Received i
      · obtain ⟨r, hr, hgot⟩ := hgot
        exact Or.inl (hkeeps.received buffer hbuffer r hr i hgot)
      · rcases hkeeps.mixed buffer hbuffer i hi with hsame | hzero
        · exact Or.inl hsame
        · exact Or.inr ⟨hzero, fun r hr hi => hgot ⟨r, hr, hi⟩⟩
    · intro b hb
      obtain ⟨-, hdiffer⟩ := Bool.and_eq_true_iff.mp hb
      by_contra hnone
      have hsame : slice buffer (b * 4096) (blockEnd src.length 4096 b) =
          slice src (b * 4096) (blockEnd src.length 4096 b) := by
        apply slice_congr
        intro i hlow hhigh
        obtain ⟨hi, hblock⟩ := (mem_block_iff (by decide) b i).mp ⟨hlow, hhigh⟩
        by_contra hother
        refine hnone ⟨i, hblock, hi, fun r hr hgot => hother ?_⟩
        exact hkeeps.received buffer hbuffer r hr i hgot
      unfold hashBlock at hdiffer
      rw [hsame] at hdiffer
      simp at hdiffer

end Histories

/-- Killed after the only fragment came. -/
def dataRecord : Record :=
  ⟨[smallRequest, .metaHook 2 4096 [0, 0], .dataHook 0 smallArtifact smallArtifact], none⟩

theorem smallLink_honest (seed : Option Bytes) :
    Honest smallArtifact (smallLink.clientEnv seed) where
  ctrl := fun _ _ _ hp => ⟨_, _, smallServed, hp⟩
  data := by
    intro round packets hpackets p hp
    rw [List.mem_singleton.mp hpackets] at hp
    exact ⟨_, _, smallServed, hp⟩

theorem honestHistory_data :
    ∃ s, HonestHistory resumeApp resumeSidecar smallArtifact [dataRecord] s := by
  have hdest : ascii "/tmp/a" ≠ [] := by decide
  obtain ⟨inside, t, m, hmeta, hdisk, -⟩ := carryOut_meta (ascii "/tmp/a") 4096
    ((smallPass (ascii "/tmp/a")).setup resumeApp 0 emptyTarget).calls (quietEnv_serves _)
    emptyTarget_onDisk (by decide : 0 < 2) (by decide) [0, 0]
  obtain ⟨u, k, hdata, -⟩ := carryOut_data (ascii "/tmp/a") m (quietEnv_serves _) hdisk
    (show 0 + smallArtifact.length ≤ _ by decide) smallArtifact
  have hstop : (smallPass (ascii "/tmp/a")).Stops resumeApp emptyTarget dataRecord u :=
    smallPass_stops hdest (.next rfl (.next hmeta (.next hdata (.before _ _ _ _))))
  have hserved : (smallPass (ascii "/tmp/a")).Served resumeSidecar :=
    ⟨quietEnv_serves _, rfl, by decide +kernel⟩
  exact ⟨u, .pass (.fresh rfl) rfl hserved smallLink_honest hstop (by decide +kernel)⟩

theorem resume_keeps_received_hi : ∃ s buffer,
    Prog.Ends (sidecarRestore quietEnv resumeSidecar true) (fun r _ _ => r.1 = some buffer) 0 s ∧
      buffer[0]? = smallArtifact[0]? ∧ buffer[1]? = smallArtifact[1]? := by
  obtain ⟨s, hist⟩ := honestHistory_data
  obtain ⟨hrestored, hgot, -⟩ := resume_keeps_received resumeApp_path (by decide) hist
  have hreceived (i : Nat) (hi : i < 2) : dataRecord.Received i :=
    ⟨0, smallArtifact, smallArtifact, by simp [dataRecord], Nat.zero_le _,
      (Nat.zero_add 2).symm ▸ hi⟩
  obtain ⟨buffer, hbuffer, hfirst⟩ := hgot dataRecord (by simp) 0 (hreceived 0 (by decide))
  obtain ⟨buffer', hbuffer', hsecond⟩ := hgot dataRecord (by simp) 1 (hreceived 1 (by decide))
  obtain rfl := Option.some.inj (hbuffer.symm.trans hbuffer')
  refine ⟨s, buffer, ?_, hfirst, hsecond⟩
  rw [← hbuffer]
  exact hrestored quietEnv (quietEnv_serves _) 0

end SatDeploy.Agent
