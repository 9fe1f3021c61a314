import SatDeploy.Lib.Bytes
import SatDeploy.Lib.Transducer

/-!
The impaired serial link of the experiment harness: the framer that cuts the
byte stream into idle bytes and whole KISS frames, and the forwarder that drops
or corrupts frames and passes idle bytes on.

`feed` is a generator, and its only consumer runs it to the end before the next
read, so a call is modelled by the chunks it yields and the state it leaves. The
random draws, the corruption of a frame and the outcome of a write are
operations on an environment.
-/

namespace SatDeploy.Experiments

open SatDeploy.Lib

def FEND : UInt8 := 0xC0

def FESC : UInt8 := 0xDB

inductive ChunkKind where
  | idle
  | frame
  deriving DecidableEq, Repr

structure Chunk where
  kind : ChunkKind
  bytes : Bytes
  deriving DecidableEq, Repr

structure KissFramer where
  inFrame : Bool
  escaped : Bool
  buf : Bytes
  idleBuf : Bytes
  deriving DecidableEq, Repr

namespace KissFramer

def init : KissFramer := { inFrame := false, escaped := false, buf := [], idleBuf := [] }

/-- The idle bytes held back so far, if there are any. -/
def pendingIdle (f : KissFramer) : List Chunk :=
  if f.idleBuf = [] then [] else [⟨.idle, f.idleBuf⟩]

/-- One round of the loop in `feed`. -/
def feedByte (f : KissFramer) (b : UInt8) : List Chunk × KissFramer :=
  if !f.inFrame then
    if b = FEND then
      ([], { f with inFrame := true, buf := [FEND] })
    else
      ([], { f with idleBuf := f.idleBuf ++ [b] })
  else
    let buf := f.buf ++ [b]
    if f.escaped then
      ([], { f with buf := buf, escaped := false })
    else if b = FESC then
      ([], { f with buf := buf, escaped := true })
    else if b = FEND then
      -- `FEND FEND` with nothing between is padding, not a frame.
      let closed := if buf.length = 2 then ⟨.idle, buf⟩ else ⟨.frame, buf⟩
      (f.pendingIdle ++ [closed], { f with idleBuf := [], buf := [], inFrame := false })
    else
      ([], { f with buf := buf })

def feed : KissFramer → Bytes → List Chunk × KissFramer := transduce feedByte

/-- What the framer has read and not yet yielded. -/
def held (f : KissFramer) : Bytes := f.idleBuf ++ f.buf

end KissFramer

/-- The byte at `i` directly follows an unescaped `FESC`. -/
def escapedAt (text : Bytes) : Nat → Bool
  | 0 => false
  | i + 1 => text[i]? == some FESC && !escapedAt text i

/-- What comes later does not decide whether a byte is escaped. -/
theorem escapedAt_append (text more : Bytes) {i : Nat} (hi : i ≤ text.length) :
    escapedAt (text ++ more) i = escapedAt text i := by
  induction i with
  | zero => rfl
  | succ i ih =>
      have hlt : i < text.length := hi
      simp [escapedAt, ih (Nat.le_of_lt hlt), List.getElem?_append_left hlt]

/-- An opening `FEND`, then no `FEND` that is not escaped. -/
structure Opened (buf : Bytes) : Prop where
  head : buf.head? = some FEND
  inner : ∀ i, 0 < i → buf[i]? = some FEND → escapedAt buf i = true

theorem opened_fend : Opened [FEND] where
  head := rfl
  inner := by
    intro i hi hget
    have hlt := (List.getElem?_eq_some_iff.mp hget).1
    simp only [List.length_cons, List.length_nil] at hlt
    omega

theorem Opened.length_pos {buf : Bytes} (h : Opened buf) : 0 < buf.length := by
  have hhead := h.head
  cases buf with
  | nil => simp at hhead
  | cons b buf => simp

theorem Opened.head_append {buf : Bytes} (h : Opened buf) (more : Bytes) :
    (buf ++ more).head? = some FEND := by
  have hne : buf ≠ [] := List.ne_nil_of_length_pos h.length_pos
  rw [List.head?_append_of_ne_nil _ hne]
  exact h.head

/-- The bytes before the last of a longer buffer are judged as before. -/
theorem Opened.inner_append {buf : Bytes} (h : Opened buf) (b : UInt8) {i : Nat} (hi : 0 < i)
    (hlt : i < buf.length) (hget : (buf ++ [b])[i]? = some FEND) :
    escapedAt (buf ++ [b]) i = true := by
  rw [List.getElem?_append_left hlt] at hget
  rw [escapedAt_append buf [b] (Nat.le_of_lt hlt)]
  exact h.inner i hi hget

/-- A byte that is escaped or is no `FEND` keeps the buffer open. -/
theorem Opened.append {buf : Bytes} (h : Opened buf) {b : UInt8}
    (hb : b = FEND → escapedAt buf buf.length = true) : Opened (buf ++ [b]) where
  head := h.head_append [b]
  inner := by
    intro i hi hget
    have hlen := (List.getElem?_eq_some_iff.mp hget).1
    simp only [List.length_append, List.length_cons, List.length_nil] at hlen
    by_cases hlt : i < buf.length
    · exact h.inner_append b hi hlt hget
    · have hend : i = buf.length := by omega
      subst hend
      rw [escapedAt_append buf [b] (Nat.le_refl _)]
      exact hb (by simpa using hget)

theorem escapedAt_length (buf : Bytes) (b : UInt8) :
    escapedAt (buf ++ [b]) (buf ++ [b]).length = (b == FESC && !escapedAt buf buf.length) := by
  rw [List.length_append]
  simp [escapedAt, escapedAt_append buf [b] (Nat.le_refl _)]

/-- What a yielded frame looks like. -/
structure FrameShape (chunk : Bytes) : Prop where
  long : 3 ≤ chunk.length
  head : chunk.head? = some FEND
  last : chunk.getLast? = some FEND
  inner : ∀ i, 0 < i → i + 1 < chunk.length → chunk[i]? = some FEND →
    escapedAt chunk i = true

def IdleShape (chunk : Bytes) : Prop := chunk = [FEND, FEND] ∨ FEND ∉ chunk

def Chunk.Shape (chunk : Chunk) : Prop :=
  match chunk.kind with
  | .frame => FrameShape chunk.bytes
  | .idle => IdleShape chunk.bytes

/-- Closing an open buffer by an unescaped `FEND` gives padding or a frame. -/
theorem Opened.closed {buf : Bytes} (h : Opened buf) :
    (if (buf ++ [FEND]).length = 2 then (⟨.idle, buf ++ [FEND]⟩ : Chunk)
      else ⟨.frame, buf ++ [FEND]⟩).Shape := by
  have hpos := h.length_pos
  split
  case isTrue hlen =>
    have hone : buf.length = 1 := by simpa using hlen
    obtain ⟨b, rfl⟩ := List.length_eq_one_iff.mp hone
    have hb : b = FEND := by simpa using h.head
    exact Or.inl (by simp [hb])
  case isFalse hlen =>
    have hlong : (buf ++ [FEND]).length = buf.length + 1 := by simp
    show FrameShape (buf ++ [FEND])
    refine ⟨by omega, h.head_append [FEND], by simp, ?_⟩
    intro i hi hlt hget
    exact h.inner_append FEND hi (by omega) hget

namespace KissFramer

/-- Between two bytes: outside a frame nothing is buffered and no escape is
pending; inside, the flag says whether the next byte is escaped. -/
structure Inv (f : KissFramer) : Prop where
  idle : FEND ∉ f.idleBuf
  outside : f.inFrame = false → f.buf = [] ∧ f.escaped = false
  inside : f.inFrame = true → Opened f.buf ∧ f.escaped = escapedAt f.buf f.buf.length

theorem init_inv : init.Inv where
  idle := by simp [init]
  outside := by simp [init]
  inside := by simp [init]

theorem pendingIdle_shape {f : KissFramer} (hf : f.Inv) :
    ∀ chunk ∈ f.pendingIdle, chunk.Shape := by
  intro chunk hchunk
  unfold pendingIdle at hchunk
  split at hchunk
  case isTrue => simp at hchunk
  case isFalse =>
    rw [List.mem_singleton.mp hchunk]
    exact Or.inr hf.idle

theorem pendingIdle_text (f : KissFramer) : f.pendingIdle.flatMap Chunk.bytes = f.idleBuf := by
  unfold pendingIdle
  split
  case isTrue h => simp [h]
  case isFalse => simp

/-- Outside a frame a byte opens one or joins the idle bytes. -/
theorem feedByte_outside {f : KissFramer} (hf : f.Inv) (hout : f.inFrame = false) (b : UInt8) :
    (f.feedByte b).2.Inv ∧ (f.feedByte b).1 = [] ∧
      (f.feedByte b).2.held = f.held ++ [b] := by
  obtain ⟨hbuf, hesc⟩ := hf.outside hout
  by_cases hb : b = FEND
  · have heq : f.feedByte b = ([], { f with inFrame := true, buf := [FEND] }) := by
      simp [feedByte, hout, hb]
    rw [heq]
    refine ⟨⟨hf.idle, by simp, fun _ => ⟨opened_fend, ?_⟩⟩, rfl, by simp [held, hbuf, hb]⟩
    rw [hesc]
    rfl
  · have heq : f.feedByte b = ([], { f with idleBuf := f.idleBuf ++ [b] }) := by
      simp [feedByte, hout, hb]
    rw [heq]
    refine ⟨⟨?_, hf.outside, hf.inside⟩, rfl, by simp [held, hbuf]⟩
    simp [hf.idle, Ne.symm hb]

/-- Inside a frame every byte is kept, and an unescaped `FEND` yields all that
is held. -/
theorem feedByte_inside {f : KissFramer} (hf : f.Inv) (hin : f.inFrame = true) (b : UInt8) :
    (f.feedByte b).2.Inv ∧ (∀ chunk ∈ (f.feedByte b).1, chunk.Shape) ∧
      (f.feedByte b).1.flatMap Chunk.bytes ++ (f.feedByte b).2.held = f.held ++ [b] := by
  obtain ⟨hopen, hflag⟩ := hf.inside hin
  have hnext := escapedAt_length f.buf b
  rw [← hflag] at hnext
  by_cases hclose : b = FEND ∧ f.escaped = false
  · obtain ⟨rfl, hesc⟩ := hclose
    have hne : FEND ≠ FESC := by decide
    have heq : f.feedByte FEND =
        (f.pendingIdle ++ [if (f.buf ++ [FEND]).length = 2 then ⟨.idle, f.buf ++ [FEND]⟩
          else ⟨.frame, f.buf ++ [FEND]⟩],
          { f with idleBuf := [], buf := [], inFrame := false }) := by
      simp [feedByte, hin, hesc, hne]
    rw [heq]
    refine ⟨⟨by simp, fun _ => ⟨rfl, hesc⟩, by simp⟩, ?_, ?_⟩
    · intro chunk hchunk
      rcases List.mem_append.mp hchunk with hchunk | hchunk
      · exact pendingIdle_shape hf chunk hchunk
      · rw [List.mem_singleton.mp hchunk]
        exact hopen.closed
    · have hbytes : (if (f.buf ++ [FEND]).length = 2 then (⟨.idle, f.buf ++ [FEND]⟩ : Chunk)
          else ⟨.frame, f.buf ++ [FEND]⟩).bytes = f.buf ++ [FEND] := by
        split <;> rfl
      simp only [List.flatMap_append, pendingIdle_text, List.flatMap_singleton, hbytes, held]
      simp
  · have hkeep : Opened (f.buf ++ [b]) := by
      refine hopen.append fun hb => ?_
      rw [← hflag]
      simpa [hb] using hclose
    have heq : f.feedByte b =
        ([], { f with buf := f.buf ++ [b], escaped := b == FESC && !f.escaped }) := by
      by_cases hesc : f.escaped = true
      · simp [feedByte, hin, hesc]
      · have hb : b ≠ FEND := fun hb => hclose ⟨hb, by simpa using hesc⟩
        by_cases hb' : b = FESC
        · simp [feedByte, hin, hesc, hb']
        · simp [feedByte, hin, hesc, hb, hb']
    rw [heq]
    refine ⟨⟨hf.idle, by simp [hin], fun _ => ⟨hkeep, hnext.symm⟩⟩, by simp, by simp [held]⟩

theorem feedByte_spec (f : KissFramer) (b : UInt8) (hf : f.Inv) :
    (f.feedByte b).2.Inv ∧ (∀ chunk ∈ (f.feedByte b).1, chunk.Shape) ∧
      (f.feedByte b).1.flatMap Chunk.bytes ++ (f.feedByte b).2.held = f.held ++ [b] := by
  cases hin : f.inFrame with
  | false =>
      obtain ⟨hinv, hnone, hheld⟩ := feedByte_outside hf hin b
      exact ⟨hinv, by simp [hnone], by simp [hnone, hheld]⟩
  | true => exact feedByte_inside hf hin b

theorem feed_spec {f : KissFramer} (hf : f.Inv) (data : Bytes) :
    (f.feed data).2.Inv ∧ (∀ chunk ∈ (f.feed data).1, chunk.Shape) ∧
      (f.feed data).1.flatMap Chunk.bytes ++ (f.feed data).2.held = f.held ++ data := by
  obtain ⟨hinv, hshape⟩ := transduce_invariant
    (fun f b hf => ⟨(feedByte_spec f b hf).1, (feedByte_spec f b hf).2.1⟩) hf data
  exact ⟨hinv, hshape, transduce_conserves (fun f b hf => (feedByte_spec f b hf).1)
    (fun f b hf => (feedByte_spec f b hf).2.2) hf data⟩

/-- However the stream is cut into reads, the framer yields the chunks of the
whole stream; they and what it holds back are the stream; a frame runs from one
`FEND` to the next unescaped one and is not empty, and idle bytes are padding or
hold no `FEND`. -/
theorem feed_reads (reads : List Bytes) :
    let fed := transduce feed init reads
    fed = init.feed reads.flatten ∧
    fed.1.flatMap Chunk.bytes ++ fed.2.idleBuf ++ fed.2.buf = reads.flatten ∧
    (∀ chunk ∈ fed.1, chunk.kind = .frame →
      3 ≤ chunk.bytes.length ∧
      chunk.bytes.head? = some FEND ∧ chunk.bytes.getLast? = some FEND ∧
      ∀ i, 0 < i → i + 1 < chunk.bytes.length → chunk.bytes[i]? = some FEND →
        escapedAt chunk.bytes i = true) ∧
    (∀ chunk ∈ fed.1, chunk.kind = .idle →
      chunk.bytes = [FEND, FEND] ∨ FEND ∉ chunk.bytes) := by
  have hwhole : transduce feed init reads = init.feed reads.flatten := transduce_pieces init reads
  obtain ⟨-, hshape, hbytes⟩ := feed_spec init_inv reads.flatten
  intro fed
  have hfed : fed = init.feed reads.flatten := hwhole
  rw [hfed]
  refine ⟨rfl, ?_, ?_, ?_⟩
  · simpa [held, init] using hbytes
  · intro chunk hchunk hkind
    have hframe := hshape chunk hchunk
    rw [Chunk.Shape, hkind] at hframe
    exact ⟨hframe.long, hframe.head, hframe.last, hframe.inner⟩
  · intro chunk hchunk hkind
    have hidle := hshape chunk hchunk
    rw [Chunk.Shape, hkind] at hidle
    exact hidle

end KissFramer

/-- What the forwarder asks of the loss model, of the corruption of a frame and
of the far end. -/
structure LinkOps (ε : Type) where
  drop : ε → Bool × ε
  maybeCorrupt : ε → Bytes → Bytes × ε
  write : ε → Bytes → Bool × ε

structure Forwarder (ε : Type) where
  framesSeen : Nat
  framesDropped : Nat
  bytesOut : Nat
  env : ε

namespace Forwarder

variable {ε : Type} (ops : LinkOps ε)

def writeOut (fwd : Forwarder ε) (data : Bytes) : List Bytes × Forwarder ε :=
  if data = [] then ([], fwd)
  else
    let (written, env) := ops.write fwd.env data
    if written then
      ([data], { fwd with bytesOut := fwd.bytesOut + data.length, env := env })
    else ([], { fwd with env := env })

/-- The body of the loop over the chunks of one read. -/
def forwardChunk (fwd : Forwarder ε) (chunk : Chunk) : List Bytes × Forwarder ε :=
  match chunk.kind with
  | .idle => fwd.writeOut ops chunk.bytes
  | .frame =>
      let (lost, env) := ops.drop fwd.env
      let seen := { fwd with framesSeen := fwd.framesSeen + 1, env := env }
      if lost then ([], { seen with framesDropped := seen.framesDropped + 1 })
      else
        let (data, env) := ops.maybeCorrupt env chunk.bytes
        { seen with env := env }.writeOut ops data

/-- The bytes counted in and the framer's part of a read. -/
def readIn (s : Nat × KissFramer) (data : Bytes) : List Chunk × Nat × KissFramer :=
  let fed := s.2.feed data
  (fed.1, s.1 + data.length, fed.2)

/-- One round of `run`: the output is what was written to the far end. -/
def runRead (s : (Nat × KissFramer) × Forwarder ε) (data : Bytes) :
    List Bytes × (Nat × KissFramer) × Forwarder ε :=
  pipe readIn (forwardChunk ops) s data

theorem transduce_readIn (s : Nat × KissFramer) (reads : List Bytes) :
    transduce readIn s reads = readIn s reads.flatten := by
  induction reads generalizing s with
  | nil => rfl
  | cons data reads ih =>
      rw [transduce_cons, ih]
      simp only [readIn, KissFramer.feed, List.flatten_cons, List.length_append,
        transduce_append, Nat.add_assoc]

/-- Counters, losses and everything written are those of the stream read at
once. -/
theorem run_ignores_reads (s : (Nat × KissFramer) × Forwarder ε) (reads : List Bytes) :
    transduce (runRead ops) s reads = runRead ops s reads.flatten := by
  have hpipe : transduce (pipe readIn (forwardChunk ops)) s reads =
      ((transduce (forwardChunk ops) s.2 (transduce readIn s.1 reads).1).1,
        (transduce readIn s.1 reads).2,
        (transduce (forwardChunk ops) s.2 (transduce readIn s.1 reads).1).2) :=
    transduce_pipe (forwardChunk ops) s reads
  rw [transduce_readIn] at hpipe
  exact hpipe

/-- No loss, no corruption and a far end that takes every write. -/
structure Clean (ops : LinkOps ε) : Prop where
  keeps : ∀ env, (ops.drop env).1 = false
  intact : ∀ env frame, (ops.maybeCorrupt env frame).1 = frame
  writes : ∀ env data, (ops.write env data).1 = true

variable {ops}

theorem writeOut_clean (h : Clean ops) (fwd : Forwarder ε) (data : Bytes) :
    (fwd.writeOut ops data).1.flatten = data := by
  unfold writeOut
  split
  case isTrue hdata => simp [hdata]
  case isFalse => simp [h.writes]

theorem forwardChunk_clean (h : Clean ops) (fwd : Forwarder ε) (chunk : Chunk) :
    (fwd.forwardChunk ops chunk).1.flatten = chunk.bytes := by
  unfold forwardChunk
  split
  case h_1 => exact writeOut_clean h fwd chunk.bytes
  case h_2 => simp [h.keeps, writeOut_clean h, h.intact]

theorem forward_clean (h : Clean ops) (fwd : Forwarder ε) (chunks : List Chunk) :
    (transduce (forwardChunk ops) fwd chunks).1.flatten = chunks.flatMap Chunk.bytes := by
  induction chunks generalizing fwd with
  | nil => rfl
  | cons chunk chunks ih =>
      rw [transduce_cons, List.flatten_append, forwardChunk_clean h, ih, List.flatMap_cons]

/-- Over a clean link the far end has the stream up to what the framer holds. -/
theorem run_clean (h : Clean ops) (fwd : Forwarder ε) (reads : List Bytes) :
    let ran := transduce (runRead ops) ((0, KissFramer.init), fwd) reads
    ran.1.flatten ++ ran.2.1.2.held = reads.flatten := by
  obtain ⟨-, -, hbytes⟩ := KissFramer.feed_spec KissFramer.init_inv reads.flatten
  intro ran
  have hran : ran = runRead ops ((0, KissFramer.init), fwd) reads.flatten :=
    run_ignores_reads ops _ reads
  have hwritten : ran.1.flatten =
      (KissFramer.init.feed reads.flatten).1.flatMap Chunk.bytes := by
    rw [hran]
    exact forward_clean h fwd _
  have hheld : ran.2.1.2 = (KissFramer.init.feed reads.flatten).2 := by
    rw [hran]
    rfl
  rw [hwritten, hheld]
  simpa [KissFramer.held, KissFramer.init] using hbytes

end Forwarder

end SatDeploy.Experiments
