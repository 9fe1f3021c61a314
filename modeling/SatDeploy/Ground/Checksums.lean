import SatDeploy.Agent.BackupManager
import SatDeploy.Lib.Blocks

/-!
The three hash implementations: the ground tool hashes block by block
(`satdeploy-apm/src/sha256.c`), the uploader core (`svu/ci_sha256.c`) and the
agent (`satdeploy-agent/src/sha256.c`) byte by byte. They count in bytes or in
bits and pad in different branches; each of them computes SHA-256 of whatever
its updates are fed, so the two ends compare like with like.
-/

namespace SatDeploy

open Lib Lib.Sha256

section Transform

/-- `load32be`. -/
def load32be (block : Bytes) (i : Nat) : UInt32 :=
  ((block.getD i 0).toUInt32 <<< 24) ||| ((block.getD (i + 1) 0).toUInt32 <<< 16) |||
    ((block.getD (i + 2) 0).toUInt32 <<< 8) ||| (block.getD (i + 3) 0).toUInt32

/-- `sha256_transform`, which the three files spell alike: 16 loads, 48 more
words, 64 rounds. -/
def sha256Transform (state : State) (block : Bytes) : State :=
  let w := extend 48 ((List.range 16).map fun i => load32be block (i * 4))
  let r := (List.range 64).foldl
    (fun s i => round s (roundConstants.getD i 0) (w.getD i 0)) state
  ⟨state.a + r.a, state.b + r.b, state.c + r.c, state.d + r.d,
   state.e + r.e, state.f + r.f, state.g + r.g, state.h + r.h⟩

/-- The eight bytes of a 64-bit number, the highest first. -/
def store64be (v : UInt64) : Bytes :=
  [(v >>> 56).toUInt8, (v >>> 48).toUInt8, (v >>> 40).toUInt8, (v >>> 32).toUInt8,
   (v >>> 24).toUInt8, (v >>> 16).toUInt8, (v >>> 8).toUInt8, v.toUInt8]

theorem words_eq (n : Nat) : ∀ block : Bytes, block.length = n * 4 →
    words block = (List.range n).map fun i => load32be block (i * 4) := by
  induction n with
  | zero =>
      intro block hlen
      have hnil : block = [] := List.length_eq_zero_iff.mp (by omega)
      rw [hnil]
      rfl
  | succ n ih =>
      intro block hlen
      obtain ⟨a, b, c, d, rest, rfl⟩ : ∃ a b c d rest, block = a :: b :: c :: d :: rest := by
        have hlong : 4 ≤ block.length := by omega
        match block, hlong with
        | a :: b :: c :: d :: rest, _ => exact ⟨a, b, c, d, rest, rfl⟩
      have hrest : rest.length = n * 4 := by
        simp only [List.length_cons] at hlen
        omega
      have hget : ∀ j, (a :: b :: c :: d :: rest).getD (j + 4) 0 = rest.getD j 0 := fun _ => rfl
      have hshift : ∀ i, load32be (a :: b :: c :: d :: rest) ((i + 1) * 4) =
          load32be rest (i * 4) := by
        intro i
        have h0 : (i + 1) * 4 = i * 4 + 4 := by omega
        have h1 : (i + 1) * 4 + 1 = i * 4 + 1 + 4 := by omega
        have h2 : (i + 1) * 4 + 2 = i * 4 + 2 + 4 := by omega
        have h3 : (i + 1) * 4 + 3 = i * 4 + 3 + 4 := by omega
        rw [load32be, load32be, h3, h2, h1, h0, hget, hget, hget, hget]
      have hfirst : load32be (a :: b :: c :: d :: rest) (0 * 4) =
          ((a.toUInt32 <<< 24) ||| (b.toUInt32 <<< 16) ||| (c.toUInt32 <<< 8) ||| d.toUInt32) := by
        simp only [load32be, Nat.zero_mul, Nat.zero_add, List.getD_cons_zero, List.getD_cons_succ]
      rw [words, ih rest hrest, List.range_succ_eq_map, List.map_cons, List.map_map, hfirst]
      refine List.cons_eq_cons.mpr ⟨rfl, List.map_congr_left fun i _ => ?_⟩
      exact (hshift i).symm

theorem length_extend (n : Nat) : ∀ w, (extend n w).length = w.length + n := by
  induction n with
  | zero => exact fun _ => rfl
  | succ n ih =>
      intro w
      rw [extend, ih, List.length_append, List.length_singleton]
      omega

/-- A loop over two arrays of one length. -/
theorem foldl_range_eq_zip {α β σ : Type} (f : σ → α → β → σ) (a : α) (b : β) (xs : List α) :
    ∀ (ys : List β) (s : σ), xs.length = ys.length →
      (List.range xs.length).foldl (fun s i => f s (xs.getD i a) (ys.getD i b)) s =
        (xs.zip ys).foldl (fun s p => f s p.1 p.2) s := by
  induction xs with
  | nil =>
      intro ys s _
      rfl
  | cons x xs ih =>
      intro ys s hlen
      match ys, hlen with
      | y :: ys, hlen =>
          rw [List.length_cons, List.range_succ_eq_map, List.foldl_cons, List.foldl_map,
            List.zip_cons_cons, List.foldl_cons]
          exact ih ys _ (by simpa using hlen)

theorem sha256Transform_eq {state : State} {block : Bytes} (hlen : block.length = 64) :
    sha256Transform state block = compress state block := by
  have hwords : (List.range 16).map (fun i => load32be block (i * 4)) = words block :=
    (words_eq 16 block hlen).symm
  have hschedule : roundConstants.length = (extend 48 (words block)).length := by
    rw [length_extend, words_eq 16 block hlen, List.length_map, List.length_range]
    rfl
  have hloop := foldl_range_eq_zip round 0 0 roundConstants (extend 48 (words block)) state
    hschedule
  unfold sha256Transform compress
  rw [hwords]
  dsimp only
  rw [← hloop]
  rfl

theorem toUInt8_shiftRight_ofNat (n : Nat) {k : Nat} (hk : k + 8 ≤ 64) :
    ((UInt64.ofNat n) >>> (UInt64.ofNat k)).toUInt8 = UInt8.ofNat (n / 2 ^ k) := by
  apply UInt8.toNat_inj.mp
  have hmod : (UInt64.ofNat k).toNat % 64 = k := by
    rw [UInt64.toNat_ofNat']
    omega
  have hsplit : 2 ^ 64 = 2 ^ k * 2 ^ (64 - k) := by
    rw [← Nat.pow_add]
    congr 1
    omega
  have hdvd : 2 ^ 8 ∣ 2 ^ (64 - k) := Nat.pow_dvd_pow 2 (by omega)
  rw [UInt64.toNat_toUInt8, UInt64.toNat_shiftRight, hmod, Nat.shiftRight_eq_div_pow,
    UInt64.toNat_ofNat', UInt8.toNat_ofNat', hsplit, Nat.mod_mul_right_div_self,
    Nat.mod_mod_of_dvd _ hdvd]

theorem store64be_ofNat (n : Nat) : store64be (UInt64.ofNat n) = be64 n := by
  have hrange : List.range 8 = [0, 1, 2, 3, 4, 5, 6, 7] := rfl
  have hlast : (UInt64.ofNat n).toUInt8 = UInt8.ofNat n := by
    apply UInt8.toNat_inj.mp
    rw [UInt64.toNat_toUInt8, UInt64.toNat_ofNat', UInt8.toNat_ofNat']
    omega
  rw [be64, hrange, store64be, hlast]
  have h56 := toUInt8_shiftRight_ofNat n (k := 56) (by decide)
  have h48 := toUInt8_shiftRight_ofNat n (k := 48) (by decide)
  have h40 := toUInt8_shiftRight_ofNat n (k := 40) (by decide)
  have h32 := toUInt8_shiftRight_ofNat n (k := 32) (by decide)
  have h24 := toUInt8_shiftRight_ofNat n (k := 24) (by decide)
  have h16 := toUInt8_shiftRight_ofNat n (k := 16) (by decide)
  have h8 := toUInt8_shiftRight_ofNat n (k := 8) (by decide)
  simp only [List.map_cons, List.map_nil, List.cons.injEq, and_true]
  exact ⟨h56, h48, h40, h32, h24, h16, h8, by simp⟩

end Transform

section LastBlocks

variable {state : State} {pending : Bytes} {buf : Buffer UInt8 64} {n : Nat}

/-- The last block of the ground tool and of the uploader core: zeros up to the
length field, the field, the digest. -/
def lastBlock (state : State) (buf : Buffer UInt8 64) (fill : Nat) (bits : UInt64) : Bytes :=
  let buf := buf.write fill (List.replicate (56 - fill) 0)
  let buf := buf.write 56 (store64be bits)
  output (sha256Transform state buf.contents)

/-- The marker, and a block of its own for the length if it does not fit. -/
def padBlocks (state : State) (buf : Buffer UInt8 64) (fill : Nat) (bits : UInt64) : Bytes :=
  let buf := buf.write fill [0x80]
  let fill := fill + 1
  if fill > 56 then
    let buf := buf.write fill (List.replicate (64 - fill) 0)
    lastBlock (sha256Transform state buf.contents) buf 0 bits
  else lastBlock state buf fill bits

theorem length_store64be (bits : UInt64) : (store64be bits).length = 8 := rfl

theorem contents_marked (hbuf : buf.contents.take pending.length = pending) {stop : Nat}
    (hlen : pending.length < stop) (hstop : stop ≤ 64) :
    ((buf.write pending.length [0x80]).write (pending.length + 1)
      (List.replicate (stop - (pending.length + 1)) 0)).contents.take stop =
    pending ++ [0x80] ++ List.replicate (stop - (pending.length + 1)) 0 := by
  rw [Buffer.take_write_add _ _ _ (by rw [List.length_replicate]; omega) hstop,
    Buffer.take_write_add _ _ _ (by rfl) (by omega), hbuf]

theorem contents_short (hbuf : buf.contents.take pending.length = pending)
    (hlen : pending.length < 56) (bits : UInt64) :
    (((buf.write pending.length [0x80]).write (pending.length + 1)
      (List.replicate (56 - (pending.length + 1)) 0)).write 56 (store64be bits)).contents =
    pending ++ [0x80] ++ List.replicate (55 - pending.length) 0 ++ store64be bits := by
  have hzeros : 55 - pending.length = 56 - (pending.length + 1) := by omega
  rw [Buffer.contents_write _ _ _ (by rfl), contents_marked hbuf hlen (by decide), hzeros]

theorem contents_long (hbuf : buf.contents.take pending.length = pending)
    (hlen : pending.length < 64) :
    ((buf.write pending.length [0x80]).write (pending.length + 1)
      (List.replicate (64 - (pending.length + 1)) 0)).contents =
    pending ++ [0x80] ++ List.replicate (63 - pending.length) 0 := by
  have hzeros : 63 - pending.length = 64 - (pending.length + 1) := by omega
  rw [hzeros, ← contents_marked hbuf hlen (le_refl 64)]
  exact (List.take_of_length_le (by simp)).symm

theorem contents_zeros (bits : UInt64) :
    ((buf.write 0 (List.replicate 56 0)).write 56 (store64be bits)).contents =
      List.replicate 56 0 ++ store64be bits := by
  rw [Buffer.contents_write _ _ _ (by rfl),
    Buffer.take_write_add _ 0 _ (by rw [List.length_replicate]) (by decide), List.take_zero,
    List.nil_append]

/-- The padding gives the digest, whichever branch is taken. -/
theorem padBlocks_eq {message : Bytes} (h : Absorbed message state pending)
    (hbuf : buf.contents.take pending.length = pending) :
    padBlocks state buf pending.length (UInt64.ofNat (8 * message.length)) = sha256 message := by
  have hlt := h.1
  rw [h.digest, finish, padBlocks]
  dsimp only
  split
  next hlong =>
    rw [if_neg (by omega), contents_long hbuf hlt, lastBlock]
    rw [Nat.sub_zero, contents_zeros, store64be_ofNat, sha256Transform_eq, sha256Transform_eq]
    · simp only [List.length_append, List.length_replicate, List.length_singleton]
      omega
    · rfl
  next hshort =>
    rw [if_pos (by omega), lastBlock, contents_short hbuf (by omega), store64be_ofNat,
      sha256Transform_eq]
    simp only [List.length_append, List.length_replicate, List.length_singleton,
      ← store64be_ofNat, length_store64be]
    omega

end LastBlocks

namespace Ground

/-- `sha256_ctx` of the ground tool, which counts bytes. -/
structure Sha256Ctx where
  state : State
  count : UInt64
  buf : Buffer UInt8 64

/-- The buffer holds anything at first. -/
def sha256Init (buf : Buffer UInt8 64) : Sha256Ctx := ⟨initial, 0, buf⟩

/-- The loop of `sha256_update` over whole blocks, and the copy of the rest. -/
def updateBlocks (ctx : Sha256Ctx) (p : Bytes) : Sha256Ctx :=
  if 64 ≤ p.length then
    updateBlocks { ctx with state := sha256Transform ctx.state (p.take 64) } (p.drop 64)
  else if p ≠ [] then { ctx with buf := ctx.buf.write 0 p }
  else ctx
termination_by p.length
decreasing_by
  rw [List.length_drop]
  omega

def sha256Update (ctx : Sha256Ctx) (p : Bytes) : Sha256Ctx :=
  let fill := (ctx.count &&& 63).toNat
  let ctx := { ctx with count := ctx.count + UInt64.ofNat p.length }
  if fill ≠ 0 then
    let left := 64 - fill
    if p.length < left then { ctx with buf := ctx.buf.write fill p }
    else
      let buf := ctx.buf.write fill (p.take left)
      updateBlocks { ctx with state := sha256Transform ctx.state buf.contents, buf := buf }
        (p.drop left)
  else updateBlocks ctx p

def sha256Final (ctx : Sha256Ctx) : Bytes :=
  padBlocks ctx.state ctx.buf (ctx.count &&& 63).toNat (ctx.count * 8)

/-- The context of the ground tool after `message`. -/
structure Hashed (message : Bytes) (ctx : Sha256Ctx) : Prop where
  count_eq : ctx.count = UInt64.ofNat message.length
  absorbed : Absorbed message ctx.state (ctx.buf.contents.take (message.length % 64))

section Updates

variable {ctx : Sha256Ctx} {message : Bytes}

theorem toNat_count_and (n : Nat) : (UInt64.ofNat n &&& 63).toNat = n % 64 := by
  have hmask : (63 : UInt64).toNat = 2 ^ 6 - 1 := rfl
  rw [UInt64.toNat_and, hmask, Nat.and_two_pow_sub_one_eq_mod, UInt64.toNat_ofNat']
  omega

/-- Whole blocks from a context with nothing pending. -/
theorem updateBlocks_absorbed (ctx : Sha256Ctx) (p : Bytes) : ∀ message : Bytes,
    Absorbed message ctx.state [] →
    (updateBlocks ctx p).count = ctx.count ∧
    Absorbed (message ++ p) (updateBlocks ctx p).state
      ((updateBlocks ctx p).buf.contents.take ((message ++ p).length % 64)) := by
  induction ctx, p using updateBlocks.induct with
  | case1 ctx p hlong ih =>
      intro message h
      have hlen : (p.take 64).length = 64 := by
        rw [List.length_take]
        omega
      have hblock : Absorbed (message ++ p.take 64) (compress ctx.state ([] ++ p.take 64)) [] :=
        h.block (by rw [hlen]; rfl)
      rw [List.nil_append, ← sha256Transform_eq hlen] at hblock
      have hrest := ih (message ++ p.take 64) hblock
      rw [List.append_assoc, List.take_append_drop] at hrest
      rw [updateBlocks, if_pos hlong]
      exact hrest
  | case2 ctx p hshort hne =>
      intro message h
      have hzero := h.length_pending
      have hmod : (message ++ p).length % 64 = 0 + p.length := by
        rw [List.length_append]
        rw [List.length_nil] at hzero
        omega
      rw [updateBlocks, if_neg hshort, if_pos hne]
      refine ⟨rfl, ?_⟩
      dsimp only
      rw [hmod, Buffer.take_write_add _ 0 p rfl (by omega), List.take_zero]
      exact h.fill (by simpa using hshort)
  | case3 ctx p hshort hempty =>
      intro message h
      obtain rfl : p = [] := by simpa using hempty
      have hzero := h.length_pending
      rw [List.length_nil] at hzero
      rw [updateBlocks, if_neg hshort, if_neg hempty, List.append_nil, ← hzero, List.take_zero]
      exact ⟨rfl, h⟩

theorem Hashed.update (h : Hashed message ctx) (p : Bytes) :
    Hashed (message ++ p) (sha256Update ctx p) := by
  have hpending := h.absorbed.length_pending
  have hlt := h.absorbed.1
  have hcount : ctx.count + UInt64.ofNat p.length = UInt64.ofNat (message ++ p).length := by
    rw [h.count_eq, List.length_append, UInt64.ofNat_add]
  have hfill : (ctx.count &&& 63).toNat = message.length % 64 := by
    rw [h.count_eq, toNat_count_and]
  unfold sha256Update
  rw [hfill]
  dsimp only
  split
  next hne =>
    split
    next hshort =>
      -- the piece fits behind the pending bytes
      refine ⟨hcount, ?_⟩
      have hmod : (message ++ p).length % 64 = message.length % 64 + p.length := by
        rw [List.length_append]
        omega
      dsimp only
      rw [hmod, Buffer.take_write_add _ _ p rfl (by omega)]
      exact h.absorbed.fill (by omega)
    next hlong =>
      -- the block is completed and the rest goes on block by block
      have hleft : (p.take (64 - message.length % 64)).length = 64 - message.length % 64 := by
        rw [List.length_take]
        omega
      have hblock : Absorbed (message ++ p.take (64 - message.length % 64)) (compress ctx.state
          (ctx.buf.contents.take (message.length % 64) ++ p.take (64 - message.length % 64))) [] :=
        h.absorbed.block (by rw [hpending, hleft]; omega)
      have hcontents := ctx.buf.contents_write (message.length % 64)
        (p.take (64 - message.length % 64)) (by omega)
      rw [← hcontents, ← sha256Transform_eq (Buffer.length_contents _)] at hblock
      obtain ⟨hsame, hrest⟩ := updateBlocks_absorbed ⟨_, ctx.count + UInt64.ofNat p.length,
        ctx.buf.write (message.length % 64) (p.take (64 - message.length % 64))⟩
        (p.drop (64 - message.length % 64)) _ hblock
      rw [List.append_assoc, List.take_append_drop] at hrest
      exact ⟨hsame.trans hcount, hrest⟩
  next hzero =>
    have hnone : message.length % 64 = 0 := by simpa using hzero
    have hstart : Absorbed message ctx.state [] := by
      have habsorbed := h.absorbed
      rw [hnone, List.take_zero] at habsorbed
      exact habsorbed
    obtain ⟨hsame, hrest⟩ := updateBlocks_absorbed
      ⟨ctx.state, ctx.count + UInt64.ofNat p.length, ctx.buf⟩ p message hstart
    exact ⟨hsame.trans hcount, hrest⟩

theorem Hashed.final (h : Hashed message ctx) : sha256Final ctx = sha256 message := by
  have hpending := h.absorbed.length_pending
  have hbits : ctx.count * 8 = UInt64.ofNat (8 * message.length) := by
    rw [h.count_eq, Nat.mul_comm, UInt64.ofNat_mul]
    rfl
  have hpad := padBlocks_eq h.absorbed (by rw [hpending])
  rw [sha256Final, hbits, h.count_eq, toNat_count_and, ← hpending]
  exact hpad

theorem hashed_init (buf : Buffer UInt8 64) : Hashed [] (sha256Init buf) :=
  ⟨rfl, .start⟩

end Updates

end Ground

section ByteWise

/-- A context that is fed byte by byte and counts bits. -/
structure ByteCtx where
  state : State
  bitlen : UInt64
  buf : Buffer UInt8 64
  buflen : Nat

def ByteCtx.init (buf : Buffer UInt8 64) : ByteCtx := ⟨initial, 0, buf, 0⟩

/-- The body of the update loop. -/
def ByteCtx.push (c : ByteCtx) (b : UInt8) : ByteCtx :=
  let buf := c.buf.write c.buflen [b]
  let buflen := c.buflen + 1
  if buflen = 64 then ⟨sha256Transform c.state buf.contents, c.bitlen + 512, buf, 0⟩
  else ⟨c.state, c.bitlen, buf, buflen⟩

def ByteCtx.update (c : ByteCtx) (data : Bytes) : ByteCtx := data.foldl ByteCtx.push c

/-- The context after `message`; `bitlen` counts its whole blocks only. -/
structure ByteCtx.Hashed (message : Bytes) (c : ByteCtx) : Prop where
  buflen_eq : c.buflen = message.length % 64
  bitlen_eq : c.bitlen = UInt64.ofNat (8 * (message.length - message.length % 64))
  absorbed : Absorbed message c.state (c.buf.contents.take c.buflen)

variable {c : ByteCtx} {message : Bytes}

theorem ByteCtx.hashed_init (buf : Buffer UInt8 64) : ByteCtx.Hashed [] (ByteCtx.init buf) :=
  ⟨rfl, rfl, .start⟩

theorem ByteCtx.Hashed.push (h : ByteCtx.Hashed message c) (b : UInt8) :
    ByteCtx.Hashed (message ++ [b]) (c.push b) := by
  have hpending := h.absorbed.length_pending
  have hlt := h.absorbed.1
  have hbuflen := h.buflen_eq
  have hlen : (message ++ [b]).length = message.length + 1 := List.length_append
  unfold ByteCtx.push
  dsimp only
  split
  next hfull =>
    refine ⟨?_, ?_, ?_⟩
    · rw [hlen]
      dsimp only
      omega
    · dsimp only
      rw [h.bitlen_eq, hlen, show (512 : UInt64) = UInt64.ofNat 512 from rfl, ← UInt64.ofNat_add]
      congr 1
      omega
    · have hblock : Absorbed (message ++ [b])
          (compress c.state (c.buf.contents.take c.buflen ++ [b])) [] :=
        h.absorbed.block (by rw [hpending, List.length_singleton]; omega)
      rw [← c.buf.contents_write c.buflen [b] hfull,
        ← sha256Transform_eq (Buffer.length_contents _)] at hblock
      exact hblock
  next hmore =>
    refine ⟨?_, ?_, ?_⟩
    · rw [hlen]
      dsimp only
      omega
    · dsimp only
      rw [h.bitlen_eq, hlen]
      congr 2
      omega
    · dsimp only
      rw [Buffer.take_write_add _ _ _ (by rfl) (by omega)]
      exact h.absorbed.fill (by rw [hpending, List.length_singleton]; omega)

theorem ByteCtx.Hashed.update (data : Bytes) : ∀ {message : Bytes} {c : ByteCtx},
    ByteCtx.Hashed message c → ByteCtx.Hashed (message ++ data) (c.update data) := by
  induction data with
  | nil =>
      intro message c h
      rw [List.append_nil]
      exact h
  | cons b data ih =>
      intro message c h
      have hrest := ih (h.push b)
      rw [List.append_assoc, List.singleton_append] at hrest
      exact hrest

/-- The length field: the bits of the whole blocks and of the pending bytes. -/
theorem ByteCtx.Hashed.bits (h : ByteCtx.Hashed message c) :
    c.bitlen + UInt64.ofNat c.buflen * 8 = UInt64.ofNat (8 * message.length) := by
  rw [h.bitlen_eq, h.buflen_eq, show (8 : UInt64) = UInt64.ofNat 8 from rfl, ← UInt64.ofNat_mul,
    ← UInt64.ofNat_add]
  congr 1
  omega

end ByteWise

namespace Svu

abbrev CiSha256 := ByteCtx

def ciSha256Init (buf : Buffer UInt8 64) : CiSha256 := ByteCtx.init buf

def ciSha256Update (c : CiSha256) (data : Bytes) : CiSha256 := c.update data

def ciSha256Final (c : CiSha256) : Bytes :=
  padBlocks c.state c.buf c.buflen (c.bitlen + UInt64.ofNat c.buflen * 8)

theorem ciSha256Final_eq {c : CiSha256} {message : Bytes} (h : ByteCtx.Hashed message c) :
    ciSha256Final c = sha256 message := by
  have hpending := h.absorbed.length_pending
  have hlen : (c.buf.contents.take c.buflen).length = c.buflen := by
    rw [hpending, h.buflen_eq]
  have hpad := padBlocks_eq h.absorbed (by rw [hlen])
  rw [hlen] at hpad
  rw [ciSha256Final, h.bits]
  exact hpad

end Svu

namespace Agent

abbrev Sha256Ctx := ByteCtx

def sha256Init (data : Buffer UInt8 64) : Sha256Ctx := ByteCtx.init data

def sha256Update (ctx : Sha256Ctx) (data : Bytes) : Sha256Ctx := ctx.update data

/-- The digest bytes: byte `i` of every state word, for `i` from 0 to 3. -/
def digestBytes (s : State) : Bytes :=
  [s.a, s.b, s.c, s.d, s.e, s.f, s.g, s.h].flatMap fun w : UInt32 =>
    [((w >>> 24) &&& 0xff).toUInt8, ((w >>> 16) &&& 0xff).toUInt8,
     ((w >>> 8) &&& 0xff).toUInt8, ((w >>> 0) &&& 0xff).toUInt8]

def sha256Final (ctx : Sha256Ctx) : Bytes :=
  let i := ctx.buflen
  let (state, data) :=
    if ctx.buflen < 56 then
      let data := ctx.buf.write i [0x80]
      (ctx.state, data.write (i + 1) (List.replicate (56 - (i + 1)) 0))
    else
      let data := ctx.buf.write i [0x80]
      let data := data.write (i + 1) (List.replicate (64 - (i + 1)) 0)
      (sha256Transform ctx.state data.contents, data.write 0 (List.replicate 56 0))
  let bitlen := ctx.bitlen + UInt64.ofNat ctx.buflen * 8
  let data := data.write 56 (store64be bitlen)
  digestBytes (sha256Transform state data.contents)

theorem digestBytes_eq (s : State) : digestBytes s = output s := by
  have hmask : ∀ w : UInt32, (w &&& 0xff).toUInt8 = w.toUInt8 := by
    intro w
    apply UInt8.toNat_inj.mp
    have hff : (0xff : UInt32).toNat = 2 ^ 8 - 1 := rfl
    rw [UInt32.toNat_toUInt8, UInt32.toNat_and, hff, Nat.and_two_pow_sub_one_eq_mod,
      UInt32.toNat_toUInt8, Nat.mod_mod]
  have hzero : ∀ w : UInt32, w >>> 0 = w := by
    intro w
    simp
  simp only [digestBytes, hmask, hzero]
  rfl

theorem sha256Final_eq {ctx : Sha256Ctx} {message : Bytes} (h : ByteCtx.Hashed message ctx) :
    sha256Final ctx = sha256 message := by
  have hpending := h.absorbed.length_pending
  have hlt := h.absorbed.1
  have hlen : (ctx.buf.contents.take ctx.buflen).length = ctx.buflen := by
    rw [hpending, h.buflen_eq]
  have hbuf : ctx.buf.contents.take (ctx.buf.contents.take ctx.buflen).length =
      ctx.buf.contents.take ctx.buflen := by rw [hlen]
  unfold sha256Final
  dsimp only
  rw [h.bits, digestBytes_eq, h.absorbed.digest, finish, hlen]
  split
  next hshort =>
    have hcontents := contents_short hbuf (by rw [hlen]; exact hshort)
      (UInt64.ofNat (8 * message.length))
    rw [hlen] at hcontents
    dsimp only
    rw [hcontents, store64be_ofNat, sha256Transform_eq]
    simp only [List.length_append, List.length_replicate, List.length_singleton,
      ← store64be_ofNat, length_store64be, hlen]
    omega
  next hlong =>
    have hcontents := contents_long hbuf hlt
    rw [hlen] at hcontents
    dsimp only
    rw [hcontents, contents_zeros, store64be_ofNat, sha256Transform_eq, sha256Transform_eq]
    · simp only [List.length_append, List.length_replicate, List.length_singleton, hlen]
      omega
    · rfl

end Agent

section Checksums

/-- What a loop of `fread` calls with a buffer of `size` bytes delivers. -/
def freadPieces (size : Nat) (data : Bytes) : List Bytes :=
  if size = 0 ∨ data = [] then []
  else data.take size :: freadPieces size (data.drop size)
termination_by data.length
decreasing_by
  have hpos : 0 < data.length := List.length_pos_iff.mpr fun hnil => by simp_all
  rw [List.length_drop]
  omega

theorem flatten_freadPieces {size : Nat} (hsize : 0 < size) (data : Bytes) :
    (freadPieces size data).flatten = data := by
  fun_induction freadPieces size data with
  | case1 data hstop =>
      rcases hstop with hzero | rfl
      · omega
      · rfl
  | case2 data hmore ih => rw [List.flatten_cons, ih, List.take_append_drop]

/-- `compute_checksum` of the ground tool, on the bytes of the file it opened. -/
def Ground.computeChecksum (buf : Buffer UInt8 64) (data : Bytes) : Bytes :=
  hex (sha256Final ((freadPieces 4096 data).foldl sha256Update (sha256Init buf)))

/-- The loop of `compute_file_checksum`, on the bytes of the file it opened. -/
def Agent.checksumLoop (buf : Buffer UInt8 64) (data : Bytes) : Bytes :=
  hex (sha256Final ((freadPieces 8192 data).foldl sha256Update (sha256Init buf)))

theorem Ground.Hashed.pieces (pieces : List Bytes) : ∀ {message : Bytes} {ctx : Ground.Sha256Ctx},
    Ground.Hashed message ctx →
    Ground.Hashed (message ++ pieces.flatten) (pieces.foldl Ground.sha256Update ctx) := by
  induction pieces with
  | nil =>
      intro message ctx h
      rw [List.flatten_nil, List.append_nil]
      exact h
  | cons p pieces ih =>
      intro message ctx h
      rw [List.flatten_cons, ← List.append_assoc]
      exact ih (h.update p)

theorem ByteCtx.Hashed.pieces (pieces : List Bytes) : ∀ {message : Bytes} {c : ByteCtx},
    ByteCtx.Hashed message c →
    ByteCtx.Hashed (message ++ pieces.flatten) (pieces.foldl ByteCtx.update c) := by
  induction pieces with
  | nil =>
      intro message c h
      rw [List.flatten_nil, List.append_nil]
      exact h
  | cons p pieces ih =>
      intro message c h
      rw [List.flatten_cons, ← List.append_assoc]
      exact ih (h.update p)

theorem Ground.sha256_pieces (buf : Buffer UInt8 64) (pieces : List Bytes) :
    Ground.sha256Final (pieces.foldl Ground.sha256Update (Ground.sha256Init buf)) =
      sha256 pieces.flatten :=
  (Ground.Hashed.pieces pieces (Ground.hashed_init buf)).final

theorem Svu.ciSha256_pieces (buf : Buffer UInt8 64) (pieces : List Bytes) :
    Svu.ciSha256Final (pieces.foldl Svu.ciSha256Update (Svu.ciSha256Init buf)) =
      sha256 pieces.flatten :=
  Svu.ciSha256Final_eq (ByteCtx.Hashed.pieces pieces (ByteCtx.hashed_init buf))

theorem Agent.sha256_pieces (buf : Buffer UInt8 64) (pieces : List Bytes) :
    Agent.sha256Final (pieces.foldl Agent.sha256Update (Agent.sha256Init buf)) =
      sha256 pieces.flatten :=
  Agent.sha256Final_eq (ByteCtx.Hashed.pieces pieces (ByteCtx.hashed_init buf))

end Checksums

/-- Whatever the buffers hold at first and however the bytes are cut into
updates, the three implementations compute SHA-256 of all of them; so the
checksums of one file are the same on the ground and on the satellite. -/
theorem hashes_agree (ground core agent : Buffer UInt8 64) :
    (∀ pieces : List Bytes,
      Ground.sha256Final (pieces.foldl Ground.sha256Update (Ground.sha256Init ground)) =
        sha256 pieces.flatten ∧
      Svu.ciSha256Final (pieces.foldl Svu.ciSha256Update (Svu.ciSha256Init core)) =
        sha256 pieces.flatten ∧
      Agent.sha256Final (pieces.foldl Agent.sha256Update (Agent.sha256Init agent)) =
        sha256 pieces.flatten) ∧
    ∀ data : Bytes, Ground.computeChecksum ground data = Agent.checksumLoop agent data ∧
      Agent.checksumLoop agent data = Agent.hexDigest data ∧
      (Agent.checksumLoop agent data).length = 64 := by
  have hground : ∀ data, Ground.computeChecksum ground data = Agent.hexDigest data := by
    intro data
    rw [Ground.computeChecksum, Ground.sha256_pieces, flatten_freadPieces (by decide),
      Agent.hexDigest]
  have hagent : ∀ data, Agent.checksumLoop agent data = Agent.hexDigest data := by
    intro data
    rw [Agent.checksumLoop, Agent.sha256_pieces, flatten_freadPieces (by decide), Agent.hexDigest]
  refine ⟨fun pieces => ⟨?_, ?_, ?_⟩, fun data => ⟨?_, hagent data, ?_⟩⟩
  · exact Ground.sha256_pieces ground pieces
  · exact Svu.ciSha256_pieces core pieces
  · exact Agent.sha256_pieces agent pieces
  · rw [hground, hagent]
  · rw [hagent, Agent.hexDigest, length_hex_sha256]

end SatDeploy
