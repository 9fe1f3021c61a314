import SatDeploy.Svu.Serve

/-!
How `ctrl_exchange` puts a manifest together. Chunks are written at the offset
they carry; one flag per 200-byte stride keeps a chunk from being taken twice,
and the exchange ends when the lengths of the chunks taken add up to the
manifest. While no chunk is longer than a stride, that sum is the number of
bytes written, so the exchange ends exactly when the manifest is whole.
-/

namespace SatDeploy.Svu

open Lib

/-- A manifest chunk on the wire. -/
def chunkPacket (off : Nat) (payload : Bytes) : Bytes :=
  svuPut32 (UInt32.ofNat off) ++ payload

/-- The assembly after a chunk that is taken. -/
def Assembly.take (a : Assembly) (off : Nat) (payload : Bytes) : Assembly where
  manifest := splice a.manifest off (payload.map some)
  marked := Function.update a.marked (off / manChunk) true
  got := (a.got + payload.length) % 2 ^ 32

/-- What the loop checks before it takes a chunk. -/
structure Takes (manBytes : Nat) (a : Assembly) (off : Nat) (payload : Bytes) : Prop where
  nonempty : 0 < payload.length
  stride : off % manChunk = 0
  inside : off + payload.length ≤ manBytes
  unmarked : a.marked (off / manChunk) = false

section Step

variable {manBytes off : Nat} {a : Assembly} {payload : Bytes}

theorem assembleChunk_cases (manBytes : Nat) (a : Assembly) (packet : Bytes) :
    assembleChunk manBytes a packet = a ∨
      Takes manBytes a (svuGet32 packet 0).toNat (packet.drop 4) ∧
        assembleChunk manBytes a packet =
          a.take (svuGet32 packet 0).toNat (packet.drop 4) := by
  have hlength : (packet.drop 4).length = packet.length - 4 := List.length_drop
  unfold assembleChunk
  split
  next hlong =>
    dsimp only
    split
    next hfits =>
      split
      next hnew =>
        refine Or.inr ⟨⟨by omega, hfits.2.1, by omega, hnew⟩, ?_⟩
        simp only [Assembly.take, hlength]
      next => exact Or.inl rfl
    next => exact Or.inl rfl
  next => exact Or.inl rfl

theorem chunkPacket_offset (payload : Bytes) (hoff : off < 2 ^ 32) :
    (svuGet32 (chunkPacket off payload) 0).toNat = off := by
  rw [chunkPacket, svuGet32_put32]
  exact UInt32.toNat_ofNat_of_lt' hoff

theorem chunkPacket_payload : (chunkPacket off payload).drop 4 = payload :=
  List.drop_left' rfl

theorem assembleChunk_takes (hmax : manBytes ≤ 2 ^ 32) (h : Takes manBytes a off payload) :
    assembleChunk manBytes a (chunkPacket off payload) = a.take off payload := by
  have hne := h.nonempty
  have hinside := h.inside
  have hlength : (chunkPacket off payload).length = 4 + payload.length := List.length_append
  have hoff := chunkPacket_offset payload (show off < 2 ^ 32 by omega)
  unfold assembleChunk
  rw [if_pos (by omega)]
  simp only [hoff, chunkPacket_payload]
  rw [if_pos ⟨by omega, h.stride, by omega⟩, if_pos h.unmarked, hlength]
  simp only [Assembly.take, Nat.add_sub_cancel_left]

end Step

/-- The counter is the number of bytes written, and only marked strides have
any. -/
structure Assembly.Counts (manBytes : Nat) (a : Assembly) : Prop where
  length_eq : a.manifest.length = manBytes
  got_eq : a.got = a.manifest.countP Option.isSome
  clear : ∀ i < manBytes, a.marked (i / manChunk) = false → a.manifest[i]? = some none

section Counting

variable {manBytes off : Nat} {a : Assembly} {payload : Bytes}

theorem Assembly.Counts.start (marked : Nat → Bool) :
    Assembly.Counts manBytes ⟨List.replicate manBytes none, marked, 0⟩ := by
  refine ⟨List.length_replicate, ?_, ?_⟩
  · simp [List.countP_replicate]
  · intro i hi _
    simp [hi]

/-- A window without a written byte gains as many as are spliced into it. -/
theorem countP_splice {cells : List (Option UInt8)}
    (hclear : ∀ i, off ≤ i → i < off + payload.length → cells[i]? = some none) :
    (splice cells off (payload.map some)).countP Option.isSome =
      cells.countP Option.isSome + payload.length := by
  have hwindow : slice cells off (off + payload.length) = List.replicate payload.length none := by
    apply List.ext_getElem?
    intro i
    rw [getElem?_slice, List.getElem?_replicate, Nat.add_sub_cancel_left]
    split
    next hi => exact hclear _ (by omega) (by omega)
    next => rfl
  have hsplit : cells = cells.take off ++ (slice cells off (off + payload.length) ++
      cells.drop (off + payload.length)) := by
    rw [slice, Nat.add_sub_cancel_left, ← List.drop_drop, List.take_append_drop,
      List.take_append_drop]
  have hcells : cells.countP Option.isSome = (cells.take off).countP Option.isSome +
      (cells.drop (off + payload.length)).countP Option.isSome := by
    conv_lhs => rw [hsplit, hwindow]
    simp [List.countP_append, List.countP_replicate]
  have hpayload : (payload.map some).countP Option.isSome = payload.length := by
    simp [List.countP_map]
  rw [hcells, splice, List.countP_append, List.countP_append, hpayload, List.length_map]
  omega

theorem Assembly.Counts.got_le (h : a.Counts manBytes) : a.got ≤ manBytes := by
  rw [h.got_eq, ← h.length_eq]
  exact List.countP_le_length

/-- Taking a chunk that stays in its stride keeps the counter exact. -/
theorem Assembly.Counts.take (h : a.Counts manBytes) (hmax : manBytes < 2 ^ 32)
    (htakes : Takes manBytes a off payload) (hshort : payload.length ≤ manChunk) :
    (a.take off payload).Counts manBytes := by
  have hstride := htakes.stride
  have hinside := htakes.inside
  have hsame : ∀ i, off ≤ i → i < off + payload.length → i / manChunk = off / manChunk := by
    intro i hlow hhigh
    rw [manChunk] at hstride hshort ⊢
    omega
  have hfits : off + (payload.map some).length ≤ a.manifest.length := by
    rw [List.length_map, h.length_eq]
    exact hinside
  have hclear : ∀ i, off ≤ i → i < off + payload.length → a.manifest[i]? = some none := by
    intro i hlow hhigh
    apply h.clear i (by omega)
    rw [hsame i hlow hhigh]
    exact htakes.unmarked
  have hcount := countP_splice hclear
  have hlength : (splice a.manifest off (payload.map some)).length = manBytes := by
    rw [length_splice hfits, h.length_eq]
  refine ⟨hlength, ?_, ?_⟩
  · have hle := List.countP_le_length (p := Option.isSome)
      (l := splice a.manifest off (payload.map some))
    simp only [Assembly.take]
    rw [hcount, h.got_eq]
    rw [hcount, hlength] at hle
    exact Nat.mod_eq_of_lt (by omega)
  · intro i hi hmark
    simp only [Assembly.take] at hmark ⊢
    have hother : i / manChunk ≠ off / manChunk := by
      intro heq
      rw [heq, Function.update_self] at hmark
      cases hmark
    rw [Function.update_of_ne hother] at hmark
    rw [getElem?_splice hfits, List.length_map, if_neg ?_]
    · exact h.clear i hi hmark
    · rintro ⟨hlow, hhigh⟩
      exact hother (hsame i hlow hhigh)

/-- Bytes are missing exactly while the loop goes on. -/
theorem Assembly.Counts.whole (h : a.Counts manBytes) (hdone : ¬ a.got < manBytes) {i : Nat}
    (hi : i < manBytes) : ∃ b, a.manifest[i]? = some (some b) := by
  have hall : a.manifest.countP Option.isSome = a.manifest.length := by
    have hle := h.got_le
    rw [← h.got_eq, h.length_eq]
    omega
  have hlt : i < a.manifest.length := h.length_eq.symm ▸ hi
  have hsome := List.countP_eq_length.mp hall _ (List.getElem_mem hlt)
  obtain ⟨b, hb⟩ := Option.isSome_iff_exists.mp hsome
  exact ⟨b, by rw [List.getElem?_eq_getElem hlt, hb]⟩

theorem Assembly.Counts.step (h : a.Counts manBytes) (hmax : manBytes < 2 ^ 32) {packet : Bytes}
    (hshort : manBytes ≤ manChunk ∨ packet.length ≤ 4 + manChunk) :
    (assembleChunk manBytes a packet).Counts manBytes := by
  rcases assembleChunk_cases manBytes a packet with hsame | ⟨htakes, htaken⟩
  · rw [hsame]
    exact h
  · rw [htaken]
    have hlength : (packet.drop 4).length = packet.length - 4 := List.length_drop
    have hinside := htakes.inside
    exact h.take hmax htakes (by omega)

/-- An exchange whose chunks stay in their strides ends with every byte
written. -/
theorem assembleLoop_whole (hmax : manBytes < 2 ^ 32) (packets : List Bytes) :
    ∀ {a : Assembly}, a.Counts manBytes →
    (manBytes ≤ manChunk ∨ ∀ p ∈ packets, p.length ≤ 4 + manChunk) →
    ∀ {manifest}, assembleLoop manBytes packets a = some manifest →
    ∀ i < manBytes, ∃ b, manifest[i]? = some (some b) := by
  induction packets with
  | nil =>
      intro a ha _ manifest hloop i hi
      unfold assembleLoop at hloop
      split at hloop
      · cases hloop
      next hdone =>
        rw [← Option.some.inj hloop]
        exact ha.whole hdone hi
  | cons packet packets ih =>
      intro a ha hshort manifest hloop i hi
      unfold assembleLoop at hloop
      split at hloop
      · refine ih (ha.step hmax ?_) ?_ hloop i hi
        · exact hshort.imp_right fun hall => hall packet List.mem_cons_self
        · exact hshort.imp_right fun hall p hp => hall p (List.mem_cons_of_mem _ hp)
      next hdone =>
        rw [← Option.some.inj hloop]
        exact ha.whole hdone hi

end Counting

/-- Chunk `j` of a manifest, as `send_manifest` cuts it. -/
def manifestPiece (manifest : Bytes) (j : Nat) : Bytes :=
  slice manifest (j * manifestChunk) (min (j * manifestChunk + manifestChunk) manifest.length)

/-- The chunk stream of a manifest. -/
def IsChunk (manifest : Bytes) (packet : Bytes) : Prop :=
  ∃ j, j * manifestChunk < manifest.length ∧
    packet = chunkPacket (j * manifestChunk) (manifestPiece manifest j)

/-- What is written is the manifest's, and marked strides are written. -/
structure Assembly.Copies (manifest : Bytes) (a : Assembly) : Prop where
  counts : a.Counts manifest.length
  same : ∀ i : Nat, (∃ b, a.manifest[i]? = some (some b)) →
    a.manifest[i]? = some manifest[i]?
  written : ∀ i < manifest.length, a.marked (i / manChunk) = true →
    ∃ b, a.manifest[i]? = some (some b)

section Copying

variable {manifest : Bytes} {a : Assembly}

theorem length_manifestPiece {j : Nat} (hj : j * manifestChunk < manifest.length) :
    (manifestPiece manifest j).length =
      min manifestChunk (manifest.length - j * manifestChunk) := by
  rw [manifestPiece, length_slice]
  omega

theorem Assembly.Copies.start {marked : Nat → Bool}
    (hclear : ∀ i < manifest.length, marked (i / manChunk) = false) :
    Assembly.Copies manifest ⟨List.replicate manifest.length none, marked, 0⟩ := by
  refine ⟨.start marked, ?_, ?_⟩
  · rintro i ⟨b, hb⟩
    rw [List.getElem?_replicate] at hb
    split at hb <;> cases hb
  · intro i hi hmarked
    exact absurd hmarked (by simp [hclear i hi])

/-- Writing a chunk of the manifest keeps the copy true. -/
theorem Assembly.Copies.take (h : a.Copies manifest) (hmax : manifest.length < 2 ^ 32) {j : Nat}
    (hj : j * manifestChunk < manifest.length)
    (htakes : Takes manifest.length a (j * manifestChunk) (manifestPiece manifest j)) :
    (a.take (j * manifestChunk) (manifestPiece manifest j)).Copies manifest := by
  have hlength := length_manifestPiece hj
  have hfits : j * manifestChunk + ((manifestPiece manifest j).map some).length ≤
      a.manifest.length := by
    rw [List.length_map, h.counts.length_eq]
    exact htakes.inside
  have hinside : ∀ i, j * manifestChunk ≤ i → i < j * manifestChunk +
      (manifestPiece manifest j).length →
      (manifestPiece manifest j)[i - j * manifestChunk]? = manifest[i]? := by
    intro i hlow hhigh
    rw [manifestPiece, getElem?_slice, if_pos (by omega), Nat.add_sub_cancel' hlow]
  have hget : ∀ i, (a.take (j * manifestChunk) (manifestPiece manifest j)).manifest[i]? =
      if j * manifestChunk ≤ i ∧ i < j * manifestChunk + (manifestPiece manifest j).length then
        some manifest[i]? else a.manifest[i]? := by
    intro i
    simp only [Assembly.take]
    rw [getElem?_splice hfits, List.length_map]
    split
    next hin =>
      have hlt : i < manifest.length := by omega
      rw [List.getElem?_map, hinside i hin.1 hin.2, List.getElem?_eq_getElem hlt]
      rfl
    next => rfl
  refine ⟨h.counts.take hmax htakes ?_, ?_, ?_⟩
  · rw [hlength]
    exact min_le_left _ _
  · intro i hsome
    rw [hget] at hsome ⊢
    split at hsome
    next hin => rw [if_pos hin]
    next hout =>
      rw [if_neg hout]
      exact h.same i hsome
  · intro i hi hmarked
    rw [hget]
    split
    next =>
      exact ⟨manifest[i], by rw [List.getElem?_eq_getElem hi]⟩
    next hout =>
      have hother : i / manChunk ≠ j * manifestChunk / manChunk := by
        intro heq
        rw [manifestChunk] at hout hlength heq
        rw [manChunk] at heq
        omega
      simp only [Assembly.take] at hmarked
      rw [Function.update_of_ne hother] at hmarked
      exact h.written i hi hmarked

theorem Assembly.Copies.step (h : a.Copies manifest) (hmax : manifest.length < 2 ^ 32)
    {packet : Bytes} (hchunk : IsChunk manifest packet) :
    (assembleChunk manifest.length a packet).Copies manifest := by
  obtain ⟨j, hj, rfl⟩ := hchunk
  rcases assembleChunk_cases manifest.length a
      (chunkPacket (j * manifestChunk) (manifestPiece manifest j)) with hsame | ⟨htakes, htaken⟩
  · rw [hsame]
    exact h
  · rw [htaken]
    rw [chunkPacket_offset _ (by omega), chunkPacket_payload] at htakes ⊢
    exact h.take hmax hj htakes

/-- Once its chunk has been read, a stride is marked. -/
theorem assembleChunk_marks (hmax : manifest.length < 2 ^ 32) {j : Nat}
    (hj : j * manifestChunk < manifest.length) :
    (assembleChunk manifest.length a
      (chunkPacket (j * manifestChunk) (manifestPiece manifest j))).marked j = true := by
  have hlength := length_manifestPiece hj
  have hdiv : j * manifestChunk / manChunk = j := Nat.mul_div_cancel j (by decide)
  cases hmarked : a.marked j with
  | false =>
      have htakes : Takes manifest.length a (j * manifestChunk) (manifestPiece manifest j) := by
        refine ⟨?_, Nat.mul_mod_left j manChunk, by omega, by rw [hdiv]; exact hmarked⟩
        rw [hlength, manifestChunk]
        rw [manifestChunk] at hj
        omega
      rw [assembleChunk_takes (by omega) htakes]
      simp only [Assembly.take, hdiv, Function.update_self]
  | true =>
      rcases assembleChunk_cases manifest.length a
        (chunkPacket (j * manifestChunk) (manifestPiece manifest j)) with hsame | ⟨htakes, -⟩
      · rw [hsame]
        exact hmarked
      · have hunmarked := htakes.unmarked
        rw [chunkPacket_offset _ (by omega), hdiv, hmarked] at hunmarked
        cases hunmarked

theorem assembleChunk_keeps_marks {manBytes : Nat} {packet : Bytes} {j : Nat}
    (hmarked : a.marked j = true) : (assembleChunk manBytes a packet).marked j = true := by
  rcases assembleChunk_cases manBytes a packet with hsame | ⟨-, htaken⟩
  · rw [hsame]
    exact hmarked
  · rw [htaken]
    simp only [Assembly.take]
    by_cases heq : j = (svuGet32 packet 0).toNat / manChunk
    · rw [heq, Function.update_self]
    · rw [Function.update_of_ne heq]
      exact hmarked

/-- A finished copy is the manifest. -/
theorem Assembly.Copies.done (h : a.Copies manifest) (hdone : ¬ a.got < manifest.length) :
    a.manifest = manifest.map some := by
  apply List.ext_getElem?
  intro i
  rw [List.getElem?_map]
  by_cases hi : i < manifest.length
  · rw [h.same i (h.counts.whole hdone hi), List.getElem?_eq_getElem hi]
    rfl
  · rw [List.getElem?_eq_none (by rw [h.counts.length_eq]; omega),
      List.getElem?_eq_none (by omega)]
    rfl

/-- A copy with every stride marked is finished. -/
theorem Assembly.Copies.done_of_marked (h : a.Copies manifest)
    (hall : ∀ j, j * manifestChunk < manifest.length → a.marked j = true) :
    ¬ a.got < manifest.length := by
  rw [h.counts.got_eq, ← h.counts.length_eq, Nat.not_lt]
  apply Nat.le_of_eq
  symm
  rw [List.countP_eq_length]
  intro cell hcell
  obtain ⟨i, hi, rfl⟩ := List.mem_iff_getElem.mp hcell
  have hlt : i < manifest.length := h.counts.length_eq ▸ hi
  have hstride : i / manChunk * manifestChunk < manifest.length :=
    lt_of_le_of_lt (Nat.div_mul_le_self i manChunk) hlt
  obtain ⟨b, hb⟩ := h.written i hlt (hall _ hstride)
  rw [List.getElem?_eq_getElem hi] at hb
  rw [Option.some.inj hb]
  rfl

/-- Reading nothing but chunks of a manifest, in any order and number, the loop
ends with that manifest or not at all, and it ends once each chunk has come. -/
theorem assembleLoop_copies (hmax : manifest.length < 2 ^ 32) (packets : List Bytes) :
    ∀ {a : Assembly}, a.Copies manifest → (∀ p ∈ packets, IsChunk manifest p) →
    (∀ cells, assembleLoop manifest.length packets a = some cells →
      cells = manifest.map some) ∧
    ((∀ j, j * manifestChunk < manifest.length → a.marked j = true ∨
        chunkPacket (j * manifestChunk) (manifestPiece manifest j) ∈ packets) →
      ∃ cells, assembleLoop manifest.length packets a = some cells) := by
  induction packets with
  | nil =>
      intro a ha _
      unfold assembleLoop
      split
      next hgoing =>
        constructor
        · intro cells hnone
          cases hnone
        · intro hall
          refine absurd hgoing (ha.done_of_marked fun j hj => ?_)
          exact (hall j hj).resolve_right (by simp)
      next hdone =>
        exact ⟨fun cells heq => (Option.some.inj heq) ▸ ha.done hdone, fun _ => ⟨_, rfl⟩⟩
  | cons packet packets ih =>
      intro a ha hchunks
      unfold assembleLoop
      split
      · obtain ⟨hsame, hends⟩ := ih (ha.step hmax (hchunks packet List.mem_cons_self))
          (fun p hp => hchunks p (List.mem_cons_of_mem _ hp))
        refine ⟨hsame, fun hall => hends fun j hj => ?_⟩
        rcases hall j hj with hmarked | hcomes
        · exact Or.inl (assembleChunk_keeps_marks hmarked)
        · rcases List.mem_cons.mp hcomes with heq | hlater
          · rw [← heq]
            exact Or.inl (assembleChunk_marks hmax hj)
          · exact Or.inr hlater
      next hdone =>
        exact ⟨fun cells heq => (Option.some.inj heq) ▸ ha.done hdone, fun _ => ⟨_, rfl⟩⟩

end Copying

section Stream

variable {manifest : Bytes}

/-- The packets of `send_manifest` are chunks of the manifest, and, unless it
runs out of buffers, each of them is sent. -/
theorem manifestLoop_spec (buffers : Nat → Bool)
    (hmax : manifest.length + manifestChunk ≤ 2 ^ 32) (fuel : Nat) :
    ∀ k j, manifest.length < (j + fuel) * manifestChunk →
    ∃ chunks, manifestLoop buffers manifest manifest.length (fuel + 1) k (j * manifestChunk) =
        some chunks ∧
      (∀ p ∈ chunks, IsChunk manifest p) ∧
      ((∀ n, buffers n = true) → ∀ i, j ≤ i → i * manifestChunk < manifest.length →
        chunkPacket (i * manifestChunk) (manifestPiece manifest i) ∈ chunks) := by
  induction fuel with
  | zero =>
      intro k j hfuel
      rw [Nat.add_zero] at hfuel
      refine ⟨[], by rw [manifestLoop, if_neg (by omega)], by simp, ?_⟩
      intro _ i hi hlt
      have := Nat.mul_le_mul_right manifestChunk hi
      omega
  | succ fuel ih =>
      intro k j hfuel
      rw [manifestLoop]
      split
      next hoff =>
        have hpiece : svuPut32 (UInt32.ofNat (j * manifestChunk)) ++
            slice manifest (j * manifestChunk) (j * manifestChunk +
              if (j * manifestChunk + manifestChunk) % 2 ^ 32 ≤ manifest.length then manifestChunk
              else manifest.length - j * manifestChunk) =
            chunkPacket (j * manifestChunk) (manifestPiece manifest j) := by
          unfold chunkPacket manifestPiece
          congr 2
          rw [Nat.mod_eq_of_lt (by omega)]
          split <;> omega
        have hnext : (j * manifestChunk + manifestChunk) % 2 ^ 32 = (j + 1) * manifestChunk := by
          rw [Nat.mod_eq_of_lt (by omega), Nat.add_mul, Nat.one_mul]
        dsimp only
        rw [hpiece, hnext]
        split
        · obtain ⟨chunks, hloop, hall, hevery⟩ := ih (k + 1) (j + 1)
            (by rwa [Nat.add_right_comm j 1 fuel, Nat.add_assoc])
          refine ⟨chunkPacket (j * manifestChunk) (manifestPiece manifest j) :: chunks,
            by rw [hloop]; rfl, ?_, ?_⟩
          · intro p hp
            rcases List.mem_cons.mp hp with rfl | hp
            · exact ⟨j, hoff, rfl⟩
            · exact hall p hp
          · intro hbuffers i hi hlt
            rcases Nat.eq_or_lt_of_le hi with rfl | hlater
            · exact List.mem_cons_self
            · exact List.mem_cons_of_mem _ (hevery hbuffers i hlater hlt)
        next hbuffer =>
          refine ⟨[], rfl, by simp, ?_⟩
          intro hbuffers
          exact absurd (hbuffers k) hbuffer
      next hoff =>
        refine ⟨[], rfl, by simp, ?_⟩
        intro _ i hi hlt
        have := Nat.mul_le_mul_right manifestChunk hi
        omega

theorem sendManifest_spec (buffers : Nat → Bool)
    (hmax : manifest.length + manifestChunk ≤ 2 ^ 32) :
    ∃ chunks, sendManifest buffers manifest manifest.length = some chunks ∧
      (∀ p ∈ chunks, IsChunk manifest p) ∧
      ((∀ n, buffers n = true) → ∀ p, IsChunk manifest p → p ∈ chunks) := by
  have hfuel : manifest.length < (0 + 2 ^ 32) * manifestChunk := by
    rw [manifestChunk] at hmax ⊢
    omega
  obtain ⟨chunks, hloop, hall, hevery⟩ :=
    manifestLoop_spec buffers hmax (2 ^ 32) 0 0 hfuel
  rw [Nat.zero_mul] at hloop
  refine ⟨chunks, hloop, hall, ?_⟩
  rintro hbuffers p ⟨j, hj, rfl⟩
  exact hevery hbuffers j (Nat.zero_le j) hj

end Stream

section Exchange

variable {total block nblocks : UInt32} {io : CtrlIo}

/-- A response header. -/
def respHeader (session total block nblocks : UInt32) : Bytes :=
  svuPut32 svuMagicResp ++ svuPut32 session ++ svuPut32 total ++ svuPut32 block ++
    svuPut32 nblocks

/-- The exchange reads packets after a valid response header: it has a
connection, a buffer and its memory, and the header is its first packet. -/
structure Answered (io : CtrlIo) (total block nblocks : UInt32) (rest : List Bytes) : Prop where
  connected : io.connected = true
  buffer : io.buffer = true
  allocated : io.allocated = true
  packets_eq : ∃ header, io.packets = header :: rest ∧ svuRespHdr ≤ header.length ∧
    svuGet32 header 0 = svuMagicResp ∧ svuGet32 header 8 = total ∧
    svuGet32 header 12 = block ∧ svuGet32 header 16 = nblocks

/-- The assembly before the first chunk. -/
def freshAssembly (stale : Nat → Bool) (manBytes : Nat) : Assembly where
  manifest := List.replicate manBytes none
  marked := fun idx =>
    decide ((manBytes + manChunk - 1) % 2 ^ 32 / manChunk ≤ idx) && stale idx
  got := 0

theorem Answered.ctrlExchange_eq {rest : List Bytes}
    (h : Answered io total block nblocks rest) :
    ctrlExchange io = (assembleLoop (nblocks.toNat * hashLen % 2 ^ 32) rest
      (freshAssembly io.stale (nblocks.toNat * hashLen % 2 ^ 32))).map
        fun manifest => ⟨total.toNat, block.toNat, nblocks.toNat, manifest⟩ := by
  obtain ⟨header, hpackets, hlength, hmagic, htotal, hblock, hnblocks⟩ := h.packets_eq
  have hvalid : ¬ (header.length < svuRespHdr ∨ svuGet32 header 0 ≠ svuMagicResp) := by
    rintro (hshort | hother)
    · omega
    · exact hother hmagic
  unfold ctrlExchange
  simp only [h.connected, h.buffer, h.allocated, hpackets]
  simp only [if_neg hvalid, htotal, hblock, hnblocks]
  rfl

theorem freshAssembly_unmarked {stale : Nat → Bool} {manBytes : Nat}
    (hmax : manBytes + manChunk ≤ 2 ^ 32) {i : Nat} (hi : i < manBytes) :
    (freshAssembly stale manBytes).marked (i / manChunk) = false := by
  have hstride : i / manChunk < (manBytes + manChunk - 1) % 2 ^ 32 / manChunk := by
    rw [Nat.mod_eq_of_lt (by rw [manChunk] at hmax ⊢; omega)]
    rw [manChunk] at hmax ⊢
    omega
  simp only [freshAssembly, Bool.and_eq_false_iff, decide_eq_false_iff_not]
  exact Or.inl (Nat.not_le.mpr hstride)

theorem answered_of_respHeader {session : UInt32} {rest : List Bytes}
    (hopen : io.connected = true ∧ io.buffer = true ∧ io.allocated = true)
    (hpackets : io.packets = respHeader session total block nblocks :: rest) :
    Answered io total block nblocks rest := by
  have hheader : respHeader session total block nblocks = svuPut32 svuMagicResp ++
      (svuPut32 session ++ (svuPut32 total ++ (svuPut32 block ++ (svuPut32 nblocks ++ [])))) := by
    simp only [respHeader, List.append_assoc, List.append_nil]
  refine ⟨hopen.1, hopen.2.1, hopen.2.2, _, hpackets, Nat.le_refl 20, ?_, ?_, ?_, ?_⟩
  · exact svuGet32_at [] hheader rfl
  · exact svuGet32_at (svuPut32 svuMagicResp ++ svuPut32 session)
      (by rw [hheader, List.append_assoc]) rfl
  · exact svuGet32_at (svuPut32 svuMagicResp ++ svuPut32 session ++ svuPut32 total)
      (by rw [hheader]; simp only [List.append_assoc]; rfl) rfl
  · exact svuGet32_at (svuPut32 svuMagicResp ++ svuPut32 session ++ svuPut32 total ++
      svuPut32 block) (by rw [hheader]; simp only [List.append_assoc]; rfl) rfl

end Exchange

section Deployed

/-- The manifest of an artifact at the block size satdeploy serves it with. -/
def servedManifest (src : Bytes) : Bytes := (ciSvuManifest src src.length 4096).2

/-- A complete or, for want of buffers, partial copy of the chunk stream of an
artifact's manifest. -/
def ManifestCopy (src : Bytes) (chunks : List Bytes) : Prop :=
  ∃ buffers, sendManifest buffers (servedManifest src)
    (ciSvuNblocks src.length 4096 * hashLen % 2 ^ 32) = some chunks

theorem servedManifest_bytes (src : Bytes) :
    ciSvuNblocks src.length 4096 * hashLen % 2 ^ 32 = (servedManifest src).length ∧
      (servedManifest src).length + manifestChunk ≤ 2 ^ 32 := by
  have hlength : (servedManifest src).length = ciSvuNblocks src.length 4096 * hashLen :=
    length_manifest src
  have hfew : ciSvuNblocks src.length 4096 < 2 ^ 20 := by
    unfold ciSvuNblocks
    split <;> omega
  rw [hashLen] at hlength ⊢
  rw [manifestChunk]
  omega

/-- Whatever copies of an artifact's chunk stream arrive, whole or in part, in
any order and number, an exchange that succeeds has the artifact's manifest,
and one that reads each chunk at least once succeeds. -/
theorem manifest_assembly {src : Bytes} (hsrc : src.length < 2 ^ 32) {io : CtrlIo}
    (hopen : io.connected = true ∧ io.buffer = true ∧ io.allocated = true)
    {buffers : ServeBuffers} {req : SvuReq} {header : Bytes} {own packets : List Bytes}
    (hheader : serveCtrl buffers src src.length 4096 req = some (header :: own))
    (hpackets : io.packets = header :: packets)
    (hcopies : ∀ p ∈ packets, ∃ chunks, ManifestCopy src chunks ∧ p ∈ chunks) :
    (∀ reply, ctrlExchange io = some reply → reply = ⟨src.length, 4096,
      ciSvuNblocks src.length 4096, (ciSvuManifest src src.length 4096).2.map some⟩) ∧
    ∃ stream, sendManifest (fun _ => true) (ciSvuManifest src src.length 4096).2
        (ciSvuNblocks src.length 4096 * hashLen % 2 ^ 32) = some stream ∧
      ((∀ p ∈ stream, p ∈ packets) → ∃ reply, ctrlExchange io = some reply) := by
  obtain ⟨hbytes, hmax⟩ := servedManifest_bytes src
  have hlength : (servedManifest src).length = ciSvuNblocks src.length 4096 * hashLen :=
    length_manifest src
  have hsmall : ciSvuNblocks src.length 4096 < 2 ^ 32 := by
    rw [hashLen] at hlength
    omega
  have hresp : header = respHeader req.sessionId (UInt32.ofNat src.length) (UInt32.ofNat 4096)
      (UInt32.ofNat (ciSvuNblocks src.length 4096)) := by
    unfold serveCtrl at hheader
    split at hheader
    · obtain ⟨chunks, -, heq⟩ := Option.map_eq_some_iff.mp hheader
      exact (List.cons.inj heq).1.symm
    · cases hheader
  have hanswered := answered_of_respHeader hopen (hresp ▸ hpackets)
  have hexchange := hanswered.ctrlExchange_eq
  rw [UInt32.toNat_ofNat_of_lt' hsrc, UInt32.toNat_ofNat_of_lt' hsmall, hbytes] at hexchange
  have hfresh : (freshAssembly io.stale (servedManifest src).length).Copies
      (servedManifest src) :=
    .start fun i hi => freshAssembly_unmarked hmax hi
  have hchunks : ∀ p ∈ packets, IsChunk (servedManifest src) p := by
    intro p hp
    obtain ⟨chunks, ⟨copyBuffers, hcopy⟩, hmem⟩ := hcopies p hp
    obtain ⟨chunks', hsend, hall, -⟩ := sendManifest_spec copyBuffers hmax
    rw [hbytes, hsend] at hcopy
    exact hall p (Option.some.inj hcopy ▸ hmem)
  have hshort : (servedManifest src).length < 2 ^ 32 := by
    rw [manifestChunk] at hmax
    omega
  obtain ⟨hsame, hends⟩ := assembleLoop_copies hshort packets hfresh hchunks
  constructor
  · intro reply hreply
    rw [hexchange] at hreply
    obtain ⟨cells, hloop, rfl⟩ := Option.map_eq_some_iff.mp hreply
    rw [hsame cells hloop]
    rfl
  · obtain ⟨stream, hsend, -, hevery⟩ := sendManifest_spec (fun _ => true) hmax
    refine ⟨stream, by rw [hbytes]; exact hsend, ?_⟩
    intro hall
    obtain ⟨cells, hloop⟩ := hends fun j hj =>
      Or.inr (hall _ (hevery (fun _ => rfl) _ ⟨j, hj, rfl⟩))
    exact ⟨_, by rw [hexchange, hloop]; rfl⟩

end Deployed

/-- A request for a whole file. -/
def firstRequest : SvuReq where
  magic := svuMagicReq
  sessionId := 1
  mtu := 1024
  blockSize := 4096
  nofIntervals := 0
  clientAddr := 1
  intervals := fillIntervals []
  length_intervals := length_fillIntervals []

/-- A two-byte artifact, whose only chunk arrives twice. -/
theorem manifest_assembly_twice :
    let header := respHeader 1 2 4096 1
    let chunk := chunkPacket 0 (servedManifest (ascii "hi"))
    let io : CtrlIo := ⟨true, true, true, [header, chunk, chunk], fun _ => false⟩
    serveCtrl ⟨true, fun _ => true, fun _ _ => true⟩ (ascii "hi") 2 4096 firstRequest =
        some [header, chunk] ∧
      ∃ reply, ctrlExchange io = some reply := by
  intro header chunk io
  have hopen : io.connected = true ∧ io.buffer = true ∧ io.allocated = true :=
    ⟨rfl, rfl, rfl⟩
  have hserve : serveCtrl ⟨true, fun _ => true, fun _ _ => true⟩ (ascii "hi") 2 4096
      firstRequest = some [header, chunk] := by
    decide +kernel
  have hsend : sendManifest (fun _ => true) (servedManifest (ascii "hi"))
      (ciSvuNblocks 2 4096 * hashLen % 2 ^ 32) = some [chunk] := by
    decide +kernel
  have hcopy : ManifestCopy (ascii "hi") [chunk] := ⟨fun _ => true, hsend⟩
  have hcopies : ∀ p ∈ [chunk, chunk], ∃ chunks, ManifestCopy (ascii "hi") chunks ∧
      p ∈ chunks := by
    intro p hp
    exact ⟨[chunk], hcopy, by simpa using hp⟩
  obtain ⟨stream, hstream, hends⟩ :=
    (manifest_assembly (by decide) hopen hserve rfl hcopies).2
  refine ⟨hserve, hends ?_⟩
  rw [← Option.some.inj (hsend.symm.trans hstream)]
  simp

end SatDeploy.Svu
