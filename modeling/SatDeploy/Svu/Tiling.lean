import Mathlib
import SatDeploy.Svu.Manifest

/-!
How the payload is cut: into the blocks of its manifest, for every pair of 32-bit
sizes, and by `svu_serve_loop` into packets, for every request that decodes. The
packet size and the bounds come from the wire and the offsets are 32-bit, so an
interval is served right only as long as the offset behind its last packet stays
below `2 ^ 32` and a packet fits its 16-bit length.
-/

namespace SatDeploy.Svu

open Lib

section Blocks

/-- The range of block `b`. -/
def blockSpan (total block b : Nat) : Span := ⟨b * block, min ((b + 1) * block) total⟩

variable {total block : Nat}

theorem blockSpan_nonempty (htotal : total < 2 ^ 32) {b : Nat}
    (hb : b < ciSvuNblocks total block) :
    (blockSpan total block b).start < (blockSpan total block b).stop := by
  have hne : ciSvuNblocks total block ≠ 0 := by omega
  obtain ⟨-, hblock, -, -⟩ := ciSvuNblocks_exact htotal hne
  have hstart := block_start_lt htotal hb
  have hnext : b * block < (b + 1) * block :=
    Nat.mul_lt_mul_of_pos_right (Nat.lt_succ_self b) hblock
  exact lt_min hnext hstart

theorem mem_blockSpan (hblock : 0 < block) (b i : Nat) :
    (blockSpan total block b).start ≤ i ∧ i < (blockSpan total block b).stop ↔
      i < total ∧ i / block = b := by
  have hmem : b * block ≤ i ∧ i < blockEnd total block b ↔ i < total ∧ i / block = b :=
    mem_block_iff hblock b i
  rwa [blockEnd_eq_min] at hmem

theorem blockSpan_disjoint (hblock : 0 < block) {b c : Nat} (hne : b ≠ c) :
    Disjoint (Set.Ico (blockSpan total block b).start (blockSpan total block b).stop)
      (Set.Ico (blockSpan total block c).start (blockSpan total block c).stop) := by
  apply Set.disjoint_left.mpr
  intro i hb hc
  have hib := ((mem_blockSpan hblock b i).mp hb).2
  have hic := ((mem_blockSpan hblock c i).mp hc).2
  exact hne (hib.symm.trans hic)

theorem blockSpan_covers (htotal : total < 2 ^ 32) (hne : ciSvuNblocks total block ≠ 0)
    (i : Nat) :
    Span.Covers ((List.range (ciSvuNblocks total block)).map (blockSpan total block)) i ↔
      i < total := by
  obtain ⟨-, hblock, -, -⟩ := ciSvuNblocks_exact htotal hne
  constructor
  · rintro ⟨v, hv, hi⟩
    obtain ⟨b, -, rfl⟩ := List.mem_map.mp hv
    exact ((mem_blockSpan hblock b i).mp hi).1
  · intro hi
    have hquot := List.mem_range.mpr (div_block_lt htotal hne hi)
    exact ⟨_, List.mem_map_of_mem hquot, (mem_blockSpan hblock _ i).mpr ⟨hi, rfl⟩⟩

/-- A sum that leaves 32 bits leaves a remainder below the block size. -/
theorem ciSvuNblocks_wrapped (htotal : total < 2 ^ 32)
    (hwrap : 2 ^ 32 ≤ total + block - 1) : ciSvuNblocks total block = 0 := by
  by_contra hne
  obtain ⟨-, -, hnowrap, -⟩ := ciSvuNblocks_exact htotal hne
  omega

theorem ciSvuNew_nblocks {allocated : Bool} {expected : Nat → UInt8} {nblocks : Nat}
    {s : CiSvu} (h : ciSvuNew allocated total block expected nblocks = some s) :
    ciSvuNblocks total block ≠ 0 := by
  intro hzero
  simp [ciSvuNew, hzero] at h

/-- For every pair of 32-bit sizes with a block count, the blocks are non-empty,
disjoint and make up the payload; their bounds are 32-bit, and `hash_block` computes
them without overflow in 64 bits and reads nothing beyond them. A wrapped sum has no
block count, and neither the manifest nor a receiver exists without one. -/
theorem blocks_tile (total block : UInt32) :
    (2 ^ 32 ≤ total.toNat + block.toNat - 1 → ciSvuNblocks total.toNat block.toNat = 0) ∧
    (∀ src, (ciSvuManifest src total.toNat block.toNat).1 ≠ 0 →
      ciSvuNblocks total.toNat block.toNat ≠ 0) ∧
    (∀ allocated expected nblocks s,
      ciSvuNew allocated total.toNat block.toNat expected nblocks = some s →
      ciSvuNblocks total.toNat block.toNat ≠ 0) ∧
    let n := ciSvuNblocks total.toNat block.toNat
    let span := blockSpan total.toNat block.toNat
    n ≠ 0 →
      (∀ b < n, (span b).start < (span b).stop) ∧
      (∀ b < n, ∀ c < n, b ≠ c →
        Disjoint (Set.Ico (span b).start (span b).stop)
          (Set.Ico (span c).start (span c).stop)) ∧
      (∀ i, Span.Covers ((List.range n).map span) i ↔ i < total.toNat) ∧
      (∀ b < n, (span b).start < 2 ^ 32 ∧ (span b).stop < 2 ^ 32) ∧
      (∀ src : Bytes, src.length = total.toNat → ∀ b < n,
        b * block.toNat + block.toNat < 2 ^ 64 ∧
        hashBlock src total.toNat block.toNat b =
          sha256 (slice src (span b).start (span b).stop) ∧
        (span b).stop ≤ src.length) := by
  have htotal : total.toNat < 2 ^ 32 := total.toNat_lt
  have hsize : block.toNat < 2 ^ 32 := block.toNat_lt
  refine ⟨ciSvuNblocks_wrapped htotal, fun src hmanifest => hmanifest,
    fun _ _ _ _ hnew => ciSvuNew_nblocks hnew, ?_⟩
  intro n span hne
  obtain ⟨-, hblock, -, -⟩ := ciSvuNblocks_exact htotal hne
  have hstop (b : Nat) : (span b).stop ≤ total.toNat := min_le_right _ _
  have hnonempty (b : Nat) (hb : b < n) : (span b).start < (span b).stop :=
    blockSpan_nonempty htotal hb
  refine ⟨hnonempty, fun b _ c _ hbc => blockSpan_disjoint hblock hbc,
    blockSpan_covers htotal hne, ?_, ?_⟩
  · intro b hb
    have hstart := hnonempty b hb
    have hend := hstop b
    exact ⟨by omega, by omega⟩
  · intro src hsrc b hb
    have hstart : b * block.toNat < total.toNat := block_start_lt htotal hb
    refine ⟨by omega, ?_, by rw [hsrc]; exact hstop b⟩
    rw [hashBlock, blockEnd_eq_min]
    rfl

end Blocks

/-- Fragments that cover `[start, stop)` from left to right, without a gap or an
overlap. -/
inductive Tiles (stop : Nat) : Nat → List Span → Prop
  | done {start : Nat} (hdone : stop ≤ start) : Tiles stop start []
  | next {start mid : Nat} {rest : List Span} (hne : start < mid) (hmid : mid ≤ stop)
      (hrest : Tiles stop mid rest) : Tiles stop start (⟨start, mid⟩ :: rest)

/-- The packet size the server works with. -/
def effectiveMtu (req : SvuReq) : Nat :=
  if req.mtu.toNat > svuDataHdr then req.mtu.toNat else 256

/-- The intervals of a request, clamped to the file; the whole file when there
are none. -/
def requested (total : Nat) (req : SvuReq) : List Span :=
  if req.nofIntervals = 0 then [⟨0, total⟩]
  else (req.intervals.take req.nofIntervals.toNat).map fun v =>
    ⟨v.start.toNat, min v.stop.toNat total⟩

/-- The fragments sent for one interval, with every buffer at hand; `none` when
there is no end of them. -/
def intervalFragments (mtu : Nat) (v : Span) : Option (List Span) :=
  if v.start < v.stop then blastLoop (fun _ => true) (blastPay mtu) v.stop blastFuel 0 v.start
  else some []

/-- A data packet before its length is cut to 16 bits. -/
def dataPacket (src : Bytes) (session : UInt32) (f : Span) : Bytes :=
  svuPut32 (UInt32.ofNat f.start) ++ svuPut32 session ++ slice src f.start f.stop

section Loop

variable {pay stop : Nat}

/-- No offset of a packet can be advanced past 32 bits. -/
def NeverWraps (pay start stop : Nat) : Prop :=
  ∀ k, start + k * pay < stop → start + (k + 1) * pay < 2 ^ 32

theorem NeverWraps.next {off : Nat} (h : NeverWraps pay off stop) :
    NeverWraps pay (off + pay) stop := by
  intro k hk
  have hstep := h (k + 1)
  simp only [Nat.add_mul, Nat.one_mul] at hk hstep ⊢
  omega

theorem neverWraps_of_next {off : Nat} (hfirst : off + pay < 2 ^ 32)
    (h : NeverWraps pay (off + pay) stop) : NeverWraps pay off stop := by
  intro k hk
  cases k with
  | zero =>
      rw [Nat.zero_add, Nat.one_mul]
      exact hfirst
  | succ k =>
      have hstep := h k
      simp only [Nat.add_mul, Nat.one_mul] at hk hstep ⊢
      omega

/-- Without a wrap the loop ends, and its fragments tile the interval. -/
theorem blastLoop_tiles (hpay : 0 < pay) (fuel : Nat) : ∀ k off, stop - off < fuel →
    NeverWraps pay off stop →
    ∃ fragments, blastLoop (fun _ => true) pay stop fuel k off = some fragments ∧
      Tiles stop off fragments ∧
      ∀ f ∈ fragments, f.stop - f.start ≤ min pay (stop - off) := by
  induction fuel with
  | zero =>
      intro k off hfuel
      omega
  | succ fuel ih =>
      intro k off hfuel hwrap
      unfold blastLoop
      split
      next hoff =>
        have hfirst : off + pay < 2 ^ 32 := by
          have := hwrap 0 (by omega)
          omega
        obtain ⟨later, hlater, htiles, hsmall⟩ :=
          ih (k + 1) (off + pay) (by omega) hwrap.next
        rw [Nat.mod_eq_of_lt hfirst]
        simp only [if_true, hlater]
        by_cases hmore : off + pay ≤ stop
        · rw [if_pos hmore]
          refine ⟨_, rfl, .next (by omega) hmore htiles, ?_⟩
          intro f hf
          rcases List.mem_cons.mp hf with rfl | hf
          · dsimp only
            omega
          · have := hsmall f hf
            omega
        · rw [if_neg hmore]
          -- the offset is behind the interval, so no fragment follows
          cases htiles with
          | next hne hmid => omega
          | done _ =>
              have hstop : off + (stop - off) = stop := by omega
              rw [hstop]
              refine ⟨_, rfl, .next hoff (Nat.le_refl _) (.done (Nat.le_refl _)), ?_⟩
              intro f hf
              rw [List.mem_singleton.mp hf]
              dsimp only
              omega
      next hoff =>
        exact ⟨[], rfl, .done (by omega), by simp⟩

/-- A loop whose fragments tile the interval has not wrapped, and its first
fragment is as long as the packet size and the interval allow. -/
theorem blastLoop_tiles_only (hmax : pay < 2 ^ 32) (hstop : stop < 2 ^ 32) (fuel : Nat) :
    ∀ k off fragments, blastLoop (fun _ => true) pay stop fuel k off = some fragments →
    Tiles stop off fragments →
    NeverWraps pay off stop ∧
      (off < stop → ⟨off, off + min pay (stop - off)⟩ ∈ fragments) := by
  induction fuel with
  | zero =>
      intro k off fragments hloop
      cases hloop
  | succ fuel ih =>
      intro k off fragments hloop htiles
      unfold blastLoop at hloop
      split at hloop
      next hoff =>
        simp only [if_true] at hloop
        obtain ⟨later, hlater, rfl⟩ := Option.map_eq_some_iff.mp hloop
        cases htiles with
        | next hne hmid hrest =>
            by_cases hfirst : off + pay < 2 ^ 32
            · rw [Nat.mod_eq_of_lt hfirst] at hlater hne hmid hrest ⊢
              by_cases hmore : off + pay ≤ stop
              · rw [if_pos hmore] at hrest ⊢
                refine ⟨neverWraps_of_next hfirst (ih _ _ _ hlater hrest).1, ?_⟩
                intro _
                rw [Nat.min_eq_left (by omega)]
                exact List.mem_cons_self
              · rw [if_neg hmore]
                refine ⟨neverWraps_of_next hfirst ?_, ?_⟩
                · intro j hj
                  omega
                · intro _
                  rw [Nat.min_eq_right (by omega)]
                  exact List.mem_cons_self
            · -- a wrapped offset is below the interval's end, so a whole payload
              -- is sent, past that end
              have hwrapped : (off + pay) % 2 ^ 32 ≤ stop := by
                rw [Nat.mod_eq_sub_mod (by omega)]
                exact le_trans (Nat.mod_le _ _) (by omega)
              rw [if_pos hwrapped] at hmid
              omega
      next hoff =>
        refine ⟨?_, fun hlt => absurd hlt hoff⟩
        intro j hj
        omega

end Loop

section Interval

variable {mtu : Nat} {v : Span}

/-- The fragments of one interval are right: they tile it, stay inside the file
and the packet size, and each fits a packet with a 16-bit length. -/
structure ServedRight (total mtu : Nat) (v : Span) (fragments : List Span) : Prop where
  sent : intervalFragments mtu v = some fragments
  tiles : Tiles v.stop v.start fragments
  inside : ∀ f ∈ fragments, f.stop ≤ total
  small : ∀ f ∈ fragments, f.stop - f.start ≤ mtu - svuDataHdr
  length_eq : ∀ f ∈ fragments,
    (svuDataHdr + (f.stop - f.start)) % 2 ^ 16 = svuDataHdr + (f.stop - f.start)

/-- An interval that is served right. -/
def IntervalFits (mtu : Nat) (v : Span) : Prop :=
  v.start < v.stop → NeverWraps (mtu - svuDataHdr) v.start v.stop ∧
    svuDataHdr + min (mtu - svuDataHdr) (v.stop - v.start) < 2 ^ 16

theorem Tiles.stop_le {stop start : Nat} {fragments : List Span}
    (h : Tiles stop start fragments) : ∀ f ∈ fragments, f.start < f.stop ∧ f.stop ≤ stop := by
  induction h with
  | done => simp
  | next hne hmid _ ih =>
      intro f hf
      rcases List.mem_cons.mp hf with rfl | hf
      · exact ⟨hne, hmid⟩
      · exact ih f hf

theorem blastPay_of_lt (hmtu : svuDataHdr < mtu) : blastPay mtu = mtu - svuDataHdr :=
  if_pos hmtu

theorem intervalFits_iff {total : Nat} (htotal : total < 2 ^ 32) (hmtu : svuDataHdr < mtu)
    (hmax : mtu < 2 ^ 32) (hstop : v.stop ≤ total) :
    (∃ fragments, ServedRight total mtu v fragments) ↔ IntervalFits mtu v := by
  have hpay := blastPay_of_lt hmtu
  constructor
  · rintro ⟨fragments, h⟩ hopen
    have hsent := h.sent
    rw [intervalFragments, if_pos hopen, hpay] at hsent
    obtain ⟨hwraps, hfirst⟩ := blastLoop_tiles_only (by omega) (by omega) _ _ _ _ hsent h.tiles
    refine ⟨hwraps, ?_⟩
    have hlength := h.length_eq _ (hfirst hopen)
    rw [Nat.add_sub_cancel_left] at hlength
    rw [← hlength]
    exact Nat.mod_lt _ (by decide)
  · intro hfits
    by_cases hopen : v.start < v.stop
    · obtain ⟨hwraps, hsmall⟩ := hfits hopen
      obtain ⟨fragments, hloop, htiles, hpieces⟩ := blastLoop_tiles (by omega) blastFuel 0 v.start
        (by rw [blastFuel]; omega) hwraps
      refine ⟨fragments, ?_, htiles, ?_, ?_, ?_⟩
      · rw [intervalFragments, if_pos hopen, hpay]
        exact hloop
      · intro f hf
        exact le_trans (htiles.stop_le f hf).2 hstop
      · intro f hf
        exact le_trans (hpieces f hf) (min_le_left _ _)
      · intro f hf
        have := hpieces f hf
        exact Nat.mod_eq_of_lt (by omega)
    · exact ⟨[], by rw [intervalFragments, if_neg hopen], .done (by omega), by simp, by simp,
        by simp⟩

end Interval

section Request

variable {src : Bytes} {req : SvuReq}

theorem blastPacket_of_short {session : UInt32} {f : Span}
    (hlength : (svuDataHdr + (f.stop - f.start)) % 2 ^ 16 = svuDataHdr + (f.stop - f.start)) :
    blastPacket src session f = dataPacket src session f := by
  unfold blastPacket dataPacket
  rw [hlength]
  apply List.take_of_length_le
  simp only [List.length_append, length_svuPut32, length_slice, svuDataHdr]
  omega

theorem ServedRight.packets {total mtu : Nat} {v : Span} {fragments : List Span}
    (h : ServedRight total mtu v fragments) (session : UInt32) :
    fragments.map (blastPacket src session) = fragments.map (dataPacket src session) := by
  apply List.map_congr_left
  intro f hf
  exact blastPacket_of_short (h.length_eq f hf)

theorem serveInterval_packets {session : UInt32} {mtu : Nat} {w : SvuWireInterval}
    {fragments : List Span}
    (h : ServedRight src.length mtu ⟨w.start.toNat, min w.stop.toNat src.length⟩ fragments) :
    serveInterval (fun _ => true) src src.length session mtu w =
      some (fragments.map (dataPacket src session)) := by
  have hclamp : (if w.stop.toNat > src.length then src.length else w.stop.toNat) =
      min w.stop.toNat src.length := by
    split <;> omega
  have hsent := h.sent
  rw [← h.packets session]
  unfold intervalFragments at hsent
  unfold serveInterval
  dsimp only at hsent ⊢
  rw [hclamp]
  split at hsent
  next hopen =>
    rw [if_pos hopen, blastInterval, hsent]
    rfl
  next hshut =>
    rw [if_neg hshut, ← Option.some.inj hsent]
    rfl

theorem serveIntervals_packets {session : UInt32} {mtu : Nat} {ivs : List SvuWireInterval} :
    ∀ {groups : List (List Span)} (i : Nat),
    List.Forall₂ (ServedRight src.length mtu)
      (ivs.map fun w => ⟨w.start.toNat, min w.stop.toNat src.length⟩) groups →
    serveIntervals (fun _ _ => true) src src.length session mtu i ivs =
      some (groups.flatten.map (dataPacket src session)) := by
  induction ivs with
  | nil =>
      intro groups i h
      rw [List.map_nil] at h
      cases h
      rfl
  | cons w ivs ih =>
      intro groups i h
      rw [List.map_cons] at h
      cases h with
      | cons hfirst hrest =>
          rw [serveIntervals, serveInterval_packets hfirst, ih (i + 1) hrest,
            List.flatten_cons, List.map_append]
          rfl

theorem serveData_packets {groups : List (List Span)}
    (h : List.Forall₂ (ServedRight src.length (effectiveMtu req)) (requested src.length req)
      groups) :
    serveData (fun _ _ => true) src src.length req =
      some (groups.flatten.map (dataPacket src req.sessionId)) := by
  unfold serveData
  unfold requested at h
  change (if req.nofIntervals = 0 then
    blastInterval (fun _ => true) src req.sessionId (effectiveMtu req) 0 src.length
    else serveIntervals (fun _ _ => true) src src.length req.sessionId (effectiveMtu req) 0
      (req.intervals.take req.nofIntervals.toNat)) = _
  split
  next hnone =>
    rw [if_pos hnone] at h
    cases h with
    | cons hfirst hrest =>
        cases hrest
        have hsent := hfirst.sent
        have hloop : intervalFragments (effectiveMtu req) ⟨0, src.length⟩ =
            blastLoop (fun _ => true) (blastPay (effectiveMtu req)) src.length blastFuel 0 0 := by
          unfold intervalFragments
          split
          · rfl
          next hempty =>
            have hzero : src.length = 0 := by
              dsimp only at hempty
              omega
            rw [hzero]
            rfl
        rw [hloop] at hsent
        rw [blastInterval, hsent, Option.map_some, hfirst.packets req.sessionId]
        simp
  next hsome =>
    rw [if_neg hsome] at h
    exact serveIntervals_packets 0 h

theorem requested_stop_le {total : Nat} {v : Span} (hv : v ∈ requested total req) :
    v.stop ≤ total := by
  unfold requested at hv
  split at hv
  · rw [List.mem_singleton.mp hv]
  · obtain ⟨w, -, rfl⟩ := List.mem_map.mp hv
    exact min_le_right _ _

theorem effectiveMtu_bounds (req : SvuReq) :
    svuDataHdr < effectiveMtu req ∧ effectiveMtu req < 2 ^ 32 := by
  have hmtu := req.mtu.toNat_lt
  unfold effectiveMtu svuDataHdr
  split <;> omega

/-- The control part of an answer always ends at the block size satdeploy serves
with. -/
theorem serveCtrl_ends (buffers : ServeBuffers) (src : Bytes) (req : SvuReq) :
    ∃ ctrl, serveCtrl buffers src src.length 4096 req = some ctrl := by
  obtain ⟨hbytes, hmax⟩ := servedManifest_bytes src
  obtain ⟨chunks, hsend, -⟩ := sendManifest_spec buffers.chunk hmax
  rw [← hbytes] at hsend
  have hchunks : sendManifest buffers.chunk (ciSvuManifest src src.length 4096).2
      ((ciSvuManifest src src.length 4096).1 * hashLen % 2 ^ 32) = some chunks := hsend
  unfold serveCtrl
  split
  · dsimp only
    rw [hchunks]
    exact ⟨_, rfl⟩
  · exact ⟨[], rfl⟩

end Request

/-- A request that decodes gets, for each of its intervals in order, packets
that tile the interval, inside the file, the packet size and their 16-bit
length, exactly when no interval it asks for makes an offset wrap or a packet
too long. -/
theorem server_tiling {src : Bytes} (hsrc : src.length < 2 ^ 32) {buffers : ServeBuffers}
    (hbuffers : ∀ i k, buffers.data i k = true) {packet : Bytes} {req : SvuReq}
    (hdecode : svuReqDecode packet = some req) :
    (∃ reply groups, svuServe buffers src src.length 4096 packet = some reply ∧
      reply.data = groups.flatten.map (dataPacket src req.sessionId) ∧
      List.Forall₂ (ServedRight src.length (effectiveMtu req)) (requested src.length req)
        groups) ↔
    ∀ v ∈ requested src.length req, IntervalFits (effectiveMtu req) v := by
  obtain ⟨hmtu, hmax⟩ := effectiveMtu_bounds req
  constructor
  · rintro ⟨reply, groups, -, -, hright⟩ v hv
    obtain ⟨i, hi, rfl⟩ := List.mem_iff_getElem.mp hv
    have hlt : i < groups.length := hright.length_eq ▸ hi
    refine (intervalFits_iff hsrc hmtu hmax (requested_stop_le hv)).mp ⟨groups[i], ?_⟩
    exact hright.get hi hlt
  · intro hfits
    have hall : ∀ v ∈ requested src.length req,
        ServedRight src.length (effectiveMtu req) v
          ((intervalFragments (effectiveMtu req) v).getD []) := by
      intro v hv
      obtain ⟨fragments, hright⟩ :=
        (intervalFits_iff hsrc hmtu hmax (requested_stop_le hv)).mpr (hfits v hv)
      rw [hright.sent]
      exact hright
    have hright : List.Forall₂ (ServedRight src.length (effectiveMtu req))
        (requested src.length req)
        ((requested src.length req).map fun v =>
          (intervalFragments (effectiveMtu req) v).getD []) := by
      rw [List.forall₂_map_right_iff, List.forall₂_same]
      exact hall
    have hdata : buffers.data = fun _ _ => true :=
      funext fun i => funext fun k => hbuffers i k
    obtain ⟨ctrl, hctrl⟩ := serveCtrl_ends buffers src req
    refine ⟨⟨ctrl, _⟩, _, ?_, rfl, hright⟩
    rw [svuServe, hdecode]
    simp only [hctrl, hdata, serveData_packets hright]
    rfl

/-- A request for all of a 100-byte file. -/
theorem server_tiling_whole_file :
    svuReqDecode (svuReqEncode firstRequest ++ []) = some firstRequest.trimmed ∧
    ∃ reply, svuServe ⟨true, fun _ => true, fun _ _ => true⟩ (List.replicate 100 7)
      (List.replicate 100 (7 : UInt8)).length 4096 (svuReqEncode firstRequest ++ []) =
        some reply := by
  have hwraps : NeverWraps 1016 0 100 := by
    intro k hk
    have hzero : k = 0 := by omega
    rw [hzero]
    decide
  have hdecode := svuReqDecode_encode firstRequest [] rfl (by decide)
  have hlength : (List.replicate 100 (7 : UInt8)).length = 100 := List.length_replicate
  have hrequested : requested 100 firstRequest.trimmed = [⟨0, 100⟩] := by decide
  have hmtu : effectiveMtu firstRequest.trimmed - svuDataHdr = 1016 := by decide
  have hfits : ∀ v ∈ requested (List.replicate 100 (7 : UInt8)).length firstRequest.trimmed,
      IntervalFits (effectiveMtu firstRequest.trimmed) v := by
    intro v hv _
    rw [hlength, hrequested] at hv
    rw [List.mem_singleton.mp hv, hmtu]
    exact ⟨hwraps, by decide⟩
  have hbuffers : ∀ i k, (ServeBuffers.mk true (fun _ => true) fun _ _ => true).data i k =
      true := fun _ _ => rfl
  obtain ⟨reply, -, hserve, -⟩ :=
    (server_tiling (by rw [hlength]; decide) hbuffers hdecode).mpr hfits
  exact ⟨hdecode, reply, hserve⟩

/-- Packets of `2 ^ 32 - 1` bytes, for the second half of a 100-byte file. -/
def wideRequest : SvuReq where
  magic := svuMagicReq
  sessionId := 1
  mtu := 4294967295
  blockSize := 4096
  nofIntervals := 1
  clientAddr := 1
  intervals := fillIntervals [⟨50, 100⟩]
  length_intervals := length_fillIntervals [⟨50, 100⟩]

/-- The offset behind the first packet wraps: the server reads far past the end
of the file, and then starts over in front of the interval. -/
theorem wide_request_overruns :
    svuReqDecode (svuReqEncode wideRequest) = some wideRequest ∧
    requested 100 wideRequest = [⟨50, 100⟩] ∧
    ∃ fragments, intervalFragments (effectiveMtu wideRequest) ⟨50, 100⟩ = some fragments ∧
      fragments = [⟨50, 4294967337⟩, ⟨41, 4294967328⟩, ⟨32, 4294967319⟩, ⟨23, 4294967310⟩,
        ⟨14, 4294967301⟩, ⟨5, 100⟩] ∧ ¬ Tiles 100 50 fragments := by
  refine ⟨by decide +kernel, by decide +kernel, _, by decide +kernel, rfl, ?_⟩
  intro htiles
  cases htiles with
  | next _ hmid => exact absurd hmid (by decide)

end SatDeploy.Svu
