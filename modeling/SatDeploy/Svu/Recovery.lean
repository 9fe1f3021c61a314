import SatDeploy.Svu.Completion
import SatDeploy.Svu.Serve

/-!
Recovery progress. One loss-free round removes exactly the ranges it asked
for: the receiver's run coalescing, the capped request codec, the server's
clamping and the fragmentation of each interval agree on every byte.
-/

namespace SatDeploy.Svu

open Lib

/-- A receiver after any sequence of `ci_svu_accept` calls. -/
def acceptAll (s : CiSvu) (calls : List (Nat × Bytes)) : CiSvu :=
  calls.foldl (fun t call => (ciSvuAccept t call.1 call.2).getD t) s

theorem acceptAll_valid (calls : List (Nat × Bytes)) : ∀ {s : CiSvu}, s.Valid →
    (acceptAll s calls).Valid ∧ SameShape s (acceptAll s calls) := by
  induction calls with
  | nil =>
      intro s hs
      exact ⟨hs, SameShape.refl s⟩
  | cons call rest ih =>
      intro s hs
      change (acceptAll ((ciSvuAccept s call.1 call.2).getD s) rest).Valid ∧
        SameShape s (acceptAll ((ciSvuAccept s call.1 call.2).getD s) rest)
      cases haccept : ciSvuAccept s call.1 call.2 with
      | none => exact ih hs
      | some t =>
          rw [Option.getD_some]
          have hstep := (ciSvuAccept_accepted hs haccept).sameShape
          obtain ⟨hvalid, hshape⟩ := ih (ciSvuAccept_valid hs haccept)
          exact ⟨hvalid, hstep.trans hshape⟩

theorem drainData_cons_accepted {s t : CiSvu} {packet : Bytes} {rest : List Bytes}
    (hlen : packet.length > svuDataHdr)
    (haccept : ciSvuAccept s (svuGet32 packet 0).toNat (packet.drop svuDataHdr) = some t) :
    (drainData s (packet :: rest)).1 = (drainData t rest).1 := by
  simp only [drainData, if_pos hlen, haccept]

section Fragments

variable {src : Bytes} {session : UInt32}

theorem blastPacket_offset (hsrc : src.length < 2 ^ 32) {f : Span} (hf : Fits src f) :
    (svuGet32 (blastPacket src session f) 0).toNat = f.start := by
  have hstart : f.start < 2 ^ 32 := by
    have := hf.nonempty
    have := hf.inside
    omega
  rw [blastPacket_eq hf, svuGet32_put32]
  exact UInt32.toNat_ofNat_of_lt' hstart

theorem blastPacket_payload {f : Span} (hf : Fits src f) :
    (blastPacket src session f).drop svuDataHdr = slice src f.start f.stop := by
  rw [blastPacket_eq hf, ← List.append_assoc]
  exact List.drop_left' rfl

theorem blastPacket_injective (hsrc : src.length < 2 ^ 32) {f g : Span}
    (hf : Fits src f) (hg : Fits src g)
    (heq : blastPacket src session f = blastPacket src session g) : f = g := by
  have hstart : f.start = g.start := by
    calc f.start = (svuGet32 (blastPacket src session f) 0).toNat :=
          (blastPacket_offset hsrc hf).symm
      _ = g.start := by rw [heq, blastPacket_offset hsrc hg]
  have hlen := congrArg List.length heq
  rw [length_blastPacket hf, length_blastPacket hg] at hlen
  have hfne := hf.nonempty
  have hgne := hg.nonempty
  cases f
  cases g
  simp only [Span.mk.injEq] at *
  omega

/-- `t` is `s` with the fragments of `src` written and marked. -/
def Overlaid (src : Bytes) (fragments : List Span) (s t : CiSvu) : Prop :=
  ∀ i, (Span.Covers fragments i →
      t.covered[i]? = some true ∧ t.data[i]? = src[i]?) ∧
    (¬ Span.Covers fragments i →
      t.covered[i]? = s.covered[i]? ∧ t.data[i]? = s.data[i]?)

/-- Draining data packets of the artifact writes their fragments, in whatever
order and however often they come. -/
theorem drainData_overlaid (session : UInt32) (hsrc : src.length < 2 ^ 32)
    (fragments : List Span) :
    ∀ {s : CiSvu}, s.Valid → s.total = src.length → (∀ f ∈ fragments, Fits src f) →
    Overlaid src fragments s
      (drainData s (fragments.map (blastPacket src session))).1 := by
  induction fragments with
  | nil =>
      intro s _ _ _ i
      exact ⟨fun h => absurd h (Span.not_covers_nil i), fun _ => ⟨rfl, rfl⟩⟩
  | cons f rest ih =>
      intro s hs htotal hfits
      have hf := hfits f (by simp)
      have hne := hf.nonempty
      have hin := hf.inside
      have hlen : (slice src f.start f.stop).length = f.stop - f.start := by
        rw [length_slice]
        omega
      have hroom : f.start + (slice src f.start f.stop).length ≤ s.total := by
        rw [hlen, htotal]
        omega
      obtain ⟨t, haccept⟩ := ciSvuAccept_isSome hroom
      have hstep := ciSvuAccept_accepted hs haccept
      have hrest := ih (ciSvuAccept_valid hs haccept)
        (hstep.total_eq.trans htotal) (fun g hg => hfits g (by simp [hg]))
      have hdrain : (drainData s ((f :: rest).map (blastPacket src session))).1 =
          (drainData t (rest.map (blastPacket src session))).1 := by
        apply drainData_cons_accepted
        · rw [length_blastPacket hf]
          omega
        · rw [blastPacket_offset hsrc hf, blastPacket_payload hf]
          exact haccept
      rw [hdrain]
      intro i
      rw [Span.covers_cons]
      obtain ⟨hcovered, hkept⟩ := hrest i
      have hcov := hstep.covered_get i
      have hdat := hstep.data_get i
      rw [hlen, Nat.add_sub_cancel' (Nat.le_of_lt hne)] at hcov hdat
      constructor
      · intro hi
        by_cases hlater : Span.Covers rest i
        · exact hcovered hlater
        · have hhere : f.start ≤ i ∧ i < f.stop := by
            rcases hi with hi | hi
            · exact hi
            · exact absurd hi hlater
          obtain ⟨hc, hd⟩ := hkept hlater
          rw [if_pos hhere] at hcov hdat
          refine ⟨hc.trans hcov, hd.trans (hdat.trans ?_)⟩
          rw [getElem?_slice, if_pos (by omega), Nat.add_sub_cancel' hhere.1]
      · intro hi
        obtain ⟨hc, hd⟩ := hkept (fun h => hi (Or.inr h))
        have hoff : ¬ (f.start ≤ i ∧ i < f.stop) := fun h => hi (Or.inl h)
        rw [if_neg hoff] at hcov hdat
        exact ⟨hc.trans hcov, hd.trans hdat⟩

/-- Packets that are data packets of known fragments come from a list of such
fragments. -/
theorem exists_fragments {fragments : List Span} (arrivals : List Bytes)
    (h : ∀ p ∈ arrivals, p ∈ fragments.map (blastPacket src session)) :
    ∃ arrived : List Span, arrivals = arrived.map (blastPacket src session) ∧
      ∀ f ∈ arrived, f ∈ fragments := by
  induction arrivals with
  | nil => exact ⟨[], rfl, by simp⟩
  | cons p rest ih =>
      obtain ⟨arrived, harrived, hsub⟩ := ih (fun q hq => h q (by simp [hq]))
      obtain ⟨f, hf, hp⟩ := List.mem_map.mp (h p (by simp))
      refine ⟨f :: arrived, by rw [List.map_cons, hp, harrived], ?_⟩
      intro g hg
      rcases List.mem_cons.mp hg with rfl | hg
      · exact hf
      · exact hsub g hg

/-- The same with every packet arriving at least once and no others. -/
theorem drainData_arrivals (hsrc : src.length < 2 ^ 32) {fragments : List Span}
    (hfits : ∀ f ∈ fragments, Fits src f) {arrivals : List Bytes}
    (harrivals : ∀ p, p ∈ arrivals ↔ p ∈ fragments.map (blastPacket src session))
    {s : CiSvu} (hs : s.Valid) (htotal : s.total = src.length) :
    Overlaid src fragments s (drainData s arrivals).1 := by
  obtain ⟨arrived, rfl, hsub⟩ :=
    exists_fragments arrivals (fun p hp => (harrivals p).mp hp)
  have hsame : ∀ i, Span.Covers arrived i ↔ Span.Covers fragments i := by
    intro i
    constructor
    · rintro ⟨f, hf, hi⟩
      exact ⟨f, hsub f hf, hi⟩
    · rintro ⟨f, hf, hi⟩
      obtain ⟨g, hg, hpacket⟩ := List.mem_map.mp
        ((harrivals _).mpr (List.mem_map_of_mem hf))
      have heq := blastPacket_injective hsrc (hfits g (hsub g hg)) (hfits f hf) hpacket
      exact ⟨g, hg, heq ▸ hi⟩
  have hoverlaid := drainData_overlaid session hsrc arrived hs htotal
    (fun f hf => hfits f (hsub f hf))
  intro i
  rw [← hsame]
  exact hoverlaid i

end Fragments

section Rounds

variable {src : Bytes} {block : Nat} {buffers : ServeBuffers} {cfg : ClientConfig}

/-- One round without loss: the first 32 ranges of the verdict on `s` go out as
a request, and the receiver drains every data packet the server sends for it,
in any order and number, and no other. -/
def LossFreeRound (buffers : ServeBuffers) (cfg : ClientConfig) (src : Bytes)
    (block : Nat) (s t : CiSvu) : Prop :=
  ∃ reply arrivals,
    svuServe buffers src src.length block
      (svuReqEncode (buildRequest cfg (nextState s (ciSvuVerify s svuMaxIntervals)))) =
        some reply ∧
    (∀ p, p ∈ arrivals ↔ p ∈ reply.data) ∧
    t = (drainData s arrivals).1

theorem ReceiverFor.range_le {s : CiSvu} (hs : ReceiverFor src block s) {v : Span}
    (hv : v ∈ verifyRanges s) : v.start < v.stop ∧ v.stop ≤ src.length := by
  rw [← hs.total_eq]
  exact hs.valid.range_le hv

/-- What a loss-free round does to the receiver: the bytes of the requested
ranges become those of the artifact, and nothing else changes. -/
theorem LossFreeRound.spec {s t : CiSvu} (hs : ReceiverFor src block s)
    (hsrc : src.length + 1024 < 2 ^ 32) (hmtu : mtuAllowed cfg.mtu.toNat)
    (hbuffers : ∀ i j, buffers.data i j = true)
    (hranges : verifyRanges s ≠ [])
    (hround : LossFreeRound buffers cfg src block s t) :
    ReceiverFor src block t ∧
      Overlaid src ((verifyRanges s).take svuMaxIntervals) s t := by
  obtain ⟨reply, arrivals, hserve, harrivals, rfl⟩ := hround
  obtain ⟨hnreq, -, hnof, hcells⟩ := nextState_request cfg s
  generalize nextState s (ciSvuVerify s svuMaxIntervals) = st at *
  have hpos : 0 < st.nreq := by
    have := List.length_pos_iff.mpr hranges
    rw [hnreq]
    exact Nat.lt_min.mpr ⟨this, by decide⟩
  have hdata := svuServe_encode rfl
    (by rw [hnof, hnreq]; exact Nat.min_le_right _ _) hserve
  have hbounds : ∀ v ∈ (verifyRanges s).take svuMaxIntervals,
      v.start < 2 ^ 32 ∧ v.stop < 2 ^ 32 := by
    intro v hv
    have := hs.range_le (List.mem_of_mem_take hv)
    omega
  have hne : (buildRequest cfg st).nofIntervals ≠ 0 := by
    intro hzero
    rw [hzero] at hnof
    exact absurd hnof (by simp; omega)
  have hwide : (buildRequest cfg st).mtu.toNat > svuDataHdr :=
    lt_of_lt_of_le (by decide) hmtu.1
  unfold serveData at hdata
  rw [if_neg hne, if_pos hwide, hnof, hcells] at hdata
  obtain ⟨fragments, hsent, hfits, -, hinside, hcovers⟩ :=
    serveIntervals_spec buffers.data (buildRequest cfg st).sessionId hmtu
      hsrc ((verifyRanges s).take svuMaxIntervals) 0 hbounds
  have hreply : reply.data = fragments.map (blastPacket src (buildRequest cfg st).sessionId) :=
    Option.some.inj (hdata.symm.trans hsent)
  rw [hreply] at harrivals
  obtain ⟨hvalid, hshape⟩ := drainData_valid arrivals hs.valid
  refine ⟨hs.of_sameShape hvalid hshape, ?_⟩
  have hoverlaid := drainData_arrivals (by omega) hfits harrivals hs.valid hs.total_eq
  intro i
  have hsame : Span.Covers fragments i ↔
      Span.Covers ((verifyRanges s).take svuMaxIntervals) i := by
    refine ⟨hinside i, ?_⟩
    rintro ⟨v, hv, hin⟩
    have hle := (hs.range_le (List.mem_of_mem_take hv)).2
    exact hcovers hbuffers i ⟨v, hv, hin⟩ (by omega)
  rw [← hsame]
  exact hoverlaid i

theorem LossFreeRound.uncovered {s t : CiSvu} {ranges : List Span}
    (hoverlaid : Overlaid src ranges s t) (i : Nat) :
    t.Uncovered i ↔ s.Uncovered i ∧ ¬ Span.Covers ranges i := by
  unfold CiSvu.Uncovered
  obtain ⟨hcovered, hkept⟩ := hoverlaid i
  by_cases hi : Span.Covers ranges i
  · simp [(hcovered hi).1, hi]
  · simp [(hkept hi).1, hi]

/-- A loss-free round from an INCOMPLETE verdict leaves exactly the holes it
had no room to ask for. -/
theorem LossFreeRound.uncovered_rest {s t : CiSvu} (hs : s.Valid)
    (hmissing : s.coveredCount < s.total)
    (hoverlaid : Overlaid src ((verifyRanges s).take svuMaxIntervals) s t) (i : Nat) :
    t.Uncovered i ↔ Span.Covers ((verifyRanges s).drop svuMaxIntervals) i := by
  obtain ⟨hsep, hcovers⟩ := verifyRanges_of_missing hs hmissing
  rw [LossFreeRound.uncovered hoverlaid, ← hcovers,
    Span.covers_take_drop _ svuMaxIntervals]
  constructor
  · rintro ⟨htake | hdrop, hnot⟩
    · exact absurd htake hnot
    · exact hdrop
  · intro hdrop
    exact ⟨Or.inr hdrop, fun htake => hsep.not_covers_take_drop _ htake hdrop⟩

/-- The digest of block `b` depends on the bytes of that block only. -/
theorem blockFails_congr {s t : CiSvu} (hs : s.Valid) (hshape : SameShape s t) {b : Nat}
    (hsame : ∀ i, i < s.total → i / s.block = b → t.data[i]? = s.data[i]?) :
    blockFails t b = blockFails s b := by
  unfold blockFails hashBlock
  rw [hshape.total_eq, hshape.block_eq, hshape.expected_eq]
  have hslice : slice t.data (b * s.block) (blockEnd s.total s.block b) =
      slice s.data (b * s.block) (blockEnd s.total s.block b) := by
    apply slice_congr
    intro i hlow hhigh
    obtain ⟨hi, hb⟩ := (mem_block_iff hs.block_pos b i).mp ⟨hlow, hhigh⟩
    exact hsame i hi hb
  rw [hslice]

/-- A block that holds the artifact's bytes passes. -/
theorem ReceiverFor.not_blockFails {s : CiSvu} (hs : ReceiverFor src block s) {b : Nat}
    (hb : b < s.nblocks)
    (hsame : ∀ i, i < s.total → i / s.block = b → s.data[i]? = src[i]?) :
    blockFails s b = false := by
  have hslice : slice s.data (b * s.block) (blockEnd s.total s.block b) =
      slice src (b * s.block) (blockEnd s.total s.block b) := by
    apply slice_congr
    intro i hlow hhigh
    obtain ⟨hi, hblock⟩ := (mem_block_iff hs.valid.block_pos b i).mp ⟨hlow, hhigh⟩
    exact hsame i hi hblock
  rw [hs.nblocks_eq] at hb
  unfold blockFails hashBlock
  rw [hslice, hs.total_eq, hs.block_eq, hs.expected_eq, slice_manifest src hb]
  simp [hashBlock]

theorem ReceiverFor.sameShape {s t : CiSvu} (hs : ReceiverFor src block s)
    (ht : ReceiverFor src block t) : SameShape s t where
  total_eq := ht.total_eq.trans hs.total_eq.symm
  block_eq := ht.block_eq.trans hs.block_eq.symm
  nblocks_eq := ht.nblocks_eq.trans hs.nblocks_eq.symm
  expected_eq := ht.expected_eq.trans hs.expected_eq.symm

/-- A loss-free round from a CORRUPT verdict leaves exactly the failing ranges
it had no room to ask for. A range is a union of whole blocks, so a block is
either rewritten in full or not touched. -/
theorem LossFreeRound.damaged_rest {s t : CiSvu} (hs : ReceiverFor src block s)
    (ht : ReceiverFor src block t) (hcount : ¬ s.coveredCount < s.total)
    (hoverlaid : Overlaid src ((verifyRanges s).take svuMaxIntervals) s t) (i : Nat) :
    t.Damaged i ↔ Span.Covers ((verifyRanges s).drop svuMaxIntervals) i := by
  have hshape := hs.sameShape ht
  obtain ⟨hsep, hcovers⟩ := verifyRanges_of_covered hs.valid hcount
  have hsplit := Span.covers_take_drop (verifyRanges s) svuMaxIntervals
  -- the blocks of `s` whose bytes the round does not ask for keep their verdict
  have hkept : (∀ j, j < s.total → j / s.block = i / s.block →
      ¬ Span.Covers ((verifyRanges s).take svuMaxIntervals) j) →
      (t.Damaged i ↔ s.Damaged i) := by
    intro hout
    have hsame := blockFails_congr hs.valid hshape (b := i / s.block)
      (fun j hj hb => ((hoverlaid j).2 (hout j hj hb)).2)
    unfold CiSvu.Damaged
    rw [hshape.total_eq, hshape.block_eq, hsame]
  by_cases hdamaged : s.Damaged i
  · obtain ⟨hi, hfails⟩ := hdamaged
    have hall : ∀ j, i / s.block * s.block ≤ j →
        j < blockEnd s.total s.block (i / s.block) → Span.Covers (verifyRanges s) j := by
      intro j hlow hhigh
      obtain ⟨hj, hb⟩ := (mem_block_iff hs.valid.block_pos _ j).mp ⟨hlow, hhigh⟩
      exact (hcovers j).mpr ⟨hj, hb ▸ hfails⟩
    have hmem : ∀ j, j < s.total → j / s.block = i / s.block →
        i / s.block * s.block ≤ j ∧ j < blockEnd s.total s.block (i / s.block) :=
      fun j hj hb => (mem_block_iff hs.valid.block_pos _ j).mpr ⟨hj, hb⟩
    obtain ⟨hlow, hhigh⟩ := hmem i hi rfl
    rcases (hsplit i).mp (hall i hlow hhigh) with htake | hdrop
    · have hpass : blockFails t (i / s.block) = false := by
        apply ht.not_blockFails
        · rw [hshape.nblocks_eq]
          exact hs.valid.div_block_lt hi
        · intro j hj hb
          rw [hshape.total_eq] at hj
          rw [hshape.block_eq] at hb
          obtain ⟨hjlow, hjhigh⟩ := hmem j hj hb
          obtain ⟨v, hv, hin⟩ := htake
          have hinside := hsep.covers_stretch hall (List.mem_of_mem_take hv)
            hlow hhigh hin hjlow hjhigh
          exact ((hoverlaid j).1 ⟨v, hv, hinside⟩).2
      constructor
      · rintro ⟨-, hfails'⟩
        rw [hshape.block_eq, hpass] at hfails'
        cases hfails'
      · intro hdrop
        exact absurd hdrop (hsep.not_covers_take_drop _ htake)
    · have hout : ∀ j, j < s.total → j / s.block = i / s.block →
          ¬ Span.Covers ((verifyRanges s).take svuMaxIntervals) j := by
        intro j hj hb htake
        obtain ⟨hjlow, hjhigh⟩ := hmem j hj hb
        obtain ⟨v, hv, hin⟩ := hdrop
        have hinside := hsep.covers_stretch hall (List.mem_of_mem_drop hv)
          hlow hhigh hin hjlow hjhigh
        exact hsep.not_covers_take_drop _ htake ⟨v, hv, hinside⟩
      rw [hkept hout]
      exact ⟨fun _ => hdrop, fun _ => ⟨hi, hfails⟩⟩
  · by_cases hi : i < s.total
    · have hout : ∀ j, j < s.total → j / s.block = i / s.block →
          ¬ Span.Covers ((verifyRanges s).take svuMaxIntervals) j := by
        intro j _ hb htake
        have hj := (hcovers j).mp ((hsplit j).mpr (Or.inl htake))
        exact hdamaged ⟨hi, hb ▸ hj.2⟩
      rw [hkept hout, ← hcovers, hsplit]
      refine ⟨?_, Or.inr⟩
      rintro (htake | hdrop)
      · exact absurd htake (hout i hi rfl)
      · exact hdrop
    · constructor
      · rintro ⟨hi', -⟩
        rw [hshape.total_eq] at hi'
        exact absurd hi' hi
      · intro hdrop
        exact absurd ((hcovers i).mp ((hsplit i).mpr (Or.inr hdrop))) hdamaged

/-- The holes the verdict on `s` reports. -/
def holeCount (s : CiSvu) : Nat :=
  if verifyStatus s = .incomplete then (verifyRanges s).length else 0

/-- The failing ranges the verdict on `s` reports. -/
def failingCount (s : CiSvu) : Nat :=
  if verifyStatus s = .corrupt then (verifyRanges s).length else 0

theorem verifyStatus_of_covers_nil {t : CiSvu} (ht : t.Valid)
    (hmissing : ¬ ∃ i, t.Uncovered i) (hdamaged : ∀ i, ¬ t.Damaged i) :
    verifyStatus t = .completeVerified :=
  (verifyStatus_verified ht).mpr ⟨hmissing, fun ⟨i, hi⟩ => hdamaged i hi⟩

/-- One loss-free round from an INCOMPLETE verdict. -/
theorem LossFreeRound.incomplete_step {s t : CiSvu} (hs : ReceiverFor src block s)
    (hsrc : src.length + 1024 < 2 ^ 32) (hmtu : mtuAllowed cfg.mtu.toNat)
    (hbuffers : ∀ i j, buffers.data i j = true)
    (hround : LossFreeRound buffers cfg src block s t)
    (hstatus : verifyStatus s = .incomplete) :
    ReceiverFor src block t ∧
      ((verifyRanges s).length ≤ svuMaxIntervals → ¬ ∃ i, t.Uncovered i) ∧
      (svuMaxIntervals < (verifyRanges s).length → verifyStatus t = .incomplete ∧
        verifyRanges t = (verifyRanges s).drop svuMaxIntervals) := by
  have hcount := hs.valid.count_lt_iff.mpr ((verifyStatus_incomplete hs.valid).mp hstatus)
  have hne := verifyRanges_ne_nil hs.valid (by simp [hstatus])
  obtain ⟨ht, hoverlaid⟩ := hround.spec hs hsrc hmtu hbuffers hne
  have hrest := LossFreeRound.uncovered_rest hs.valid hcount hoverlaid
  have hsep := (verifyRanges_of_missing hs.valid hcount).1.drop svuMaxIntervals
  refine ⟨ht, ?_, ?_⟩
  · rintro hfew ⟨i, hi⟩
    rw [hrest, List.drop_eq_nil_of_le hfew] at hi
    exact Span.not_covers_nil i hi
  · intro hmany
    have hleft : (verifyRanges s).drop svuMaxIntervals ≠ [] := by
      rw [Ne, List.drop_eq_nil_iff]
      omega
    obtain ⟨v, hv⟩ := List.exists_mem_of_ne_nil _ hleft
    have hmissing : ∃ i, t.Uncovered i :=
      ⟨v.start, (hrest v.start).mpr ⟨v, hv, Nat.le_refl _, hsep.nonempty v hv⟩⟩
    refine ⟨(verifyStatus_incomplete ht.valid).mpr hmissing, ?_⟩
    obtain ⟨hsep', hcovers'⟩ := verifyRanges_of_missing ht.valid
      (ht.valid.count_lt_iff.mpr hmissing)
    exact hsep'.ext hsep (fun i => (hcovers' i).trans (hrest i))

/-- One loss-free round from a CORRUPT verdict. -/
theorem LossFreeRound.corrupt_step {s t : CiSvu} (hs : ReceiverFor src block s)
    (hsrc : src.length + 1024 < 2 ^ 32) (hmtu : mtuAllowed cfg.mtu.toNat)
    (hbuffers : ∀ i j, buffers.data i j = true)
    (hround : LossFreeRound buffers cfg src block s t)
    (hstatus : verifyStatus s = .corrupt) :
    ReceiverFor src block t ∧
      ((verifyRanges s).length ≤ svuMaxIntervals → verifyStatus t = .completeVerified) ∧
      (svuMaxIntervals < (verifyRanges s).length → verifyStatus t = .corrupt ∧
        verifyRanges t = (verifyRanges s).drop svuMaxIntervals) := by
  have hfull := ((verifyStatus_corrupt hs.valid).mp hstatus).1
  have hcount := mt hs.valid.count_lt_iff.mp hfull
  have hne := verifyRanges_ne_nil hs.valid (by simp [hstatus])
  obtain ⟨ht, hoverlaid⟩ := hround.spec hs hsrc hmtu hbuffers hne
  have hrest := LossFreeRound.damaged_rest hs ht hcount hoverlaid
  have hsep := (verifyRanges_of_covered hs.valid hcount).1.drop svuMaxIntervals
  have hmissing : ¬ ∃ i, t.Uncovered i := by
    rintro ⟨i, hi⟩
    exact hfull ⟨i, ((LossFreeRound.uncovered hoverlaid i).mp hi).1⟩
  refine ⟨ht, ?_, ?_⟩
  · intro hfew
    apply verifyStatus_of_covers_nil ht.valid hmissing
    intro i hi
    rw [hrest, List.drop_eq_nil_of_le hfew] at hi
    exact Span.not_covers_nil i hi
  · intro hmany
    have hleft : (verifyRanges s).drop svuMaxIntervals ≠ [] := by
      rw [Ne, List.drop_eq_nil_iff]
      omega
    obtain ⟨v, hv⟩ := List.exists_mem_of_ne_nil _ hleft
    have hdamaged : ∃ i, t.Damaged i :=
      ⟨v.start, (hrest v.start).mpr ⟨v, hv, Nat.le_refl _, hsep.nonempty v hv⟩⟩
    refine ⟨(verifyStatus_corrupt ht.valid).mpr ⟨hmissing, hdamaged⟩, ?_⟩
    obtain ⟨hsep', hcovers'⟩ := verifyRanges_of_covered ht.valid
      (mt ht.valid.count_lt_iff.mp hmissing)
    exact hsep'.ext hsep (fun i => (hcovers' i).trans (hrest i))

/-- A quantity that every step lowers by 32 while it is positive is used up
after a 32nd of it, rounded up. -/
theorem exhausted_after {α : Type} {P : α → Prop} {R : α → α → Prop} {amount : α → Nat}
    (hstep : ∀ s t, P s → 0 < amount s → R s t →
      P t ∧ amount t = amount s - svuMaxIntervals) (c : Nat) :
    ∀ {t : Nat → α}, P (t 0) → (∀ k, 0 < amount (t k) → R (t k) (t (k + 1))) →
    c = (amount (t 0) + 31) / 32 → P (t c) ∧ amount (t c) = 0 := by
  induction c with
  | zero =>
      intro t hP _ hc
      exact ⟨hP, by omega⟩
  | succ c ih =>
      intro t hP hround hc
      have hpos : 0 < amount (t 0) := by omega
      obtain ⟨hnext, hless⟩ := hstep _ _ hP hpos (hround 0 hpos)
      apply ih (t := fun k => t (k + 1)) hnext (fun k => hround (k + 1))
      rw [Nat.zero_add] at hless
      simp only [svuMaxIntervals] at hless
      change c = (amount (t 1) + 31) / 32
      omega

theorem holeCount_pos {s : CiSvu} (h : 0 < holeCount s) : verifyStatus s = .incomplete := by
  unfold holeCount at h
  split at h
  next hstatus => exact hstatus
  next => exact absurd h (Nat.lt_irrefl 0)

theorem failingCount_pos {s : CiSvu} (h : 0 < failingCount s) : verifyStatus s = .corrupt := by
  unfold failingCount at h
  split at h
  next hstatus => exact hstatus
  next => exact absurd h (Nat.lt_irrefl 0)

/-- A receiver without holes to report has every byte. -/
theorem covered_of_holeCount {s : CiSvu} (hs : s.Valid) (h : holeCount s = 0) :
    ¬ ∃ i, s.Uncovered i := by
  intro hmissing
  have hstatus := (verifyStatus_incomplete hs).mpr hmissing
  unfold holeCount at h
  rw [if_pos hstatus, List.length_eq_zero_iff] at h
  exact verifyRanges_ne_nil hs (by simp [hstatus]) h

theorem not_corrupt_of_failingCount {s : CiSvu} (hs : s.Valid) (h : failingCount s = 0) :
    verifyStatus s ≠ .corrupt := by
  intro hstatus
  unfold failingCount at h
  rw [if_pos hstatus, List.length_eq_zero_iff] at h
  exact verifyRanges_ne_nil hs (by simp [hstatus]) h

end Rounds

/-- A receiver of the two-byte artifact that took a damaged fragment. -/
def damagedReceiver : CiSvu where
  total := 2
  block := 4096
  nblocks := 1
  coveredCount := 0
  data := [0, 0]
  covered := [false, false]
  expected := (ciSvuManifest smallArtifact 2 4096).2

def repairedReceiver : CiSvu :=
  { damagedReceiver with
    coveredCount := 2
    data := smallArtifact
    covered := [true, true] }

theorem damagedReceiver_round :
    LossFreeRound ⟨true, fun _ => true, fun _ _ => true⟩ ⟨4096, 64, 24⟩ smallArtifact 4096
      (acceptAll damagedReceiver [(0, ascii "ha")]) repairedReceiver := by
  refine ⟨⟨[svuPut32 svuMagicResp ++ svuPut32 1 ++ svuPut32 2 ++ svuPut32 4096 ++ svuPut32 1,
      svuPut32 0 ++ (ciSvuManifest smallArtifact 2 4096).2],
    [svuPut32 0 ++ svuPut32 1 ++ smallArtifact]⟩,
    [svuPut32 0 ++ svuPut32 1 ++ smallArtifact], ?_, fun _ => Iff.rfl, ?_⟩
  · decide +kernel
  · decide +kernel

end SatDeploy.Svu
