import SatDeploy.Svu.Recovery

/-!
What `ci_svu_verify` reports about a receiver that any fragments have been fed
to: the three verdicts, and the ranges that come with each of them, for every
capacity of the caller's buffer.
-/

namespace SatDeploy.Svu

open Lib

/-- Some fragment that ends inside the payload brought byte `i`. -/
def Received (total : Nat) (calls : List (Nat × Bytes)) (i : Nat) : Prop :=
  ∃ call ∈ calls, call.1 + call.2.length ≤ total ∧ call.1 ≤ i ∧ i < call.1 + call.2.length

theorem received_cons {total : Nat} {call : Nat × Bytes} {calls : List (Nat × Bytes)} {i : Nat} :
    Received total (call :: calls) i ↔
      (call.1 + call.2.length ≤ total ∧ call.1 ≤ i ∧ i < call.1 + call.2.length) ∨
        Received total calls i := by
  simp [Received]

/-- One call covers the bytes of its fragment, if the fragment is accepted. -/
theorem accept_uncovered {s : CiSvu} (hs : s.Valid) (offset : Nat) (buf : Bytes) (i : Nat) :
    ((ciSvuAccept s offset buf).getD s).Uncovered i ↔ s.Uncovered i ∧
      ¬ (offset + buf.length ≤ s.total ∧ offset ≤ i ∧ i < offset + buf.length) := by
  cases haccept : ciSvuAccept s offset buf with
  | none =>
      have hlong : ¬ offset + buf.length ≤ s.total := by
        intro hfits
        obtain ⟨t, ht⟩ := ciSvuAccept_isSome hfits
        rw [haccept] at ht
        cases ht
      simp [hlong]
  | some t =>
      have hstep := ciSvuAccept_accepted hs haccept
      have hfits := hstep.fits
      simp only [Option.getD_some, CiSvu.Uncovered, hstep.covered_get]
      split <;> simp_all

/-- The uncovered bytes are those no accepted fragment brought. -/
theorem acceptAll_uncovered (calls : List (Nat × Bytes)) : ∀ {s : CiSvu}, s.Valid → ∀ i,
    (acceptAll s calls).Uncovered i ↔ s.Uncovered i ∧ ¬ Received s.total calls i := by
  induction calls with
  | nil =>
      intro s _ i
      simp [acceptAll, Received]
  | cons call calls ih =>
      intro s hs i
      obtain ⟨hvalid, hshape⟩ := acceptAll_valid [call] hs
      have hstep := accept_uncovered hs call.1 call.2 i
      have hcons : acceptAll s (call :: calls) = acceptAll (acceptAll s [call]) calls := rfl
      have hone : acceptAll s [call] = (ciSvuAccept s call.1 call.2).getD s := rfl
      rw [← hone] at hstep
      rw [hcons, ih hvalid, hstep, hshape.total_eq, received_cons, and_assoc, not_or]

/-- Block `b` of the payload has another digest than the manifest gives. -/
def CiSvu.FailingBlock (s : CiSvu) (b : Nat) : Prop :=
  b < s.nblocks ∧ blockFails s b = true

section Report

variable {s : CiSvu}

theorem CiSvu.Valid.damaged_iff (hs : s.Valid) (i : Nat) :
    s.Damaged i ↔ i < s.total ∧ s.FailingBlock (i / s.block) := by
  constructor
  · rintro ⟨hi, hfails⟩
    exact ⟨hi, hs.div_block_lt hi, hfails⟩
  · rintro ⟨hi, -, hfails⟩
    exact ⟨hi, hfails⟩

theorem CiSvu.Valid.exists_damaged_iff (hs : s.Valid) :
    (∃ i, s.Damaged i) ↔ ∃ b, s.FailingBlock b := by
  constructor
  · rintro ⟨i, hi⟩
    exact ⟨_, ((hs.damaged_iff i).mp hi).2⟩
  · rintro ⟨b, hb, hfails⟩
    exact ⟨_, hs.damaged_of_fails hb hfails⟩

theorem CiSvu.Valid.maximalRun_damaged_iff (hs : s.Valid) (v : Span) :
    Span.MaximalRun s.Damaged v ↔
      ∃ w, Span.MaximalRun s.FailingBlock w ∧ v = Span.ofBlocks s.total s.block w := by
  have hdamaged : s.Damaged = fun i => i < s.total ∧ s.FailingBlock (i / s.block) :=
    funext fun i => propext (hs.damaged_iff i)
  rw [hdamaged]
  exact Span.maximalRun_positions_iff hs.block_pos (fun b hb => hs.block_start_lt hb.1) v

theorem verifyRanges_separated (hs : s.Valid) : Span.Separated (verifyRanges s) := by
  by_cases hcount : s.coveredCount < s.total
  · exact (verifyRanges_of_missing hs hcount).1
  · exact (verifyRanges_of_covered hs hcount).1

theorem verifyRanges_incomplete (hs : s.Valid) (hstatus : verifyStatus s = .incomplete)
    (v : Span) : v ∈ verifyRanges s ↔ Span.MaximalRun s.Uncovered v := by
  have hcount := hs.count_lt_iff.mpr ((verifyStatus_incomplete hs).mp hstatus)
  obtain ⟨hsep, hcovers⟩ := verifyRanges_of_missing hs hcount
  exact hsep.mem_iff_maximalRun hcovers v

theorem verifyRanges_corrupt (hs : s.Valid) (hstatus : verifyStatus s = .corrupt) (v : Span) :
    v ∈ verifyRanges s ↔
      ∃ w, Span.MaximalRun s.FailingBlock w ∧ v = Span.ofBlocks s.total s.block w := by
  have hfull := ((verifyStatus_corrupt hs).mp hstatus).1
  obtain ⟨hsep, hcovers⟩ := verifyRanges_of_covered hs (mt hs.count_lt_iff.mp hfull)
  rw [← hs.maximalRun_damaged_iff]
  exact hsep.mem_iff_maximalRun hcovers v

theorem verifyRanges_eq_nil_iff (hs : s.Valid) :
    verifyRanges s = [] ↔ verifyStatus s = .completeVerified := by
  constructor
  · intro hnil
    by_contra hstatus
    exact verifyRanges_ne_nil hs hstatus hnil
  · intro hstatus
    obtain ⟨hfull, hgood⟩ := (verifyStatus_verified hs).mp hstatus
    obtain ⟨hsep, hcovers⟩ := verifyRanges_of_covered hs (mt hs.count_lt_iff.mp hfull)
    by_contra hne
    obtain ⟨v, hv⟩ := List.exists_mem_of_ne_nil _ hne
    exact hgood ⟨v.start, (hcovers v.start).mp ⟨v, hv, Nat.le_refl _, hsep.nonempty v hv⟩⟩

end Report

/-- `ci_svu_verify` reports a receiver's damage exactly. After any calls of
`ci_svu_accept` there is one list of ranges, not empty, increasing and apart,
of which every call stores the first `max` and counts all; they are the maximal
runs of missing bytes while a byte is missing, after that the maximal runs of
failing blocks, and there are none exactly when neither is left. -/
theorem damage_report {allocated : Bool} {total block nblocks : Nat} {expected : Nat → UInt8}
    {fresh : CiSvu} (htotal : total < 2 ^ 32)
    (hnew : ciSvuNew allocated total block expected nblocks = some fresh)
    (calls : List (Nat × Bytes)) :
    let s := acceptAll fresh calls
    (∀ i, s.Uncovered i ↔ i < total ∧ ¬ Received total calls i) ∧
    ∃ ranges : List Span, Span.Separated ranges ∧ ∀ max,
      let verdict := ciSvuVerify s max
      verdict.out = ranges.take max ∧ verdict.nout = ranges.length ∧
      (verdict.nout = 0 ↔ verdict.status = .completeVerified) ∧
      (verdict.status = .incomplete ↔ ∃ i, s.Uncovered i) ∧
      (verdict.status = .incomplete → ∀ v, v ∈ ranges ↔ Span.MaximalRun s.Uncovered v) ∧
      (verdict.status = .corrupt ↔ (∀ i, ¬ s.Uncovered i) ∧ ∃ b, s.FailingBlock b) ∧
      (verdict.status = .corrupt → ∀ v, v ∈ ranges ↔
        ∃ w, Span.MaximalRun s.FailingBlock w ∧ v = Span.ofBlocks total block w) ∧
      (verdict.status = .completeVerified ↔
        (∀ i, ¬ s.Uncovered i) ∧ ∀ b, ¬ s.FailingBlock b) := by
  intro s
  have hfresh := ciSvuNew_valid htotal hnew
  obtain ⟨hs, hshape⟩ := acceptAll_valid calls hfresh
  obtain ⟨-, -, heq⟩ := ciSvuNew_eq_some hnew
  have hstotal : s.total = total := by
    rw [hshape.total_eq, heq]
  have hsblock : s.block = block := by
    rw [hshape.block_eq, heq]
  constructor
  · intro i
    rw [acceptAll_uncovered calls hfresh, heq]
    simp only [CiSvu.Uncovered, List.getElem?_replicate]
    simp
  · refine ⟨verifyRanges s, verifyRanges_separated hs, ?_⟩
    intro max
    rw [ciSvuVerify_eq]
    refine ⟨rfl, rfl, ?_, verifyStatus_incomplete hs, verifyRanges_incomplete hs, ?_, ?_, ?_⟩
    · rw [← verifyRanges_eq_nil_iff hs]
      exact List.length_eq_zero_iff
    · rw [← hs.exists_damaged_iff, ← not_exists]
      exact verifyStatus_corrupt hs
    · intro hstatus v
      rw [← hstotal, ← hsblock]
      exact verifyRanges_corrupt hs hstatus v
    · rw [← not_exists, ← not_exists, ← hs.exists_damaged_iff]
      exact verifyStatus_verified hs

/-- Three bytes in blocks of two, of which the first has arrived: byte 2 is
missing, and a verdict without room for a range still counts it. -/
theorem damage_report_first_byte :
    ∃ fresh, ciSvuNew true 3 2 (fun _ => 0) 2 = some fresh ∧
      (ciSvuVerify (acceptAll fresh [(0, [7])]) 0).status = .incomplete ∧
      (ciSvuVerify (acceptAll fresh [(0, [7])]) 0).out = [] ∧
      (ciSvuVerify (acceptAll fresh [(0, [7])]) 0).nout ≠ 0 := by
  have hnew : ciSvuNew true 3 2 (fun _ => 0) 2 =
      some ⟨3, 2, 2, 0, [0, 0, 0], [false, false, false], List.replicate 64 0⟩ := by
    decide +kernel
  obtain ⟨hmissing, ranges, -, hverdict⟩ := damage_report (by decide) hnew [(0, [7])]
  obtain ⟨hout, -, hcount, hincomplete, -⟩ := hverdict 0
  have hlast := (hmissing 2).mpr ⟨by decide, by simp [Received]⟩
  have hstatus := hincomplete.mpr ⟨2, hlast⟩
  refine ⟨_, hnew, hstatus, by rw [hout]; rfl, ?_⟩
  rw [Ne, hcount, hstatus]
  decide

end SatDeploy.Svu
