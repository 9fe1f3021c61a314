import SatDeploy.Svu.Core

/-!
What a receiver state means. `CiSvu.Valid` is the invariant of every receiver
made by `ci_svu_new` and changed by `ci_svu_accept`; over valid receivers the
coverage counter is the real coverage, the blocks tile the payload, and the
ranges of `ci_svu_verify` are the maximal runs of the uncovered bytes or of
the bytes of failing blocks.
-/

namespace SatDeploy.Svu

open Lib

/-- Byte `i` of the payload has not arrived. -/
def CiSvu.Uncovered (s : CiSvu) (i : Nat) : Prop := s.covered[i]? = some false

/-- Byte `i` of the payload lies in a block whose digest differs from the
manifest. -/
def CiSvu.Damaged (s : CiSvu) (i : Nat) : Prop :=
  i < s.total ∧ blockFails s (i / s.block) = true

structure CiSvu.Valid (s : CiSvu) : Prop where
  total_lt : s.total < 2 ^ 32
  nblocks_eq : s.nblocks = ciSvuNblocks s.total s.block
  nblocks_ne : s.nblocks ≠ 0
  length_data : s.data.length = s.total
  length_covered : s.covered.length = s.total
  length_expected : s.expected.length = s.nblocks * hashLen
  count_eq : s.coveredCount = s.covered.count true

section Blocks

variable {total block : Nat}

/-- A non-zero block count is the exact ceiling: a wrapped
`total + block - 1` is smaller than `block` and gives zero. -/
theorem ciSvuNblocks_exact (htotal : total < 2 ^ 32)
    (hne : ciSvuNblocks total block ≠ 0) :
    0 < total ∧ 0 < block ∧ total + block - 1 < 2 ^ 32 ∧
      ciSvuNblocks total block = (total + block - 1) / block := by
  unfold ciSvuNblocks at hne ⊢
  split at hne
  · exact absurd rfl hne
  next hzero =>
    have hpos : 0 < total ∧ 0 < block := by omega
    have hnowrap : total + block - 1 < 2 ^ 32 := by
      by_contra hwrap
      apply hne
      apply Nat.div_eq_of_lt
      by_cases hblock : block < 2 ^ 32
      · rw [Nat.mod_eq_sub_mod (by omega),
          Nat.mod_eq_of_lt (by omega)]
        omega
      · exact lt_of_lt_of_le (Nat.mod_lt _ (by decide)) (by omega)
    rw [if_neg hzero, Nat.mod_eq_of_lt hnowrap]
    exact ⟨hpos.1, hpos.2, hnowrap, rfl⟩

theorem block_start_lt (htotal : total < 2 ^ 32) {b : Nat}
    (hb : b < ciSvuNblocks total block) : b * block < total := by
  have hne : ciSvuNblocks total block ≠ 0 := by omega
  obtain ⟨hpos, hblock, -, heq⟩ := ciSvuNblocks_exact htotal hne
  rw [heq] at hb
  have hle : (b + 1) * block ≤ total + block - 1 :=
    (Nat.le_div_iff_mul_le hblock).mp hb
  rw [Nat.add_mul, Nat.one_mul] at hle
  omega

theorem div_block_lt (htotal : total < 2 ^ 32)
    (hne : ciSvuNblocks total block ≠ 0) {i : Nat} (hi : i < total) :
    i / block < ciSvuNblocks total block := by
  obtain ⟨-, hblock, -, heq⟩ := ciSvuNblocks_exact htotal hne
  rw [heq]
  apply (Nat.le_div_iff_mul_le hblock).mpr
  have hle : i / block * block ≤ i := Nat.div_mul_le_self i block
  rw [Nat.succ_mul]
  omega

theorem blockEnd_le (b : Nat) : blockEnd total block b ≤ total := by
  unfold blockEnd
  split <;> omega

theorem blockEnd_eq_min (b : Nat) :
    blockEnd total block b = min ((b + 1) * block) total := by
  unfold blockEnd
  rw [Nat.add_mul, Nat.one_mul]
  split <;> omega

/-- Block `b` holds exactly the bytes whose quotient is `b`. -/
theorem mem_block_iff (hblock : 0 < block) (b i : Nat) :
    b * block ≤ i ∧ i < blockEnd total block b ↔ i < total ∧ i / block = b := by
  rw [blockEnd_eq_min, lt_min_iff, Nat.div_eq_iff hblock]
  have hmul : (b + 1) * block = b * block + block := by
    rw [Nat.add_mul, Nat.one_mul]
  constructor
  · rintro ⟨hlow, hhigh, htotal⟩
    exact ⟨htotal, hlow, by omega⟩
  · rintro ⟨htotal, hlow, hhigh⟩
    exact ⟨hlow, by omega, htotal⟩

theorem length_hashBlock (src : Bytes) (b : Nat) :
    (hashBlock src total block b).length = hashLen := rfl

/-- The digests of the manifest, read back at 32-byte strides. -/
theorem slice_manifest (src : Bytes) {b : Nat}
    (hb : b < ciSvuNblocks total block) :
    slice (ciSvuManifest src total block).2 (b * hashLen)
      (b * hashLen + hashLen) = hashBlock src total block b := by
  have hflat (n : Nat) : ∀ xs : List Nat, n < xs.length →
      slice (xs.flatMap (hashBlock src total block)) (n * hashLen)
        (n * hashLen + hashLen) = hashBlock src total block (xs.getD n 0) := by
    induction n with
    | zero =>
        intro xs hn
        cases xs with
        | nil => simp at hn
        | cons x xs =>
            simp only [Nat.zero_mul, Nat.zero_add, slice, List.drop_zero,
              List.flatMap_cons, Nat.sub_zero, List.getD_cons_zero]
            exact List.take_left' (length_hashBlock src x)
    | succ n ih =>
        intro xs hn
        cases xs with
        | nil => simp at hn
        | cons x xs =>
            have htail := ih xs (by simpa using hn)
            rw [List.getD_cons_succ, ← htail]
            unfold slice
            rw [List.flatMap_cons, Nat.add_mul, Nat.one_mul,
              Nat.add_comm (n * hashLen) hashLen, ← List.drop_drop,
              List.drop_left' (length_hashBlock src x)]
            congr 1
            omega
  have hrange := hflat b (List.range (ciSvuNblocks total block)) (by simpa using hb)
  simpa [ciSvuManifest, List.getD_eq_getElem?_getD, List.getElem?_range hb] using hrange

theorem length_manifest (src : Bytes) :
    (ciSvuManifest src total block).2.length =
      ciSvuNblocks total block * hashLen := by
  simp [ciSvuManifest, List.length_flatMap, length_hashBlock]

end Blocks

section Coverage

theorem markCovered_spec (count : Nat) : ∀ (i : Nat) (covered : List Bool)
    (coveredCount : Nat), i + count ≤ covered.length →
    (markCovered count i (covered, coveredCount)).1.length = covered.length ∧
    (∀ j, (markCovered count i (covered, coveredCount)).1[j]? =
      if i ≤ j ∧ j < i + count then some true else covered[j]?) ∧
    (markCovered count i (covered, coveredCount)).2 + covered.count true =
      coveredCount + (markCovered count i (covered, coveredCount)).1.count true := by
  induction count with
  | zero =>
      intro i covered coveredCount _
      refine ⟨rfl, ?_, rfl⟩
      intro j
      rw [if_neg (by omega)]
      rfl
  | succ count ih =>
      intro i covered coveredCount hlen
      have hi : i < covered.length := by omega
      unfold markCovered
      split
      next hfalse =>
        obtain ⟨hlength, hget, hcount⟩ :=
          ih (i + 1) (covered.set i true) (coveredCount + 1)
            (by rw [List.length_set]; omega)
        have hold : covered[i] = false := by
          rw [List.getElem?_eq_getElem hi] at hfalse
          exact Option.some.inj hfalse
        have hset : (covered.set i true).count true = covered.count true + 1 := by
          rw [List.count_set hi, hold]
          simp
        refine ⟨hlength.trans (by rw [List.length_set]), ?_, by omega⟩
        intro j
        rw [hget, List.getElem?_set]
        by_cases hj : i = j
        · subst hj
          rw [if_neg (by omega), if_pos rfl, if_pos hi, if_pos (by omega)]
        · rw [if_neg hj]
          by_cases hin : i + 1 ≤ j ∧ j < i + 1 + count
          · rw [if_pos hin, if_pos (by omega)]
          · rw [if_neg hin, if_neg (by omega)]
      next htrue =>
        obtain ⟨hlength, hget, hcount⟩ :=
          ih (i + 1) covered coveredCount (by omega)
        have hold : covered[i]? = some true := by
          rw [List.getElem?_eq_getElem hi] at htrue ⊢
          simpa using htrue
        refine ⟨hlength, ?_, hcount⟩
        intro j
        rw [hget]
        by_cases hj : i = j
        · subst hj
          rw [if_neg (by omega), if_pos (by omega), hold]
        · by_cases hin : i + 1 ≤ j ∧ j < i + 1 + count
          · rw [if_pos hin, if_pos (by omega)]
          · rw [if_neg hin, if_neg (by omega)]

theorem ciSvuNew_eq_some {allocated : Bool} {total block nblocks : Nat}
    {expected : Nat → UInt8} {s : CiSvu}
    (h : ciSvuNew allocated total block expected nblocks = some s) :
    ciSvuNblocks total block ≠ 0 ∧ ciSvuNblocks total block = nblocks ∧
      s = { total := total, block := block, nblocks := nblocks,
            coveredCount := 0, data := List.replicate total 0,
            covered := List.replicate total false,
            expected := (List.range (nblocks * hashLen)).map expected } := by
  simp only [ciSvuNew] at h
  split at h
  · cases h
  next hok =>
    have heq : ciSvuNblocks total block = nblocks := by
      by_contra hne
      exact hok (Or.inr hne)
    split at h
    · cases h
    · refine ⟨fun hzero => hok (Or.inl hzero), heq, ?_⟩
      rw [← heq]
      exact (Option.some.inj h).symm

theorem ciSvuNew_valid {allocated : Bool} {total block nblocks : Nat}
    {expected : Nat → UInt8} {s : CiSvu} (htotal : total < 2 ^ 32)
    (h : ciSvuNew allocated total block expected nblocks = some s) : s.Valid := by
  obtain ⟨hne, heq, rfl⟩ := ciSvuNew_eq_some h
  exact {
    total_lt := htotal
    nblocks_eq := heq.symm
    nblocks_ne := by rwa [← heq]
    length_data := List.length_replicate
    length_covered := List.length_replicate
    length_expected := by simp
    count_eq := by simp [List.count_replicate] }

theorem ciSvuAccept_eq_some {s t : CiSvu} {offset : Nat} {buf : Bytes}
    (h : ciSvuAccept s offset buf = some t) :
    offset + buf.length ≤ s.total ∧
      t = { s with
        covered := (markCovered buf.length offset (s.covered, s.coveredCount)).1
        coveredCount := (markCovered buf.length offset (s.covered, s.coveredCount)).2
        data := splice s.data offset buf } := by
  unfold ciSvuAccept at h
  split at h
  · cases h
  next hle => exact ⟨by omega, (Option.some.inj h).symm⟩

/-- What one accepted fragment changes: nothing outside its range, and inside
it every byte is covered and holds the fragment's byte. -/
structure Accepted (s t : CiSvu) (offset : Nat) (buf : Bytes) : Prop where
  fits : offset + buf.length ≤ s.total
  total_eq : t.total = s.total
  block_eq : t.block = s.block
  nblocks_eq : t.nblocks = s.nblocks
  expected_eq : t.expected = s.expected
  covered_get : ∀ i, t.covered[i]? =
    if offset ≤ i ∧ i < offset + buf.length then some true else s.covered[i]?
  data_get : ∀ i, t.data[i]? =
    if offset ≤ i ∧ i < offset + buf.length then buf[i - offset]? else s.data[i]?

theorem ciSvuAccept_accepted {s t : CiSvu} {offset : Nat} {buf : Bytes}
    (hs : s.Valid) (h : ciSvuAccept s offset buf = some t) :
    Accepted s t offset buf := by
  obtain ⟨hfits, rfl⟩ := ciSvuAccept_eq_some h
  have hmark := markCovered_spec buf.length offset s.covered s.coveredCount
    (by rw [hs.length_covered]; exact hfits)
  exact ⟨hfits, rfl, rfl, rfl, rfl, hmark.2.1,
    getElem?_splice (by rw [hs.length_data]; exact hfits)⟩

theorem ciSvuAccept_valid {s t : CiSvu} {offset : Nat} {buf : Bytes}
    (hs : s.Valid) (h : ciSvuAccept s offset buf = some t) : t.Valid := by
  obtain ⟨hfits, rfl⟩ := ciSvuAccept_eq_some h
  have hmark := markCovered_spec buf.length offset s.covered s.coveredCount
    (by rw [hs.length_covered]; exact hfits)
  exact { hs with
    length_data := (length_splice (by rw [hs.length_data]; exact hfits)).trans hs.length_data
    length_covered := hmark.1.trans hs.length_covered
    count_eq := by
      have hcount := hmark.2.2
      rw [hs.count_eq] at hcount ⊢
      dsimp only
      omega }

/-- A receiver accepts every fragment that ends inside the payload. -/
theorem ciSvuAccept_isSome {s : CiSvu} {offset : Nat} {buf : Bytes}
    (h : offset + buf.length ≤ s.total) :
    ∃ t, ciSvuAccept s offset buf = some t := by
  unfold ciSvuAccept
  rw [if_neg (by omega)]
  exact ⟨_, rfl⟩

/-- The counter reaches the payload length exactly when nothing is missing. -/
theorem CiSvu.Valid.count_lt_iff {s : CiSvu} (hs : s.Valid) :
    s.coveredCount < s.total ↔ ∃ i, s.Uncovered i := by
  have hle : s.covered.count true ≤ s.covered.length := List.count_le_length
  rw [hs.count_eq, ← hs.length_covered]
  constructor
  · intro hlt
    have hne : ¬ ∀ b ∈ s.covered, true = b := by
      intro hall
      have := List.count_eq_length.mpr hall
      omega
    have hfalse : false ∈ s.covered := by
      by_contra hnone
      apply hne
      intro b hb
      cases b with
      | true => rfl
      | false => exact absurd hb hnone
    exact List.mem_iff_getElem?.mp hfalse
  · rintro ⟨i, hi⟩
    rcases Nat.lt_or_ge (s.covered.count true) s.covered.length with hlt | hge
    · exact hlt
    · have hall := List.count_eq_length.mp (Nat.le_antisymm hle hge)
      have hmem : false ∈ s.covered := List.mem_iff_getElem?.mpr ⟨i, hi⟩
      exact absurd (hall false hmem) (by decide)

end Coverage

section Ranges

variable {s : CiSvu}

theorem CiSvu.Valid.uncovered_lt (hs : s.Valid) {i : Nat}
    (hi : s.Uncovered i) : i < s.total := by
  rw [← hs.length_covered]
  exact (List.getElem?_eq_some_iff.mp hi).1

theorem CiSvu.Valid.block_pos (hs : s.Valid) : 0 < s.block := by
  have hne := hs.nblocks_ne
  rw [hs.nblocks_eq] at hne
  exact (ciSvuNblocks_exact hs.total_lt hne).2.1

theorem CiSvu.Valid.block_start_lt (hs : s.Valid) {b : Nat}
    (hb : b < s.nblocks) : b * s.block < s.total := by
  rw [hs.nblocks_eq] at hb
  exact Svu.block_start_lt hs.total_lt hb

theorem CiSvu.Valid.div_block_lt (hs : s.Valid) {i : Nat}
    (hi : i < s.total) : i / s.block < s.nblocks := by
  have hne := hs.nblocks_ne
  rw [hs.nblocks_eq] at hne ⊢
  exact Svu.div_block_lt hs.total_lt hne hi

theorem CiSvu.Valid.total_le (hs : s.Valid) : s.total ≤ s.nblocks * s.block := by
  by_contra hlt
  have hdiv := hs.div_block_lt (i := s.nblocks * s.block) (by omega)
  rw [Nat.mul_div_cancel _ hs.block_pos] at hdiv
  omega

/-- The inner loop stops at the first byte that is covered or past the end. -/
theorem holeEnd_spec (hs : s.Valid) (fuel : Nat) : ∀ run, s.total - run ≤ fuel →
    run ≤ holeEnd s fuel run ∧
    (∀ j, run ≤ j → j < holeEnd s fuel run → s.Uncovered j) ∧
    ¬ s.Uncovered (holeEnd s fuel run) := by
  induction fuel with
  | zero =>
      intro run hfuel
      refine ⟨Nat.le_refl _, ?_, ?_⟩
      · intro j hlow hhigh
        exact absurd hhigh (by unfold holeEnd; omega)
      · intro huncovered
        have := hs.uncovered_lt huncovered
        unfold holeEnd at this
        omega
  | succ fuel ih =>
      intro run hfuel
      unfold holeEnd
      split
      next hopen =>
        obtain ⟨hle, hinside, hend⟩ := ih (run + 1) (by omega)
        refine ⟨by omega, ?_, hend⟩
        intro j hlow hhigh
        rcases Nat.eq_or_lt_of_le hlow with rfl | hlt
        · exact hopen.2
        · exact hinside j hlt hhigh
      next hclosed =>
        refine ⟨Nat.le_refl _, ?_, ?_⟩
        · intro j hlow hhigh
          omega
        · intro huncovered
          exact hclosed ⟨hs.uncovered_lt huncovered, huncovered⟩

/-- The hole scan from position `i` pushes the maximal runs of uncovered bytes
at or after `i`. -/
theorem holeLoop_spec (hs : s.Valid) (fuel : Nat) : ∀ i, s.total - i ≤ fuel →
    Span.Separated (holeLoop s fuel i) ∧
    (∀ j, Span.Covers (holeLoop s fuel i) j ↔ i ≤ j ∧ s.Uncovered j) := by
  induction fuel with
  | zero =>
      intro i hfuel
      refine ⟨Span.separated_nil, ?_⟩
      intro j
      constructor
      · intro hcovers
        exact absurd hcovers (Span.not_covers_nil j)
      · rintro ⟨hij, huncovered⟩
        have := hs.uncovered_lt huncovered
        omega
  | succ fuel ih =>
      intro i hfuel
      unfold holeLoop
      split
      next hlt =>
        split
        next hopen =>
          have hend := holeEnd_spec hs s.total i (by omega)
          have hrun : i < holeEnd s s.total i := by
            rcases Nat.eq_or_lt_of_le hend.1 with heq | hlt'
            · exact absurd hopen (heq ▸ hend.2.2)
            · exact hlt'
          obtain ⟨hsep, hcovers⟩ := ih (holeEnd s s.total i) (by omega)
          refine ⟨Span.separated_cons.mpr ⟨hrun, ?_, hsep⟩, ?_⟩
          · intro w hw
            have hstart := (hcovers w.start).mp
              ⟨w, hw, Nat.le_refl _, hsep.nonempty w hw⟩
            rcases Nat.eq_or_lt_of_le hstart.1 with heq | hlt'
            · exact absurd hstart.2 (heq ▸ hend.2.2)
            · exact hlt'
          · intro j
            rw [Span.covers_cons, hcovers]
            constructor
            · rintro (⟨hlow, hhigh⟩ | ⟨hlow, huncovered⟩)
              · exact ⟨hlow, hend.2.1 j hlow hhigh⟩
              · exact ⟨by omega, huncovered⟩
            · rintro ⟨hlow, huncovered⟩
              rcases Nat.lt_or_ge j (holeEnd s s.total i) with hj | hj
              · exact Or.inl ⟨hlow, hj⟩
              · exact Or.inr ⟨hj, huncovered⟩
        next hclosed =>
          obtain ⟨hsep, hcovers⟩ := ih (i + 1) (by omega)
          refine ⟨hsep, ?_⟩
          intro j
          rw [hcovers]
          constructor
          · rintro ⟨hlow, huncovered⟩
            exact ⟨by omega, huncovered⟩
          · rintro ⟨hlow, huncovered⟩
            rcases Nat.eq_or_lt_of_le hlow with rfl | hlt'
            · exact absurd huncovered hclosed
            · exact ⟨hlt', huncovered⟩
      next hge =>
        refine ⟨Span.separated_nil, ?_⟩
        intro j
        constructor
        · intro hcovers
          exact absurd hcovers (Span.not_covers_nil j)
        · rintro ⟨hij, huncovered⟩
          have := hs.uncovered_lt huncovered
          omega

/-- The damaged bytes from block `b` on are those of block `b`, if it fails,
and those of the later blocks. -/
theorem CiSvu.Valid.damaged_from (hs : s.Valid) (b i : Nat) :
    b * s.block ≤ i ∧ s.Damaged i ↔
      (blockFails s b = true ∧ b * s.block ≤ i ∧
        i < blockEnd s.total s.block b) ∨
      ((b + 1) * s.block ≤ i ∧ s.Damaged i) := by
  have hpos := hs.block_pos
  have hmem : b * s.block ≤ i ∧ i < blockEnd s.total s.block b ↔
      i < s.total ∧ i / s.block = b := mem_block_iff hpos b i
  have hstep : (b + 1) * s.block = b * s.block + s.block := by
    rw [Nat.add_mul, Nat.one_mul]
  constructor
  · rintro ⟨hlow, hdamaged⟩
    by_cases hb : i / s.block = b
    · have hin := hmem.mpr ⟨hdamaged.1, hb⟩
      exact Or.inl ⟨hb ▸ hdamaged.2, hin⟩
    · refine Or.inr ⟨?_, hdamaged⟩
      have hdiv : b ≤ i / s.block := (Nat.le_div_iff_mul_le hpos).mpr hlow
      exact (Nat.le_div_iff_mul_le hpos).mp (by omega)
  · rintro (⟨hfails, hin⟩ | ⟨hlow, hdamaged⟩)
    · obtain ⟨hi, hb⟩ := hmem.mp hin
      exact ⟨hin.1, hi, hb ▸ hfails⟩
    · exact ⟨by omega, hdamaged⟩

/-- The block scan from block `b` with the run `[runStart, runEnd)` open pushes
the maximal runs of that run together with the failing blocks from `b` on. -/
theorem corruptLoop_spec (hs : s.Valid) (count : Nat) :
    ∀ b runStart runEnd, b + count = s.nblocks → runStart ≤ runEnd →
    runEnd ≤ b * s.block →
    Span.Separated (corruptLoop s count b runStart runEnd) ∧
    (∀ i, Span.Covers (corruptLoop s count b runStart runEnd) i ↔
      (runStart ≤ i ∧ i < runEnd) ∨ (b * s.block ≤ i ∧ s.Damaged i)) := by
  induction count with
  | zero =>
      intro b runStart runEnd hb hrun hend
      have hnone : ∀ i, ¬ (b * s.block ≤ i ∧ s.Damaged i) := by
        rintro i ⟨hlow, hdamaged⟩
        have htotal := hs.total_le
        have hlt := hdamaged.1
        have hbn : b = s.nblocks := by omega
        rw [hbn] at hlow
        omega
      unfold corruptLoop
      split
      next hopen =>
        refine ⟨Span.separated_cons.mpr
          ⟨lt_of_le_of_ne hrun (Ne.symm hopen), by simp, Span.separated_nil⟩, ?_⟩
        intro i
        rw [Span.covers_cons]
        simp [hnone i]
      next hclosed =>
        refine ⟨Span.separated_nil, ?_⟩
        intro i
        have hempty : ¬ (runStart ≤ i ∧ i < runEnd) := by omega
        simp [hnone i, hempty]
  | succ count ih =>
      intro b runStart runEnd hb hrun hend
      have hstart := hs.block_start_lt (b := b) (by omega)
      have htotal := hs.total_lt
      have hstop : blockEnd s.total s.block b ≤ s.total := blockEnd_le b
      have hgrow : b * s.block < blockEnd s.total s.block b := by
        have hpos := hs.block_pos
        unfold blockEnd
        split <;> omega
      have hnext : blockEnd s.total s.block b ≤ (b + 1) * s.block := by
        rw [blockEnd_eq_min]
        exact Nat.min_le_left _ _
      unfold corruptLoop
      split
      next hfails =>
        dsimp only
        rw [Nat.mod_eq_of_lt (by omega : b * s.block < 2 ^ 32),
          Nat.mod_eq_of_lt (by omega : blockEnd s.total s.block b < 2 ^ 32)]
        split
        next htouch =>
          obtain ⟨hsep, hcovers⟩ := ih (b + 1) runStart
            (blockEnd s.total s.block b) (by omega) (by omega) hnext
          refine ⟨hsep, ?_⟩
          intro i
          rw [hcovers, hs.damaged_from b i]
          constructor
          · rintro (⟨hlow, hhigh⟩ | hlater)
            · rcases Nat.lt_or_ge i runEnd with hi | hi
              · exact Or.inl ⟨hlow, hi⟩
              · exact Or.inr (Or.inl ⟨hfails, by omega, hhigh⟩)
            · exact Or.inr (Or.inr hlater)
          · rintro (⟨hlow, hhigh⟩ | ⟨-, hlow, hhigh⟩ | hlater)
            · exact Or.inl ⟨hlow, by omega⟩
            · exact Or.inl ⟨by omega, hhigh⟩
            · exact Or.inr hlater
        next hapart =>
          obtain ⟨hsep, hcovers⟩ := ih (b + 1) (b * s.block)
            (blockEnd s.total s.block b) (by omega) (by omega) hnext
          have hlow : ∀ w ∈ corruptLoop s count (b + 1) (b * s.block)
              (blockEnd s.total s.block b), b * s.block ≤ w.start := by
            intro w hw
            have hin := (hcovers w.start).mp
              ⟨w, hw, Nat.le_refl _, hsep.nonempty w hw⟩
            rcases hin with hin | hin
            · exact hin.1
            · omega
          have hsame : ∀ i, ((b * s.block ≤ i ∧ i < blockEnd s.total s.block b) ∨
              ((b + 1) * s.block ≤ i ∧ s.Damaged i)) ↔
              (b * s.block ≤ i ∧ s.Damaged i) := by
            intro i
            rw [hs.damaged_from b i]
            simp [hfails]
          split
          next hopen =>
            have hgap : runEnd < b * s.block := by
              rcases Nat.eq_or_lt_of_le hend with heq | hlt
              · exact absurd ⟨hopen, heq.symm⟩ hapart
              · exact hlt
            rw [List.singleton_append]
            refine ⟨Span.separated_cons.mpr
              ⟨lt_of_le_of_ne hrun (Ne.symm hopen), ?_, hsep⟩, ?_⟩
            · intro w hw
              exact lt_of_lt_of_le hgap (hlow w hw)
            · intro i
              rw [Span.covers_cons, hcovers, hsame]
          next hclosed =>
            rw [List.nil_append]
            refine ⟨hsep, ?_⟩
            intro i
            have hempty : ¬ (runStart ≤ i ∧ i < runEnd) := by omega
            rw [hcovers, hsame]
            simp [hempty]
      next hpasses =>
        obtain ⟨hsep, hcovers⟩ := ih (b + 1) runStart runEnd (by omega) hrun
          (by rw [Nat.add_mul, Nat.one_mul]; omega)
        refine ⟨hsep, ?_⟩
        intro i
        rw [hcovers, hs.damaged_from b i]
        simp [hpasses]

private theorem foldl_pushInterval (max : Nat) (later : List Span) :
    ∀ earlier : List Span,
    later.foldl (pushInterval max) (earlier.take max, earlier.length) =
      ((earlier ++ later).take max, (earlier ++ later).length) := by
  induction later with
  | nil =>
      intro earlier
      rw [List.append_nil]
      rfl
  | cons v later ih =>
      intro earlier
      have hpush : pushInterval max (earlier.take max, earlier.length) v =
          ((earlier ++ [v]).take max, (earlier ++ [v]).length) := by
        unfold pushInterval
        dsimp only
        split
        next hroom =>
          rw [List.take_of_length_le (by omega),
            List.take_of_length_le (by simp; omega), List.length_append]
          rfl
        next hfull =>
          rw [List.take_append_of_le_length (by omega), List.length_append]
          rfl
      rw [List.foldl_cons, hpush, ih, List.append_assoc]
      rfl

/-- The output buffer holds the first `max` ranges and `*nout` counts all. -/
theorem ciSvuVerify_eq (s : CiSvu) (max : Nat) :
    ciSvuVerify s max =
      ⟨verifyStatus s, (verifyRanges s).take max, (verifyRanges s).length⟩ := by
  have h := foldl_pushInterval max (verifyRanges s) []
  simp only [List.take_nil, List.length_nil, List.nil_append] at h
  unfold ciSvuVerify
  rw [h]

theorem verifyRanges_of_missing (hs : s.Valid) (h : s.coveredCount < s.total) :
    Span.Separated (verifyRanges s) ∧
      ∀ i, Span.Covers (verifyRanges s) i ↔ s.Uncovered i := by
  unfold verifyRanges
  rw [if_pos h]
  obtain ⟨hsep, hcovers⟩ := holeLoop_spec hs s.total 0 (by omega)
  refine ⟨hsep, ?_⟩
  intro i
  rw [hcovers]
  simp

theorem verifyRanges_of_covered (hs : s.Valid) (h : ¬ s.coveredCount < s.total) :
    Span.Separated (verifyRanges s) ∧
      ∀ i, Span.Covers (verifyRanges s) i ↔ s.Damaged i := by
  unfold verifyRanges
  rw [if_neg h]
  obtain ⟨hsep, hcovers⟩ :=
    corruptLoop_spec hs s.nblocks 0 0 0 (by omega) (by omega) (by omega)
  refine ⟨hsep, ?_⟩
  intro i
  rw [hcovers]
  simp

/-- The ranges of a verdict are not empty and end inside the payload. -/
theorem CiSvu.Valid.range_le (hs : s.Valid) {v : Span} (hv : v ∈ verifyRanges s) :
    v.start < v.stop ∧ v.stop ≤ s.total := by
  have hlast : ∀ {p : Nat → Prop}, Span.Separated (verifyRanges s) →
      (∀ i, Span.Covers (verifyRanges s) i ↔ p i) → (∀ i, p i → i < s.total) →
      v.start < v.stop ∧ v.stop ≤ s.total := by
    intro p hsep hcovers hbound
    have hne := hsep.nonempty v hv
    have hlt := hbound _ ((hcovers (v.stop - 1)).mp ⟨v, hv, by omega, by omega⟩)
    exact ⟨hne, by omega⟩
  by_cases hcount : s.coveredCount < s.total
  · obtain ⟨hsep, hcovers⟩ := verifyRanges_of_missing hs hcount
    exact hlast hsep hcovers (fun i hi => hs.uncovered_lt hi)
  · obtain ⟨hsep, hcovers⟩ := verifyRanges_of_covered hs hcount
    exact hlast hsep hcovers (fun i hi => hi.1)

theorem CiSvu.Valid.damaged_of_fails (hs : s.Valid) {b : Nat}
    (hb : b < s.nblocks) (hfails : blockFails s b = true) :
    s.Damaged (b * s.block) := by
  refine ⟨hs.block_start_lt hb, ?_⟩
  rw [Nat.mul_div_cancel _ hs.block_pos]
  exact hfails

/-- The three verdicts, read off the coverage and the digests. -/
theorem verifyStatus_incomplete (hs : s.Valid) :
    verifyStatus s = .incomplete ↔ ∃ i, s.Uncovered i := by
  rw [← hs.count_lt_iff]
  unfold verifyStatus
  split
  · simp_all
  · split <;> simp_all

theorem verifyStatus_corrupt (hs : s.Valid) :
    verifyStatus s = .corrupt ↔
      (¬ ∃ i, s.Uncovered i) ∧ ∃ i, s.Damaged i := by
  have hdamaged : (List.range s.nblocks).any (blockFails s) = true ↔
      ∃ i, s.Damaged i := by
    rw [List.any_eq_true]
    constructor
    · rintro ⟨b, hb, hfails⟩
      exact ⟨_, hs.damaged_of_fails (List.mem_range.mp hb) hfails⟩
    · rintro ⟨i, hi⟩
      exact ⟨i / s.block, List.mem_range.mpr (hs.div_block_lt hi.1), hi.2⟩
  rw [← hs.count_lt_iff, ← hdamaged]
  unfold verifyStatus
  split
  · simp_all
  · split <;> simp_all

theorem verifyStatus_verified (hs : s.Valid) :
    verifyStatus s = .completeVerified ↔
      (¬ ∃ i, s.Uncovered i) ∧ ¬ ∃ i, s.Damaged i := by
  cases hstatus : verifyStatus s with
  | incomplete =>
      have := (verifyStatus_incomplete hs).mp hstatus
      simp [this]
  | corrupt =>
      have := (verifyStatus_corrupt hs).mp hstatus
      simp [this]
  | completeVerified =>
      have hmissing := mt (verifyStatus_incomplete hs).mpr (by simp [hstatus])
      have hdamaged := mt (verifyStatus_corrupt hs).mpr (by simp [hstatus])
      simp only [true_iff]
      exact ⟨hmissing, fun h => hdamaged ⟨hmissing, h⟩⟩

/-- A verdict other than `COMPLETE_VERIFIED` reports at least one range. -/
theorem verifyRanges_ne_nil (hs : s.Valid)
    (h : verifyStatus s ≠ .completeVerified) : verifyRanges s ≠ [] := by
  intro hnil
  apply h
  rw [verifyStatus_verified hs]
  have hmissing : ¬ ∃ i, s.Uncovered i := by
    rintro ⟨i, hi⟩
    have hlt := hs.count_lt_iff.mpr ⟨i, hi⟩
    have hcovers := ((verifyRanges_of_missing hs hlt).2 i).mpr hi
    rw [hnil] at hcovers
    exact Span.not_covers_nil i hcovers
  refine ⟨hmissing, ?_⟩
  rintro ⟨i, hi⟩
  have hcount := mt hs.count_lt_iff.mp hmissing
  have hcovers := ((verifyRanges_of_covered hs hcount).2 i).mpr hi
  rw [hnil] at hcovers
  exact Span.not_covers_nil i hcovers

end Ranges

end SatDeploy.Svu
