import Mathlib.Tactic

/-!
Finite unions of half-open ranges of naturals. A list of ranges that are
non-empty, increasing and pairwise non-touching is the normal form of the set
it covers: two such lists with the same union are equal, and their members are
exactly the maximal runs of that set.
-/

namespace SatDeploy.Lib

structure Span where
  start : Nat
  stop : Nat
  deriving DecidableEq, Repr

namespace Span

/-- Position `i` lies in some range of the list. -/
def Covers (spans : List Span) (i : Nat) : Prop :=
  ∃ v ∈ spans, v.start ≤ i ∧ i < v.stop

/-- Non-empty, strictly increasing and pairwise non-touching. -/
structure Separated (spans : List Span) : Prop where
  nonempty : ∀ v ∈ spans, v.start < v.stop
  apart : spans.Pairwise (fun v w => v.stop < w.start)

/-- A maximal run of the positions where `p` holds. -/
structure MaximalRun (p : Nat → Prop) (v : Span) : Prop where
  nonempty : v.start < v.stop
  inside : ∀ i, v.start ≤ i → i < v.stop → p i
  ends : ¬ p v.stop
  begins : ∀ i, i + 1 = v.start → ¬ p i

/-- The number of positions in the ranges, counted with multiplicity. -/
def totalLength (spans : List Span) : Nat :=
  (spans.map fun v => v.stop - v.start).sum

@[simp] theorem not_covers_nil (i : Nat) : ¬ Covers [] i := by
  simp [Covers]

@[simp] theorem covers_cons (v : Span) (spans : List Span) (i : Nat) :
    Covers (v :: spans) i ↔ (v.start ≤ i ∧ i < v.stop) ∨ Covers spans i := by
  simp [Covers]

theorem covers_append (left right : List Span) (i : Nat) :
    Covers (left ++ right) i ↔ Covers left i ∨ Covers right i := by
  simp only [Covers, List.mem_append]
  constructor
  · rintro ⟨v, hleft | hright, hi⟩
    · exact Or.inl ⟨v, hleft, hi⟩
    · exact Or.inr ⟨v, hright, hi⟩
  · rintro (⟨v, hv, hi⟩ | ⟨v, hv, hi⟩)
    · exact ⟨v, Or.inl hv, hi⟩
    · exact ⟨v, Or.inr hv, hi⟩

theorem separated_nil : Separated [] :=
  ⟨by simp, List.Pairwise.nil⟩

theorem separated_cons {v : Span} {spans : List Span} :
    Separated (v :: spans) ↔
      v.start < v.stop ∧ (∀ w ∈ spans, v.stop < w.start) ∧ Separated spans := by
  constructor
  · intro h
    obtain ⟨hhead, htail⟩ := List.pairwise_cons.mp h.apart
    exact ⟨h.nonempty v (by simp), hhead,
      ⟨fun w hw => h.nonempty w (by simp [hw]), htail⟩⟩
  · rintro ⟨hv, hhead, htail⟩
    refine ⟨?_, List.pairwise_cons.mpr ⟨hhead, htail.apart⟩⟩
    intro w hw
    rcases List.mem_cons.mp hw with rfl | hw
    · exact hv
    · exact htail.nonempty w hw

theorem Separated.drop {spans : List Span} (h : Separated spans) (n : Nat) :
    Separated (spans.drop n) :=
  ⟨fun v hv => h.nonempty v (List.mem_of_mem_drop hv),
    h.apart.sublist (List.drop_sublist n spans)⟩

/-- The first range starts at the smallest covered position. -/
private theorem head_start_le {v : Span} {spans : List Span}
    (h : Separated (v :: spans)) {i : Nat} (hi : Covers (v :: spans) i) :
    v.start ≤ i := by
  obtain ⟨hv, hhead, -⟩ := separated_cons.mp h
  rcases (covers_cons v spans i).mp hi with hin | ⟨w, hw, hin⟩
  · exact hin.1
  · have := hhead w hw
    omega

/-- The position just past the first range is not covered. -/
private theorem not_covers_head_stop {v : Span} {spans : List Span}
    (h : Separated (v :: spans)) : ¬ Covers (v :: spans) v.stop := by
  obtain ⟨-, hhead, -⟩ := separated_cons.mp h
  rintro ⟨w, hw, hin⟩
  rcases List.mem_cons.mp hw with rfl | hw
  · omega
  · have := hhead w hw
    omega

private theorem head_stop_le {v w : Span} {left right : List Span}
    (hleft : Separated (v :: left))
    (hstart : v.start = w.start)
    (hsame : ∀ i, Covers (v :: left) i ↔ Covers (w :: right) i) :
    w.stop ≤ v.stop := by
  by_contra hlt
  have hv := (separated_cons.mp hleft).1
  apply not_covers_head_stop hleft
  apply (hsame v.stop).mpr
  exact (covers_cons w right v.stop).mpr (Or.inl ⟨by omega, by omega⟩)

private theorem covers_tail {v : Span} {spans : List Span}
    (h : Separated (v :: spans)) (i : Nat) :
    Covers spans i ↔ Covers (v :: spans) i ∧ v.stop ≤ i := by
  obtain ⟨-, hhead, -⟩ := separated_cons.mp h
  rw [covers_cons]
  constructor
  · intro hi
    refine ⟨Or.inr hi, ?_⟩
    obtain ⟨w, hw, hin⟩ := hi
    have := hhead w hw
    omega
  · rintro ⟨hin | hi, hstop⟩
    · omega
    · exact hi

/-- A separated list is determined by the set it covers. -/
theorem Separated.ext {left right : List Span}
    (hleft : Separated left) (hright : Separated right)
    (hsame : ∀ i, Covers left i ↔ Covers right i) : left = right := by
  induction left generalizing right with
  | nil =>
      cases right with
      | nil => rfl
      | cons w right =>
          have hw := (separated_cons.mp hright).1
          have hcovered : Covers (w :: right) w.start :=
            (covers_cons w right w.start).mpr (Or.inl ⟨Nat.le_refl _, hw⟩)
          exact absurd ((hsame w.start).mpr hcovered) (not_covers_nil _)
  | cons v left ih =>
      cases right with
      | nil =>
          have hv := (separated_cons.mp hleft).1
          have hcovered : Covers (v :: left) v.start :=
            (covers_cons v left v.start).mpr (Or.inl ⟨Nat.le_refl _, hv⟩)
          exact absurd ((hsame v.start).mp hcovered) (not_covers_nil _)
      | cons w right =>
          obtain ⟨hv, -, hleftTail⟩ := separated_cons.mp hleft
          obtain ⟨hw, -, hrightTail⟩ := separated_cons.mp hright
          have hvw : w.start ≤ v.start :=
            head_start_le hright ((hsame v.start).mp
              ((covers_cons v left _).mpr (Or.inl ⟨Nat.le_refl _, hv⟩)))
          have hwv : v.start ≤ w.start :=
            head_start_le hleft ((hsame w.start).mpr
              ((covers_cons w right _).mpr (Or.inl ⟨Nat.le_refl _, hw⟩)))
          have hstart : v.start = w.start := by omega
          have hstop : v.stop = w.stop := by
            have hle := head_stop_le hleft hstart hsame
            have hge := head_stop_le hright hstart.symm
              (fun i => (hsame i).symm)
            omega
          have htail : left = right := by
            apply ih hleftTail hrightTail
            intro i
            rw [covers_tail hleft, covers_tail hright, hsame, hstop]
          have hhead : v = w := by
            cases v
            cases w
            simp_all
          rw [hhead, htail]

/-- Two members of a separated list are equal or do not touch. -/
theorem Separated.eq_or_apart {spans : List Span} (h : Separated spans)
    {v w : Span} (hv : v ∈ spans) (hw : w ∈ spans) :
    v = w ∨ v.stop < w.start ∨ w.stop < v.start := by
  induction spans with
  | nil => simp at hv
  | cons u spans ih =>
      obtain ⟨-, hhead, htail⟩ := separated_cons.mp h
      rcases List.mem_cons.mp hv with hvu | hvt
      · rcases List.mem_cons.mp hw with hwu | hwt
        · exact Or.inl (hvu.trans hwu.symm)
        · exact Or.inr (Or.inl (hvu ▸ hhead w hwt))
      · rcases List.mem_cons.mp hw with hwu | hwt
        · exact Or.inr (Or.inr (hwu ▸ hhead v hvt))
        · exact ih htail hvt hwt

private theorem Separated.not_covers_stop {spans : List Span}
    (h : Separated spans) {v : Span} (hv : v ∈ spans) :
    ¬ Covers spans v.stop := by
  rintro ⟨w, hw, hin⟩
  have hne := h.nonempty v hv
  rcases h.eq_or_apart hv hw with rfl | hlt | hlt <;> omega

private theorem Separated.not_covers_before {spans : List Span}
    (h : Separated spans) {v : Span} (hv : v ∈ spans) {i : Nat}
    (hi : i + 1 = v.start) : ¬ Covers spans i := by
  rintro ⟨w, hw, hin⟩
  have hne := h.nonempty v hv
  rcases h.eq_or_apart hv hw with rfl | hlt | hlt <;> omega

/-- The first `n` ranges and the others share no position. -/
theorem Separated.not_covers_take_drop {spans : List Span} (h : Separated spans)
    (n : Nat) {i : Nat} (hi : Covers (spans.take n) i) :
    ¬ Covers (spans.drop n) i := by
  obtain ⟨v, hv, hin⟩ := hi
  rintro ⟨w, hw, hin'⟩
  have happart := h.apart
  rw [← List.take_append_drop n spans, List.pairwise_append] at happart
  have hlt := happart.2.2 v hv w hw
  omega

theorem covers_take_drop (spans : List Span) (n i : Nat) :
    Covers spans i ↔ Covers (spans.take n) i ∨ Covers (spans.drop n) i := by
  rw [← covers_append, List.take_append_drop]

/-- A covered stretch lies in one range: a range that meets it contains it. -/
theorem Separated.covers_stretch {spans : List Span} (h : Separated spans)
    {lo hi : Nat} (hall : ∀ j, lo ≤ j → j < hi → Covers spans j)
    {v : Span} (hv : v ∈ spans) {i j : Nat} (hi₁ : lo ≤ i) (hi₂ : i < hi)
    (hiv : v.start ≤ i ∧ i < v.stop) (hj₁ : lo ≤ j) (hj₂ : j < hi) :
    v.start ≤ j ∧ j < v.stop := by
  constructor
  · by_contra hlt
    exact h.not_covers_before hv (i := v.start - 1) (by omega)
      (hall _ (by omega) (by omega))
  · by_contra hge
    exact h.not_covers_stop hv (hall _ (by omega) (by omega))

/-- The members of a separated list are exactly the maximal runs of the set
it covers. -/
theorem Separated.mem_iff_maximalRun {spans : List Span} {p : Nat → Prop}
    (h : Separated spans) (hp : ∀ i, Covers spans i ↔ p i) (v : Span) :
    v ∈ spans ↔ MaximalRun p v := by
  constructor
  · intro hv
    refine ⟨h.nonempty v hv, ?_, ?_, ?_⟩
    · intro i hlow hhigh
      exact (hp i).mp ⟨v, hv, hlow, hhigh⟩
    · rw [← hp]
      exact h.not_covers_stop hv
    · intro i hi
      rw [← hp]
      exact h.not_covers_before hv hi
  · intro hrun
    have hcovered := hrun.inside v.start (Nat.le_refl _) hrun.nonempty
    obtain ⟨w, hw, hlow, hhigh⟩ := (hp v.start).mpr hcovered
    have hstart : w.start = v.start := by
      by_contra hne
      apply hrun.begins (v.start - 1) (by omega)
      exact (hp _).mp ⟨w, hw, by omega, by omega⟩
    have hstop : w.stop = v.stop := by
      rcases Nat.lt_trichotomy w.stop v.stop with hlt | heq | hgt
      · apply absurd ((hp w.stop).mpr (hrun.inside _ (by omega) hlt))
        exact h.not_covers_stop hw
      · exact heq
      · apply absurd ((hp v.stop).mp ⟨w, hw, ?_, hgt⟩) hrun.ends
        have := hrun.nonempty
        omega
    have heq : v = w := by
      cases v
      cases w
      simp_all
    rw [heq]
    exact hw

@[simp] theorem totalLength_nil : totalLength [] = 0 := rfl

@[simp] theorem totalLength_cons (v : Span) (spans : List Span) :
    totalLength (v :: spans) = v.stop - v.start + totalLength spans := by
  simp [totalLength]

theorem totalLength_append (left right : List Span) :
    totalLength (left ++ right) = totalLength left + totalLength right := by
  simp [totalLength]

section Blocks

variable {p : Nat → Prop} {total block : Nat}

/-- The positions of the blocks `v.start`, ..., `v.stop - 1`, clipped to
`total`. -/
def ofBlocks (total block : Nat) (v : Span) : Span :=
  ⟨v.start * block, min (v.stop * block) total⟩

theorem div_of_next_start {i b : Nat} (hblock : 0 < block) (hi : i + 1 = b * block) :
    i / block + 1 = b := by
  have hbpos : 0 < b := by
    rcases Nat.eq_zero_or_pos b with rfl | hpos
    · rw [Nat.zero_mul] at hi
      omega
    · exact hpos
  have hmul : (b - 1 + 1) * block = (b - 1) * block + block := by
    rw [Nat.add_mul, Nat.one_mul]
  rw [Nat.sub_add_cancel hbpos] at hmul
  have hdiv : i / block = b - 1 := by
    rw [Nat.div_eq_iff hblock]
    omega
  omega

/-- Two neighbours in different blocks meet at a block boundary. -/
theorem eq_mul_of_div_ne {i : Nat} (hblock : 0 < block)
    (hne : i / block ≠ (i + 1) / block) : i + 1 = (i / block + 1) * block := by
  have hlow := Nat.div_mul_le_self i block
  have hhigh : i < (i / block + 1) * block := Nat.lt_mul_of_div_lt (Nat.lt_succ_self _) hblock
  by_contra hother
  apply hne
  symm
  rw [Nat.div_eq_iff hblock]
  rw [Nat.add_mul, Nat.one_mul] at hhigh hother
  omega

/-- A maximal run of blocks is a maximal run of their positions. -/
theorem MaximalRun.positions (hblock : 0 < block) (hp : ∀ b, p b → b * block < total)
    {w : Span} (hw : MaximalRun p w) :
    MaximalRun (fun i => i < total ∧ p (i / block)) (ofBlocks total block w) := by
  have hfirst := hp _ (hw.inside w.start (Nat.le_refl _) hw.nonempty)
  have hmul : w.start * block < w.stop * block :=
    Nat.mul_lt_mul_of_pos_right hw.nonempty hblock
  refine ⟨lt_min hmul hfirst, ?_, ?_, ?_⟩
  · intro i hlow hhigh
    obtain ⟨hstop, htotal⟩ := lt_min_iff.mp hhigh
    refine ⟨htotal, hw.inside _ ?_ ?_⟩
    · exact (Nat.le_div_iff_mul_le hblock).mpr hlow
    · exact Nat.div_lt_of_lt_mul (by rwa [Nat.mul_comm])
  · rintro ⟨htotal, hlater⟩
    have hstop : min (w.stop * block) total = w.stop * block := by
      change min (w.stop * block) total < total at htotal
      omega
    change p (min (w.stop * block) total / block) at hlater
    rw [hstop, Nat.mul_div_cancel _ hblock] at hlater
    exact hw.ends hlater
  · rintro i hi ⟨-, hbefore⟩
    exact hw.begins _ (div_of_next_start hblock hi) hbefore

/-- The maximal runs of the positions that lie in blocks where `p` holds are
the maximal runs of such blocks. -/
theorem maximalRun_positions_iff (hblock : 0 < block) (hp : ∀ b, p b → b * block < total)
    (v : Span) : MaximalRun (fun i => i < total ∧ p (i / block)) v ↔
      ∃ w, MaximalRun p w ∧ v = ofBlocks total block w := by
  constructor
  · intro hv
    have hne := hv.nonempty
    obtain ⟨hstart, hfirst⟩ := hv.inside v.start (Nat.le_refl _) hne
    obtain ⟨hlast, hfinal⟩ := hv.inside (v.stop - 1) (by omega) (by omega)
    have hstop : v.stop - 1 + 1 = v.stop := by omega
    -- the run starts where a block starts
    have hbegin : v.start = v.start / block * block := by
      rcases Nat.eq_zero_or_pos v.start with hzero | hpos
      · rw [hzero, Nat.zero_div, Nat.zero_mul]
      · have hbefore := hv.begins (v.start - 1) (by omega)
        have hdiffer : (v.start - 1) / block ≠ (v.start - 1 + 1) / block := by
          intro heq
          rw [Nat.sub_add_cancel hpos] at heq
          exact hbefore ⟨by omega, heq ▸ hfirst⟩
        have hedge := eq_mul_of_div_ne hblock hdiffer
        rw [Nat.sub_add_cancel hpos] at hedge
        rw [hedge, Nat.mul_div_cancel _ hblock]
    -- and ends where a block or the payload ends
    have hend : v.stop = min (((v.stop - 1) / block + 1) * block) total := by
      have hhigh : v.stop - 1 < ((v.stop - 1) / block + 1) * block :=
        Nat.lt_mul_of_div_lt (Nat.lt_succ_self _) hblock
      by_cases htotal : v.stop < total
      · have hdiffer : (v.stop - 1) / block ≠ (v.stop - 1 + 1) / block := by
          intro heq
          rw [hstop] at heq
          exact hv.ends ⟨htotal, heq ▸ hfinal⟩
        have hedge := eq_mul_of_div_ne hblock hdiffer
        omega
      · omega
    refine ⟨⟨v.start / block, (v.stop - 1) / block + 1⟩, ⟨?_, ?_, ?_, ?_⟩, ?_⟩
    · exact Nat.lt_succ_of_le (Nat.div_le_div_right (by omega))
    · intro b hlow hhigh
      rcases Nat.eq_or_lt_of_le hlow with rfl | hlt
      · exact hfirst
      · have hmul : v.start ≤ b * block :=
          (Nat.lt_mul_of_div_lt hlt hblock).le
        have hbelow : b * block ≤ v.stop - 1 :=
          (Nat.le_div_iff_mul_le hblock).mp (Nat.le_of_lt_succ hhigh)
        have hinside := (hv.inside (b * block) hmul (by omega)).2
        rwa [Nat.mul_div_cancel _ hblock] at hinside
    · intro hnext
      change p ((v.stop - 1) / block + 1) at hnext
      have hfits := hp _ hnext
      have heq : v.stop = ((v.stop - 1) / block + 1) * block := by omega
      apply hv.ends
      refine ⟨by omega, ?_⟩
      rwa [heq, Nat.mul_div_cancel _ hblock]
    · intro b hb hbefore
      have hedge : (b + 1) * block = v.start := by
        rw [show b + 1 = v.start / block from hb]
        exact hbegin.symm
      have hpos : 0 < v.start := by
        rw [← hedge]
        exact Nat.mul_pos (Nat.succ_pos b) hblock
      have hdiv : (v.start - 1) / block = b := by
        have := div_of_next_start hblock (show v.start - 1 + 1 = (b + 1) * block by omega)
        omega
      exact hv.begins (v.start - 1) (by omega) ⟨by omega, hdiv.symm ▸ hbefore⟩
    · cases v
      exact Span.mk.injEq .. ▸ ⟨hbegin, hend⟩
  · rintro ⟨w, hw, rfl⟩
    exact hw.positions hblock hp

end Blocks

end Span

end SatDeploy.Lib
