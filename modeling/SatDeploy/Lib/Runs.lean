import SatDeploy.Lib.Spans

/-!
Counting maximal runs by their first positions. At most every second position
starts one.
-/

namespace SatDeploy.Lib

namespace Span

/-- The positions below `n` where a run of `p` begins. -/
def runStarts (p : Nat → Bool) (n : Nat) : List Nat :=
  (List.range n).filter fun b => p b && (b == 0 || !p (b - 1))

section Counting

variable {p : Nat → Bool} {n : Nat}

theorem mem_runStarts {b : Nat} : b ∈ runStarts p n ↔
    b < n ∧ p b = true ∧ ∀ i, i + 1 = b → p i = false := by
  simp only [runStarts, List.mem_filter, List.mem_range, Bool.and_eq_true, Bool.or_eq_true,
    beq_iff_eq, Bool.not_eq_true']
  constructor
  · rintro ⟨hb, hp, hzero | hbefore⟩
    · exact ⟨hb, hp, fun i hi => by omega⟩
    · exact ⟨hb, hp, fun i hi => by rwa [← hi, Nat.add_sub_cancel] at hbefore⟩
  · rintro ⟨hb, hp, hbefore⟩
    refine ⟨hb, hp, ?_⟩
    rcases Nat.eq_zero_or_pos b with hzero | hpos
    · exact Or.inl hzero
    · exact Or.inr (hbefore _ (Nat.sub_add_cancel hpos))

/-- Every first position begins a maximal run. -/
theorem exists_maximalRun (hbound : ∀ i, p i = true → i < n) {b : Nat}
    (hb : b ∈ runStarts p n) : ∃ w, MaximalRun (fun i => p i = true) w ∧ w.start = b := by
  obtain ⟨hlt, hp, hbefore⟩ := mem_runStarts.mp hb
  have hends : ∃ stop, b < stop ∧ p stop = false := by
    refine ⟨n, hlt, ?_⟩
    by_contra hin
    exact Nat.lt_irrefl n (hbound n (by simpa using hin))
  have hstop := Nat.find_spec hends
  refine ⟨⟨b, Nat.find hends⟩, ⟨hstop.1, ?_, by simp [hstop.2], ?_⟩, rfl⟩
  · intro i hlow hhigh
    rcases Nat.eq_or_lt_of_le hlow with rfl | hlow
    · exact hp
    · have := Nat.find_min hends hhigh
      simpa [hlow] using this
  · intro i hi
    simp [hbefore i hi]

theorem maximalRun_start (hbound : ∀ i, p i = true → i < n) {w : Span}
    (hw : MaximalRun (fun i => p i = true) w) : w.start ∈ runStarts p n := by
  have hp := hw.inside w.start (Nat.le_refl _) hw.nonempty
  exact mem_runStarts.mpr ⟨hbound _ hp, hp, fun i hi => by simpa using hw.begins i hi⟩

/-- As many ranges as runs begin. -/
theorem Separated.length_eq (total : Nat) {block : Nat} {spans : List Span}
    (h : Separated spans) (hblock : 0 < block) (hbound : ∀ i, p i = true → i < n)
    (hmem : ∀ v, v ∈ spans ↔
      ∃ w, MaximalRun (fun i => p i = true) w ∧ v = ofBlocks total block w) :
    spans.length = (runStarts p n).length := by
  have hstart : ∀ w : Span, (ofBlocks total block w).start / block = w.start :=
    fun w => Nat.mul_div_cancel _ hblock
  have hnodup : (spans.map fun v => v.start / block).Nodup := by
    apply List.Nodup.map_on
    · intro v hv w hw heq
      obtain ⟨x, -, rfl⟩ := (hmem v).mp hv
      obtain ⟨y, -, rfl⟩ := (hmem w).mp hw
      rw [hstart, hstart] at heq
      have hsame : (ofBlocks total block x).start = (ofBlocks total block y).start :=
        congrArg (· * block) heq
      have hv' := h.nonempty _ hv
      have hw' := h.nonempty _ hw
      rcases h.eq_or_apart hv hw with heq | hlt | hlt
      · exact heq
      · omega
      · omega
    · refine h.apart.imp_of_mem ?_
      intro v w hv _ hlt heq
      have := h.nonempty v hv
      rw [heq] at this
      rw [heq] at hlt
      omega
  have hsame : ∀ b, b ∈ spans.map (fun v => v.start / block) ↔ b ∈ runStarts p n := by
    intro b
    rw [List.mem_map]
    constructor
    · rintro ⟨v, hv, rfl⟩
      obtain ⟨w, hw, rfl⟩ := (hmem v).mp hv
      rw [hstart]
      exact maximalRun_start hbound hw
    · intro hb
      obtain ⟨w, hw, rfl⟩ := exists_maximalRun hbound hb
      exact ⟨_, (hmem _).mpr ⟨w, hw, rfl⟩, hstart w⟩
  have hperm : (spans.map fun v => v.start / block).Perm (runStarts p n) :=
    (List.perm_ext_iff_of_nodup hnodup (List.nodup_range.filter _)).mpr hsame
  rw [← hperm.length_eq, List.length_map]

/-- No two neighbours both begin a run. -/
theorem length_runStarts_le (p : Nat → Bool) (n : Nat) :
    (runStarts p n).length ≤ (n + 1) / 2 := by
  induction n using Nat.twoStepInduction with
  | zero => simp [runStarts]
  | one =>
      have := List.length_filter_le (fun b => p b && (b == 0 || !p (b - 1))) (List.range 1)
      simpa [runStarts] using this
  | more n ih _ =>
      have htwo : (runStarts p (n + 2)).length ≤ (runStarts p n).length + 1 := by
        simp only [runStarts, List.range_succ, List.filter_append, List.length_append,
          List.filter_singleton]
        cases hp : p n <;> cases hq : p (n + 1) <;> simp [hp]
        all_goals cases n == 0 || !p (n - 1) <;> simp
      omega

end Counting

end Span

end SatDeploy.Lib
