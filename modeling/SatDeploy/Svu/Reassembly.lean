import SatDeploy.Svu.Recovery

/-!
The reassembly buffer over whole histories. `ci_svu_accept` keeps a counter, a
flag per byte and the bytes in separate steps; after any calls they agree, and
what they hold is what the calls that returned 0 brought.
-/

namespace SatDeploy.Svu

open Lib

/-- The calls of a history that returned 0. -/
def acceptedCalls : CiSvu → List (Nat × Bytes) → List (Nat × Bytes)
  | _, [] => []
  | s, call :: rest =>
      match ciSvuAccept s call.1 call.2 with
      | some t => call :: acceptedCalls t rest
      | none => acceptedCalls s rest

/-- The positions in the ranges of the calls. -/
def rangeUnion (calls : List (Nat × Bytes)) : Finset Nat :=
  calls.foldr (fun call positions =>
    Finset.Ico call.1 (call.1 + call.2.length) ∪ positions) ∅

/-- The byte the last of the calls brought for position `i`. -/
def lastWritten (calls : List (Nat × Bytes)) (i : Nat) : Option UInt8 :=
  calls.reverse.findSome? fun call => if call.1 ≤ i then call.2[i - call.1]? else none

section Histories

variable {s : CiSvu} {total i : Nat} {call : Nat × Bytes} {calls : List (Nat × Bytes)}

theorem mem_rangeUnion : i ∈ rangeUnion calls ↔
    ∃ call ∈ calls, call.1 ≤ i ∧ i < call.1 + call.2.length := by
  induction calls with
  | nil => simp [rangeUnion]
  | cons call calls ih =>
      have hcons : rangeUnion (call :: calls) =
          Finset.Ico call.1 (call.1 + call.2.length) ∪ rangeUnion calls := rfl
      rw [hcons, Finset.mem_union, Finset.mem_Ico, ih]
      simp

theorem rangeUnion_congr {later : List (Nat × Bytes)} (h : ∀ call, call ∈ later ↔ call ∈ calls) :
    rangeUnion later = rangeUnion calls := by
  ext i
  simp only [mem_rangeUnion, h]

theorem lastWritten_append : lastWritten (calls ++ [call]) i =
    if call.1 ≤ i ∧ i < call.1 + call.2.length then call.2[i - call.1]?
    else lastWritten calls i := by
  unfold lastWritten
  rw [List.reverse_append, List.reverse_singleton, List.singleton_append, List.findSome?_cons]
  by_cases hlow : call.1 ≤ i
  · rw [if_pos hlow]
    by_cases hhigh : i < call.1 + call.2.length
    · have hlt : i - call.1 < call.2.length := by omega
      rw [if_pos ⟨hlow, hhigh⟩, List.getElem?_eq_getElem hlt]
    · rw [if_neg (by omega), List.getElem?_eq_none (by omega)]
  · rw [if_neg hlow, if_neg (by omega)]

theorem acceptAll_append (later : List (Nat × Bytes)) :
    acceptAll s (calls ++ later) = acceptAll (acceptAll s calls) later :=
  List.foldl_append

theorem acceptedCalls_append (later : List (Nat × Bytes)) : ∀ (calls) (s : CiSvu),
    acceptedCalls s (calls ++ later) =
      acceptedCalls s calls ++ acceptedCalls (acceptAll s calls) later
  | [], _ => rfl
  | call :: calls, s => by
      have hcons : acceptAll s (call :: calls) =
          acceptAll ((ciSvuAccept s call.1 call.2).getD s) calls := rfl
      rw [List.cons_append, acceptedCalls, acceptedCalls, hcons]
      cases ciSvuAccept s call.1 call.2 with
      | none => exact acceptedCalls_append later calls s
      | some t =>
          dsimp only
          rw [acceptedCalls_append later calls t]
          rfl

theorem ciSvuAccept_eq_none {offset : Nat} {buf : Bytes} :
    ciSvuAccept s offset buf = none ↔ s.total < offset + buf.length := by
  unfold ciSvuAccept
  split
  next hlong => simpa using hlong
  next hfits => simpa using hfits

end Histories

/-- The buffer and the flags hold what `calls` brought, in that order. -/
structure Reassembled (calls : List (Nat × Bytes)) (s : CiSvu) : Prop where
  fits : ∀ call ∈ calls, call.1 + call.2.length ≤ s.total
  data_get : ∀ i < s.total, s.data[i]? = some ((lastWritten calls i).getD 0)
  covered_get : ∀ i < s.total, s.covered[i]? = some (decide (i ∈ rangeUnion calls))

section Reassembly

variable {s : CiSvu} {calls : List (Nat × Bytes)}

theorem Reassembled.accept {t : CiSvu} {call : Nat × Bytes} (h : Reassembled calls s)
    (hs : s.Valid) (haccept : ciSvuAccept s call.1 call.2 = some t) :
    Reassembled (calls ++ [call]) t := by
  have hstep := ciSvuAccept_accepted hs haccept
  refine ⟨?_, ?_, ?_⟩
  · intro other hmem
    rw [hstep.total_eq]
    rcases List.mem_append.mp hmem with hmem | hmem
    · exact h.fits other hmem
    · rw [List.mem_singleton.mp hmem]
      exact hstep.fits
  · intro i hi
    rw [hstep.total_eq] at hi
    rw [hstep.data_get, lastWritten_append]
    split
    next hin =>
      rw [List.getElem?_eq_getElem (show i - call.1 < call.2.length by omega)]
      rfl
    · exact h.data_get i hi
  · intro i hi
    rw [hstep.total_eq] at hi
    have hmem : i ∈ rangeUnion (calls ++ [call]) ↔
        i ∈ rangeUnion calls ∨ call.1 ≤ i ∧ i < call.1 + call.2.length := by
      simp [mem_rangeUnion, or_and_right, exists_or]
    rw [hstep.covered_get, h.covered_get i hi]
    split
    next hin => simp [hmem, hin]
    next hout => simp [hmem, hout]

/-- The invariant of a whole history. -/
theorem acceptAll_reassembled {fresh : CiSvu} (hfresh : fresh.Valid)
    (hstart : Reassembled [] fresh) (calls : List (Nat × Bytes)) :
    Reassembled (acceptedCalls fresh calls) (acceptAll fresh calls) := by
  induction calls using List.reverseRecOn with
  | nil => exact hstart
  | append_singleton calls call ih =>
      obtain ⟨hvalid, -⟩ := acceptAll_valid calls hfresh
      rw [acceptAll_append, acceptedCalls_append]
      generalize acceptAll fresh calls = s at ih hvalid
      have hone : acceptAll s [call] = (ciSvuAccept s call.1 call.2).getD s := rfl
      rw [hone, acceptedCalls]
      cases haccept : ciSvuAccept s call.1 call.2 with
      | none =>
          rw [acceptedCalls, List.append_nil]
          exact ih
      | some t => exact ih.accept hvalid haccept

theorem ciSvuNew_reassembled {allocated : Bool} {total block nblocks : Nat}
    {expected : Nat → UInt8} {fresh : CiSvu}
    (h : ciSvuNew allocated total block expected nblocks = some fresh) :
    Reassembled [] fresh := by
  obtain ⟨-, -, rfl⟩ := ciSvuNew_eq_some h
  refine ⟨by simp, fun i hi => ?_, fun i hi => ?_⟩
  · exact List.getElem?_replicate_of_lt hi
  · rw [List.getElem?_replicate_of_lt hi]
    simp [rangeUnion]

/-- The number of set flags is the number of positions in the ranges. -/
theorem Reassembled.count_eq (h : Reassembled calls s) (hs : s.Valid) :
    s.covered.count true = (rangeUnion calls).card := by
  have hcovered : s.covered =
      (List.range s.total).map fun i => decide (i ∈ rangeUnion calls) := by
    apply List.ext_getElem?
    intro i
    rw [List.getElem?_map]
    by_cases hi : i < s.total
    · rw [h.covered_get i hi, List.getElem?_range hi]
      rfl
    · rw [List.getElem?_eq_none (by rw [hs.length_covered]; omega),
        List.getElem?_eq_none (by rw [List.length_range]; omega)]
      rfl
  have hinside : (Finset.range s.total).filter (· ∈ rangeUnion calls) = rangeUnion calls := by
    ext i
    simp only [Finset.mem_filter, Finset.mem_range, and_iff_right_iff_imp]
    intro hi
    obtain ⟨call, hmem, -, hhigh⟩ := mem_rangeUnion.mp hi
    exact lt_of_lt_of_le hhigh (h.fits call hmem)
  have hlength : ((List.range s.total).filter (· ∈ rangeUnion calls)).length =
      ((Finset.range s.total).filter (· ∈ rangeUnion calls)).card := rfl
  rw [hinside] at hlength
  rw [hcovered, List.count_eq_countP, List.countP_map, ← hlength, List.countP_eq_length_filter]
  congr 2
  ext i
  simp

/-- Slices of one artifact: every byte they bring is the byte of the artifact. -/
theorem lastWritten_slices {artifact : Bytes}
    (hslices : ∀ call ∈ calls,
      call.2 = slice artifact call.1 (call.1 + call.2.length)) (i : Nat) :
    lastWritten calls i = if i ∈ rangeUnion calls then artifact[i]? else none := by
  induction calls using List.reverseRecOn with
  | nil => simp [lastWritten, rangeUnion]
  | append_singleton calls call ih =>
      have hmem : i ∈ rangeUnion (calls ++ [call]) ↔
          i ∈ rangeUnion calls ∨ call.1 ≤ i ∧ i < call.1 + call.2.length := by
        simp [mem_rangeUnion, or_and_right, exists_or]
      have hcall := hslices call (by simp)
      rw [lastWritten_append, ih fun other hother => hslices other (by simp [hother])]
      by_cases hin : call.1 ≤ i ∧ i < call.1 + call.2.length
      · rw [if_pos hin, if_pos (hmem.mpr (Or.inr hin)), hcall, getElem?_slice, if_pos (by omega),
          Nat.add_sub_of_le hin.1]
      · rw [if_neg hin]
        simp only [hmem, hin, or_false]

/-- The calls determine the receiver. -/
theorem Reassembled.unique {later : List (Nat × Bytes)} {t : CiSvu} (hs : s.Valid)
    (ht : t.Valid) (hshape : SameShape s t) (h : Reassembled calls s) (h' : Reassembled later t)
    (hunion : rangeUnion later = rangeUnion calls)
    (hbytes : ∀ i, lastWritten later i = lastWritten calls i) : t = s := by
  have hdata : t.data = s.data := by
    apply List.ext_getElem?
    intro i
    by_cases hi : i < s.total
    · rw [h.data_get i hi, h'.data_get i (by rw [hshape.total_eq]; exact hi), hbytes]
    · rw [List.getElem?_eq_none (by rw [ht.length_data, hshape.total_eq]; omega),
        List.getElem?_eq_none (by rw [hs.length_data]; omega)]
  have hcovered : t.covered = s.covered := by
    apply List.ext_getElem?
    intro i
    by_cases hi : i < s.total
    · rw [h.covered_get i hi, h'.covered_get i (by rw [hshape.total_eq]; exact hi), hunion]
    · rw [List.getElem?_eq_none (by rw [ht.length_covered, hshape.total_eq]; omega),
        List.getElem?_eq_none (by rw [hs.length_covered]; omega)]
  have hcount : t.coveredCount = s.coveredCount := by rw [ht.count_eq, hs.count_eq, hcovered]
  obtain ⟨htotal, hblock, hnblocks, hexpected⟩ := hshape
  cases s
  cases t
  simp only [CiSvu.mk.injEq]
  exact ⟨htotal, hblock, hnblocks, hcount, hdata, hcovered, hexpected⟩

end Reassembly

/-- After any calls the counter, the flags and the bytes are what the calls that
returned 0 make them; a call fails exactly when its fragment ends outside the
payload. Slices of one artifact may come in any order and any number of times. -/
theorem reassembly {allocated : Bool} {total block nblocks : Nat} {expected : Nat → UInt8}
    {fresh : CiSvu} (htotal : total < 2 ^ 32)
    (hnew : ciSvuNew allocated total block expected nblocks = some fresh)
    (calls : List (Nat × Bytes)) :
    let s := acceptAll fresh calls
    let ok := acceptedCalls fresh calls
    s.coveredCount = s.covered.count true ∧
    s.coveredCount = (rangeUnion ok).card ∧
    s.data.length = total ∧
    (∀ i < total, s.data[i]? = some ((lastWritten ok i).getD 0)) ∧
    (∀ offset buf, ciSvuAccept s offset buf = none ↔ total < offset + buf.length) ∧
    (∀ offset buf, ciSvuAccept s offset buf = none → acceptAll s [(offset, buf)] = s) ∧
    ∀ artifact later,
      (∀ call ∈ ok, call.2 = slice artifact call.1 (call.1 + call.2.length)) →
      (∀ call, call ∈ acceptedCalls fresh later ↔ call ∈ ok) →
      acceptAll fresh later = s := by
  intro s ok
  have hfresh := ciSvuNew_valid htotal hnew
  have htotal_eq : fresh.total = total := by
    obtain ⟨-, -, rfl⟩ := ciSvuNew_eq_some hnew
    rfl
  have hhistory := acceptAll_reassembled hfresh (ciSvuNew_reassembled hnew)
  obtain ⟨hvalid, hshape⟩ := acceptAll_valid calls hfresh
  have hs : s.total = total := hshape.total_eq.trans htotal_eq
  have hcount : s.coveredCount = (rangeUnion ok).card :=
    hvalid.count_eq.trans ((hhistory calls).count_eq hvalid)
  refine ⟨hvalid.count_eq, hcount, hvalid.length_data.trans hs, ?_, ?_, ?_, ?_⟩
  · intro i hi
    exact (hhistory calls).data_get i (by rw [← hs] at hi; exact hi)
  · intro offset buf
    rw [ciSvuAccept_eq_none, hs]
  · intro offset buf hfails
    have hone : acceptAll s [(offset, buf)] = (ciSvuAccept s offset buf).getD s := rfl
    rw [hone, hfails, Option.getD_none]
  · intro artifact later hslices hsame
    obtain ⟨hvalid', hshape'⟩ := acceptAll_valid later hfresh
    have hunion : rangeUnion (acceptedCalls fresh later) = rangeUnion ok := rangeUnion_congr hsame
    have hboth : SameShape s (acceptAll fresh later) :=
      ⟨hshape'.total_eq.trans hshape.total_eq.symm, hshape'.block_eq.trans hshape.block_eq.symm,
        hshape'.nblocks_eq.trans hshape.nblocks_eq.symm,
        hshape'.expected_eq.trans hshape.expected_eq.symm⟩
    refine Reassembled.unique hvalid hvalid' hboth (hhistory calls) (hhistory later) hunion ?_
    intro i
    have hslices' : ∀ call ∈ acceptedCalls fresh later,
        call.2 = slice artifact call.1 (call.1 + call.2.length) := fun call hcall =>
      hslices call ((hsame call).mp hcall)
    rw [lastWritten_slices hslices', lastWritten_slices hslices, hunion]

/-- Three bytes, the second fragment over the first, the third outside. -/
theorem reassembly_overlap : ∃ fresh,
    ciSvuNew true 3 4096 (fun _ => 0) 1 = some fresh ∧
    (acceptAll fresh [(0, [1, 2]), (1, [7, 8]), (2, [9, 9])]).coveredCount =
      (rangeUnion (acceptedCalls fresh [(0, [1, 2]), (1, [7, 8]), (2, [9, 9])])).card := by
  have hnew : ∃ fresh, ciSvuNew true 3 4096 (fun _ => 0) 1 = some fresh := ⟨_, rfl⟩
  obtain ⟨fresh, hfresh⟩ := hnew
  exact ⟨fresh, hfresh, (reassembly (by decide) hfresh _).2.1⟩

end SatDeploy.Svu
