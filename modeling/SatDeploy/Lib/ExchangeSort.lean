import Mathlib.Tactic

/-!
The exchange sort of two nested loops, largest key first. It is not stable, but
what it does depends on the keys alone: two lists of records with the same keys
in the same order are arranged alike.
-/

namespace SatDeploy.Lib

variable {α β : Type*}

/-- One pass of the inner loop: the element that ends up in front and the
others, in the order the swaps leave them. -/
def exchangePass (key : α → Nat) : α → List α → α × List α
  | front, [] => (front, [])
  | front, x :: rest =>
      if key x > key front then
        ((exchangePass key x rest).1, front :: (exchangePass key x rest).2)
      else ((exchangePass key front rest).1, x :: (exchangePass key front rest).2)

/-- The outer loop. -/
def exchangeSort (key : α → Nat) : Nat → List α → List α
  | 0, xs => xs
  | _, [] => []
  | fuel + 1, x :: rest =>
      (exchangePass key x rest).1 :: exchangeSort key fuel (exchangePass key x rest).2

section Passes

variable {key : α → Nat}

theorem exchangePass_perm (rest : List α) : ∀ front,
    ((exchangePass key front rest).1 :: (exchangePass key front rest).2).Perm
      (front :: rest) := by
  induction rest with
  | nil => exact fun _ => .refl _
  | cons x rest ih =>
      intro front
      unfold exchangePass
      split
      · exact (List.Perm.swap _ _ _).trans ((ih x).cons front)
      · exact (List.Perm.swap _ _ _).trans (((ih front).cons x).trans (.swap _ _ _))

theorem length_exchangePass (front : α) (rest : List α) :
    (exchangePass key front rest).2.length = rest.length := by
  have hperm : ((exchangePass key front rest).1 :: (exchangePass key front rest).2).Perm
      (front :: rest) := exchangePass_perm rest front
  simpa using hperm.length_eq

/-- The front has the largest key, and only a larger key takes its place. -/
theorem exchangePass_max (rest : List α) : ∀ front,
    key front ≤ key (exchangePass key front rest).1 ∧
    ∀ x ∈ (exchangePass key front rest).2, key x ≤ key (exchangePass key front rest).1 := by
  induction rest with
  | nil => exact fun front => ⟨le_refl _, fun x hx => by cases hx⟩
  | cons x rest ih =>
      intro front
      unfold exchangePass
      split
      next hlarger =>
        obtain ⟨hfront, hothers⟩ := ih x
        refine ⟨le_trans (le_of_lt hlarger) hfront, fun y hy => ?_⟩
        rcases List.mem_cons.mp hy with rfl | hy
        · exact le_trans (le_of_lt hlarger) hfront
        · exact hothers y hy
      next hkept =>
        obtain ⟨hfront, hothers⟩ := ih front
        refine ⟨hfront, fun y hy => ?_⟩
        rcases List.mem_cons.mp hy with rfl | hy
        · exact le_trans (not_lt.mp hkept) hfront
        · exact hothers y hy

theorem exchangePass_map (f : β → α) (rest : List β) : ∀ front,
    exchangePass key (f front) (rest.map f) =
      ((exchangePass (fun b => key (f b)) front rest).1 |> f,
        (exchangePass (fun b => key (f b)) front rest).2.map f) := by
  induction rest with
  | nil => exact fun _ => rfl
  | cons x rest ih =>
      intro front
      rw [List.map_cons]
      unfold exchangePass
      split
      · rw [ih x]
        rfl
      · rw [ih front]
        rfl

theorem exchangePass_congr {key' : α → Nat} (rest : List α) : ∀ front,
    (∀ x ∈ front :: rest, key x = key' x) →
    exchangePass key front rest = exchangePass key' front rest := by
  induction rest with
  | nil => exact fun _ _ => rfl
  | cons x rest ih =>
      intro front h
      have hx := ih x fun y hy => h y (List.mem_cons_of_mem front hy)
      have hfront := ih front fun y hy => h y (by
        rcases List.mem_cons.mp hy with rfl | hy
        · exact List.mem_cons_self
        · exact List.mem_cons_of_mem _ (List.mem_cons_of_mem _ hy))
      unfold exchangePass
      rw [h front List.mem_cons_self, h x (by simp), hx, hfront]

end Passes

section Sorting

variable {key : α → Nat}

theorem exchangeSort_perm (fuel : Nat) : ∀ xs, (exchangeSort key fuel xs).Perm xs := by
  induction fuel with
  | zero => exact fun _ => .refl _
  | succ fuel ih =>
      intro xs
      cases xs with
      | nil => exact .refl _
      | cons x rest =>
          exact ((ih (exchangePass key x rest).2).cons _).trans (exchangePass_perm rest x)

/-- With as many rounds as there are elements the keys fall. -/
theorem exchangeSort_sorted (fuel : Nat) : ∀ xs : List α, xs.length ≤ fuel →
    (exchangeSort key fuel xs).Pairwise fun x y => key y ≤ key x := by
  induction fuel with
  | zero =>
      intro xs hlen
      rw [List.length_eq_zero_iff.mp (Nat.le_zero.mp hlen)]
      exact .nil
  | succ fuel ih =>
      intro xs hlen
      cases xs with
      | nil => exact .nil
      | cons x rest =>
          rw [List.length_cons] at hlen
          refine List.pairwise_cons.mpr ⟨fun y hy => ?_, ?_⟩
          · exact (exchangePass_max rest x).2 y ((exchangeSort_perm fuel _).mem_iff.mp hy)
          · exact ih _ (by rw [length_exchangePass]; omega)

theorem exchangeSort_congr {key' : α → Nat} (fuel : Nat) : ∀ xs : List α,
    (∀ x ∈ xs, key x = key' x) → exchangeSort key fuel xs = exchangeSort key' fuel xs := by
  induction fuel with
  | zero => exact fun _ _ => rfl
  | succ fuel ih =>
      intro xs h
      cases xs with
      | nil => rfl
      | cons x rest =>
          rw [exchangeSort, exchangeSort, exchangePass_congr rest x h, ih]
          intro y hy
          exact h y ((exchangePass_perm rest x).mem_iff.mp (List.mem_cons_of_mem _ hy))

/-- The sort goes by the keys alone. -/
theorem exchangeSort_map (f : β → α) (fuel : Nat) : ∀ xs : List β,
    exchangeSort key fuel (xs.map f) =
      (exchangeSort (fun b => key (f b)) fuel xs).map f := by
  induction fuel with
  | zero => exact fun _ => rfl
  | succ fuel ih =>
      intro xs
      cases xs with
      | nil => rfl
      | cons x rest =>
          rw [List.map_cons, exchangeSort, exchangePass_map, ih, exchangeSort, List.map_cons]

end Sorting

end SatDeploy.Lib
