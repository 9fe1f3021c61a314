import Mathlib.Tactic

/-!
Collecting the first distinct elements of a list, up to a capacity: what a
table of fixed size keeps of the elements it is offered when it refuses those
it has.
-/

namespace SatDeploy.Lib

variable {α : Type*} [DecidableEq α]

/-- The elements `kept` so far, then the new ones of `offered` in order, while
there is room for `capacity` of them. -/
def keepNew (capacity : Nat) : List α → List α → List α
  | kept, [] => kept
  | kept, x :: offered =>
      if kept.length ≥ capacity ∨ x ∈ kept then keepNew capacity kept offered
      else keepNew capacity (kept ++ [x]) offered

section KeepNew

variable {capacity : Nat}

theorem keepNew_nodup (offered : List α) : ∀ {kept : List α}, kept.Nodup →
    (keepNew capacity kept offered).Nodup := by
  induction offered with
  | nil =>
      intro kept hkept
      exact hkept
  | cons x offered ih =>
      intro kept hkept
      unfold keepNew
      split
      · exact ih hkept
      next hnew =>
        apply ih
        rw [not_or] at hnew
        exact List.Nodup.append hkept (List.nodup_singleton x) (by simpa using hnew.2)

theorem mem_keepNew (offered : List α) : ∀ {kept : List α} {y : α},
    y ∈ keepNew capacity kept offered → y ∈ kept ∨ y ∈ offered := by
  induction offered with
  | nil =>
      intro kept y hy
      exact Or.inl hy
  | cons x offered ih =>
      intro kept y hy
      unfold keepNew at hy
      split at hy
      · exact (ih hy).imp_right (List.mem_cons_of_mem x)
      · rcases ih hy with hkept | hlater
        · rcases List.mem_append.mp hkept with hkept | hx
          · exact Or.inl hkept
          · rw [List.mem_singleton.mp hx]
            exact Or.inr List.mem_cons_self
        · exact Or.inr (List.mem_cons_of_mem x hlater)

theorem keepNew_extends (offered : List α) : ∀ {kept : List α},
    kept <+: keepNew capacity kept offered := by
  induction offered with
  | nil =>
      intro kept
      exact List.prefix_refl kept
  | cons x offered ih =>
      intro kept
      unfold keepNew
      split
      · exact ih
      · exact (List.prefix_append kept [x]).trans ih

theorem length_keepNew_le (offered : List α) : ∀ {kept : List α}, kept.length ≤ capacity →
    (keepNew capacity kept offered).length ≤ capacity := by
  induction offered with
  | nil =>
      intro kept hkept
      exact hkept
  | cons x offered ih =>
      intro kept hkept
      unfold keepNew
      split
      · exact ih hkept
      next hnew =>
        apply ih
        rw [List.length_append, List.length_singleton]
        omega

/-- A table that refused something it did not have is full. -/
theorem keepNew_full_or_all (capacity : Nat) (offered : List α) : ∀ kept : List α,
    capacity ≤ (keepNew capacity kept offered).length ∨
      offered ⊆ keepNew capacity kept offered := by
  induction offered with
  | nil =>
      intro kept
      exact Or.inr (List.nil_subset _)
  | cons x offered ih =>
      intro kept
      have hkeeps : ∀ {kept' : List α}, x ∈ kept' →
          capacity ≤ (keepNew capacity kept' offered).length ∨
            x :: offered ⊆ keepNew capacity kept' offered := by
        intro kept' hx
        exact (ih kept').imp_right fun hall =>
          List.cons_subset.mpr ⟨(keepNew_extends offered).subset hx, hall⟩
      unfold keepNew
      split
      next hold =>
        rcases hold with hfull | hx
        · exact Or.inl (le_trans hfull (keepNew_extends offered).length_le)
        · exact hkeeps hx
      · exact hkeeps (by simp)

/-- Everything is kept when there is room for all distinct elements. -/
theorem subset_keepNew_of_card {offered : List α} (h : offered.toFinset.card ≤ capacity) :
    offered ⊆ keepNew capacity [] offered := by
  rcases keepNew_full_or_all capacity offered [] with hfull | hall
  · have hnodup : (keepNew capacity [] offered).Nodup := keepNew_nodup offered List.nodup_nil
    have hsub : (keepNew capacity [] offered).toFinset ⊆ offered.toFinset := by
      intro y hy
      rw [List.mem_toFinset] at hy ⊢
      exact (mem_keepNew offered hy).resolve_left (by simp)
    have heq := Finset.eq_of_subset_of_card_le hsub (by
      rw [List.toFinset_card_of_nodup hnodup]
      omega)
    intro y hy
    rw [← List.mem_toFinset, heq, List.mem_toFinset]
    exact hy
  · exact hall

/-- A larger table keeps something a smaller one does not, once there are more
distinct elements than the smaller one holds. -/
theorem exists_keepNew_of_card {small : Nat} {offered : List α} (hsmall : small < capacity)
    (h : small < offered.toFinset.card) :
    ∃ y ∈ keepNew capacity [] offered, y ∉ keepNew small [] offered := by
  by_contra hnone
  have hsub : keepNew capacity [] offered ⊆ keepNew small [] offered := by
    intro y hy
    by_contra hy'
    exact hnone ⟨y, hy, hy'⟩
  have hnodup : (keepNew capacity [] offered).Nodup := keepNew_nodup offered List.nodup_nil
  have hle : (keepNew capacity [] offered).length ≤ small :=
    le_trans (hnodup.length_le_of_subset hsub) (length_keepNew_le offered (Nat.zero_le _))
  rcases keepNew_full_or_all capacity offered [] with hfull | hall
  · omega
  · have hcard := Finset.card_le_card (show offered.toFinset ⊆
        (keepNew capacity [] offered).toFinset from fun y hy => by
      rw [List.mem_toFinset] at hy ⊢
      exact hall hy)
    rw [List.toFinset_card_of_nodup hnodup] at hcard
    omega

end KeepNew

/-- The same for records, of which the first with each key is kept. -/
def keepNewBy {β : Type*} (f : β → α) (capacity : Nat) : List β → List β → List β
  | kept, [] => kept
  | kept, x :: offered =>
      if kept.length ≥ capacity ∨ f x ∈ kept.map f then keepNewBy f capacity kept offered
      else keepNewBy f capacity (kept ++ [x]) offered

section KeepNewBy

variable {β : Type*} {f : β → α} {capacity : Nat}

theorem keepNewBy_map (offered : List β) : ∀ kept,
    (keepNewBy f capacity kept offered).map f =
      keepNew capacity (kept.map f) (offered.map f) := by
  induction offered with
  | nil => exact fun _ => rfl
  | cons x offered ih =>
      intro kept
      rw [List.map_cons]
      unfold keepNewBy keepNew
      rw [List.length_map]
      split
      · exact ih kept
      · rw [ih, List.map_append]
        rfl

theorem mem_keepNewBy {y : β} (offered : List β) : ∀ {kept : List β},
    y ∈ keepNewBy f capacity kept offered → y ∈ kept ∨ y ∈ offered := by
  induction offered with
  | nil => exact Or.inl
  | cons x offered ih =>
      intro kept hy
      unfold keepNewBy at hy
      split at hy
      · exact (ih hy).imp_right (List.mem_cons_of_mem x)
      · rcases ih hy with hkept | hlater
        · rcases List.mem_append.mp hkept with hkept | hx
          · exact Or.inl hkept
          · rw [List.mem_singleton.mp hx]
            exact Or.inr List.mem_cons_self
        · exact Or.inr (List.mem_cons_of_mem x hlater)

/-- A table with room for all distinct keys keeps what any larger one keeps. -/
theorem keepNewBy_of_card {large : Nat} (hlarge : capacity ≤ large) (offered : List β) :
    ∀ kept : List β, (kept.map f).Nodup →
      (kept.map f ++ offered.map f).toFinset.card ≤ capacity →
      keepNewBy f capacity kept offered = keepNewBy f large kept offered := by
  induction offered with
  | nil => exact fun _ _ _ => rfl
  | cons x offered ih =>
      intro kept hnodup hcard
      unfold keepNewBy
      have hfewer : (kept.map f ++ offered.map f).toFinset ⊆
          (kept.map f ++ (x :: offered).map f).toFinset := by
        intro y hy
        simp only [List.mem_toFinset, List.mem_append, List.map_cons, List.mem_cons] at hy ⊢
        tauto
      by_cases hx : f x ∈ kept.map f
      · rw [if_pos (Or.inr hx), if_pos (Or.inr hx)]
        exact ih kept hnodup (le_trans (Finset.card_le_card hfewer) hcard)
      · have hnew : ((kept ++ [x]).map f).Nodup := by
          rw [List.map_append]
          exact List.Nodup.append hnodup (List.nodup_singleton _) (by simpa using hx)
        have hsame : ((kept ++ [x]).map f ++ offered.map f).toFinset =
            (kept.map f ++ (x :: offered).map f).toFinset := by
          simp
        have hroom : (kept ++ [x]).length ≤ capacity := by
          rw [← List.length_map f, ← List.toFinset_card_of_nodup hnew]
          refine le_trans (Finset.card_le_card ?_) hcard
          rw [← hsame]
          intro y hy
          simp only [List.mem_toFinset, List.mem_append] at hy ⊢
          exact Or.inl hy
        rw [List.length_append, List.length_singleton] at hroom
        rw [if_neg (by rw [not_or]; exact ⟨by omega, hx⟩),
          if_neg (by rw [not_or]; exact ⟨by omega, hx⟩)]
        exact ih _ hnew (by rw [hsame]; exact hcard)

end KeepNewBy

end SatDeploy.Lib
