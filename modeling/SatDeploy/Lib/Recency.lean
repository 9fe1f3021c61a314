import Mathlib.Tactic

/-!
Records with times, and the cyclic order from new to old: after each record
comes the next older one, after the oldest the newest. A list sorted by time
goes through the records in this order.
-/

namespace SatDeploy.Lib

variable {α : Type*}

/-- `x` is newer than all other records. -/
def NewestIn (H : Set (α × Nat)) (x : α) : Prop :=
  ∃ j, (x, j) ∈ H ∧ ∀ z i, (z, i) ∈ H → z ≠ x → i < j

/-- `x` comes after `y`: it is older and nothing is between them, or `y` is the
oldest record and `x` the newest. -/
def NextIn (H : Set (α × Nat)) (y x : α) : Prop :=
  ∃ k j, (y, k) ∈ H ∧ (x, j) ∈ H ∧
    ((j < k ∧ ∀ z i, (z, i) ∈ H → z ≠ x → z ≠ y → i < j ∨ k < i) ∨
      (∀ z i, (z, i) ∈ H → z ≠ y → k < i) ∧ ∀ z i, (z, i) ∈ H → z ≠ x → i < j)

section Insert

variable {H : Set (α × Nat)} {x y : α} {k : Nat}

/-- After a record that is new comes the one that was the newest. -/
theorem nextIn_insert (hnew : ∀ i, (y, i) ∉ H) (hlater : ∀ z i, (z, i) ∈ H → i < k)
    (hne : x ≠ y) : NextIn (insert (y, k) H) y x ↔ NewestIn H x := by
  have hold : ∀ {z i}, (z, i) ∈ insert (y, k) H → z ≠ y → (z, i) ∈ H := by
    intro z i hmem hz
    rcases hmem with heq | hmem
    · exact absurd (congrArg Prod.fst heq) hz
    · exact hmem
  have htime : ∀ {i}, (y, i) ∈ insert (y, k) H → i = k := by
    intro i hmem
    rcases hmem with heq | hmem
    · exact congrArg Prod.snd heq
    · exact absurd hmem (hnew i)
  constructor
  · rintro ⟨k', j, hy, hx, hcase⟩
    obtain rfl := htime hy
    have hxold := hold hx hne
    rcases hcase with ⟨-, hbetween⟩ | ⟨holdest, -⟩
    · refine ⟨j, hxold, fun z i hz hzx => ?_⟩
      have hzy : z ≠ y := by
        rintro rfl
        exact hnew i hz
      have hlt := hlater z i hz
      exact (hbetween z i (Or.inr hz) hzx hzy).resolve_right (by omega)
    · have hlt := holdest x j hx hne
      have hgt := hlater x j hxold
      omega
  · rintro ⟨j, hx, hnewest⟩
    refine ⟨k, j, Or.inl rfl, Or.inr hx, Or.inl ⟨hlater x j hx, ?_⟩⟩
    intro z i hz hzx hzy
    exact Or.inl (hnewest z i (hold hz hzy) hzx)

theorem injOn_snd_insert {y : α} {k : Nat} {H : Set (α × Nat)} (h : Set.InjOn Prod.snd H)
    (hlater : ∀ z i, (z, i) ∈ H → i < k) : Set.InjOn Prod.snd (insert (y, k) H) := by
  rintro a (rfl | ha) b (rfl | hb) hab
  · rfl
  · have hlt := hlater b.1 b.2 hb
    dsimp only at hab
    omega
  · have hlt := hlater a.1 a.2 ha
    dsimp only at hab
    omega
  · exact h ha hb hab

end Insert

section Lists

variable {H : Set (α × Nat)} {l : List (α × Nat)} {x y : α}

theorem snd_le_of_lt (hsorted : l.Pairwise fun a b => b.2 ≤ a.2) {a b : Nat} (hab : a < b)
    {u v : α × Nat} (hu : l[a]? = some u) (hv : l[b]? = some v) : v.2 ≤ u.2 := by
  obtain ⟨ha, rfl⟩ := List.getElem?_eq_some_iff.mp hu
  obtain ⟨hb, rfl⟩ := List.getElem?_eq_some_iff.mp hv
  exact List.pairwise_iff_getElem.mp hsorted a b ha hb hab

theorem index_unique (hnodup : (l.map Prod.fst).Nodup) {a b : Nat} {u v : α × Nat}
    (hu : l[a]? = some u) (hv : l[b]? = some v) (heq : u.1 = v.1) : a = b := by
  have hget : (l.map Prod.fst)[a]? = (l.map Prod.fst)[b]? := by
    rw [List.getElem?_map, List.getElem?_map, hu, hv, Option.map_some, Option.map_some, heq]
  have hlt : a < (l.map Prod.fst).length := by
    rw [List.length_map]
    exact (List.getElem?_eq_some_iff.mp hu).1
  exact (List.getElem?_inj hlt hnodup).mp hget

/-- A sorted list goes from each record to the one that comes after it. -/
theorem getElem?_next_of_nextIn (hmem : ∀ a, a ∈ l ↔ a ∈ H)
    (hsorted : l.Pairwise fun a b => b.2 ≤ a.2) (hnodup : (l.map Prod.fst).Nodup) {i : Nat}
    {u : α × Nat} (hi : l[i]? = some u) (hu : u.1 = y) (hne : x ≠ y) (h : NextIn H y x) :
    ∃ v, l[(i + 1) % l.length]? = some v ∧ v.1 = x := by
  obtain ⟨k, j, hy, hx, hcase⟩ := h
  obtain ⟨a, ha⟩ := List.mem_iff_getElem?.mp ((hmem _).mpr hy)
  obtain ⟨b, hb⟩ := List.mem_iff_getElem?.mp ((hmem _).mpr hx)
  obtain rfl := index_unique hnodup hi ha hu
  obtain rfl := Option.some.inj (hi.symm.trans ha)
  have halt := (List.getElem?_eq_some_iff.mp ha).1
  have hblt := (List.getElem?_eq_some_iff.mp hb).1
  have hab : i ≠ b := by
    rintro rfl
    exact hne (congrArg Prod.fst (Option.some.inj (hb.symm.trans ha)))
  have hother : ∀ {c}, c < l.length → c ≠ i → c ≠ b →
      ∃ z t, l[c]? = some (z, t) ∧ (z, t) ∈ H ∧ z ≠ x ∧ z ≠ y := by
    intro c hc hci hcb
    have hget := List.getElem?_eq_getElem hc
    refine ⟨_, _, hget, (hmem _).mp (List.mem_of_getElem? hget), ?_, ?_⟩
    · exact fun heq => hcb (index_unique hnodup hget hb heq)
    · exact fun heq => hci (index_unique hnodup hget ha heq)
  suffices hnext : (i + 1) % l.length = b by exact ⟨_, by rw [hnext, hb], rfl⟩
  rcases hcase with ⟨hlt, hbetween⟩ | ⟨holdest, hnewest⟩
  · have hib : i < b := by
      by_contra hge
      have hle := snd_le_of_lt hsorted (show b < i by omega) hb ha
      dsimp only at hle
      omega
    have hbi : b = i + 1 := by
      by_contra hgap
      obtain ⟨z, t, hz, hzH, hzx, hzy⟩ := hother (show i + 1 < l.length by omega) (by omega)
        (by omega)
      have hle := snd_le_of_lt hsorted (show i < i + 1 by omega) ha hz
      have hge := snd_le_of_lt hsorted (show i + 1 < b by omega) hz hb
      have hout := hbetween z t hzH hzx hzy
      dsimp only at hle hge
      omega
    rw [Nat.mod_eq_of_lt (by omega), hbi]
  · -- the oldest record is the last of the list and the newest the first
    have hlast : i + 1 = l.length := by
      by_contra hmore
      obtain ⟨z, hget⟩ : ∃ z, l[i + 1]? = some z := ⟨_, List.getElem?_eq_getElem (by omega)⟩
      have hle := snd_le_of_lt hsorted (show i < i + 1 by omega) ha hget
      have hgt := holdest _ _ ((hmem _).mp (List.mem_of_getElem? hget)) fun heq => by
        have hsame := index_unique hnodup hget ha heq
        omega
      dsimp only at hle
      omega
    have hfirst : b = 0 := by
      by_contra hpos
      obtain ⟨z, hget⟩ : ∃ z, l[0]? = some z := ⟨_, List.getElem?_eq_getElem (by omega)⟩
      have hle := snd_le_of_lt hsorted (show 0 < b by omega) hget hb
      have hgt := hnewest _ _ ((hmem _).mp (List.mem_of_getElem? hget)) fun heq => by
        have hsame := index_unique hnodup hget hb heq
        omega
      dsimp only at hle
      omega
    rw [hlast, Nat.mod_self, hfirst]

/-- Of two records the list goes from each to the other. -/
theorem getElem?_next_of_pair (hmem : ∀ a ∈ l, a.1 = x ∨ a.1 = y)
    (hnodup : (l.map Prod.fst).Nodup) {i : Nat} {j : Nat} {u v : α × Nat} (hx : (x, j) ∈ l)
    (hu : l[i]? = some u) (huy : u.1 = y) (hv : l[(i + 1) % l.length]? = some v) (hne : x ≠ y) :
    v.1 = x := by
  refine (hmem v (List.mem_of_getElem? hv)).resolve_right fun hvy => ?_
  obtain ⟨b, hb⟩ := List.mem_iff_getElem?.mp hx
  have hsame := index_unique hnodup hv hu (hvy.trans huy.symm)
  have hilt := (List.getElem?_eq_some_iff.mp hu).1
  have hblt := (List.getElem?_eq_some_iff.mp hb).1
  have hib : i ≠ b := by
    rintro rfl
    rw [Option.some.inj (hu.symm.trans hb)] at huy
    exact hne huy
  by_cases hmore : i + 1 < l.length
  · rw [Nat.mod_eq_of_lt hmore] at hsame
    omega
  · rw [show i + 1 = l.length by omega, Nat.mod_self] at hsame
    omega

/-- If no two times are equal, what follows in the list is what comes after. -/
theorem nextIn_of_getElem? (hmem : ∀ a, a ∈ l ↔ a ∈ H)
    (hsorted : l.Pairwise fun a b => b.2 ≤ a.2) (hnodup : (l.map Prod.fst).Nodup)
    (hinj : Set.InjOn Prod.snd H) {i : Nat} {u v : α × Nat}
    (hu : l[i]? = some u) (hv : l[(i + 1) % l.length]? = some v) : NextIn H u.1 v.1 := by
  have hilt := (List.getElem?_eq_some_iff.mp hu).1
  have hstrict : l.Pairwise fun a b => b.2 < a.2 := by
    refine (hsorted.and (List.Nodup.of_map Prod.fst hnodup)).imp_of_mem ?_
    rintro a b ha hb ⟨hle, hab⟩
    refine lt_of_le_of_ne hle fun heq => hab ?_
    exact (hinj ((hmem b).mp hb) ((hmem a).mp ha) heq).symm
  have hlt : ∀ {a b : Nat} {w z : α × Nat}, a < b → l[a]? = some w → l[b]? = some z →
      z.2 < w.2 := by
    intro a b w z hab hw hz
    obtain ⟨ha, rfl⟩ := List.getElem?_eq_some_iff.mp hw
    obtain ⟨hb, rfl⟩ := List.getElem?_eq_some_iff.mp hz
    exact List.pairwise_iff_getElem.mp hstrict a b ha hb hab
  refine ⟨u.2, v.2, (hmem _).mp (List.mem_of_getElem? hu), (hmem _).mp (List.mem_of_getElem? hv),
    ?_⟩
  by_cases hmore : i + 1 < l.length
  · rw [Nat.mod_eq_of_lt hmore] at hv
    refine Or.inl ⟨hlt (Nat.lt_succ_self i) hu hv, fun z t hz hzv hzu => ?_⟩
    obtain ⟨c, hc⟩ := List.mem_iff_getElem?.mp ((hmem _).mpr hz)
    have hci : c ≠ i := by
      rintro rfl
      exact hzu (congrArg Prod.fst (Option.some.inj (hc.symm.trans hu)))
    have hcv : c ≠ i + 1 := by
      rintro rfl
      exact hzv (congrArg Prod.fst (Option.some.inj (hc.symm.trans hv)))
    by_cases hbefore : c < i
    · exact Or.inr (hlt hbefore hc hu)
    · exact Or.inl (hlt (show i + 1 < c by omega) hv hc)
  · have hend : i + 1 = l.length := by omega
    rw [hend, Nat.mod_self] at hv
    refine Or.inr ⟨fun z t hz hzu => ?_, fun z t hz hzv => ?_⟩
    · obtain ⟨c, hc⟩ := List.mem_iff_getElem?.mp ((hmem _).mpr hz)
      have hclt := (List.getElem?_eq_some_iff.mp hc).1
      have hci : c ≠ i := by
        rintro rfl
        exact hzu (congrArg Prod.fst (Option.some.inj (hc.symm.trans hu)))
      exact hlt (show c < i by omega) hc hu
    · obtain ⟨c, hc⟩ := List.mem_iff_getElem?.mp ((hmem _).mpr hz)
      have hczero : c ≠ 0 := by
        rintro rfl
        exact hzv (congrArg Prod.fst (Option.some.inj (hc.symm.trans hv)))
      exact hlt (show 0 < c by omega) hv hc

end Lists

end SatDeploy.Lib
