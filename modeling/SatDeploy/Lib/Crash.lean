import Mathlib.Tactic

/-!
Programs that may be cut short. A program makes numbered calls to its
environment and passes through a state after each of them; being killed
leaves one of the states passed. `wp c C Q n s` says that `c`, started in `s`
with `n` calls made, passes only through states in `C` and ends, if it ends
normally, in `Q`; a program that dies on its own ends in `C`.
-/

namespace SatDeploy.Lib

/-- How a run ended. `result` is `none` when the program died, `calls` counts
the calls made, and `passed` lists the states after each change. -/
structure Outcome (σ α : Type) where
  result : Option α
  state : σ
  calls : Nat
  passed : List σ
  deriving DecidableEq, Repr

def Prog (σ α : Type) : Type := Nat → σ → Outcome σ α

namespace Prog

variable {σ α β : Type}

def ret (a : α) : Prog σ α := fun n s => ⟨some a, s, n, []⟩

def andThen (c : Prog σ α) (f : α → Prog σ β) : Prog σ β := fun n s =>
  match (c n s).result with
  | none => ⟨none, (c n s).state, (c n s).calls, (c n s).passed⟩
  | some a =>
      let later := f a (c n s).calls (c n s).state
      ⟨later.result, later.state, later.calls, (c n s).passed ++ later.passed⟩

instance : Monad (Prog σ) where
  pure := ret
  bind := andThen

section Laws

variable {γ : Type} {c : Prog σ α} {f : α → Prog σ β} {n : Nat} {s : σ}

theorem andThen_died (h : (c n s).result = none) :
    andThen c f n s = ⟨none, (c n s).state, (c n s).calls, (c n s).passed⟩ := by
  unfold andThen
  rw [h]

theorem andThen_ended {a : α} (h : (c n s).result = some a) :
    andThen c f n s =
      ⟨(f a (c n s).calls (c n s).state).result, (f a (c n s).calls (c n s).state).state,
        (f a (c n s).calls (c n s).state).calls,
        (c n s).passed ++ (f a (c n s).calls (c n s).state).passed⟩ := by
  unfold andThen
  rw [h]

theorem bind_assoc (c : Prog σ α) (f : α → Prog σ β) (g : β → Prog σ γ) :
    (c >>= f) >>= g = c >>= fun a => f a >>= g := by
  funext n s
  change andThen (andThen c f) g n s = andThen c (fun a => andThen (f a) g) n s
  cases hc : (c n s).result with
  | none => rw [andThen_died hc, andThen_died (by rw [andThen_died hc]), andThen_died hc]
  | some a =>
      rw [andThen_ended (f := fun a => andThen (f a) g) hc]
      have hfirst := andThen_ended (f := f) hc
      cases hf : (f a (c n s).calls (c n s).state).result with
      | none => rw [andThen_died (by rw [hfirst, hf]), andThen_died hf, hfirst]
      | some b =>
          rw [andThen_ended (by rw [hfirst, hf]), andThen_ended hf, hfirst]
          simp

/-- Going on after a part whose run is known. -/
theorem bind_run {a : α} {m : Nat} {t : σ} {passed : List σ}
    (h : c n s = ⟨some a, t, m, passed⟩) :
    (c >>= f) n s =
      ⟨(f a m t).result, (f a m t).state, (f a m t).calls, passed ++ (f a m t).passed⟩ := by
  have hend := andThen_ended (f := f) (congrArg Outcome.result h)
  rw [h] at hend
  exact hend

end Laws

/-- A call: its answer and the states it passes through, the last of which is
the state it leaves. -/
def call (f : Nat → σ → α × List σ) : Prog σ α := fun n s =>
  ⟨some (f n s).1, (f n s).2.getLastD s, n + 1, (f n s).2⟩

/-- Reading the state takes no call. -/
def read (f : σ → α) : Prog σ α := fun n s => ⟨some (f s), s, n, []⟩

/-- Changing memory takes no call. -/
def update (f : σ → σ) : Prog σ Unit := fun n s => ⟨some (), f s, n, [f s]⟩

/-- The process dies here. -/
def die : Prog σ α := fun n s => ⟨none, s, n, []⟩

def wp (c : Prog σ α) (C : σ → Prop) (Q : α → Nat → σ → Prop) (n : Nat) (s : σ) : Prop :=
  (∀ t ∈ (c n s).passed, C t) ∧
  match (c n s).result with
  | none => C (c n s).state
  | some a => Q a (c n s).calls (c n s).state

section Rules

variable {C C' : σ → Prop} {Q Q' : α → Nat → σ → Prop} {n : Nat} {s : σ}

@[simp] theorem wp_pure (a : α) : wp (pure a : Prog σ α) C Q n s ↔ Q a n s := by
  change (∀ t ∈ ([] : List σ), C t) ∧ Q a n s ↔ Q a n s
  simp

@[simp] theorem wp_read (f : σ → α) : wp (read f) C Q n s ↔ Q (f s) n s := by
  change (∀ t ∈ ([] : List σ), C t) ∧ Q (f s) n s ↔ Q (f s) n s
  simp

@[simp] theorem wp_update (f : σ → σ) {Q : Unit → Nat → σ → Prop} :
    wp (update f) C Q n s ↔ C (f s) ∧ Q () n (f s) := by
  change (∀ t ∈ [f s], C t) ∧ Q () n (f s) ↔ _
  simp

@[simp] theorem wp_die : wp (die : Prog σ α) C Q n s ↔ C s := by
  change (∀ t ∈ ([] : List σ), C t) ∧ C s ↔ C s
  simp

@[simp] theorem wp_call (f : Nat → σ → α × List σ) :
    wp (call f) C Q n s ↔
      (∀ t ∈ (f n s).2, C t) ∧ Q (f n s).1 (n + 1) ((f n s).2.getLastD s) :=
  Iff.rfl

theorem wp_mono {c : Prog σ α} (h : wp c C Q n s) (hC : ∀ t, C t → C' t)
    (hQ : ∀ a m t, Q a m t → Q' a m t) : wp c C' Q' n s := by
  obtain ⟨hpassed, hend⟩ := h
  refine ⟨fun t ht => hC t (hpassed t ht), ?_⟩
  cases hresult : (c n s).result with
  | none =>
      simp only [hresult] at hend ⊢
      exact hC _ hend
  | some a =>
      simp only [hresult] at hend ⊢
      exact hQ _ _ _ hend

/-- Weakening the end condition only. -/
theorem wp_imp {c : Prog σ α} (h : wp c C Q n s)
    (hQ : ∀ a m t, Q a m t → Q' a m t) : wp c C Q' n s :=
  wp_mono h (fun _ ht => ht) hQ

/-- A program of which nothing is known. -/
theorem wp_any (c : Prog σ α) (hQ : ∀ a m t, Q a m t) :
    wp c (fun _ => True) Q n s := by
  refine ⟨fun _ _ => trivial, ?_⟩
  split
  · trivial
  · exact hQ _ _ _

theorem wp_and {c : Prog σ α} (h : wp c C Q n s) (h' : wp c C' Q' n s) :
    wp c (fun t => C t ∧ C' t) (fun a m t => Q a m t ∧ Q' a m t) n s := by
  obtain ⟨hpassed, hend⟩ := h
  obtain ⟨hpassed', hend'⟩ := h'
  refine ⟨fun t ht => ⟨hpassed t ht, hpassed' t ht⟩, ?_⟩
  cases hresult : (c n s).result with
  | none =>
      simp only [hresult] at hend hend' ⊢
      exact ⟨hend, hend'⟩
  | some a =>
      simp only [hresult] at hend hend' ⊢
      exact ⟨hend, hend'⟩

@[simp] theorem wp_bind {c : Prog σ β} {f : β → Prog σ α} :
    wp (c >>= f) C Q n s ↔ wp c C (fun b m t => wp (f b) C Q m t) n s := by
  change wp (andThen c f) C Q n s ↔ _
  unfold wp andThen
  cases hresult : (c n s).result with
  | none => simp only
  | some b =>
      simp only [List.mem_append]
      constructor
      · rintro ⟨hpassed, hend⟩
        exact ⟨fun t ht => hpassed t (Or.inl ht),
          fun t ht => hpassed t (Or.inr ht), hend⟩
      · rintro ⟨hfirst, hlater, hend⟩
        refine ⟨?_, hend⟩
        rintro t (ht | ht)
        · exact hfirst t ht
        · exact hlater t ht

theorem wp_ite {p : Prop} [Decidable p] {c d : Prog σ α} (hc : wp c C Q n s)
    (hd : wp d C Q n s) : wp (if p then c else d) C Q n s := by
  split
  · exact hc
  · exact hd

end Rules

/-- What a program keeps: whenever `I` holds at the start it holds in every
state passed and at the end. -/
def Keeps (I : σ → Prop) (c : Prog σ α) : Prop :=
  ∀ n s, I s → wp c I (fun _ _ t => I t) n s

section Keeping

variable {I J : σ → Prop}

theorem Keeps.pure (a : α) : Keeps I (pure a : Prog σ α) := by
  intro n s hs
  rw [wp_pure]
  exact hs

theorem Keeps.read (f : σ → α) : Keeps I (Prog.read f) := by
  intro n s hs
  rw [wp_read]
  exact hs

theorem Keeps.die : Keeps I (Prog.die : Prog σ α) := by
  intro n s hs
  rw [wp_die]
  exact hs

theorem Keeps.update {f : σ → σ} (h : ∀ s, I s → I (f s)) : Keeps I (Prog.update f) := by
  intro n s hs
  rw [wp_update]
  exact ⟨h s hs, h s hs⟩

theorem Keeps.bind {c : Prog σ α} {f : α → Prog σ β} (hc : Keeps I c)
    (hf : ∀ a, Keeps I (f a)) : Keeps I (c >>= f) := by
  intro n s hs
  rw [wp_bind]
  exact wp_imp (hc n s hs) (fun a m t ht => hf a m t ht)

theorem Keeps.call {f : Nat → σ → α × List σ}
    (h : ∀ n s, I s → ∀ t ∈ (f n s).2, I t) : Keeps I (Prog.call f) := by
  intro n s hs
  rw [wp_call]
  refine ⟨h n s hs, ?_⟩
  rw [List.getLastD_eq_getLast?]
  cases hlast : (f n s).2.getLast? with
  | none => exact hs
  | some t => exact h n s hs t (List.mem_of_getLast? hlast)

theorem Keeps.ite {p : Prop} [Decidable p] {c d : Prog σ α} (hc : Keeps I c)
    (hd : Keeps I d) : Keeps I (if p then c else d) := by
  split
  · exact hc
  · exact hd

theorem Keeps.and {c : Prog σ α} (hI : Keeps I c) (hJ : Keeps J c) :
    Keeps (fun s => I s ∧ J s) c := by
  intro n s hs
  exact wp_and (hI n s hs.1) (hJ n s hs.2)

theorem Keeps.passed {c : Prog σ α} (h : Keeps I c) {n : Nat} {s : σ} (hs : I s) :
    ∀ t ∈ (c n s).passed, I t :=
  (h n s hs).1

theorem Keeps.state {c : Prog σ α} (h : Keeps I c) {n : Nat} {s : σ} (hs : I s) :
    I (c n s).state := by
  have hend := (h n s hs).2
  cases hresult : (c n s).result with
  | none =>
      simp only [hresult] at hend
      exact hend
  | some a =>
      simp only [hresult] at hend
      exact hend

end Keeping

/-- The last state a program passes through is the one it leaves. -/
def Settles (c : Prog σ α) : Prop := ∀ n s, (c n s).passed.getLastD s = (c n s).state

section Settling

theorem Settles.pure (a : α) : Settles (pure a : Prog σ α) := fun _ _ => rfl

theorem Settles.call (f : Nat → σ → α × List σ) : Settles (Prog.call f) := fun _ _ => rfl

theorem Settles.bind {c : Prog σ α} {f : α → Prog σ β} (hc : Settles c)
    (hf : ∀ a, Settles (f a)) : Settles (c >>= f) := by
  intro n s
  change (andThen c f n s).passed.getLastD s = (andThen c f n s).state
  cases hresult : (c n s).result with
  | none =>
      rw [andThen_died hresult]
      exact hc n s
  | some a =>
      have hlater := hf a (c n s).calls (c n s).state
      rw [← hc n s] at hlater
      rw [andThen_ended hresult, ← hc n s]
      simp only [List.getLastD_eq_getLast?, List.getLast?_append] at hlater ⊢
      rw [← hlater]
      cases (f a (c n s).calls ((c n s).passed.getLast?.getD s)).passed.getLast? <;> simp

theorem Settles.ite {p : Prop} [Decidable p] {c d : Prog σ α} (hc : Settles c)
    (hd : Settles d) : Settles (if p then c else d) := by
  split
  · exact hc
  · exact hd

/-- A state passed on the way is one before the last, or the one left. -/
theorem Settles.passed {c : Prog σ α} (hc : Settles c) {n : Nat} {s t : σ}
    (ht : t ∈ (c n s).passed) : t ∈ (c n s).passed.dropLast ∨ t = (c n s).state := by
  have hne := List.ne_nil_of_mem ht
  rw [← List.dropLast_append_getLast hne, List.mem_append, List.mem_singleton] at ht
  rw [← hc n s, List.getLastD_eq_getLast?, List.getLast?_eq_some_getLast hne]
  exact ht

theorem Settles.left {c : Prog σ α} (hc : Settles c) (n : Nat) (s : σ) :
    (c n s).state = s ∨ (c n s).state ∈ (c n s).passed := by
  rw [← hc n s, List.getLastD_eq_getLast?]
  cases hlast : (c n s).passed.getLast? with
  | none => exact Or.inl rfl
  | some t => exact Or.inr (List.mem_of_getLast? hlast)

end Settling

/-- The program ends normally, in `Q`. -/
def Ends (c : Prog σ α) (Q : α → Nat → σ → Prop) (n : Nat) (s : σ) : Prop :=
  ∃ a, (c n s).result = some a ∧ Q a (c n s).calls (c n s).state

/-- The program passes through a state in `P`. -/
def Passes (c : Prog σ α) (P : σ → Prop) (n : Nat) (s : σ) : Prop :=
  ∃ t ∈ (c n s).passed, P t

section Runs

variable {P : σ → Prop} {Q Q' : α → Nat → σ → Prop} {n : Nat} {s : σ}

@[simp] theorem ends_pure (a : α) : Ends (pure a : Prog σ α) Q n s ↔ Q a n s := by
  change (∃ b, some a = some b ∧ Q b n s) ↔ Q a n s
  simp

@[simp] theorem ends_read (f : σ → α) : Ends (read f) Q n s ↔ Q (f s) n s := by
  change (∃ b, some (f s) = some b ∧ Q b n s) ↔ Q (f s) n s
  simp

@[simp] theorem ends_update (f : σ → σ) {Q : Unit → Nat → σ → Prop} :
    Ends (update f) Q n s ↔ Q () n (f s) := by
  change (∃ b, some () = some b ∧ Q b n (f s)) ↔ Q () n (f s)
  exact ⟨fun ⟨_, _, h⟩ => h, fun h => ⟨(), rfl, h⟩⟩

@[simp] theorem ends_call (f : Nat → σ → α × List σ) :
    Ends (call f) Q n s ↔ Q (f n s).1 (n + 1) ((f n s).2.getLastD s) := by
  change (∃ b, some (f n s).1 = some b ∧ Q b (n + 1) ((f n s).2.getLastD s)) ↔ _
  simp

@[simp] theorem ends_bind {c : Prog σ β} {f : β → Prog σ α} :
    Ends (c >>= f) Q n s ↔ Ends c (fun b m t => Ends (f b) Q m t) n s := by
  change Ends (andThen c f) Q n s ↔ _
  unfold Ends andThen
  cases hresult : (c n s).result with
  | none => simp
  | some b => simp

theorem Ends.imp {c : Prog σ α} (h : Ends c Q n s)
    (hQ : ∀ a m t, Q a m t → Q' a m t) : Ends c Q' n s := by
  obtain ⟨a, hresult, ha⟩ := h
  exact ⟨a, hresult, hQ _ _ _ ha⟩

/-- A sequence passes through what its first part passes through. -/
theorem Passes.bind_left {c : Prog σ β} {f : β → Prog σ α} (h : Passes c P n s) :
    Passes (c >>= f) P n s := by
  obtain ⟨t, ht, hP⟩ := h
  change ∃ t ∈ (andThen c f n s).passed, P t
  refine ⟨t, ?_, hP⟩
  unfold andThen
  cases hresult : (c n s).result with
  | none => exact ht
  | some b => exact List.mem_append_left _ ht

/-- And through what its second part passes through, once it gets there. -/
theorem Passes.bind_right {c : Prog σ β} {f : β → Prog σ α}
    (h : Ends c (fun b m t => Passes (f b) P m t) n s) : Passes (c >>= f) P n s := by
  obtain ⟨b, hresult, t, ht, hP⟩ := h
  change ∃ t ∈ (andThen c f n s).passed, P t
  refine ⟨t, ?_, hP⟩
  unfold andThen
  rw [hresult]
  exact List.mem_append_right _ ht

/-- What holds of every run holds of the one that ends. -/
theorem Ends.and_wp {C : σ → Prop} {c : Prog σ α} (h : Ends c Q n s) (h' : wp c C Q' n s) :
    Ends c (fun a m t => Q a m t ∧ Q' a m t) n s := by
  obtain ⟨a, hresult, ha⟩ := h
  have hend := h'.2
  rw [hresult] at hend
  exact ⟨a, hresult, ha, hend⟩

end Runs

theorem Ends.wp {c : Prog σ α} {Q : α → Nat → σ → Prop} {n : Nat} {s : σ} (h : Ends c Q n s) :
    wp c (fun _ => True) Q n s := by
  obtain ⟨a, hresult, ha⟩ := h
  refine ⟨fun _ _ => trivial, ?_⟩
  rw [hresult]
  exact ha

/-- The program never dies. -/
def Total (c : Prog σ α) : Prop := ∀ n s, Ends c (fun _ _ _ => True) n s

theorem Total.pure (a : α) : Total (pure a : Prog σ α) := by
  intro n s
  rw [ends_pure]
  trivial

theorem Total.call (f : Nat → σ → α × List σ) : Total (Prog.call f) := by
  intro n s
  rw [ends_call]
  trivial

theorem Total.update (f : σ → σ) : Total (Prog.update f) := by
  intro n s
  rw [ends_update]
  trivial

theorem Total.bind {c : Prog σ α} {f : α → Prog σ β} (hc : Total c)
    (hf : ∀ a, Total (f a)) : Total (c >>= f) := by
  intro n s
  rw [ends_bind]
  exact (hc n s).imp (fun a m t _ => hf a m t)

/-- What holds at every normal end holds where a program that never dies ends. -/
theorem Total.ended {c : Prog σ α} (hc : Total c) {C P : σ → Prop} {n : Nat} {s : σ}
    (h : wp c C (fun _ _ t => P t) n s) : P (c n s).state := by
  obtain ⟨a, hresult, -⟩ := hc n s
  have hend := h.2
  rw [hresult] at hend
  exact hend

theorem Passes.after {c : Prog σ α} {f : α → Prog σ β} {P : σ → Prop} {n : Nat} {s : σ}
    (hc : Total c) (hf : ∀ a m t, Passes (f a) P m t) : Passes (c >>= f) P n s :=
  .bind_right ((hc n s).imp fun a m t _ => hf a m t)

theorem Total.ite {p : Prop} [Decidable p] {c d : Prog σ α} (hc : Total c)
    (hd : Total d) : Total (if p then c else d) := by
  split
  · exact hc
  · exact hd

/-! ### Answers -/

/-- Every answer the program gives is in `P`. -/
def Answers (c : Prog σ α) (P : α → Prop) : Prop :=
  ∀ n s, wp c (fun _ => True) (fun a _ _ => P a) n s

section Answering

variable {P : α → Prop}

theorem Answers.pure {a : α} (h : P a) : Answers (pure a : Prog σ α) P :=
  fun _ _ => (wp_pure a).mpr h

theorem Answers.die : Answers (Prog.die : Prog σ α) P :=
  fun _ _ => wp_die.mpr trivial

theorem Answers.any (c : Prog σ α) (h : ∀ a, P a) : Answers c P :=
  fun _ _ => wp_any c fun a _ _ => h a

theorem Answers.bind {P' : β → Prop} {c : Prog σ β} {f : β → Prog σ α} (hc : Answers c P')
    (hf : ∀ b, P' b → Answers (f b) P) : Answers (c >>= f) P := by
  intro n s
  rw [wp_bind]
  exact wp_imp (hc n s) fun b m t hb => hf b hb m t

/-- What comes before the answer does not matter. -/
theorem Answers.after {c : Prog σ β} {f : β → Prog σ α} (hf : ∀ b, Answers (f b) P) :
    Answers (c >>= f) P :=
  (Answers.any c fun _ => trivial).bind fun b _ => hf b

theorem Answers.ite {p : Prop} [Decidable p] {c d : Prog σ α} (hc : Answers c P)
    (hd : Answers d P) : Answers (if p then c else d) P := by
  split
  · exact hc
  · exact hd

end Answering

/-! ### Where a program comes to rest -/

/-- However the program stops, by an answer or by dying, `R` holds of its result
and of the state it leaves. -/
def Lands (c : Prog σ α) (R : Option α → σ → Prop) (n : Nat) (s : σ) : Prop :=
  R (c n s).result (c n s).state

section Landing

variable {R R' : Option α → σ → Prop} {C : σ → Prop} {n : Nat} {s : σ}

@[simp] theorem lands_pure (a : α) : Lands (pure a : Prog σ α) R n s ↔ R (some a) s := Iff.rfl

@[simp] theorem lands_die : Lands (die : Prog σ α) R n s ↔ R none s := Iff.rfl

theorem Lands.imp {c : Prog σ α} (h : Lands c R n s) (hR : ∀ r t, R r t → R' r t) :
    Lands c R' n s := hR _ _ h

theorem Lands.of_wp {c : Prog σ α} (h : wp c C (fun a _ t => R (some a) t) n s)
    (hC : ∀ t, C t → R none t) : Lands c R n s := by
  have hend := h.2
  unfold Lands
  cases hresult : (c n s).result with
  | none =>
      rw [hresult] at hend
      exact hC _ hend
  | some a =>
      rw [hresult] at hend
      exact hend

/-- A first part that may die, and leaves `C` then. -/
theorem Lands.bind_wp {c : Prog σ β} {f : β → Prog σ α}
    (h : wp c C (fun b m t => Lands (f b) R m t) n s) (hC : ∀ t, C t → R none t) :
    Lands (c >>= f) R n s := by
  have hend := h.2
  change R (andThen c f n s).result (andThen c f n s).state
  unfold andThen
  cases hresult : (c n s).result with
  | none =>
      rw [hresult] at hend
      exact hC _ hend
  | some b =>
      rw [hresult] at hend
      exact hend

/-- A first part that dies. -/
theorem Lands.bind_died {c : Prog σ β} {f : β → Prog σ α}
    (h : Lands c (fun b t => b = none ∧ R none t) n s) : Lands (c >>= f) R n s := by
  obtain ⟨hresult, hR⟩ := h
  change R (andThen c f n s).result (andThen c f n s).state
  unfold andThen
  rw [hresult]
  exact hR

/-- A first part that does not die. -/
theorem Lands.bind {c : Prog σ β} {f : β → Prog σ α}
    (h : Ends c (fun b m t => Lands (f b) R m t) n s) : Lands (c >>= f) R n s := by
  obtain ⟨b, hresult, hb⟩ := h
  change R (andThen c f n s).result (andThen c f n s).state
  unfold andThen
  rw [hresult]
  exact hb

end Landing

/-! ### Programs that only look -/

/-- The program ends with an answer that `R` relates to the state, and changes
nothing. -/
def Observes (c : Prog σ α) (R : σ → α → Prop) : Prop :=
  ∀ n s, ∃ a m, c n s = ⟨some a, s, m, []⟩ ∧ R s a

section Observers

variable {R : σ → α → Prop}

theorem Observes.pure {a : α} (h : ∀ s, R s a) : Observes (pure a : Prog σ α) R :=
  fun n s => ⟨a, n, rfl, h s⟩

theorem Observes.call {f : Nat → σ → α × List σ} (hnone : ∀ n s, (f n s).2 = [])
    (h : ∀ n s, R s (f n s).1) : Observes (Prog.call f) R := by
  intro n s
  refine ⟨(f n s).1, n + 1, ?_, h n s⟩
  unfold Prog.call
  rw [hnone]
  rfl

theorem Observes.bind {R' : σ → β → Prop} {c : Prog σ β} {f : β → Prog σ α}
    (hc : Observes c R') (hf : ∀ b, Observes (f b) fun s a => R' s b → R s a) :
    Observes (c >>= f) R := by
  intro n s
  obtain ⟨b, m, hfirst, hb⟩ := hc n s
  obtain ⟨a, k, hlater, ha⟩ := hf b m s
  refine ⟨a, k, ?_, ha hb⟩
  change andThen c f n s = _
  unfold andThen
  rw [hfirst]
  dsimp only
  rw [hlater]
  rfl

theorem Observes.imp {R' : σ → α → Prop} {c : Prog σ α} (hc : Observes c R')
    (h : ∀ s a, R' s a → R s a) : Observes c R := by
  intro n s
  obtain ⟨a, m, hrun, ha⟩ := hc n s
  exact ⟨a, m, hrun, h s a ha⟩

theorem Observes.and {R' : σ → α → Prop} {c : Prog σ α} (hc : Observes c R)
    (hc' : Observes c R') : Observes c fun s a => R s a ∧ R' s a := by
  intro n s
  obtain ⟨a, m, hrun, ha⟩ := hc n s
  obtain ⟨a', m', hrun', ha'⟩ := hc' n s
  have hsame : some a = some a' :=
    congrArg Outcome.result (hrun.symm.trans hrun')
  rw [← Option.some.inj hsame] at ha'
  exact ⟨a, m, hrun, ha, ha'⟩

theorem Observes.wp {c : Prog σ α} (hc : Observes c R) {C : σ → Prop}
    {Q : α → Nat → σ → Prop} {n : Nat} {s : σ} (h : ∀ m a, R s a → Q a m s) :
    wp c C Q n s := by
  obtain ⟨a, m, hrun, ha⟩ := hc n s
  unfold Prog.wp
  rw [hrun]
  exact ⟨by simp, h m a ha⟩

theorem Observes.ends {c : Prog σ α} (hc : Observes c R) (n : Nat) (s : σ) :
    Ends c (fun a _ t => t = s ∧ R s a) n s := by
  obtain ⟨a, m, hrun, ha⟩ := hc n s
  unfold Ends
  rw [hrun]
  exact ⟨a, rfl, rfl, ha⟩

end Observers

end Prog

end SatDeploy.Lib
