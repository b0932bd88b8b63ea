import Mathlib.Tactic.Common

/-!
# Runs of a machine whose steps may be refused

`run step s as` takes the steps `as` one after the other, and is `none` when
the machine refuses one of them.  `run_invariant` is the rule that every later
module uses: what the first state has and every step keeps, every state that a
run reaches has.

`run_total` is the same rule with a count of steps.

`run_simulates` is the rule for two machines: when every step of the first is a
step of the second, with a label that the step determines, so is every run.
`run_refines` leaves the steps of the second one open, and `run_map` is the rule
where the state of the second one is a function of the state of the first.  `Before`
speaks about the states of a run before its last one, and `run_until` is the rule for
it.
-/

namespace Runs

variable {σ α : Type}

/-- The state after a list of steps. -/
def run (step : σ → α → Option σ) (s : σ) : List α → Option σ
  | [] => some s
  | a :: as => (step s a).bind fun s' => run step s' as

@[simp] theorem run_nil (step : σ → α → Option σ) (s : σ) : run step s [] = some s := rfl

theorem run_cons (step : σ → α → Option σ) (s : σ) (a : α) (as : List α) :
    run step s (a :: as) = (step s a).bind fun s' => run step s' as := rfl

/-- What every step keeps, a run keeps. -/
theorem run_invariant {step : σ → α → Option σ} {P : σ → Prop}
    (hstep : ∀ s a s', P s → step s a = some s' → P s') {s s' : σ} {as : List α} (hs : P s)
    (hrun : run step s as = some s') : P s' := by
  induction as generalizing s with
  | nil =>
    have heq : s = s' := Option.some.inj hrun
    subst heq
    exact hs
  | cons a as ih =>
    rw [run_cons, Option.bind_eq_some_iff] at hrun
    rcases hrun with ⟨t, ht, hrest⟩
    exact ih (hstep s a t hs ht) hrest

theorem run_append (step : σ → α → Option σ) (s : σ) (as bs : List α) :
    run step s (as ++ bs) = (run step s as).bind fun s' => run step s' bs := by
  induction as generalizing s with
  | nil => rfl
  | cons a as ih =>
    rw [List.cons_append, run_cons, run_cons, Option.bind_assoc]
    exact Option.bind_congr fun s' _ => ih s'

/-! ## Counting -/

/-- What the steps of a run add up to. -/
def total (step : σ → α → Option σ) (weight : σ → α → Nat) (s : σ) : List α → Nat
  | [] => 0
  | a :: as =>
    match step s a with
    | none => 0
    | some s' => weight s a + total step weight s' as

theorem total_cons {step : σ → α → Option σ} {s s' : σ} {a : α} (h : step s a = some s')
    (weight : σ → α → Nat) (as : List α) :
    total step weight s (a :: as) = weight s a + total step weight s' as := by
  rw [total, h]

/-- `run_invariant` for what a state has after so many counted steps. -/
theorem run_total {step : σ → α → Option σ} (weight : σ → α → Nat) {P : σ → Nat → Prop}
    (hstep : ∀ s n a s', P s n → step s a = some s' → P s' (n + weight s a)) {s s' : σ} {n : Nat}
    {as : List α} (hs : P s n) (hrun : run step s as = some s') :
    P s' (n + total step weight s as) := by
  induction as generalizing s n with
  | nil =>
    have heq : s = s' := Option.some.inj hrun
    subst heq
    exact hs
  | cons a as ih =>
    rw [run_cons, Option.bind_eq_some_iff] at hrun
    obtain ⟨s₁, hs₁, hrest⟩ := hrun
    rw [total_cons hs₁, ← Nat.add_assoc]
    exact ih (hstep s n a s₁ hs hs₁) hrest

/-! ## Two machines -/

section Simulation

variable {τ β : Type}

/-- The labels of the steps of a run. -/
def labels (step : σ → α → Option σ) (label : σ → α → σ → β) (s : σ) : List α → List β
  | [] => []
  | a :: as =>
    match step s a with
    | none => []
    | some s' => label s a s' :: labels step label s' as

theorem labels_cons {step : σ → α → Option σ} {label : σ → α → σ → β} {s s' : σ} {a : α}
    (h : step s a = some s') (as : List α) :
    labels step label s (a :: as) = label s a s' :: labels step label s' as := by
  rw [labels, h]

theorem exists_of_mem_labels {step : σ → α → Option σ} {label : σ → α → σ → β} {s : σ}
    {as : List α} {b : β} (h : b ∈ labels step label s as) : ∃ s a s', b = label s a s' := by
  induction as generalizing s with
  | nil => cases h
  | cons a as ih =>
    rw [labels] at h
    split at h
    case h_1 => cases h
    case h_2 s' _ =>
      rcases List.mem_cons.mp h with heq | htail
      · exact ⟨s, a, s', heq⟩
      · exact ih htail

variable {step : σ → α → Option σ} {step' : τ → β → Option τ} {label : σ → α → σ → β}
  {R : σ → τ → Prop}

/-- What every step of the first machine does the second one does, and so every
run. -/
theorem run_simulates
    (h : ∀ s t a s', R s t → step s a = some s' →
      ∃ t', step' t (label s a s') = some t' ∧ R s' t')
    {s s' : σ} {t : τ} {as : List α} (hR : R s t) (hrun : run step s as = some s') :
    ∃ t', run step' t (labels step label s as) = some t' ∧ R s' t' := by
  induction as generalizing s t with
  | nil =>
    have heq : s = s' := Option.some.inj hrun
    exact ⟨t, rfl, heq ▸ hR⟩
  | cons a as ih =>
    rw [run_cons, Option.bind_eq_some_iff] at hrun
    obtain ⟨s₁, hs₁, hrest⟩ := hrun
    obtain ⟨t₁, ht₁, hR₁⟩ := h s t a s₁ hR hs₁
    obtain ⟨t', ht', hR'⟩ := ih hR₁ hrest
    refine ⟨t', ?_, hR'⟩
    rw [labels_cons hs₁, run_cons, ht₁]
    exact ht'

/-- The same where a step of the first machine may be any number of steps of the
second one. -/
theorem run_refines
    (h : ∀ s t a s', R s t → step s a = some s' →
      ∃ bs t', run step' t bs = some t' ∧ R s' t')
    {s s' : σ} {t : τ} {as : List α} (hR : R s t) (hrun : run step s as = some s') :
    ∃ bs t', run step' t bs = some t' ∧ R s' t' := by
  induction as generalizing s t with
  | nil =>
    have heq : s = s' := Option.some.inj hrun
    exact ⟨[], t, rfl, heq ▸ hR⟩
  | cons a as ih =>
    rw [run_cons, Option.bind_eq_some_iff] at hrun
    obtain ⟨s₁, hs₁, hrest⟩ := hrun
    obtain ⟨bs₁, t₁, ht₁, hR₁⟩ := h s t a s₁ hR hs₁
    obtain ⟨bs, t', ht', hR'⟩ := ih hR₁ hrest
    refine ⟨bs₁ ++ bs, t', ?_, hR'⟩
    rw [run_append, ht₁]
    exact ht'

end Simulation

/-- Two machines where a function of the state takes every step of the first one to the
step of the second one with the same label, refused steps included. -/
theorem run_map {τ : Type} {step : σ → α → Option σ} {step' : τ → α → Option τ} {P : σ → Prop}
    (f : σ → τ) (hstep : ∀ s a, P s → (step s a).map f = step' (f s) a)
    (hP : ∀ s a s', P s → step s a = some s' → P s') {s : σ} (hs : P s) (as : List α) :
    (run step s as).map f = run step' (f s) as := by
  induction as generalizing s with
  | nil => rfl
  | cons a as ih =>
    rw [run_cons, run_cons, ← hstep s a hs]
    rcases hs₁ : step s a with _ | s₁
    · rfl
    · exact ih (hP s a s₁ hs hs₁)

/-- A part of the state that every step changes as its label says. -/
theorem eq_foldl_labels {τ β : Type} {step : σ → α → Option σ} {label : σ → α → σ → β}
    {f : σ → τ} {g : τ → β → τ}
    (hstep : ∀ s a s', step s a = some s' → f s' = g (f s) (label s a s')) {s s' : σ}
    {as : List α} (hrun : run step s as = some s') :
    f s' = (labels step label s as).foldl g (f s) := by
  induction as generalizing s with
  | nil =>
    have heq : s = s' := Option.some.inj hrun
    rw [heq]
    rfl
  | cons a as ih =>
    rw [run_cons, Option.bind_eq_some_iff] at hrun
    obtain ⟨s₁, hs₁, hrest⟩ := hrun
    rw [labels_cons hs₁, List.foldl_cons, ← hstep s a s₁ hs₁]
    exact ih hrest

/-! ## The states before the last one -/

/-- `Q` holds of every state of the run from `s`, but for the last one. -/
def Before (step : σ → α → Option σ) (Q : σ → Prop) (s : σ) : List α → Prop
  | [] => True
  | a :: as => Q s ∧ ∀ s', step s a = some s' → Before step Q s' as

instance decidableBefore (step : σ → α → Option σ) (Q : σ → Prop) [DecidablePred Q] :
    ∀ (as : List α) (s : σ), Decidable (Before step Q s as)
  | [], _ => isTrue trivial
  | a :: as, s =>
    match hs : step s a with
    | none => decidable_of_iff (Q s) ⟨fun hQ => ⟨hQ, fun s' hs' => by
        rw [hs] at hs'
        cases hs'⟩, fun h => h.1⟩
    | some s₁ =>
      have := decidableBefore step Q as s₁
      decidable_of_iff (Q s ∧ Before step Q s₁ as) ⟨fun h => ⟨h.1, fun s' hs' => by
        rw [hs] at hs'
        exact Option.some.inj hs' ▸ h.2⟩, fun h => ⟨h.1, h.2 s₁ hs⟩⟩

/-- What every step keeps or ends with `B`, a run keeps, or it ends with `B` at the
first state that has it. -/
theorem run_until {step : σ → α → Option σ} {P B Q : σ → Prop}
    (hstep : ∀ s a s', P s → step s a = some s' → P s' ∨ B s') (hB : ∀ s, B s → ¬ Q s)
    {s s' : σ} {as : List α} (hs : P s) (hbefore : Before step Q s as)
    (hrun : run step s as = some s') : P s' ∨ B s' := by
  induction as generalizing s with
  | nil =>
    have heq : s = s' := Option.some.inj hrun
    exact Or.inl (heq ▸ hs)
  | cons a as ih =>
    rw [run_cons, Option.bind_eq_some_iff] at hrun
    obtain ⟨s₁, hs₁, hrest⟩ := hrun
    have hbefore₁ := hbefore.2 s₁ hs₁
    rcases hstep s a s₁ hs hs₁ with hP | hend
    · exact ih hP hbefore₁ hrest
    · cases as with
      | nil =>
        have heq : s₁ = s' := Option.some.inj hrest
        exact Or.inr (heq ▸ hend)
      | cons a' as => exact absurd hbefore₁.1 (hB s₁ hend)

/-- What holds before the last state of the first machine holds in the second
one. -/
theorem before_labels {τ β : Type} {step : σ → α → Option σ} {step' : τ → β → Option τ}
    {label : σ → α → σ → β} {R : σ → τ → Prop} {Q : σ → Prop} {Q' : τ → Prop}
    (h : ∀ s t a s', R s t → step s a = some s' →
      ∃ t', step' t (label s a s') = some t' ∧ R s' t')
    (hQ : ∀ s t, R s t → Q s → Q' t) {s : σ} {t : τ} {as : List α} (hR : R s t)
    (hbefore : Before step Q s as) : Before step' Q' t (labels step label s as) := by
  induction as generalizing s t with
  | nil => trivial
  | cons a as ih =>
    rcases hs₁ : step s a with _ | s₁
    · rw [labels, hs₁]
      trivial
    · obtain ⟨t₁, ht₁, hR₁⟩ := h s t a s₁ hR hs₁
      rw [labels_cons hs₁]
      refine ⟨hQ s t hR hbefore.1, fun t' ht' => ?_⟩
      rw [ht₁] at ht'
      rw [← Option.some.inj ht']
      exact ih hR₁ (hbefore.2 s₁ hs₁)

end Runs
