import Mathlib.Tactic.Common

/-!
# Counted and conditional loops

The two loop shapes of a C program, as total functions on a state.

* `forUpto body n` runs `body 0`, `body 1`, up to `body (n - 1)`.
* `forUpto? body n` is the same loop over a body that may fail to return.
* `whileFuel cond body fuel` is a `while` loop whose test may itself change
  the state.  It answers `none` when the fuel runs out, and when the test or
  the body fails to return.

The rules are the loop invariant of each shape, and for the `while` loop the
statement that more fuel never changes an answer.
-/

namespace Loop

variable {σ : Type}

/-! ## Counted loops -/

/-- `for (i = 0; i < n; i++) body(i)`. -/
def forUpto (body : Nat → σ → σ) : Nat → σ → σ
  | 0, s => s
  | n + 1, s => body n (forUpto body n s)

/-- The counted loop over a body that may fail to return. -/
def forUpto? (body : Nat → σ → Option σ) : Nat → σ → Option σ
  | 0, s => some s
  | n + 1, s => (forUpto? body n s).bind (body n)

@[simp] theorem forUpto_zero (body : Nat → σ → σ) (s : σ) :
    forUpto body 0 s = s := rfl

@[simp] theorem forUpto_succ (body : Nat → σ → σ) (n : Nat) (s : σ) :
    forUpto body (n + 1) s = body n (forUpto body n s) := rfl

@[simp] theorem forUpto?_zero (body : Nat → σ → Option σ) (s : σ) :
    forUpto? body 0 s = some s := rfl

@[simp] theorem forUpto?_succ (body : Nat → σ → Option σ) (n : Nat) (s : σ) :
    forUpto? body (n + 1) s = (forUpto? body n s).bind (body n) := rfl

/-- The invariant rule of the counted loop. -/
theorem forUpto_induct {body : Nat → σ → σ} {n : Nat} {s : σ}
    (P : Nat → σ → Prop) (hzero : P 0 s)
    (hstep : ∀ i t, i < n → P i t → P (i + 1) (body i t)) :
    P n (forUpto body n s) := by
  induction n with
  | zero => exact hzero
  | succ n ih =>
    rw [forUpto_succ]
    refine hstep n _ (Nat.lt_succ_self n) (ih ?_)
    intro i t hi
    exact hstep i t (Nat.lt_succ_of_lt hi)

/-- The invariant rule of the fallible loop, for a run that returned. -/
theorem forUpto?_induct {body : Nat → σ → Option σ} {n : Nat} {s s' : σ}
    (P : Nat → σ → Prop) (hrun : forUpto? body n s = some s') (hzero : P 0 s)
    (hstep : ∀ i t t', i < n → P i t → body i t = some t' → P (i + 1) t') :
    P n s' := by
  induction n generalizing s' with
  | zero =>
    obtain rfl : s = s' := by simpa using hrun
    exact hzero
  | succ n ih =>
    rw [forUpto?_succ, Option.bind_eq_some_iff] at hrun
    obtain ⟨t, ht, hbody⟩ := hrun
    refine hstep n t s' (Nat.lt_succ_self n) (ih ht ?_) hbody
    intro i u u' hi
    exact hstep i u u' (Nat.lt_succ_of_lt hi)

/-- The fallible loop returns when every step from an invariant state does. -/
theorem forUpto?_total {body : Nat → σ → Option σ} {n : Nat} {s : σ}
    (P : Nat → σ → Prop) (hzero : P 0 s)
    (hstep : ∀ i t, i < n → P i t → ∃ t', body i t = some t' ∧ P (i + 1) t') :
    ∃ s', forUpto? body n s = some s' ∧ P n s' := by
  induction n with
  | zero => exact ⟨s, rfl, hzero⟩
  | succ n ih =>
    obtain ⟨t, ht, hPt⟩ := ih (fun i u hi => hstep i u (Nat.lt_succ_of_lt hi))
    obtain ⟨t', ht', hPt'⟩ := hstep n t (Nat.lt_succ_self n) hPt
    exact ⟨t', by rw [forUpto?_succ, ht]; exact ht', hPt'⟩

/-- The counted loop is the fold over the list of its indices. -/
theorem forUpto_eq_foldl (body : Nat → σ → σ) (n : Nat) (s : σ) :
    forUpto body n s = (List.range n).foldl (fun t i => body i t) s := by
  induction n with
  | zero => rfl
  | succ n ih => rw [forUpto_succ, ih, List.range_succ, List.foldl_append]; rfl

/-! ## Conditional loops -/

/-- `while (cond) body`, for at most `fuel` tests of the condition.  The test
returns the state it leaves, as the tests of C programs may call functions. -/
def whileFuel (cond : σ → Option (Bool × σ)) (body : σ → Option σ) :
    Nat → σ → Option σ
  | 0, _ => none
  | fuel + 1, s =>
    match cond s with
    | none => none
    | some (false, s') => some s'
    | some (true, s') => (body s').bind (whileFuel cond body fuel)

/-- The total-correctness rule of the conditional loop: an invariant that
every test keeps, and a bound on the rounds that every round decreases.  The
answer is the same for every fuel above the bound. -/
theorem whileFuel_total {cond : σ → Option (Bool × σ)} {body : σ → Option σ}
    (P : Nat → σ → Prop) (Q : σ → Prop)
    (hround : ∀ k s, P k s →
      (∃ s', cond s = some (false, s') ∧ Q s') ∨
      (∃ j s' s'', k = j + 1 ∧ cond s = some (true, s') ∧
        body s' = some s'' ∧ P j s'')) :
    ∀ k s, P k s → ∃ s', Q s' ∧
      ∀ fuel, k < fuel → whileFuel cond body fuel s = some s' := by
  intro k
  induction k with
  | zero =>
    intro s hP
    rcases hround 0 s hP with ⟨s', hc, hQ⟩ | ⟨j, _, _, hj, _⟩
    · refine ⟨s', hQ, fun fuel hfuel => ?_⟩
      obtain ⟨fuel, rfl⟩ := Nat.exists_eq_succ_of_ne_zero (Nat.ne_of_gt hfuel)
      simp only [whileFuel, hc]
    · exact absurd hj (Nat.succ_ne_zero j).symm
  | succ k ih =>
    intro s hP
    rcases hround (k + 1) s hP with ⟨s', hc, hQ⟩ | ⟨j, s', s'', hj, hc, hb, hP'⟩
    · refine ⟨s', hQ, fun fuel hfuel => ?_⟩
      obtain ⟨fuel, rfl⟩ := Nat.exists_eq_succ_of_ne_zero (Nat.ne_of_gt (Nat.zero_lt_of_lt hfuel))
      simp only [whileFuel, hc]
    · obtain rfl : k = j := Nat.succ.inj hj
      obtain ⟨t, hQ, hrun⟩ := ih s'' hP'
      refine ⟨t, hQ, fun fuel hfuel => ?_⟩
      obtain ⟨fuel, rfl⟩ := Nat.exists_eq_succ_of_ne_zero (Nat.ne_of_gt (Nat.zero_lt_of_lt hfuel))
      simp only [whileFuel, hc, hb, Option.bind_some]
      exact hrun fuel (Nat.lt_of_succ_lt_succ hfuel)

/-- More fuel does not change the answer. -/
theorem whileFuel_mono {cond : σ → Option (Bool × σ)} {body : σ → Option σ} {fuel fuel' : Nat}
    (hle : fuel ≤ fuel') {s s' : σ} (h : whileFuel cond body fuel s = some s') :
    whileFuel cond body fuel' s = some s' := by
  induction fuel generalizing fuel' s with
  | zero => cases h
  | succ fuel ih =>
    obtain ⟨fuel', rfl⟩ := Nat.exists_eq_succ_of_ne_zero (Nat.ne_of_gt (Nat.zero_lt_of_lt hle))
    rw [whileFuel] at h ⊢
    split at h
    · cases h
    · exact h
    · obtain ⟨u, hu, hrest⟩ := Option.bind_eq_some_iff.mp h
      exact Option.bind_eq_some_iff.mpr ⟨u, hu, ih (Nat.le_of_succ_le_succ hle) hrest⟩

/-- What every test and every round keeps, the loop keeps. -/
theorem whileFuel_keeps {cond : σ → Option (Bool × σ)} {body : σ → Option σ} {P : σ → Prop}
    (hcond : ∀ s b s', cond s = some (b, s') → P s → P s')
    (hbody : ∀ s s', body s = some s' → P s → P s') {fuel : Nat} {s s' : σ}
    (h : whileFuel cond body fuel s = some s') (hs : P s) : P s' := by
  induction fuel generalizing s with
  | zero => cases h
  | succ fuel ih =>
    rw [whileFuel] at h
    split at h
    · cases h
    · rename_i t ht
      cases h
      exact hcond s false _ ht hs
    · rename_i t ht
      obtain ⟨u, hu, hrest⟩ := Option.bind_eq_some_iff.mp h
      exact ih hrest (hbody t u hu (hcond s true t ht hs))

/-- A loop that returns ends with a test that fails. -/
theorem whileFuel_exit {cond : σ → Option (Bool × σ)} {body : σ → Option σ} {fuel : Nat}
    {s s' : σ} (h : whileFuel cond body fuel s = some s') :
    ∃ t, cond t = some (false, s') := by
  induction fuel generalizing s with
  | zero => cases h
  | succ fuel ih =>
    rw [whileFuel] at h
    split at h
    · cases h
    · rename_i t ht
      cases h
      exact ⟨s, ht⟩
    · obtain ⟨u, _, hrest⟩ := Option.bind_eq_some_iff.mp h
      exact ih hrest

end Loop
