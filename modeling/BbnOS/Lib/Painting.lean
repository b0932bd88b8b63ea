import BbnOS.Lib.Loop

/-!
# Painting cells with one value

`Paints v cov m m'` says that the cells of `cov` hold `v` after an operation
and that all others keep what they hold.  A loop whose rounds paint with the
same value paints the cells of all its rounds (`forUpto_paints`), in whatever
order the rounds overlap.
-/

namespace Painting

open Loop

variable {α β σ : Type} {v : β} {cov cov' : α → Prop} {m m' m'' : α → β}

/-- The cells of `cov` get the value `v`, and the others keep theirs. -/
structure Paints (v : β) (cov : α → Prop) (m m' : α → β) : Prop where
  covered : ∀ a, cov a → m' a = v
  kept : ∀ a, ¬ cov a → m' a = m a

theorem Paints.refl (v : β) (m : α → β) : Paints v (fun _ => False) m m :=
  ⟨fun _ h => h.elim, fun _ _ => rfl⟩

theorem Paints.congr (h : Paints v cov m m') (hcov : ∀ a, cov' a ↔ cov a) :
    Paints v cov' m m' :=
  ⟨fun a ha => h.covered a ((hcov a).mp ha),
    fun a ha => h.kept a fun hc => ha ((hcov a).mpr hc)⟩

theorem Paints.trans (h : Paints v cov m m') (h' : Paints v cov' m' m'') :
    Paints v (fun a => cov a ∨ cov' a) m m'' := by
  constructor
  · intro a ha
    by_cases hc' : cov' a
    · exact h'.covered a hc'
    · rw [h'.kept a hc']
      exact h.covered a (ha.resolve_right hc')
  · intro a ha
    rw [not_or] at ha
    rw [h'.kept a ha.2, h.kept a ha.1]

/-- The rule of a counted loop, on what it makes of the cells of its state. -/
theorem forUpto_paints {body : Nat → σ → σ} {n : Nat} {s : σ} (cells : σ → α → β)
    {cov : Nat → α → Prop}
    (hbody : ∀ i t, i < n → Paints v (cov i) (cells t) (cells (body i t))) :
    Paints v (fun a => ∃ i, i < n ∧ cov i a) (cells s) (cells (forUpto body n s)) := by
  refine forUpto_induct
    (fun k t => Paints v (fun a => ∃ i, i < k ∧ cov i a) (cells s) (cells t)) ?_ ?_
  · exact (Paints.refl v (cells s)).congr fun a => by simp
  · intro i t hi ht
    refine (ht.trans (hbody i t hi)).congr fun a => ?_
    constructor
    · intro ⟨k, hk, hc⟩
      rcases Nat.lt_succ_iff_lt_or_eq.mp hk with hlt | heq
      · exact Or.inl ⟨k, hlt, hc⟩
      · rw [heq] at hc
        exact Or.inr hc
    · intro h
      rcases h with ⟨k, hk, hc⟩ | hc
      · exact ⟨k, Nat.lt_succ_of_lt hk, hc⟩
      · exact ⟨i, Nat.lt_succ_self i, hc⟩

end Painting
