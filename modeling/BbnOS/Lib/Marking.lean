import Mathlib.Data.Finset.Card
import Mathlib.Tactic.Common

/-!
# Counted updates of a marking

A marking gives every element a Boolean mark.  `Update U v cov m m'` says how
one update changes it on a finite universe `U`: the covered elements get the
mark `v`, the others keep theirs.  A covered element may have the mark `v`
already, so the number of elements that change is counted apart, by
`changed U v cov m`.

The results are the composition of two updates of the same value
(`Update.trans`, with `card_changed_trans` for the counts) and the number of
elements of each mark after an update (`card_withMark_update`,
`card_withMark_true_update_false`).
-/

namespace Marking

variable {α : Type} {U V W : Finset α} {v : Bool} {cov cov' : α → Prop}
  {m m' m'' : α → Bool}

/-- The marking `m'` is `m` with the value `v` on the covered elements. -/
structure Update (U : Finset α) (v : Bool) (cov : α → Prop) (m m' : α → Bool) : Prop where
  covered : ∀ q ∈ U, cov q → m' q = v
  kept : ∀ q ∈ U, ¬ cov q → m' q = m q

open Classical in
/-- The covered elements whose mark differs from `v`. -/
noncomputable def changed (U : Finset α) (v : Bool) (cov : α → Prop) (m : α → Bool) :
    Finset α :=
  U.filter fun q => cov q ∧ m q ≠ v

/-- The elements of `V` with the mark `v`. -/
def withMark (V : Finset α) (v : Bool) (m : α → Bool) : Finset α :=
  V.filter fun q => m q = v

@[simp] theorem mem_changed {q : α} :
    q ∈ changed U v cov m ↔ q ∈ U ∧ cov q ∧ m q ≠ v := by
  simp [changed]

@[simp] theorem mem_withMark {q : α} : q ∈ withMark V v m ↔ q ∈ V ∧ m q = v := by
  simp [withMark]

/-- An update that covers nothing is no update. -/
theorem Update.refl (U : Finset α) (v : Bool) (m : α → Bool) :
    Update U v (fun _ => False) m m :=
  ⟨fun _ _ h => h.elim, fun _ _ _ => rfl⟩

theorem changed_false : changed U v (fun _ => False) m = ∅ := by
  apply Finset.ext
  intro q
  simp

theorem Update.congr (h : Update U v cov m m') (hcov : ∀ q, cov' q ↔ cov q) :
    Update U v cov' m m' :=
  ⟨fun q hq hc => h.covered q hq ((hcov q).mp hc),
    fun q hq hc => h.kept q hq (fun hc' => hc ((hcov q).mpr hc'))⟩

theorem changed_subset (U : Finset α) (v : Bool) (cov : α → Prop) (m : α → Bool) :
    changed U v cov m ⊆ U := fun _ hq => (mem_changed.mp hq).1

/-- An update of a universe is one of every part of it. -/
theorem Update.mono (h : Update U v cov m m') (hV : V ⊆ U) : Update V v cov m m' :=
  ⟨fun q hq hc => h.covered q (hV hq) hc, fun q hq hc => h.kept q (hV hq) hc⟩

theorem changed_congr (hcov : ∀ q ∈ U, cov' q ↔ cov q) :
    changed U v cov' m = changed U v cov m := by
  apply Finset.ext
  intro q
  simp only [mem_changed]
  constructor
  · rintro ⟨hq, hc, hm⟩
    exact ⟨hq, (hcov q hq).mp hc, hm⟩
  · rintro ⟨hq, hc, hm⟩
    exact ⟨hq, (hcov q hq).mpr hc, hm⟩

/-- Two updates of the same value are one update of both covers. -/
theorem Update.trans (h : Update U v cov m m') (h' : Update U v cov' m' m'') :
    Update U v (fun q => cov q ∨ cov' q) m m'' := by
  constructor
  · intro q hq hcov
    by_cases hc' : cov' q
    · exact h'.covered q hq hc'
    · rw [h'.kept q hq hc']
      exact h.covered q hq (hcov.resolve_right hc')
  · intro q hq hcov
    rw [not_or] at hcov
    rw [h'.kept q hq hcov.2, h.kept q hq hcov.1]

/-- The second update changes what the first one left. -/
theorem card_changed_trans (h : Update U v cov m m') :
    (changed U v (fun q => cov q ∨ cov' q) m).card =
      (changed U v cov m).card + (changed U v cov' m').card := by
  classical
  have hunion : changed U v (fun q => cov q ∨ cov' q) m =
      changed U v cov m ∪ changed U v cov' m' := by
    apply Finset.ext
    intro q
    simp only [Finset.mem_union, mem_changed]
    by_cases hq : q ∈ U
    · by_cases hc : cov q
      · have := h.covered q hq hc
        simp [hq, hc, this]
      · have := h.kept q hq hc
        simp [hq, hc, this]
    · simp [hq]
  have hdisj : Disjoint (changed U v cov m) (changed U v cov' m') := by
    rw [Finset.disjoint_left]
    intro q hq hq'
    rw [mem_changed] at hq hq'
    exact hq'.2.2 (h.covered q hq.1 hq.2.1)
  rw [hunion, Finset.card_union_of_disjoint hdisj]

/-- An update adds the changed elements to those that have its value. -/
theorem card_withMark_update (h : Update U v cov m m') (hV : V ⊆ U) :
    (withMark V v m').card = (withMark V v m).card + (changed V v cov m).card := by
  classical
  have hunion : withMark V v m' = withMark V v m ∪ changed V v cov m := by
    apply Finset.ext
    intro q
    simp only [Finset.mem_union, mem_withMark, mem_changed]
    by_cases hq : q ∈ V
    · by_cases hc : cov q
      · have := h.covered q (hV hq) hc
        by_cases hm : m q = v <;> simp [hq, hc, hm, this]
      · have := h.kept q (hV hq) hc
        simp [hq, hc, this]
    · simp [hq]
  have hdisj : Disjoint (withMark V v m) (changed V v cov m) := by
    rw [Finset.disjoint_left]
    intro q hq hq'
    rw [mem_withMark] at hq
    rw [mem_changed] at hq'
    exact hq'.2.2 hq.2
  rw [hunion, Finset.card_union_of_disjoint hdisj]

/-- Every element has one of the two marks. -/
theorem card_withMark_true_add_false (V : Finset α) (m : α → Bool) :
    (withMark V true m).card + (withMark V false m).card = V.card := by
  have hfalse : withMark V false m = V.filter fun q => ¬ m q = true := by
    apply Finset.ext
    intro q
    simp
  rw [hfalse]
  exact Finset.card_filter_add_card_filter_not (fun q => m q = true)

/-- Clearing marks takes the changed elements from the marked ones. -/
theorem card_withMark_true_update_false (h : Update U false cov m m') (hV : V ⊆ U) :
    (withMark V true m').card + (changed V false cov m).card =
      (withMark V true m).card := by
  have hclear := card_withMark_update h hV
  have hbefore := card_withMark_true_add_false V m
  have hafter := card_withMark_true_add_false V m'
  omega

/-- The changes of two disjoint parts add up. -/
theorem card_changed_union [DecidableEq α] (hVW : Disjoint V W) :
    (changed (V ∪ W) v cov m).card = (changed V v cov m).card + (changed W v cov m).card := by
  rw [← Finset.card_union_of_disjoint]
  · congr 1
    apply Finset.ext
    intro q
    simp only [Finset.mem_union, mem_changed]
    tauto
  · rw [Finset.disjoint_left] at hVW ⊢
    intro q hq hq'
    exact hVW (mem_changed.mp hq).1 (mem_changed.mp hq').1

/-- What an update changes after another one of the same value. -/
theorem changed_after (h : Update U v cov m m') :
    changed U v cov' m' = changed U v (fun q => cov' q ∧ ¬ cov q) m := by
  apply Finset.ext
  intro q
  simp only [mem_changed]
  by_cases hq : q ∈ U
  · by_cases hc : cov q
    · have := h.covered q hq hc
      simp [hc, this]
    · have := h.kept q hq hc
      simp [hc, this]
  · simp [hq]

/-- Nothing changes exactly when the covered elements have the value already. -/
theorem card_changed_eq_zero :
    (changed U v cov m).card = 0 ↔ ∀ q ∈ U, cov q → m q = v := by
  rw [Finset.card_eq_zero, Finset.eq_empty_iff_forall_notMem]
  simp only [mem_changed, not_and, not_not]

end Marking
