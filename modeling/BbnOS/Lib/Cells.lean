import Mathlib.Data.List.Induction
import Mathlib.Data.List.Nodup
import Mathlib.Tactic.Common

/-!
# Cells that are written one at a time

A state holds a value in each of its cells.  `Independent C get set` is the
law of one write, for the cells of a set `C`: the written cell reads back the
value, and every other cell of `C` reads as before.

After a run of writes a cell then holds the last value written to it
(`Independent.get_setAll`).  Where two writes to different cells may be
exchanged, a run of writes to pairwise different cells may be reordered
(`setAll_perm`).
-/

namespace Cells

variable {σ ι β : Type}

/-- A write of a cell of `C` changes the value of that cell and of no other
cell of `C`. -/
def Independent [DecidableEq ι] (C : ι → Prop) (get : σ → ι → β) (set : σ → ι → β → σ) : Prop :=
  ∀ s i v, C i → ∀ j, C j → get (set s i v) j = if j = i then v else get s j

/-- The state after a list of writes, the head first. -/
def setAll (set : σ → ι → β → σ) (s : σ) (writes : List (ι × β)) : σ :=
  writes.foldl (fun s w => set s w.1 w.2) s

/-- The value of the last write to the cell `i`. -/
def lastValue [DecidableEq ι] (writes : List (ι × β)) (i : ι) : Option β :=
  (writes.reverse.find? fun w => w.1 = i).map Prod.snd

@[simp] theorem setAll_append_singleton (set : σ → ι → β → σ) (s : σ) (writes : List (ι × β))
    (w : ι × β) : setAll set s (writes ++ [w]) = set (setAll set s writes) w.1 w.2 := by
  simp [setAll]

@[simp] theorem lastValue_append_singleton [DecidableEq ι] (writes : List (ι × β))
    (w : ι × β) (i : ι) :
    lastValue (writes ++ [w]) i = if i = w.1 then some w.2 else lastValue writes i := by
  unfold lastValue
  by_cases h : i = w.1
  · simp [h]
  · have h' : ¬ w.1 = i := fun he => h he.symm
    simp [h, h']

namespace Independent

variable [DecidableEq ι] {C : ι → Prop} {get : σ → ι → β} {set : σ → ι → β → σ}

/-- After a run of writes a cell holds the last value written to it, or its
old value if there was none. -/
theorem get_setAll (hset : Independent C get set) (s : σ) (writes : List (ι × β))
    (hwrites : ∀ w ∈ writes, C w.1) {i : ι} (hi : C i) :
    get (setAll set s writes) i = (lastValue writes i).getD (get s i) := by
  induction writes using List.reverseRecOn with
  | nil => rfl
  | append_singleton writes w ih =>
    have hw : C w.1 := hwrites w (by simp)
    have hrest : ∀ w' ∈ writes, C w'.1 := fun w' hw' =>
      hwrites w' (List.mem_append_left _ hw')
    rw [setAll_append_singleton, lastValue_append_singleton, hset _ _ _ hw i hi]
    split
    · rfl
    · exact ih hrest

end Independent

/-- Where writes to different cells commute, a run of writes to pairwise
different cells may be reordered. -/
theorem setAll_perm {set : σ → ι → β → σ} {s : σ} {writes writes' : List (ι × β)}
    (hperm : writes.Perm writes') (hcells : (writes.map Prod.fst).Nodup)
    (hcomm : ∀ s, ∀ x ∈ writes, ∀ y ∈ writes, x.1 ≠ y.1 →
      set (set s x.1 x.2) y.1 y.2 = set (set s y.1 y.2) x.1 x.2) :
    setAll set s writes = setAll set s writes' := by
  refine hperm.foldl_eq' (fun x hx y hy s => ?_) s
  by_cases hxy : x.1 = y.1
  · rw [List.inj_on_of_nodup_map hcells hx hy hxy]
  · exact hcomm s x hx y hy hxy

end Cells
