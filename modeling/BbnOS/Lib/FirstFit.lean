import Mathlib.Data.Finset.Max
import Mathlib.Data.Finset.Sort
import Mathlib.Tactic.Common

/-!
# A first-fit pool

A pool owns a finite set of frames, of which some are in use.  It hands out
the least frame that is not in use, and callers may hold and release frames by
any set.  Frames that the pool does not own are ignored.

`Pool` carries the fact that the frames in use are frames of the pool, so no
operation has to check it.  `run_inUse` is the safety property of a pool: a
frame in use stays in use along every run that does not release it.  With
`request_not_inUse` it gives `not_requested_again`, that no frame is handed
out twice without a release in between.  `card_free_run_requests` is about
requests in a row: each takes one free frame.
-/

namespace FirstFit

variable {α : Type} [LinearOrder α]

/-- A pool of frames, and those of its frames that are in use. -/
structure Pool (α : Type) [LinearOrder α] where
  frames : Finset α
  inUse : Finset α
  inUse_subset : inUse ⊆ frames

/-- The operations on a pool.  `hold` and `release` name frames by a set. -/
inductive Op (α : Type) where
  | request
  | hold (ps : Set α)
  | release (ps : Set α)

namespace Pool

/-- The frames that are not in use. -/
def free (pool : Pool α) : Finset α := pool.frames \ pool.inUse

/-- The least free frame. -/
def request (pool : Pool α) : Option α :=
  if h : pool.free.Nonempty then some (pool.free.min' h) else none

open Classical in
/-- The pool with the frames of `ps` in use. -/
noncomputable def hold (pool : Pool α) (ps : Set α) : Pool α where
  frames := pool.frames
  inUse := pool.inUse ∪ pool.frames.filter fun q => q ∈ ps
  inUse_subset := Finset.union_subset pool.inUse_subset (Finset.filter_subset _ _)

open Classical in
/-- The pool with the frames of `ps` free. -/
noncomputable def release (pool : Pool α) (ps : Set α) : Pool α where
  frames := pool.frames
  inUse := pool.inUse.filter fun q => q ∉ ps
  inUse_subset := (Finset.filter_subset _ _).trans pool.inUse_subset

/-- One operation. -/
noncomputable def step (pool : Pool α) : Op α → Pool α
  | .request => pool.hold {p | pool.request = some p}
  | .hold ps => pool.hold ps
  | .release ps => pool.release ps

/-- A sequence of operations. -/
noncomputable def run (pool : Pool α) (ops : List (Op α)) : Pool α :=
  ops.foldl step pool

@[ext]
theorem ext {pool pool' : Pool α} (hframes : pool.frames = pool'.frames)
    (hinUse : pool.inUse = pool'.inUse) : pool = pool' := by
  cases pool
  cases pool'
  simp_all

@[simp] theorem mem_free {pool : Pool α} {p : α} :
    p ∈ pool.free ↔ p ∈ pool.frames ∧ p ∉ pool.inUse := by
  simp [free]

@[simp] theorem mem_inUse_hold {pool : Pool α} {ps : Set α} {p : α} :
    p ∈ (pool.hold ps).inUse ↔ p ∈ pool.inUse ∨ p ∈ pool.frames ∧ p ∈ ps := by
  simp [hold]

@[simp] theorem mem_inUse_release {pool : Pool α} {ps : Set α} {p : α} :
    p ∈ (pool.release ps).inUse ↔ p ∈ pool.inUse ∧ p ∉ ps := by
  simp [release]

@[simp] theorem frames_hold (pool : Pool α) (ps : Set α) :
    (pool.hold ps).frames = pool.frames := rfl

@[simp] theorem frames_release (pool : Pool α) (ps : Set α) :
    (pool.release ps).frames = pool.frames := rfl

@[simp] theorem run_cons (pool : Pool α) (op : Op α) (ops : List (Op α)) :
    pool.run (op :: ops) = (pool.step op).run ops := rfl

@[simp] theorem frames_step (pool : Pool α) (op : Op α) :
    (pool.step op).frames = pool.frames := by
  cases op <;> rfl

/-- A request answers the least free frame. -/
theorem request_eq_some {pool : Pool α} {p : α} :
    pool.request = some p ↔ p ∈ pool.free ∧ ∀ q ∈ pool.free, p ≤ q := by
  unfold request
  split
  · rename_i hne
    rw [Option.some.injEq]
    constructor
    · intro heq
      subst heq
      exact ⟨pool.free.min'_mem hne, fun q hq => pool.free.min'_le q hq⟩
    · rintro ⟨hp, hle⟩
      exact le_antisymm (pool.free.min'_le p hp) (hle _ (pool.free.min'_mem hne))
  · rename_i hne
    rw [Finset.not_nonempty_iff_eq_empty] at hne
    simp [hne]

/-- A request fails exactly when every frame is in use. -/
theorem request_eq_none {pool : Pool α} :
    pool.request = none ↔ ∀ p ∈ pool.frames, p ∈ pool.inUse := by
  unfold request
  split
  · rename_i hne
    obtain ⟨p, hp⟩ := hne
    rw [mem_free] at hp
    simp only [reduceCtorEq, false_iff, not_forall]
    exact ⟨p, hp.1, hp.2⟩
  · rename_i hne
    simp only [true_iff]
    intro p hp
    by_contra hp'
    exact hne ⟨p, mem_free.mpr ⟨hp, hp'⟩⟩

/-- A pool with a free frame hands one out. -/
theorem exists_request {pool : Pool α} (h : pool.free.Nonempty) :
    ∃ p, pool.request = some p := by
  rw [← Option.ne_none_iff_exists', ne_eq, request_eq_none]
  obtain ⟨p, hp⟩ := h
  rw [mem_free] at hp
  exact fun hall => hp.2 (hall p hp.1)

theorem request_not_inUse {pool : Pool α} {p : α} (h : pool.request = some p) :
    p ∉ pool.inUse :=
  (mem_free.mp (request_eq_some.mp h).1).2

/-- One operation keeps a frame in use that it does not release. -/
theorem inUse_step {pool : Pool α} {op : Op α} {p : α} (hp : p ∈ pool.inUse)
    (hop : ∀ ps, op = .release ps → p ∉ ps) : p ∈ (pool.step op).inUse := by
  cases op with
  | request => exact mem_inUse_hold.mpr (Or.inl hp)
  | hold ps => exact mem_inUse_hold.mpr (Or.inl hp)
  | release ps => exact mem_inUse_release.mpr ⟨hp, hop ps rfl⟩

/-- A frame in use stays in use along a run that does not release it. -/
theorem run_inUse {pool : Pool α} {ops : List (Op α)} {p : α} (hp : p ∈ pool.inUse)
    (hops : ∀ ps, Op.release ps ∈ ops → p ∉ ps) : p ∈ (pool.run ops).inUse := by
  induction ops generalizing pool with
  | nil => exact hp
  | cons op ops ih =>
    refine ih (inUse_step hp ?_) (fun ps hps => hops ps (List.mem_cons_of_mem op hps))
    rintro ps rfl
    exact hops ps List.mem_cons_self

/-- A frame in use is not handed out after a run that does not release it. -/
theorem not_requested_again {pool : Pool α} {ops : List (Op α)} {p : α}
    (hp : p ∈ pool.inUse) (hreq : (pool.run ops).request = some p) :
    ∃ ps, Op.release ps ∈ ops ∧ p ∈ ps := by
  by_contra hno
  rw [not_exists] at hno
  exact request_not_inUse hreq (run_inUse hp fun ps hps hin => hno ps ⟨hps, hin⟩)

/-! ## Requests in a row -/

/-- A request takes the requested frame from the free ones. -/
theorem free_step_request {pool : Pool α} {p : α} (h : pool.request = some p) :
    (pool.step .request).free = pool.free.erase p := by
  apply Finset.ext
  intro q
  rw [mem_free, Finset.mem_erase, mem_free, frames_step, step, mem_inUse_hold, h]
  simp only [Set.mem_ofPred_eq, Option.some.injEq, not_or, not_and]
  constructor
  · rintro ⟨hq, hout, hne⟩
    exact ⟨fun heq => hne hq heq.symm, hq, hout⟩
  · rintro ⟨hne, hq, hout⟩
    exact ⟨hq, hout, fun _ heq => hne heq.symm⟩

/-- Every request takes one free frame, as long as there is one. -/
theorem card_free_run_requests {pool : Pool α} {j : Nat} (hj : j ≤ pool.free.card) :
    (pool.run (List.replicate j .request)).free.card = pool.free.card - j := by
  induction j generalizing pool with
  | zero => rfl
  | succ j ih =>
    have hpos : 0 < pool.free.card := by omega
    obtain ⟨p, hp⟩ := exists_request (Finset.card_pos.mp hpos)
    have hcard : (pool.step .request).free.card = pool.free.card - 1 := by
      rw [free_step_request hp]
      exact Finset.card_erase_of_mem (request_eq_some.mp hp).1
    have hle : j ≤ (pool.step .request).free.card := by omega
    rw [List.replicate_succ, run_cons, ih hle, hcard]
    omega

end Pool

end FirstFit
