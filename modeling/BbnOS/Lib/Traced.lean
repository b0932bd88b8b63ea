import BbnOS.Lib.Loop

/-!
# Programs that record the places they use

A traced program works on a state and keeps a list of the places of the state
that it has used, whether to read or to write them.  `use` is the one operation
that adds to the list, so a program written with it has accounted for every
access.

`Confined P` says that a program uses places of `P` only.  It goes through the
structure of a program, and `runs_repeat` carries what the program does to the
state through a counted loop.
-/

open Loop

/-- A state, with the places used so far, the latest one first. -/
structure Traced (σ A : Type) where
  state : σ
  used : List A

namespace Traced

variable {σ A α β : Type}

/-- A state of which no place was used yet. -/
def start (s : σ) : Traced σ A where
  state := s
  used := []

/-- An access to the place `a`, which answers and changes the state by `f`. -/
def use (a : A) (f : σ → α × σ) : StateM (Traced σ A) α := fun t =>
  ((f t.state).1, { state := (f t.state).2, used := a :: t.used })

/-- A change of the state that uses none of its places. -/
def update (f : σ → σ) : StateM (Traced σ A) Unit := fun t =>
  ((), { t with state := f t.state })

/-- A change that depends on a test. -/
theorem state_ite_update (p : Prop) [Decidable p] (f : σ → σ) (t : Traced σ A) :
    ((if p then update f else pure () : StateM (Traced σ A) Unit) t).2.state =
      if p then f t.state else t.state := by
  split <;> rfl

/-- A counted loop. -/
def repeatUpto (body : Nat → StateM (Traced σ A) Unit) (n : Nat) : StateM (Traced σ A) Unit :=
  fun t => ((), forUpto (fun i t => (body i t).2) n t)

/-- The program uses places of `P` only. -/
def Confined (P : A → Prop) (prog : StateM (Traced σ A) α) : Prop :=
  ∀ t, (∀ a ∈ t.used, P a) → ∀ a ∈ (prog t).2.used, P a

variable {P : A → Prop}

theorem confined_pure (x : α) : Confined P (pure x : StateM (Traced σ A) α) :=
  fun _ h => h

theorem confined_use {a : A} (h : P a) (f : σ → α × σ) : Confined P (use a f) := by
  intro t ht b hb
  rcases List.mem_cons.mp hb with heq | hin
  · rw [heq]
    exact h
  · exact ht b hin

theorem Confined.bind {prog : StateM (Traced σ A) α} {next : α → StateM (Traced σ A) β}
    (h : Confined P prog) (hnext : ∀ x, Confined P (next x)) : Confined P (prog >>= next) :=
  fun t ht => hnext (prog t).1 (prog t).2 (h t ht)

theorem confined_update (f : σ → σ) : Confined P (update f : StateM (Traced σ A) Unit) :=
  fun _ h => h

theorem confined_repeat {body : Nat → StateM (Traced σ A) Unit} {n : Nat}
    (h : ∀ i, i < n → Confined P (body i)) : Confined P (repeatUpto body n) :=
  fun _ ht => forUpto_induct (fun _ t => ∀ a ∈ t.used, P a) ht fun i t hi => h i hi t

/-- What the last round of a loop uses, the loop has used. -/
theorem mem_used_repeat {body : Nat → StateM (Traced σ A) Unit} {n : Nat} {a : A}
    (h : ∀ t, a ∈ (body n t).2.used) (t : Traced σ A) :
    a ∈ (repeatUpto body (n + 1) t).2.used :=
  h (repeatUpto body n t).2

/-- A loop does to the state what its rounds do. -/
theorem runs_repeat {body : Nat → StateM (Traced σ A) Unit} {change : Nat → σ → σ}
    (h : ∀ i t, (body i t).2.state = change i t.state) (n : Nat) (t : Traced σ A) :
    (repeatUpto body n t).2.state = forUpto change n t.state := by
  induction n with
  | zero => rfl
  | succ n ih =>
    have hround : (repeatUpto body (n + 1) t).2.state =
        (body n (repeatUpto body n t).2).2.state := rfl
    rw [hround, h, ih, forUpto_succ]

end Traced
