import BbnOS.Lib.Runs
import Mathlib.Logic.Function.Basic

/-!
# Tasks and nested interruptions

What a kernel is for, as far as contexts go: some tasks, one of which is
current, and interruptions that nest.  A context is a value of any type.  While
a task runs there is no interruption; the first one puts its context away with
the task, and every deeper one the context of the handler it interrupts.  A
call is an interruption that may change the context of its task once.

`resumes_task` says that a task goes on with the context that was put away,
whatever happened in between, `resumes_caller` what a task that called goes on
with, and `interrupted_step` what a step does to a handler that waits.
-/

namespace Interruption

open Runs

variable {T C : Type} [DecidableEq T]

/-- An interruption of a task: whether the call that began it has yet to give
its result, and the contexts of the handlers that were interrupted in turn, the
last one first. -/
structure Kernel (C : Type) where
  pending : Bool
  interrupted : List C

/-- The contexts of all tasks; those of the current task and of a running
handler may be stale, since `live` is what runs. -/
structure State (T C : Type) where
  live : C
  current : T
  tasks : T → C
  kernel : Option (Kernel C)

inductive Event (T C : Type) where
  | interrupt
  | call
  /-- What runs changes its context. -/
  | run (c : C)
  /-- The call changes the context of its task, and its own. -/
  | amend (f : C → C) (c : C)
  /-- Another task becomes current. -/
  | switch (t : T)
  /-- What was interrupted last goes on. -/
  | resume

/-- An interruption, of a task or of a handler. -/
def enter (pending : Bool) (s : State T C) : State T C :=
  match s.kernel with
  | none => { s with
      tasks := Function.update s.tasks s.current s.live
      kernel := some ⟨pending, []⟩ }
  | some κ => { s with kernel := some { κ with interrupted := s.live :: κ.interrupted } }

theorem enter_task {s : State T C} (hk : s.kernel = none) (pending : Bool) :
    enter pending s = { s with
      tasks := Function.update s.tasks s.current s.live
      kernel := some ⟨pending, []⟩ } := by
  rw [enter, hk]

theorem enter_handler {s : State T C} {κ : Kernel C} (hk : s.kernel = some κ) (pending : Bool) :
    enter pending s =
      { s with kernel := some { κ with interrupted := s.live :: κ.interrupted } } := by
  rw [enter, hk]

/-- One step.  Only a task calls, and the table of tasks changes at depth one. -/
def step (s : State T C) : Event T C → Option (State T C)
  | .interrupt => some (enter false s)
  | .call => if s.kernel.isNone then some (enter true s) else none
  | .run c => some { s with live := c }
  | .amend f c =>
    match s.kernel with
    | some ⟨true, []⟩ => some { s with
        live := c
        tasks := Function.update s.tasks s.current (f (s.tasks s.current))
        kernel := some ⟨false, []⟩ }
    | _ => none
  | .switch t =>
    match s.kernel with
    | some ⟨_, []⟩ => some { s with current := t, kernel := some ⟨false, []⟩ }
    | _ => none
  | .resume =>
    match s.kernel with
    | none => none
    | some ⟨_, []⟩ => some { s with live := s.tasks s.current, kernel := none }
    | some ⟨pending, c :: cs⟩ => some { s with live := c, kernel := some ⟨pending, cs⟩ }

/-- The task `t` runs. -/
def State.Running (t : T) (s : State T C) : Prop := s.kernel = none ∧ s.current = t

/-! ## What a step can do -/

/-- The steps, by cases. -/
inductive Steps (s : State T C) : Event T C → State T C → Prop where
  | interruptTask (hk : s.kernel = none) :
    Steps s .interrupt { s with
      tasks := Function.update s.tasks s.current s.live
      kernel := some ⟨false, []⟩ }
  | callTask (hk : s.kernel = none) :
    Steps s .call { s with
      tasks := Function.update s.tasks s.current s.live
      kernel := some ⟨true, []⟩ }
  | enterHandler {pending : Bool} {cs : List C} (hk : s.kernel = some ⟨pending, cs⟩) :
    Steps s .interrupt { s with kernel := some ⟨pending, s.live :: cs⟩ }
  | run (c : C) : Steps s (.run c) { s with live := c }
  | amend (f : C → C) (c : C) (hk : s.kernel = some ⟨true, []⟩) :
    Steps s (.amend f c) { s with
      live := c
      tasks := Function.update s.tasks s.current (f (s.tasks s.current))
      kernel := some ⟨false, []⟩ }
  | switch (t : T) {pending : Bool} (hk : s.kernel = some ⟨pending, []⟩) :
    Steps s (.switch t) { s with current := t, kernel := some ⟨false, []⟩ }
  | resumeTask {pending : Bool} (hk : s.kernel = some ⟨pending, []⟩) :
    Steps s .resume { s with live := s.tasks s.current, kernel := none }
  | resumeHandler {pending : Bool} {c : C} {cs : List C} (hk : s.kernel = some ⟨pending, c :: cs⟩) :
    Steps s .resume { s with live := c, kernel := some ⟨pending, cs⟩ }

theorem steps_of_step {s s' : State T C} {e : Event T C} (h : step s e = some s') :
    Steps s e s' := by
  cases e with
  | interrupt =>
    rw [← Option.some.inj h, enter]
    cases hk : s.kernel with
    | none => exact .interruptTask hk
    | some κ => exact .enterHandler hk
  | call =>
    rw [step] at h
    split_ifs at h with hnone
    have hk : s.kernel = none := Option.isNone_iff_eq_none.mp hnone
    rw [← Option.some.inj h, enter, hk]
    exact .callTask hk
  | run c =>
    rw [← Option.some.inj h]
    exact .run c
  | amend f c =>
    rw [step] at h
    split at h
    case h_1 hk =>
      rw [← Option.some.inj h]
      exact .amend f c hk
    case h_2 => cases h
  | switch t =>
    rw [step] at h
    split at h
    case h_1 hk =>
      rw [← Option.some.inj h]
      exact .switch t hk
    case h_2 => cases h
  | resume =>
    rw [step] at h
    split at h
    case h_1 => cases h
    case h_2 hk =>
      rw [← Option.some.inj h]
      exact .resumeTask hk
    case h_3 hk =>
      rw [← Option.some.inj h]
      exact .resumeHandler hk

/-! ## A task goes on -/

/-- No call of the task `t` has yet to give its result. -/
def State.Settled (t : T) (s : State T C) : Prop :=
  ∀ cs, s.kernel = some ⟨true, cs⟩ → s.current ≠ t

/-- While the task `t` does not run its context stays. -/
theorem tasks_step {s s' : State T C} {e : Event T C} {t : T} (h : Steps s e s')
    (haway : ¬ s.Running t) (hsettled : s.Settled t) :
    s'.tasks t = s.tasks t ∧ s'.Settled t := by
  have hupdate : s.current ≠ t → ∀ c, Function.update s.tasks s.current c t = s.tasks t :=
    fun hne c => Function.update_of_ne hne.symm c s.tasks
  cases h with
  | interruptTask hk =>
    have hne : s.current ≠ t := fun heq => haway ⟨hk, heq⟩
    exact ⟨hupdate hne _, fun _ _ => hne⟩
  | callTask hk =>
    have hne : s.current ≠ t := fun heq => haway ⟨hk, heq⟩
    exact ⟨hupdate hne _, fun _ _ => hne⟩
  | enterHandler hk =>
    refine ⟨rfl, fun cs hcs => ?_⟩
    have hpending := congrArg Kernel.pending (Option.some.inj hcs)
    dsimp only at hpending
    rw [hpending] at hk
    exact hsettled _ hk
  | run c => exact ⟨rfl, hsettled⟩
  | amend f c hk =>
    have hne : s.current ≠ t := hsettled _ hk
    exact ⟨hupdate hne _, fun _ _ => hne⟩
  | switch t' hk =>
    refine ⟨rfl, fun cs hcs => ?_⟩
    exact absurd (congrArg Kernel.pending (Option.some.inj hcs)) Bool.false_ne_true
  | resumeTask hk => exact ⟨rfl, fun cs hcs => absurd hcs.symm (Option.some_ne_none _)⟩
  | resumeHandler hk =>
    refine ⟨rfl, fun cs hcs => ?_⟩
    have hpending := congrArg Kernel.pending (Option.some.inj hcs)
    dsimp only at hpending
    rw [hpending] at hk
    exact hsettled _ hk

/-- Only a return makes a task run, and what runs then is its context. -/
theorem live_of_running {s s' : State T C} {e : Event T C} {t : T} (h : Steps s e s')
    (haway : ¬ s.Running t) (hrunning : s'.Running t) : s'.live = s.tasks t := by
  obtain ⟨hkernel, hcurrent⟩ := hrunning
  cases h with
  | resumeTask hk => exact congrArg s.tasks hcurrent
  | run c => exact absurd ⟨hkernel, hcurrent⟩ haway
  | _ => cases hkernel

/-- A task goes on with the context that was put away. -/
theorem resumes_task {s s' : State T C} {es : List (Event T C)} {t : T}
    (hrun : run step s es = some s') (haway : Before step (¬ ·.Running t) s es)
    (hsettled : s.Settled t) (hstart : ¬ s.Running t) (hrunning : s'.Running t) :
    s'.live = s.tasks t := by
  have hkeep : ∀ (r : State T C) (e : Event T C) (r' : State T C),
      ¬ r.Running t ∧ r.Settled t ∧ r.tasks t = s.tasks t → step r e = some r' →
      (¬ r'.Running t ∧ r'.Settled t ∧ r'.tasks t = s.tasks t) ∨
        r'.Running t ∧ r'.live = s.tasks t := by
    intro r e r' ⟨hnot, hset, htask⟩ hstep
    have hsteps := steps_of_step hstep
    obtain ⟨htask', hset'⟩ := tasks_step hsteps hnot hset
    by_cases hback : r'.Running t
    · exact Or.inr ⟨hback, (live_of_running hsteps hnot hback).trans htask⟩
    · exact Or.inl ⟨hback, hset', htask'.trans htask⟩
  rcases run_until hkeep (fun _ hend hnot => hnot hend.1) ⟨hstart, hsettled, rfl⟩ haway hrun with
    ⟨hnot, _⟩ | ⟨_, hlive⟩
  · exact absurd hrunning hnot
  · exact hlive

/-- A call changes the contexts of tasks only in what `g` does not see. -/
def Event.Keeps {D : Type} (g : C → D) : Event T C → Prop
  | .amend f _ => ∀ c, g (f c) = g c
  | _ => True

theorem tasks_keeps {D : Type} {g : C → D} {s s' : State T C} {e : Event T C} {t : T}
    (h : Steps s e s') (haway : ¬ s.Running t) (hkeeps : e.Keeps g) :
    g (s'.tasks t) = g (s.tasks t) := by
  have hupdate : s.current ≠ t → ∀ c, Function.update s.tasks s.current c t = s.tasks t :=
    fun hne c => Function.update_of_ne hne.symm c s.tasks
  cases h with
  | interruptTask hk => exact congrArg g (hupdate (fun heq => haway ⟨hk, heq⟩) _)
  | callTask hk => exact congrArg g (hupdate (fun heq => haway ⟨hk, heq⟩) _)
  | amend f c hk =>
    by_cases heq : s.current = t
    · subst heq
      exact (congrArg g (Function.update_self ..)).trans (hkeeps _)
    · exact congrArg g (hupdate heq _)
  | _ => rfl

/-- A task that called goes on with its context, but for what the call changed. -/
theorem resumes_caller {D : Type} {g : C → D} {s s' : State T C} {es : List (Event T C)} {t : T}
    (hrun : run step s es = some s') (haway : Before step (¬ ·.Running t) s es)
    (hkeeps : ∀ e ∈ es, e.Keeps g) (hstart : ¬ s.Running t) (hrunning : s'.Running t) :
    g s'.live = g (s.tasks t) := by
  induction es generalizing s with
  | nil =>
    rw [← Option.some.inj hrun] at hrunning
    exact absurd hrunning hstart
  | cons e es ih =>
    rw [run_cons, Option.bind_eq_some_iff] at hrun
    obtain ⟨s₁, hs₁, hrest⟩ := hrun
    have hstep := steps_of_step hs₁
    have haway₁ := haway.2 s₁ hs₁
    by_cases hback : s₁.Running t
    · cases es with
      | nil =>
        rw [← Option.some.inj hrest]
        exact congrArg g (live_of_running hstep hstart hback)
      | cons e' es => exact absurd hback haway₁.1
    · rw [← tasks_keeps hstep hstart (hkeeps e (List.mem_cons_self ..))]
      exact ih hrest haway₁ (fun e' he' => hkeeps e' (List.mem_cons_of_mem e he')) hback

/-! ## A handler goes on -/

/-- A handler that waits stays where it is, or goes on with the context that was
put away. -/
theorem interrupted_step {s s' : State T C} {e : Event T C} (h : Steps s e s')
    {pending : Bool} {ds cs : List C} {c : C} (hk : s.kernel = some ⟨pending, ds ++ c :: cs⟩) :
    (∃ pending ds, s'.kernel = some ⟨pending, ds ++ c :: cs⟩) ∨
      s'.kernel = some ⟨pending, cs⟩ ∧ s'.live = c := by
  have hne : ∀ {d : List C} {p : Bool},
      s.kernel = some ⟨p, d⟩ → d = ds ++ c :: cs ∧ p = pending := by
    intro d p hd
    rw [hk] at hd
    have heq := Option.some.inj hd
    exact ⟨(congrArg Kernel.interrupted heq).symm, (congrArg Kernel.pending heq).symm⟩
  have hnil : [] ≠ ds ++ c :: cs :=
    fun heq => List.cons_ne_nil c cs (List.append_eq_nil_iff.mp heq.symm).2
  cases h with
  | interruptTask hnone => exact absurd (hk.symm.trans hnone) (Option.some_ne_none _)
  | callTask hnone => exact absurd (hk.symm.trans hnone) (Option.some_ne_none _)
  | enterHandler hk' =>
    rw [(hne hk').1]
    exact Or.inl ⟨_, s.live :: ds, rfl⟩
  | run c' => exact Or.inl ⟨pending, ds, hk⟩
  | amend f c' hk' => exact absurd (hne hk').1 hnil
  | switch t hk' => exact absurd (hne hk').1 hnil
  | resumeTask hk' => exact absurd (hne hk').1 hnil
  | resumeHandler hk' =>
    obtain ⟨hlist, hpending⟩ := hne hk'
    cases ds with
    | nil =>
      rw [List.nil_append] at hlist
      obtain ⟨hc, hcs⟩ := List.cons.inj hlist
      subst hc hcs hpending
      exact Or.inr ⟨rfl, rfl⟩
    | cons d ds =>
      rw [List.cons_append] at hlist
      rw [(List.cons.inj hlist).2]
      exact Or.inl ⟨_, ds, rfl⟩

end Interruption
