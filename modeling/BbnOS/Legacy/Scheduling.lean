import BbnOS.Legacy.ContextRuns

/-!
# The scheduler

`clock_handler` moves `p_proc_ready` when it was entered from a task, and the
next `restart` switches to the task it points to.  `round_robin` counts the
clock interrupts of a run that found a task running: the task that runs is
their number modulo `MAX_THREAD`.  Where IRQ 0 is masked to begin with there are
none of them.
-/

namespace BbnOS

namespace Legacy

/-! ## The moves that are due -/

/-- The moves of `p_proc_ready` that a frame at the bottom has yet to make. -/
def Frame.due (f : Frame) : Nat :=
  match f.stage with
  | .mask | .sti | .handler => if f.routine = .hwint clockIrq then 1 else 0
  | .nextProc => 1
  | _ => 0

/-- The moves of `p_proc_ready` that are due. -/
def due : List Frame → Nat
  | [] => 0
  | [f] => f.due
  | _ :: fs => due fs

theorem due_cons {f : Frame} {fs : List Frame} (hfs : fs ≠ []) : due (f :: fs) = due fs := by
  obtain ⟨g, gs, rfl⟩ := List.exists_cons_of_ne_nil hfs
  rfl

section Due

variable {mask₀ : BitVec 8} {s s' : Cpu} {f : Frame} {fs : List Frame}

theorem due_goto {st : Stage} (h : fs = [] → (f.at st).due = f.due) {c : Cpu} :
    due (goto f fs st c).frames = due (f :: fs) := by
  cases fs with
  | nil => exact h rfl
  | cons g gs => rfl

/-- Of the interrupts, only the clock moves `p_proc_ready`. -/
theorem due_entered (irq : Fin 8) (s : Cpu) :
    (entered (.hwint irq) .mask s).due = if irq = clockIrq then 1 else 0 := by
  rw [entered, Frame.due]
  exact if_congr ⟨Routine.hwint.inj, congrArg Routine.hwint⟩ rfl rfl

/-- The clock handler at depth one goes on to the switch, and no other handler. -/
theorem due_enterHandler (h : Inv mask₀ s) (hf : s.frames = [f]) (hst : f.stage = .handler) :
    (f.at (enterHandler f.routine s)).due = f.due := by
  have hzero : s.clockIntEnterTime = 0 := h.counter_eq_zero_iff.mpr (by rw [hf]; rfl)
  rw [Frame.due, Frame.due, hst, Frame.at]
  cases hr : f.routine with
  | hwint irq =>
    rw [enterHandler]
    by_cases hclock : irq = clockIrq
    · subst hclock
      rw [show irqTable clockIrq = .clockHandler by decide]
      simp [hzero]
    · have hne : irqTable irq ≠ .clockHandler := by
        rw [irqTable, if_neg (show irq ≠ 0 from hclock)]
        split_ifs <;> decide
      have hroutine : Routine.hwint irq ≠ .hwint clockIrq :=
        fun heq => hclock (Routine.hwint.inj heq)
      cases htable : irqTable irq with
      | clockHandler => exact absurd htable hne
      | keyboardHandler => exact (if_neg hroutine).symm
      | commonIrq => exact (if_neg hroutine).symm
  | kmain => rfl
  | sysCall => rfl

/-- What the running routine does to `p_proc_ready`. -/
theorem due_resume (h : Inv mask₀ s) (hstep : resume s = some s') :
    (s'.pProcReady + due s'.frames) % MAX_THREAD =
      (s.pProcReady + due s.frames) % MAX_THREAD := by
  obtain ⟨f, fs, hf, hresumes⟩ := resumes_of_resume hstep
  have hnested := h.nested
  rw [hf] at hnested
  have hgoto : ∀ {st : Stage} {c : Cpu}, c.pProcReady = s.pProcReady →
      (fs = [] → (f.at st).due = f.due) →
      ((goto f fs st c).pProcReady + due (goto f fs st c).frames) % MAX_THREAD =
        (s.pProcReady + due s.frames) % MAX_THREAD := by
    intro st c hproc hdue
    rw [due_goto hdue, hf, ← hproc]
    rfl
  cases hresumes with
  | mask hst _ => exact hgoto rfl fun _ => by rw [Frame.due, Frame.due, hst]; rfl
  | sti hst => exact hgoto rfl fun _ => by rw [Frame.due, Frame.due, hst]; rfl
  | handler hst => exact hgoto rfl fun hnil => due_enterHandler h (hnil ▸ hf) hst
  | nextProc hst =>
    obtain rfl : fs = [] := hnested.1.moves (by rw [hst]; rfl)
    have hone : due s.frames = 1 := by
      rw [hf, due, Frame.due, hst]
    rw [hone]
    rfl
  | wrapProc hst =>
    obtain rfl : fs = [] := hnested.1.moves (by rw [hst]; rfl)
    have hzero : due s.frames = 0 := by
      rw [hf, due, Frame.due, hst]
    rw [hzero]
    change ((if s.pProcReady ≥ MAX_THREAD then 0 else s.pProcReady) + 0) % MAX_THREAD = _
    rcases h.proc with hlt | ⟨heq, _⟩
    · rw [if_neg (Nat.not_le_of_lt hlt)]
    · rw [heq]
      rfl
  | cliIrq hst _ => exact hgoto rfl fun _ => by rw [Frame.due, Frame.due, hst]; rfl
  | cliRet hst _ => exact hgoto rfl fun _ => by rw [Frame.due, Frame.due, hst]; rfl
  | unmask hst _ => exact hgoto rfl fun _ => by rw [Frame.due, Frame.due, hst]; rfl
  | retRestart hst _ => exact hgoto rfl fun _ => by rw [Frame.due, Frame.due, hst]; rfl
  | retReenter hst _ => exact hgoto rfl fun _ => by rw [Frame.due, Frame.due, hst]; rfl
  | restart hst => exact hgoto rfl fun _ => by rw [Frame.due, Frame.due, hst]; rfl
  | leave hst =>
    rw [hf]
    cases fs with
    | nil =>
      have hzero : due [f] = 0 := by
        rw [due, Frame.due, hst]
      rw [hzero]
      rfl
    | cons g gs => rfl

end Due

/-! ## Round robin -/

namespace Context

/-- A clock interrupt finds a task running. -/
def tick (k : Machine) (a : Action) : Nat :=
  match a with
  | .irq irq => if irq = clockIrq ∧ k.activations = [] then 1 else 0
  | _ => 0

section Ticks

variable {L : Layout} {mask : BitVec 8} {k k' : Machine} {s s' : Cpu} {a : Action} {n : Nat}

/-- `p_proc_ready` after `n` ticks. -/
def Turn (s : Cpu) (n : Nat) : Prop := (s.pProcReady + due s.frames) % MAX_THREAD = n % MAX_THREAD

theorem Turn.save {routine : Routine} {st : Stage} (h : Turn s n)
    (hdue : s.frames = [] → (entered routine st s).due = tick k a)
    (hnone : s.frames ≠ [] → tick k a = 0) : Turn (save routine st s) (n + tick k a) := by
  rw [Turn, frames_save]
  change (s.pProcReady + _) % MAX_THREAD = _
  cases hf : s.frames with
  | nil =>
    rw [Turn, hf, due, Nat.add_zero] at h
    rw [due, hdue hf, Nat.add_mod, h, ← Nat.add_mod]
  | cons f fs =>
    rw [due_cons (List.cons_ne_nil f fs), hnone (hf ▸ List.cons_ne_nil f fs), ← hf]
    exact h

theorem Turn.step {t : Threads} (h : Turn s n) (hgood : Good L mask k t s) (hmoves : Moves s a s') :
    Turn s' (n + tick k a) := by
  have hnil := frames_eq_nil hgood.control
  cases a with
  | irq irq =>
    have hstep : Legacy.step s (.irq irq) = some s' := hmoves
    rw [Legacy.step] at hstep
    split_ifs at hstep with harrive
    rw [← Option.some.inj hstep]
    refine h.save (fun hf => ?_) fun hf => ?_
    · rw [due_entered, tick]
      exact if_congr (iff_self_and.mpr fun _ => hnil.mp hf) rfl rfl
    · exact if_neg fun hboth => hf (hnil.mpr hboth.2)
  | intSysCall =>
    have hstep : Legacy.step s .intSysCall = some s' := hmoves
    rw [Legacy.step] at hstep
    split_ifs at hstep with hframes
    rw [← Option.some.inj hstep]
    exact h.save (fun _ => rfl) fun _ => rfl
  | run registers writes =>
    rw [show s' = s from hmoves]
    exact h
  | resume =>
    rcases hmoves with rfl | hstep
    · exact h
    · exact (due_resume hgood.inv hstep).trans h

/-- The ticks of a run give the turn. -/
theorem AtRestart.turn {k₀ : Machine} {as : List Action} (hstart : AtRestart L mask k₀)
    (hrun : Runs.run (Machine.step L) k₀ as = some k) :
    ∃ t s, Good L mask k t s ∧ Turn s (Runs.total (Machine.step L) tick k₀ as) := by
  have hend := Runs.run_total tick (P := fun k n => ∃ t s, Good L mask k t s ∧ Turn s n)
    (fun k n a k' ⟨t, s, hgood, hturn⟩ hstep =>
      have ⟨t', s', _, hmoves, hgood'⟩ := hgood.next hstep
      ⟨t', s', hgood', hturn.step hgood hmoves⟩)
    ⟨_, _, hstart.good, show Turn (atRestart mask) 0 from rfl⟩ hrun
  rw [Nat.zero_add] at hend
  exact hend

/-- The task that runs is the one whose turn it is. -/
theorem Turn.runs {t : Threads} (h : Turn s n) (hgood : Good L mask k t s)
    (hk : k.activations = []) :
    k.Runs L (n % MAX_THREAD) ∧ Loaded L k (n % MAX_THREAD) := by
  have hframes := (frames_eq_nil hgood.control).mpr hk
  obtain ⟨_, _, hloaded⟩ := hgood.holds.task hk
  have hlt : s.pProcReady < MAX_THREAD := by
    rcases hgood.inv.proc with hlt | ⟨_, hbottom⟩
    · exact hlt
    · rw [bottomStage, hframes] at hbottom
      cases hbottom
  have hproc : s.pProcReady = n % MAX_THREAD := by
    rw [Turn, hframes, due, Nat.add_zero, Nat.mod_eq_of_lt hlt] at h
    exact h
  have hcurrent : t.current = n % MAX_THREAD := by
    rw [← hproc, ← index_pcb (L := L) hgood.holds.current, ← index_pcb (L := L) hlt,
      ← hloaded.pProcReady, ← hgood.control.proc]
  rw [hcurrent] at hloaded
  refine ⟨⟨hk, ?_⟩, hloaded⟩
  rw [hloaded.pProcReady, ← hproc, index_pcb hlt]

/-- Whenever a task runs, it is the one whose turn it is, and the TSS and the LDT
register are its own. -/
theorem round_robin (L : Layout) (mask : BitVec 8) (k₀ k : Machine) (as : List Action)
    (hstart : AtRestart L mask k₀) (hrun : Runs.run (Machine.step L) k₀ as = some k)
    (hk : k.activations = []) :
    let i := Runs.total (Machine.step L) tick k₀ as % MAX_THREAD
    k.Runs L i ∧ k.sp0 = L.pcb i + 72 ∧ k.ldtr = ldtSelector i := by
  obtain ⟨t, s, hgood, hturn⟩ := hstart.turn hrun
  obtain ⟨hruns, hloaded⟩ := hturn.runs hgood hk
  exact ⟨hruns, hloaded.sp0, hloaded.ldtr⟩

/-- A run with one tick. -/
theorem round_robin_tick :
    (sampleAfter sampleMachine (toTask ++ .irq clockIrq :: List.replicate 14 .resume)).Runs
      sampleLayout (Runs.total (Machine.step sampleLayout) tick sampleMachine
        (toTask ++ .irq clockIrq :: List.replicate 14 .resume) % MAX_THREAD) :=
  (round_robin sampleLayout 0xFC sampleMachine _ _ atRestart_sample
    (run_sampleAfter (by decide +kernel)) (by decide +kernel)).1

/-- While IRQ 0 is masked to begin with it never arrives. -/
theorem Good.not_clock {t : Threads} (h : Good L mask k t s) (hmask : mask.getLsbD 0 = true) :
    k.step L (.irq clockIrq) = none := by
  rw [Machine.step]
  refine if_neg fun harrive => ?_
  have hbit := h.inv.mask clockIrq
  rw [← h.control.port21, harrive.2, show clockIrq.val = 0 from rfl, hmask] at hbit
  cases hbit

/-- Where IRQ 0 is masked to begin with there are no ticks. -/
theorem AtRestart.total_tick {k₀ : Machine} {as : List Action} (hstart : AtRestart L mask k₀)
    (hmask : mask.getLsbD 0 = true) (hrun : Runs.run (Machine.step L) k₀ as = some k) :
    Runs.total (Machine.step L) tick k₀ as = 0 := by
  obtain ⟨_, hzero⟩ := Runs.run_total tick
    (P := fun k n => (∃ t s, Good L mask k t s) ∧ n = 0)
    (fun k n a k' ⟨⟨t, s, hgood⟩, hn⟩ hstep => by
      obtain ⟨t', s', _, _, hgood'⟩ := hgood.next hstep
      refine ⟨⟨t', s', hgood'⟩, ?_⟩
      rw [hn, Nat.zero_add]
      cases a with
      | irq irq =>
        refine if_neg fun hboth => ?_
        rw [hboth.1, hgood.not_clock hmask] at hstep
        cases hstep
      | _ => rfl)
    ⟨⟨_, _, hstart.good⟩, rfl⟩ hrun
  rw [Nat.zero_add] at hzero
  exact hzero

end Ticks

end Context

end Legacy

end BbnOS
