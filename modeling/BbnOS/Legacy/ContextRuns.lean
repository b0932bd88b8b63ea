import BbnOS.Legacy.ContextSteps

/-!
# Runs of the machine

The step lemma `Good.next`, and what it says of every run from the first
`restart`: the machine refines `Interruption` (`contexts_refine`), where a
context is a value, and `Interrupts` (`control_refine`), where there are none.
The results about tasks, handlers and the scheduler follow from the first two.
-/

namespace BbnOS

namespace Legacy

namespace Context

open WordStack Interruption

section Steps

variable {L : Layout} {mask₀ : BitVec 8} {k k' : Machine} {t : Threads} {s : Cpu}
  {f : Activation} {fs : List Activation}

/-- What a task or a C function may write leaves the table alone. -/
theorem writeAll_of_inTable {writes : List (UInt32 × UInt8)}
    (hwrites : ∀ w ∈ writes, k.MayWrite L w.1) {a : UInt32} (ha : L.InTable a) :
    writeAll k.memory writes a = k.memory a := by
  refine writeAll_of_ne _ fun w hw heq => ?_
  rw [← heq] at ha
  exact (hwrites w hw).1 ha

theorem writeAll_of_inUse {writes : List (UInt32 × UInt8)}
    (hwrites : ∀ w ∈ writes, k.MayWrite L w.1) (hk : k.activations = f :: fs) {a : UInt32}
    (ha : L.InUse f a) : writeAll k.memory writes a = k.memory a := by
  refine writeAll_of_ne _ fun w hw heq => ?_
  rw [← heq] at ha
  exact (hwrites w hw).2 f (by rw [hk]; rfl) ha

/-- A task, or a C function, goes on. -/
theorem Good.run (h : Good L mask₀ k t s) {r : Registers} {writes : List (UInt32 × UInt8)}
    (hr : k.registers.MayBecome L r k.activations) (hwrites : ∀ w ∈ writes, k.MayWrite L w.1) :
    Follows L k t s (.run r writes)
      { k with registers := r, memory := writeAll k.memory writes } := by
  have htable : ∀ a, L.InTable a → writeAll k.memory writes a = k.memory a :=
    fun a ha => writeAll_of_inTable hwrites ha
  refine ⟨{ t with live := r }, s, rfl, rfl, ?_, ?_⟩
  · refine ⟨h.control.port21, h.control.counter, h.control.proc, ?_, h.control.frames⟩
    rw [← h.control.flag]
    cases hk : k.activations with
    | nil => rw [hk] at hr; exact hr.1
    | cons f fs => rw [hk] at hr; exact hr.2.1
  · cases hk : k.activations with
    | nil =>
      obtain ⟨hkernel, houter, hloaded⟩ := h.holds.task hk
      rw [hk] at hr
      constructor
      case current => exact h.holds.current
      case live => exact fun _ => rfl
      case ldt => exact fun i hi => (h.holds.table htable hi).2
      case task =>
        intro _
        exact ⟨hkernel, ⟨hr.1.trans houter.1, hr.2⟩, hloaded.sp0, hloaded.ldtr,
          hloaded.pProcReady⟩
      case leaving => exact fun _ hnil => absurd hnil.symm (List.cons_ne_nil _ _)
      case tasks =>
        intro i hi hne
        rw [(h.holds.table htable hi).1]
        exact h.holds.tasks i hi fun _ => hne rfl
      case handler =>
        exact fun _ _ hcons => absurd hcons.symm (List.cons_ne_nil _ _)
    | cons f fs =>
      rw [hk] at hr
      obtain ⟨hC, _, hcs, hss, hesp⟩ := hr
      obtain ⟨κ, sp, hkernel, hbelow, hat⟩ := h.holds.handler f fs hk
      obtain ⟨hcalled, hreturn, _⟩ := hat.inC hC
      obtain ⟨_, hrestart, hreenter, _⟩ := inC_facts hC
      have hroom := h.room hk hbelow
      have hlt := L.stackTop.toNat_lt
      have hinUse : ∀ a : UInt32, (f.called.esp.toNat ≤ a.toNat ∧
          a.toNat < f.called.esp.toNat + 4) ∨
          (sp.toNat ≤ a.toNat ∧ a.toNat < L.stackTop.toNat) →
          writeAll k.memory writes a = k.memory a := by
        intro a ha
        refine writeAll_of_inUse hwrites hk ?_
        constructor <;> omega
      refine h.holds.move hk hkernel hbelow f rfl (fun _ => hreenter) htable
        (fun a hlo hhi => hinUse a (Or.inr ⟨by omega, hhi⟩)) ?_
      refine hat.inside hC hC rfl rfl hcs hss ?_ ?_ hesp
      · exact (load32_congr (by omega) fun a hlo hhi =>
          hinUse a (Or.inr ⟨hlo, by omega⟩)).trans (hat.label hrestart hreenter)
      · exact (load32_congr (by omega) fun a hlo hhi =>
          hinUse a (Or.inl ⟨hlo, hhi⟩)).trans hreturn

/-- The running routine goes on. -/
theorem Good.resume (h : Good L mask₀ k t s) (hstep : k.resume L = some k') :
    Follows L k t s .resume k' := by
  cases hk : k.activations with
  | nil => simp [Machine.resume, hk] at hstep
  | cons f fs =>
    have hfits := h.fits hk
    cases hp : f.point with
    | mask =>
      cases hf : f.routine with
      | hwint irq =>
        simp only [Machine.resume, hk, hp, hf, Option.some.injEq] at hstep
        exact hstep ▸ follows_mask h hk hp hf
      | _ => simp [Machine.resume, hk, hp, hf] at hstep
    | sti =>
      cases hf : f.routine with
      | hwint irq =>
        simp only [Machine.resume, hk, hp, hf, Option.some.injEq] at hstep
        exact hstep ▸ follows_sti h hk hp _
      | _ =>
        simp only [Machine.resume, hk, hp, hf, Option.some.injEq] at hstep
        subst hstep
        exact follows_sti h hk hp k.registers.eax
    | push =>
      cases hf : f.routine <;>
      · simp only [Machine.resume, hk, hp, hf, Option.some.injEq] at hstep
        exact hstep ▸ follows_push h hk hp _
    | call =>
      simp only [Machine.resume, hk, hp, Option.some.injEq] at hstep
      exact hstep ▸ follows_call h hk hp rfl rfl
    | test =>
      simp only [Machine.resume, hk, hp, Option.some.injEq] at hstep
      exact hstep ▸ follows_test h hk hp
    | nextProc =>
      simp only [Machine.resume, hk, hp, Option.some.injEq] at hstep
      exact hstep ▸ follows_nextProc h hk hp
    | wrapProc =>
      simp only [Machine.resume, hk, hp, Option.some.injEq] at hstep
      exact hstep ▸ follows_wrapProc h hk hp
    | done =>
      simp only [Machine.resume, hk, hp] at hstep
      exact follows_done h hk hp hstep
    | pop =>
      cases hf : f.routine with
      | hwint irq =>
        simp only [Machine.resume, hk, hp, hf, Option.some.injEq] at hstep
        exact hstep ▸ follows_pop h hk hp _ (Or.inr ⟨⟨irq, hf⟩, rfl⟩)
      | sysCall =>
        simp only [Machine.resume, hk, hp, hf, Option.some.injEq] at hstep
        subst hstep
        exact follows_pop h hk hp k.registers.ecx (Or.inl ⟨hf, rfl⟩)
      | kmain =>
        rw [hp, hf] at hfits
        cases hfits
    | store =>
      simp only [Machine.resume, hk, hp, Option.some.injEq] at hstep
      exact hstep ▸ follows_store h hk hp
    | cli =>
      cases hf : f.routine with
      | hwint irq =>
        simp only [Machine.resume, hk, hp, hf, Option.some.injEq] at hstep
        exact hstep ▸ follows_cli h hk hp (Or.inr ⟨⟨irq, hf⟩, rfl⟩)
      | sysCall =>
        simp only [Machine.resume, hk, hp, hf, Option.some.injEq] at hstep
        exact hstep ▸ follows_cli h hk hp (Or.inl ⟨hf, rfl⟩)
      | kmain =>
        rw [hp, hf] at hfits
        cases hfits
    | unmask =>
      cases hf : f.routine with
      | hwint irq =>
        simp only [Machine.resume, hk, hp, hf, Option.some.injEq] at hstep
        exact hstep ▸ follows_unmask h hk hp hf
      | _ => simp [Machine.resume, hk, hp, hf] at hstep
    | ret =>
      simp only [Machine.resume, hk, hp] at hstep
      exact follows_ret h hk hp hstep
    | restart =>
      simp only [Machine.resume, hk, hp, Option.some.injEq] at hstep
      exact hstep ▸ follows_restart h hk hp
    | restartReenter =>
      simp only [Machine.resume, hk, hp, Option.some.injEq] at hstep
      subst hstep
      cases fs with
      | nil => exact follows_leave_task h hk hp
      | cons g gs => exact follows_leave_handler h hk hp

/-- What a step does to the contexts and to the control. -/
theorem Good.step (h : Good L mask₀ k t s) {a : Action} (hstep : k.step L a = some k') :
    Follows L k t s a k' := by
  cases a with
  | irq irq =>
    simp only [Machine.step] at hstep
    split_ifs at hstep with harrive
    have hclear : s.port21.getLsbD irq.val = false := h.control.port21 ▸ harrive.2
    have hcontrol : Legacy.step s (.irq irq) = some (save (.hwint irq) .mask s) :=
      if_pos ⟨h.control.flag ▸ harrive.1, hclear⟩
    cases hk : k.activations with
    | nil =>
      obtain ⟨k₁, hk₁, hholds, hctl⟩ := h.enterTask (hwint_ne irq) hk
      rw [hk₁] at hstep
      rw [← Option.some.inj hstep]
      exact ⟨_, _, rfl, hcontrol, hctl, hholds⟩
    | cons f fs =>
      obtain ⟨k₁, hk₁, hholds, hctl, _⟩ := h.enterHandler hk harrive.1 hclear
      rw [hk₁] at hstep
      rw [← Option.some.inj hstep]
      exact ⟨_, _, rfl, hcontrol, hctl, hholds⟩
  | intSysCall =>
    simp only [Machine.step] at hstep
    split_ifs at hstep with hk
    obtain ⟨hkernel, _⟩ := h.holds.task hk
    obtain ⟨k₁, hk₁, hholds, hctl⟩ := h.enterTask (show Routine.sysCall ≠ .kmain by decide) hk
    rw [hk₁] at hstep
    rw [← Option.some.inj hstep]
    refine ⟨_, _, ?_, if_pos ((frames_eq_nil h.control).mpr hk), hctl, hholds⟩
    exact if_pos (Option.isNone_iff_eq_none.mpr hkernel)
  | run registers writes =>
    simp only [Machine.step] at hstep
    split_ifs at hstep with hmay
    rw [← Option.some.inj hstep]
    exact h.run hmay.1 hmay.2
  | resume => exact h.resume hstep

/-- What one step keeps. -/
theorem Good.next (h : Good L mask₀ k t s) {a : Action} (hstep : k.step L a = some k') :
    ∃ t' s', Interruption.step t (event L k a k') = some t' ∧ Moves s a s' ∧
      Good L mask₀ k' t' s' := by
  obtain ⟨t', s', ht', hmoves, hcontrol, hholds⟩ := h.step hstep
  refine ⟨t', s', ht', hmoves, h.stackFits, ?_, hcontrol, hholds⟩
  cases a with
  | irq irq => exact inv_step h.inv hmoves
  | intSysCall => exact inv_step h.inv hmoves
  | run registers writes =>
    rw [show s' = s from hmoves]
    exact h.inv
  | resume =>
    rcases hmoves with rfl | hmoves
    · exact h.inv
    · exact inv_step h.inv hmoves

end Steps

/-! ## Runs -/

/-- `kmain` stands at its call of `restart`, with the contexts of the tasks in the
PCBs. -/
structure AtRestart (L : Layout) (mask : BitVec 8) (k : Machine) : Prop where
  stackFits : L.StackFits mask
  cs : k.registers.cs = SELECTOR_KERNEL_CS
  ss : k.registers.ss = SELECTOR_KERNEL_DS
  flag : k.registers.interruptFlag = false
  port21 : k.port21 = mask
  counter : k.clockIntEnterTime = 0
  proc : k.pProcReady = L.procTable
  activations : ∃ called, k.activations = [⟨.kmain, .restart, called⟩]
  ldt : ∀ i, i < MAX_THREAD → load16 k.memory (L.pcb i + 72) = ldtSelector i
  tasks : ∀ i, i < MAX_THREAD → (savedOuter k.memory (L.pcb i)).Outer

instance (r : Registers) : Decidable r.Outer := inferInstanceAs (Decidable (_ ∧ _))

/-- Some layout, with a room of 512 bytes for a handler. -/
def sampleLayout : Layout where
  procTable := 0x32000
  stackSpace := 0x31000
  restart := 0x30500
  restartReenter := 0x30520
  code routine point :=
    0x30600 + UInt32.ofNat point.ctorIdx + 16 *
      match routine with
      | .hwint irq => UInt32.ofNat irq.val
      | .sysCall => 8
      | .kmain => 9
  handlerRoom := 512
  restart_ne := by decide
  procTable_lt := by decide
  stackSpace_lt := by decide
  apart := by decide

/-- A machine with that layout at its first `restart`, whose mask leaves the clock and
the keyboard open.  `cs`, `eflags` and `ldt_sel` of the PCBs are not zero. -/
def sampleMachine : Machine where
  registers :=
    { gs := 0, fs := 0, es := 0x10, ds := 0x10, edi := 0, esi := 0, ebp := 0, ebx := 0, edx := 0
      ecx := 0, eax := 0, eip := 0x30400, cs := 0x08, eflags := 0x1002, esp := 0x31700, ss := 0x10 }
  memory a :=
    let d := (a - 0x32000).toNat
    if d < MAX_THREAD * SIZEOF_PROCESS then
      match d % SIZEOF_PROCESS with
      | 56 => 0x05
      | 61 => 0x12
      | 72 => 0x28 + 8 * UInt8.ofNat (d / SIZEOF_PROCESS)
      | _ => 0
    else 0
  sp0 := 0
  ldtr := 0
  port21 := 0xFC
  clockIntEnterTime := 0
  pProcReady := 0x32000
  activations :=
    [{ routine := .kmain
       point := .restart
       called :=
        { gs := 0, fs := 0, es := 0x10, ds := 0x10, edi := 0, esi := 0, ebp := 0, ebx := 0, edx := 0
          ecx := 0, eax := 0, eip := 0, cs := 0x08, eflags := 0x02, esp := 0x31700, ss := 0x10 } }]

theorem atRestart_sample : AtRestart sampleLayout 0xFC sampleMachine where
  stackFits := by decide
  cs := rfl
  ss := rfl
  flag := rfl
  port21 := rfl
  counter := rfl
  proc := rfl
  activations := ⟨_, rfl⟩
  ldt := by decide +kernel
  tasks := by decide +kernel

/-- From the first `restart` to the first task. -/
def toTask : List Action := [.resume, .resume]

theorem isSome_toTask :
    (Runs.run (Machine.step sampleLayout) sampleMachine toTask).isSome = true := by decide +kernel

/-- The sample machine with its first task running. -/
def sampleTask : Machine :=
  (Runs.run (Machine.step sampleLayout) sampleMachine toTask).get isSome_toTask

theorem run_toTask :
    Runs.run (Machine.step sampleLayout) sampleMachine toTask = some sampleTask :=
  (Option.some_get isSome_toTask).symm

/-- The contexts at the first `restart`. -/
def threads (L : Layout) (k : Machine) : Threads where
  live := k.registers
  current := 0
  tasks i := savedOuter k.memory (L.pcb i)
  kernel := some ⟨false, []⟩

section Runs

variable {L : Layout} {mask : BitVec 8} {k₀ k k₁ k₂ : Machine} {as : List Action}

theorem pcb_zero : L.pcb 0 = L.procTable := by
  rw [Layout.pcb, Nat.mul_zero]
  exact UInt32.add_zero _

theorem AtRestart.good (h : AtRestart L mask k₀) :
    Good L mask k₀ (threads L k₀) (atRestart mask) := by
  obtain ⟨called, hactivations⟩ := h.activations
  refine ⟨h.stackFits, inv_atRestart mask,
    ⟨h.port21, h.counter, h.proc.trans pcb_zero.symm, h.flag, ?_⟩, ?_⟩
  · rw [hactivations]
    rfl
  constructor
  case current => exact show 0 < MAX_THREAD by decide
  case live => exact fun _ => rfl
  case ldt => exact h.ldt
  case task =>
    intro hnil
    rw [hactivations] at hnil
    cases hnil
  case leaving =>
    intro f hf hleave
    rw [hactivations] at hf
    rw [← (List.cons.inj hf).1] at hleave
    exact absurd hleave (show Point.restart ≠ .restartReenter by decide)
  case tasks => exact fun i hi _ => ⟨rfl, h.tasks i hi⟩
  case handler =>
    intro f fs hf
    rw [hactivations] at hf
    obtain ⟨heq, hfs⟩ := List.cons.inj hf
    subst heq hfs
    refine ⟨_, L.stackTop - 4, rfl, .nil, ?_⟩
    constructor
    case cs => exact h.cs
    case ss => exact h.ss
    case fits => rfl
    case label => exact fun hrestart => absurd rfl hrestart
    case words => exact fun n hn => absurd hn.symm (Option.some_ne_none n)
    case inC => exact fun hC => absurd hC Bool.false_ne_true
    case leave => exact fun hleave => absurd hleave (show Point.restart ≠ .restartReenter by decide)
    case esi => exact fun hsys => absurd hsys (show Routine.kmain ≠ .sysCall by decide)
    case pending =>
      intro _
      exact iff_of_false Bool.false_ne_true fun hpend => absurd hpend.2 Bool.false_ne_true

/-- Every state of every run. -/
theorem AtRestart.run (h : AtRestart L mask k₀) (hrun : Runs.run (Machine.step L) k₀ as = some k) :
    ∃ t s, Good L mask k t s :=
  Runs.run_invariant (P := fun k => ∃ t s, Good L mask k t s)
    (fun _ _ _ ⟨_, _, hgood⟩ hstep =>
      have ⟨t', s', _, _, hgood'⟩ := hgood.next hstep
      ⟨t', s', hgood'⟩)
    ⟨_, _, h.good⟩ hrun

/-- The steps of a run are the steps of `Interruption` that `event` names. -/
theorem simulates_contexts (k : Machine) (t : Threads) (a : Action) (k' : Machine)
    (h : ∃ s, Good L mask k t s) (hstep : k.step L a = some k') :
    ∃ t', Interruption.step t (event L k a k') = some t' ∧ ∃ s', Good L mask k' t' s' := by
  obtain ⟨s, hgood⟩ := h
  obtain ⟨t', s', ht', _, hgood'⟩ := hgood.next hstep
  exact ⟨t', ht', s', hgood'⟩

/-- The machine refines the one in which contexts are values. -/
theorem contexts_refine (L : Layout) (mask : BitVec 8) (k₀ k : Machine) (as : List Action)
    (hstart : AtRestart L mask k₀) (hrun : Runs.run (Machine.step L) k₀ as = some k) :
    ∃ t, Runs.run Interruption.step (threads L k₀)
        (Runs.labels (Machine.step L) (event L) k₀ as) = some t ∧ Holds L k t := by
  obtain ⟨t, ht, s, hgood⟩ := Runs.run_simulates simulates_contexts ⟨_, hstart.good⟩ hrun
  exact ⟨t, ht, hgood.holds⟩

theorem contexts_refine_toTask :
    ∃ t, Runs.run Interruption.step (threads sampleLayout sampleMachine)
        (Runs.labels (Machine.step sampleLayout) (event sampleLayout) sampleMachine toTask) =
          some t ∧ Holds sampleLayout sampleTask t :=
  contexts_refine sampleLayout 0xFC sampleMachine sampleTask toTask atRestart_sample run_toTask

/-- A step is one of `Interrupts`, or none. -/
theorem refines_control (k : Machine) (s : Cpu) (a : Action) (k' : Machine)
    (h : ∃ t, Good L mask k t s) (hstep : k.step L a = some k') :
    ∃ bs s', Runs.run Legacy.step s bs = some s' ∧ ∃ t', Good L mask k' t' s' := by
  obtain ⟨t, hgood⟩ := h
  obtain ⟨t', s', _, hmoves, hgood'⟩ := hgood.next hstep
  cases a with
  | irq irq => exact ⟨[.irq irq], s', by rw [Runs.run_cons, hmoves]; rfl, t', hgood'⟩
  | intSysCall => exact ⟨[.intSysCall], s', by rw [Runs.run_cons, hmoves]; rfl, t', hgood'⟩
  | run registers writes => exact ⟨[], s, rfl, t', hmoves ▸ hgood'⟩
  | resume =>
    rcases hmoves with hstay | hmoves
    · exact ⟨[], s, rfl, t', hstay ▸ hgood'⟩
    · exact ⟨[.resume], s', by rw [Runs.run_cons, hmoves]; rfl, t', hgood'⟩

/-- The machine refines the one without contexts. -/
theorem control_refine (L : Layout) (mask : BitVec 8) (k₀ k : Machine) (as : List Action)
    (hstart : AtRestart L mask k₀) (hrun : Runs.run (Machine.step L) k₀ as = some k) :
    ∃ bs s, Runs.run Legacy.step (atRestart mask) bs = some s ∧ Control L k s := by
  obtain ⟨bs, s, hs, t, hgood⟩ := Runs.run_refines refines_control ⟨_, hstart.good⟩ hrun
  exact ⟨bs, s, hs, hgood.control⟩

theorem control_refine_toTask :
    ∃ bs s, Runs.run Legacy.step (atRestart 0xFC) bs = some s ∧ Control sampleLayout sampleTask s :=
  control_refine sampleLayout 0xFC sampleMachine sampleTask toTask atRestart_sample run_toTask

end Runs

/-! ## Tasks go on -/

/-- The task `i` runs. -/
def Machine.Runs (L : Layout) (i : Nat) (k : Machine) : Prop :=
  k.activations = [] ∧ L.index k.pProcReady = i

section Tasks

variable {L : Layout} {mask : BitVec 8} {k k₁ k₂ : Machine} {t : Threads} {s : Cpu}

theorem kernel_eq_none (h : Good L mask k t s) : t.kernel = none ↔ k.activations = [] := by
  cases hk : k.activations with
  | nil => exact iff_of_true (h.holds.task hk).1 rfl
  | cons f fs =>
    obtain ⟨κ, sp, hkernel, _, _⟩ := h.holds.handler f fs hk
    rw [hkernel]
    exact iff_of_false (Option.some_ne_none κ) (List.cons_ne_nil f fs)

theorem runs_iff (h : Good L mask k t s) (i : Nat) : k.Runs L i ↔ t.Running i := by
  rw [Machine.Runs, State.Running, kernel_eq_none h]
  refine and_congr_right fun hk => ?_
  rw [(h.holds.task hk).2.2.pProcReady, index_pcb h.holds.current]

/-- No step changes more of a task's context than `eax`. -/
theorem event_keeps (k : Machine) (a : Action) (k' : Machine) :
    (event L k a k').Keeps fun r : Registers => { r with eax := 0 } := by
  cases a with
  | resume =>
    cases hk : k.activations with
    | nil => simp [event, hk, Event.Keeps]
    | cons f fs => cases hp : f.point <;> simp [event, hk, hp, Event.Keeps]
  | _ => trivial

/-- A task that leaves its context to the kernel finds it again: all of it after
an interrupt, and all but `eax` after a system call. -/
theorem task_resumes (L : Layout) (mask : BitVec 8) (k₀ k k₁ k₂ : Machine)
    (as bs : List Action) (a : Action) (i : Nat) (hstart : AtRestart L mask k₀)
    (hrun : Runs.run (Machine.step L) k₀ as = some k) (hruns : k.Runs L i)
    (hstep : k.step L a = some k₁) (haway : Runs.Before (Machine.step L) (¬ ·.Runs L i) k₁ bs)
    (hleaves : ¬ k₁.Runs L i) (hback : Runs.run (Machine.step L) k₁ bs = some k₂)
    (hruns₂ : k₂.Runs L i) :
    { k₂.registers with eax := k.registers.eax } = k.registers ∧
      (a ≠ .intSysCall → k₂.registers = k.registers) := by
  obtain ⟨t, s, hgood⟩ := hstart.run hrun
  obtain ⟨t₁, s₁, ht₁, _, hgood₁⟩ := hgood.next hstep
  obtain ⟨t₂, ht₂, s₂, hgood₂⟩ := Runs.run_simulates simulates_contexts ⟨s₁, hgood₁⟩ hback
  have hrunning := (runs_iff hgood i).mp hruns
  have haway' : Runs.Before Interruption.step (¬ ·.Running i) t₁
      (Runs.labels (Machine.step L) (event L) k₁ bs) :=
    Runs.before_labels simulates_contexts
      (fun k t ⟨s, hgood⟩ hnot hruns => hnot ((runs_iff hgood i).mpr hruns)) ⟨s₁, hgood₁⟩ haway
  have hleaves' : ¬ t₁.Running i := fun h => hleaves ((runs_iff hgood₁ i).mpr h)
  have hback' := (runs_iff hgood₂ i).mp hruns₂
  have hlive₂ : t₂.live = k₂.registers := by
    obtain ⟨_, houter, _⟩ := hgood₂.holds.task hruns₂.1
    exact hgood₂.holds.live houter.1
  have hlive : t.live = k.registers := by
    obtain ⟨_, houter, _⟩ := hgood.holds.task hruns.1
    exact hgood.holds.live houter.1
  -- the step is an entry, since only an entry leaves the task
  have hentry : ∃ pending, t₁ = Interruption.enter pending t ∧
      (a ≠ .intSysCall → pending = false) := by
    cases a with
    | irq irq => exact ⟨false, (Option.some.inj ht₁).symm, fun _ => rfl⟩
    | intSysCall =>
      refine ⟨true, ?_, fun hne => absurd rfl hne⟩
      exact ((Option.some.inj ((if_pos (by rw [hrunning.1]; rfl)).symm.trans ht₁))).symm
    | run registers writes =>
      rw [← Option.some.inj ht₁] at hleaves'
      exact absurd hrunning hleaves'
    | resume =>
      rw [Machine.step, Machine.resume, hruns.1] at hstep
      cases hstep
  obtain ⟨pending, rfl, hpending⟩ := hentry
  have htasks : (Interruption.enter pending t).tasks i = k.registers := by
    rw [Interruption.enter_task hrunning.1, ← hrunning.2]
    exact (Function.update_self ..).trans hlive
  refine ⟨?_, fun hne => ?_⟩
  · have hkept := Interruption.resumes_caller (g := fun r : Registers => { r with eax := 0 })
      ht₂ haway' (fun e he => ?_) hleaves' hback'
    · rw [hlive₂, htasks] at hkept
      exact congrArg (fun r : Registers => { r with eax := k.registers.eax }) hkept
    · obtain ⟨k', a', k'', rfl⟩ := Runs.exists_of_mem_labels he
      exact event_keeps k' a' k''
  · rw [← hlive₂, ← htasks]
    refine Interruption.resumes_task ht₂ haway' ?_ hleaves' hback'
    intro cs hcs
    rw [Interruption.enter_task hrunning.1, hpending hne] at hcs
    exact absurd (congrArg Kernel.pending (Option.some.inj hcs)) Bool.false_ne_true

instance (L : Layout) (i : Nat) (k : Machine) : Decidable (k.Runs L i) :=
  inferInstanceAs (Decidable (_ ∧ _))

/-- The machine after a run of the sample layout. -/
def sampleAfter (k : Machine) (as : List Action) : Machine :=
  (Runs.run (Machine.step sampleLayout) k as).getD k

theorem run_sampleAfter {k : Machine} {as : List Action}
    (h : (Runs.run (Machine.step sampleLayout) k as).isSome = true) :
    Runs.run (Machine.step sampleLayout) k as = some (sampleAfter k as) := by
  obtain ⟨k', hk'⟩ := Option.isSome_iff_exists.mp h
  rw [sampleAfter, hk']
  rfl

theorem step_sampleAfter {k : Machine} {a : Action}
    (h : (k.step sampleLayout a).isSome = true) :
    k.step sampleLayout a = some (sampleAfter k [a]) := by
  obtain ⟨k', hk'⟩ := Option.isSome_iff_exists.mp h
  rw [sampleAfter, Runs.run, hk']
  rfl

/-- The keyboard interrupts the first task. -/
theorem task_resumes_keyboard :
    (sampleAfter (sampleAfter sampleTask [.irq keyboardIrq])
      (List.replicate 12 .resume)).registers = sampleTask.registers :=
  (task_resumes sampleLayout 0xFC sampleMachine sampleTask _ _ toTask (List.replicate 12 .resume)
    (.irq keyboardIrq) 0 atRestart_sample run_toTask (by decide +kernel)
    (step_sampleAfter (by decide +kernel)) (by decide +kernel) (by decide +kernel)
    (run_sampleAfter (by decide +kernel)) (by decide +kernel)).2 Action.noConfusion

end Tasks

end Context

end Legacy

end BbnOS
