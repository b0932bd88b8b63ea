import BbnOS.Legacy.ContextSwitch

/-!
# The steps of the machine keep the contexts

The steps of `Good.step`, one by one: what a step of the machine does to the contexts is
what its `event` says, and to the control a step of `Interrupts`, or nothing.
-/

namespace BbnOS

namespace Legacy

namespace Context

open WordStack Interruption

section Moves

variable {L : Layout} {mask₀ : BitVec 8} {k k' : Machine} {t : Threads} {s : Cpu}
  {f f' : Activation} {fs : List Activation} {κ : Kernel Registers} {sp : UInt32}

/-- The kernel stack has room below the label, for two words and a handler. -/
theorem Good.room (h : Good L mask₀ k t s) (hk : k.activations = f :: fs)
    (hbelow : Below L k.memory t.current κ.pending fs κ.interrupted sp) :
    L.stackSpace.toNat + 8 + L.handlerRoom ≤ sp.toNat ∧ sp.toNat + 4 ≤ L.stackTop.toNat := by
  have hdepth := h.inv.length_frames_le
  rw [h.control.frames_cons hk, List.length_cons, length_frames] at hdepth
  have hbounds := hbelow.sp_bounds
  have htop := L.toNat_stackTop
  have hroom := h.stackFits
  have hmul := Nat.mul_le_mul_right (76 + L.handlerRoom)
    (show fs.length ≤ (openIrqs mask₀).length by omega)
  unfold Layout.StackFits at hroom
  omega

/-- The running routine goes on, and no context changes but its own. -/
theorem Holds.move (h : Holds L k t) (hk : k.activations = f :: fs) (hkernel : t.kernel = some κ)
    (hbelow : Below L k.memory t.current κ.pending fs κ.interrupted sp) (f' : Activation)
    (hact : k'.activations = f' :: fs) (hleaving : fs = [] → f'.point ≠ .restartReenter)
    (htable : ∀ a : UInt32, L.InTable a → k'.memory a = k.memory a)
    (habove : ∀ a : UInt32, sp.toNat + 4 ≤ a.toNat → a.toNat < L.stackTop.toNat →
      k'.memory a = k.memory a)
    (hat : At L k'.memory t.current κ.pending fs f' k'.registers sp) :
    Holds L k' { t with live := k'.registers } where
  current := h.current
  live := fun _ => rfl
  ldt := fun i hi => (h.table htable hi).2
  task := by
    intro hnil
    rw [hact] at hnil
    cases hnil
  leaving := by
    intro g hg hleave
    rw [hact] at hg
    obtain ⟨heq, hnil⟩ := List.cons.inj hg
    rw [← heq] at hleave
    exact absurd hleave (hleaving hnil)
  tasks := by
    intro i hi _
    rw [(h.table htable hi).1]
    exact h.tasks i hi fun hnil => absurd (hk.symm.trans hnil) (List.cons_ne_nil _ _)
  handler := by
    intro g gs hg
    rw [hact] at hg
    obtain ⟨heq, hgs⟩ := List.cons.inj hg
    subst heq hgs
    exact ⟨κ, sp, hkernel, hbelow.congr habove, hat⟩

/-- What a routine keeps in `esi`. -/
def Activation.esi (f : Activation) (r : Registers) : UInt32 :=
  if f.point.inC then f.called.esi else r.esi

theorem ne_of_words {p : Point} {n : Nat} (hwords : p.words = some n) : p ≠ .restartReenter := by
  intro hp
  rw [hp] at hwords
  cases hwords

/-- A move to a place of the assembler code before the `ret`. -/
theorem At.flat {m m' : Bytes} {current : Nat} {pending : Bool} {r r' : Registers}
    (h : At L m current pending fs f r sp) (hroutine : f'.routine = f.routine)
    (hcs : r'.cs = r.cs) (hss : r'.ss = r.ss)
    (hfits : f'.point.fits f.routine = true) (hlabel : load32 m' sp = L.label fs) {n : Nat}
    (hwords : f'.point.words = some n) (hesp : r'.esp.toNat + 4 * n = sp.toNat)
    (hesi : f.routine = .sysCall → f'.point.beforeStore = true → r'.esi = f.esi r)
    (hbefore : f.routine = .sysCall → f'.point.beforeStore = f.point.beforeStore) :
    At L m' current pending fs f' r' sp := by
  have hC : f'.point.inC = false := by
    cases hp : f'.point <;> rw [hp] at hwords <;> first | rfl | cases hwords
  constructor
  case cs => exact hcs.trans h.cs
  case ss => exact hss.trans h.ss
  case fits => rw [hroutine]; exact hfits
  case label => exact fun _ _ => hlabel
  case words =>
    intro n' hn'
    rw [hwords] at hn'
    rw [← Option.some.inj hn']
    exact hesp
  case inC =>
    intro hC'
    rw [hC] at hC'
    cases hC'
  case leave => exact fun hp => absurd hp (ne_of_words hwords)
  case esi =>
    rw [hroutine, hC]
    intro hsys hstore
    have hold := h.esi hsys ((hbefore hsys).symm.trans hstore)
    exact (hesi hsys hstore).trans hold
  case pending =>
    intro hfs
    rw [hroutine, h.pending hfs]
    exact and_congr_right fun hsys => by rw [hbefore hsys]

/-- What the places inside a C function have in common. -/
theorem inC_facts {p : Point} (hp : p.inC = true) :
    p.words = none ∧ p ≠ .restart ∧ p ≠ .restartReenter ∧ p.beforeStore = true := by
  cases p <;> first
    | exact absurd hp Bool.false_ne_true
    | exact ⟨rfl, by decide, by decide, rfl⟩

theorem fits_of_inC {p : Point} (hp : p.inC = true) (routine : Routine) :
    p.fits routine = decide (routine ≠ .kmain) := by
  cases p <;> cases routine <;> first
    | exact absurd hp Bool.false_ne_true
    | rfl

/-- A move inside a C function. -/
theorem At.inside {m m' : Bytes} {current : Nat} {pending : Bool} {r r' : Registers}
    (h : At L m current pending fs f r sp) (hC : f.point.inC = true)
    (hC' : f'.point.inC = true) (hroutine : f'.routine = f.routine)
    (hcalled : f'.called = f.called) (hcs : r'.cs = r.cs) (hss : r'.ss = r.ss)
    (hlabel : load32 m' sp = L.label fs)
    (hreturn : load32 m' f.called.esp = L.code f.routine .pop)
    (hesp : r'.esp.toNat ≤ f.called.esp.toNat ∧
      f.called.esp.toNat ≤ r'.esp.toNat + L.handlerRoom) :
    At L m' current pending fs f' r' sp := by
  obtain ⟨hwords, _, hreenter, hstore⟩ := inC_facts hC'
  obtain ⟨_, _, _, hstore₀⟩ := inC_facts hC
  constructor
  case cs => exact hcs.trans h.cs
  case ss => exact hss.trans h.ss
  case fits =>
    rw [hroutine, fits_of_inC hC', ← fits_of_inC hC]
    exact h.fits
  case label => exact fun _ _ => hlabel
  case words =>
    intro n hn
    rw [hwords] at hn
    cases hn
  case inC =>
    intro _
    rw [hcalled, hroutine]
    exact ⟨(h.inC hC).1, hreturn, hesp⟩
  case leave => exact fun hp => absurd hp hreenter
  case esi =>
    intro hsys _
    rw [hroutine] at hsys
    have hold := h.esi hsys hstore₀
    rw [if_pos hC] at hold
    rw [if_pos hC', hcalled]
    exact hold
  case pending =>
    intro hfs
    rw [hroutine, hstore, h.pending hfs, hstore₀]

/-- The label of a routine before its `ret`. -/
theorem At.label_of_words {m : Bytes} {current : Nat} {pending : Bool} {r : Registers}
    (h : At L m current pending fs f r sp) {n : Nat} (hwords : f.point.words = some n) :
    load32 m sp = L.label fs := by
  refine h.label ?_ ?_ <;>
  · intro hp
    rw [hp] at hwords
    cases hwords

/-- A move that leaves the memory alone, between places of the assembler code. -/
theorem Good.quiet (h : Good L mask₀ k t s) (hk : k.activations = f :: fs) (f' : Activation)
    (hact : k'.activations = f' :: fs) (hmemory : k'.memory = k.memory)
    (hroutine : f'.routine = f.routine) (hcs : k'.registers.cs = k.registers.cs)
    (hss : k'.registers.ss = k.registers.ss) (hesi : k'.registers.esi = k.registers.esi)
    (hfits : f'.point.fits f.routine = true) {n₀ n : Nat} (hwords₀ : f.point.words = some n₀)
    (hwords : f'.point.words = some n)
    (hesp : k'.registers.esp.toNat + 4 * n = k.registers.esp.toNat + 4 * n₀)
    (hbefore : f.routine = .sysCall → f'.point.beforeStore = f.point.beforeStore) :
    Holds L k' { t with live := k'.registers } := by
  obtain ⟨κ, sp, hkernel, hbelow, hat⟩ := h.holds.handler f fs hk
  have hC : f.point.inC = false := by
    cases hp : f.point <;> rw [hp] at hwords₀ <;> first | rfl | cases hwords₀
  refine h.holds.move hk hkernel hbelow f' hact (fun _ => ne_of_words hwords)
    (fun a _ => by rw [hmemory]) (fun a _ _ => by rw [hmemory]) ?_
  refine hat.flat hroutine hcs hss hfits ?_ hwords (hesp.trans (hat.words n₀ hwords₀)) ?_ hbefore
  · rw [hmemory]
    exact hat.label_of_words hwords₀
  · intro _ _
    rw [Activation.esi, hC]
    exact hesi

/-- A move inside a C function that leaves the memory and the registers alone,
but for `eip`. -/
theorem Good.inside (h : Good L mask₀ k t s) (hk : k.activations = f :: fs) (f' : Activation)
    (hact : k'.activations = f' :: fs) (hmemory : k'.memory = k.memory)
    (hC : f.point.inC = true) (hC' : f'.point.inC = true) (hroutine : f'.routine = f.routine)
    (hcalled : f'.called = f.called) (hcs : k'.registers.cs = k.registers.cs)
    (hss : k'.registers.ss = k.registers.ss) (hesp : k'.registers.esp = k.registers.esp) :
    Holds L k' { t with live := k'.registers } := by
  obtain ⟨κ, sp, hkernel, hbelow, hat⟩ := h.holds.handler f fs hk
  obtain ⟨_, hrestart, hreenter, _⟩ := inC_facts hC
  obtain ⟨_, hreturn, hroom⟩ := hat.inC hC
  refine h.holds.move hk hkernel hbelow f' hact (fun _ => (inC_facts hC').2.2.1)
    (fun a _ => by rw [hmemory]) (fun a _ _ => by rw [hmemory]) ?_
  refine hat.inside hC hC' hroutine hcalled hcs hss ?_ ?_ ?_
  · rw [hmemory]
    exact hat.label hrestart hreenter
  · rw [hmemory]
    exact hreturn
  · rw [hesp]
    exact hroom

/-- What a push below the label changes. -/
theorem Good.push (h : Good L mask₀ k t s) (hk : k.activations = f :: fs)
    (hbelow : Below L k.memory t.current κ.pending fs κ.interrupted sp)
    (hesp : k.registers.esp.toNat ≤ sp.toNat) (hlow : sp.toNat ≤ k.registers.esp.toNat + 4)
    (v : UInt32) :
    (k.registers.esp - 4).toNat + 4 = k.registers.esp.toNat ∧
      (∀ a : UInt32, L.InTable a → store32 k.memory (k.registers.esp - 4) v a = k.memory a) ∧
      ∀ a : UInt32, k.registers.esp.toNat ≤ a.toNat →
        store32 k.memory (k.registers.esp - 4) v a = k.memory a := by
  have hroom := h.room hk hbelow
  have hsub := toNat_sub_of_le (a := k.registers.esp) (k := 4) (by omega)
  rw [show UInt32.ofNat 4 = 4 from rfl] at hsub
  have hlt := k.registers.esp.toNat_lt
  refine ⟨by omega, ?_, ?_⟩
  · intro a ha
    refine store32_of_outside _ _ (by omega) ?_
    by_contra hin
    exact not_inTable_of_stack (L := L) (a := a) (by omega) (by omega) ha
  · intro a ha
    exact store32_of_outside _ _ (by omega) (by omega)

end Moves

/-! ## Going on -/

/-- What a step is to the control: an entry is one there too, and a routine that
goes on may stand at the same place. -/
def Moves (s : Cpu) (a : Action) (s' : Cpu) : Prop :=
  match a with
  | .irq irq => Legacy.step s (.irq irq) = some s'
  | .intSysCall => Legacy.step s .intSysCall = some s'
  | .run _ _ => s' = s
  | .resume => s' = s ∨ Legacy.step s .resume = some s'

/-- What a step is to the contexts and to the control. -/
def Follows (L : Layout) (k : Machine) (t : Threads) (s : Cpu) (a : Action) (k' : Machine) : Prop :=
  ∃ t' s', Interruption.step t (event L k a k') = some t' ∧ Moves s a s' ∧
    Control L k' s' ∧ Holds L k' t'

section Resume

variable {L : Layout} {mask₀ : BitVec 8} {k k' : Machine} {t : Threads} {s : Cpu}
  {f f' : Activation} {fs : List Activation}

/-- The running routine goes to another place of `Interrupts`. -/
theorem control_goto (f' : Activation) (hact : k'.activations = f' :: fs)
    (hroutine : f'.routine = f.routine) {c : Cpu} (hport : k'.port21 = c.port21)
    (hcounter : k'.clockIntEnterTime = c.clockIntEnterTime)
    (hproc : k'.pProcReady = L.pcb c.pProcReady)
    (hflag : k'.registers.interruptFlag = c.interruptFlag) :
    Control L k' (Legacy.goto (frame fs f) (Context.frames fs) f'.point.stage c) := by
  refine ⟨hport, hcounter, hproc, hflag, ?_⟩
  rw [hact]
  change frame fs f' :: _ = _
  rw [frame.eq_def, hroutine]
  rfl

/-- The running routine stays at its place of `Interrupts`. -/
theorem Control.stay (h : Control L k s) (hk : k.activations = f :: fs) (f' : Activation)
    (hact : k'.activations = f' :: fs) (hroutine : f'.routine = f.routine)
    (hstage : f'.point.stage = f.point.stage) (hport : k'.port21 = k.port21)
    (hcounter : k'.clockIntEnterTime = k.clockIntEnterTime)
    (hproc : k'.pProcReady = k.pProcReady)
    (hflag : k'.registers.interruptFlag = k.registers.interruptFlag) : Control L k' s := by
  refine ⟨hport.trans h.port21, hcounter.trans h.counter, hproc.trans h.proc,
    hflag.trans h.flag, ?_⟩
  rw [h.frames_cons hk, hact]
  change frame fs f' :: _ = _
  rw [frame.eq_def, frame.eq_def fs f, hroutine, hstage]

/-- The context that runs changes, and no other. -/
theorem follows_run (s' : Cpu) (hevent : event L k .resume k' = .run k'.registers)
    (hstep : s' = s ∨ Legacy.step s .resume = some s') (hcontrol : Control L k' s')
    (hholds : Holds L k' { t with live := k'.registers }) : Follows L k t s .resume k' := by
  refine ⟨_, s', ?_, hstep, hcontrol, hholds⟩
  rw [hevent]
  rfl

theorem ne_sysCall {routine : Routine} {irq : Fin 8} (h : routine = .hwint irq) :
    routine ≠ .sysCall := by
  rw [h]
  simp

/-- A place belongs to the routine that stands there. -/
theorem Good.fits (h : Good L mask₀ k t s) (hk : k.activations = f :: fs) :
    f.point.fits f.routine = true := by
  obtain ⟨κ, sp, _, _, hat⟩ := h.holds.handler f fs hk
  exact hat.fits

theorem follows_mask (h : Good L mask₀ k t s) (hk : k.activations = f :: fs)
    (hp : f.point = .mask) {irq : Fin 8} (hf : f.routine = .hwint irq) :
    Follows L k t s .resume ((k.updatePort21 (· ||| irqBit irq)).moveTo L f fs .sti) := by
  have hframes := h.control.frames_cons hk
  refine follows_run (Legacy.goto (frame fs f) (frames fs) .sti
    { s with port21 := s.port21 ||| irqBit irq }) (by simp [event, hk, hp]) (Or.inr ?_) ?_ ?_
  · simp [Legacy.step, Legacy.resume, hframes, frame, hp, Point.stage, hf]
  · exact control_goto { f with point := .sti } rfl rfl
      (congrArg (· ||| irqBit irq) h.control.port21) h.control.counter h.control.proc
      h.control.flag
  · exact h.quiet hk _ rfl rfl rfl rfl rfl rfl (hf ▸ rfl) (by rw [hp]; rfl) rfl rfl
      fun hsys => absurd hsys (ne_sysCall hf)

theorem follows_unmask (h : Good L mask₀ k t s) (hk : k.activations = f :: fs)
    (hp : f.point = .unmask) {irq : Fin 8} (hf : f.routine = .hwint irq) :
    Follows L k t s .resume ((k.updatePort21 (· &&& ~~~irqBit irq)).moveTo L f fs .ret) := by
  have hframes := h.control.frames_cons hk
  refine follows_run (Legacy.goto (frame fs f) (frames fs) .ret
    { s with port21 := s.port21 &&& ~~~irqBit irq }) (by simp [event, hk, hp]) (Or.inr ?_) ?_ ?_
  · simp [Legacy.step, Legacy.resume, hframes, frame, hp, Point.stage, hf]
  · exact control_goto { f with point := .ret } rfl rfl
      (congrArg (· &&& ~~~irqBit irq) h.control.port21) h.control.counter h.control.proc
      h.control.flag
  · exact h.quiet hk _ rfl rfl rfl rfl rfl rfl (hf ▸ rfl) (by rw [hp]; rfl) rfl rfl
      fun hsys => absurd hsys (ne_sysCall hf)

theorem interruptFlag_sti (eflags : UInt32) :
    (eflags ||| 0x200).toBitVec.getLsbD 9 = true := by
  rw [UInt32.toBitVec_or, BitVec.getLsbD_or, Bool.or_eq_true]
  exact Or.inr rfl

theorem interruptFlag_cli (eflags : UInt32) :
    (eflags &&& ~~~0x200).toBitVec.getLsbD 9 = false := by
  rw [UInt32.toBitVec_and, BitVec.getLsbD_and, Bool.and_eq_false_iff]
  exact Or.inr rfl

/-- `sti`, after an `out` that changes `eax` alone. -/
theorem follows_sti (h : Good L mask₀ k t s) (hk : k.activations = f :: fs)
    (hp : f.point = .sti) (eax : UInt32) :
    Follows L k t s .resume
      (({ k with registers := { k.registers with eax := eax } }).sti.moveTo L f fs .push) := by
  have hframes := h.control.frames_cons hk
  have hfits := h.fits hk
  rw [hp] at hfits
  refine follows_run (Legacy.goto (frame fs f) (frames fs) .handler
    { s with interruptFlag := true }) (by simp [event, hk, hp]) (Or.inr ?_) ?_ ?_
  · simp [Legacy.step, Legacy.resume, hframes, frame, hp, Point.stage]
  · exact control_goto { f with point := .push } rfl rfl h.control.port21
      h.control.counter h.control.proc (interruptFlag_sti _)
  · exact h.quiet hk _ rfl rfl rfl rfl rfl rfl
      (by cases hf : f.routine <;> rw [hf] at hfits <;> first | rfl | exact hfits)
      (by rw [hp]; rfl) rfl rfl fun _ => by rw [hp]; rfl

theorem follows_cli (h : Good L mask₀ k t s) (hk : k.activations = f :: fs)
    (hp : f.point = .cli) {p : Point}
    (hroutine : f.routine = .sysCall ∧ p = .ret ∨ (∃ irq, f.routine = .hwint irq) ∧ p = .unmask) :
    Follows L k t s .resume (k.cli.moveTo L f fs p) := by
  have hframes := h.control.frames_cons hk
  have hbefore : p.beforeStore = false ∧ p.words = some 0 ∧ p.fits f.routine = true := by
    rcases hroutine with ⟨hf, rfl⟩ | ⟨⟨irq, hf⟩, rfl⟩ <;> rw [hf] <;> exact ⟨rfl, rfl, rfl⟩
  refine follows_run (Legacy.goto (frame fs f) (frames fs) p.stage
    { s with interruptFlag := false }) (by simp [event, hk, hp]) (Or.inr ?_) ?_ ?_
  · rcases hroutine with ⟨hf, rfl⟩ | ⟨⟨irq, hf⟩, rfl⟩ <;>
      simp [Legacy.step, Legacy.resume, hframes, frame, hp, Point.stage, hf]
  · exact control_goto { f with point := p } rfl rfl h.control.port21
      h.control.counter h.control.proc (interruptFlag_cli _)
  · exact h.quiet hk _ rfl rfl rfl rfl rfl rfl hbefore.2.2 (by rw [hp]; rfl) hbefore.2.1 rfl
      fun _ => by rw [hp]; exact hbefore.1

/-- The push of the argument. -/
theorem follows_push (h : Good L mask₀ k t s) (hk : k.activations = f :: fs)
    (hp : f.point = .push) (v : UInt32) :
    Follows L k t s .resume ((k.push v).moveTo L f fs .call) := by
  obtain ⟨κ, sp, hkernel, hbelow, hat⟩ := h.holds.handler f fs hk
  have hfits := hat.fits
  have hesp := hat.words 0 (by rw [hp]; rfl)
  rw [hp] at hfits
  obtain ⟨hsub, htable, habove⟩ := h.push hk hbelow (by omega) (by omega) v
  have hroom := h.room hk hbelow
  refine follows_run s (by simp [event, hk, hp]) (Or.inl rfl) ?_ ?_
  · exact h.control.stay hk { f with point := .call } rfl rfl (by rw [hp]; rfl) rfl rfl rfl
      rfl
  · refine h.holds.move hk hkernel hbelow { f with point := .call } rfl
      (fun _ => ne_of_words (n := 1) rfl) htable (fun a hlo _ => habove a (by omega)) ?_
    refine hat.flat rfl rfl rfl ?_ ?_ (n := 1) rfl ?_ ?_ ?_
    · cases hf : f.routine <;> rw [hf] at hfits <;> first | rfl | exact hfits
    · have hlt := L.stackTop.toNat_lt
      refine (load32_congr (by omega) fun a hlo _ => habove a (by omega)).trans ?_
      exact hat.label_of_words (by rw [hp]; rfl)
    · change (k.registers.esp - 4).toNat + 4 * 1 = sp.toNat
      omega
    · intro _ _
      rw [Activation.esi, hp]
      rfl
    · intro _
      rw [hp]
      rfl

/-- The call of a C function. -/
theorem follows_call (h : Good L mask₀ k t s) (hk : k.activations = f :: fs)
    (hp : f.point = .call) (hroutine : f'.routine = f.routine)
    (hcalled : f'.called = (k.push (L.code f.routine .pop)).registers) :
    Follows L k t s .resume ((k.push (L.code f.routine .pop)).moveTo L f' fs .test) := by
  obtain ⟨κ, sp, hkernel, hbelow, hat⟩ := h.holds.handler f fs hk
  have hfits := hat.fits
  have hesp := hat.words 1 (by rw [hp]; rfl)
  rw [hp] at hfits
  obtain ⟨hsub, htable, habove⟩ := h.push hk hbelow (by omega) (by omega) (L.code f.routine .pop)
  have hroom := h.room hk hbelow
  have hlt := L.stackTop.toNat_lt
  refine follows_run s (by simp [event, hk, hp]) (Or.inl rfl) ?_ ?_
  · exact h.control.stay hk _ rfl hroutine (by rw [hp]; rfl) rfl rfl rfl rfl
  · refine h.holds.move hk hkernel hbelow _ rfl
      (fun _ => show Point.test ≠ .restartReenter by decide) htable
      (fun a hlo _ => habove a (by omega)) ?_
    constructor
    case cs => exact hat.cs
    case ss => exact hat.ss
    case fits =>
      change Point.test.fits f'.routine = true
      rw [hroutine]
      cases hf : f.routine <;> rw [hf] at hfits <;> first | rfl | exact hfits
    case label =>
      intro _ _
      refine (load32_congr (by omega) fun a hlo _ => habove a (by omega)).trans ?_
      exact hat.label_of_words (by rw [hp]; rfl)
    case words => exact fun n hn => absurd hn.symm (Option.some_ne_none n)
    case inC =>
      intro _
      dsimp only
      rw [hcalled, hroutine]
      refine ⟨?_, load32_store32 _ _ _, Nat.le_refl _, Nat.le_add_right _ _⟩
      change (k.registers.esp - 4).toNat + 8 = sp.toNat
      omega
    case leave => exact fun hleave => absurd hleave (show Point.test ≠ .restartReenter by decide)
    case esi =>
      intro hsys _
      have hold := hat.esi (hroutine.symm.trans hsys) (by rw [hp]; rfl)
      rw [hp] at hold
      exact (congrArg Registers.esi hcalled).trans hold
    case pending =>
      intro hfs
      rw [hat.pending hfs, hp, ← hroutine]
      rfl

/-- The test of `clock_handler`. -/
theorem follows_test (h : Good L mask₀ k t s) (hk : k.activations = f :: fs)
    (hp : f.point = .test) :
    Follows L k t s .resume (k.moveTo L f fs (k.afterTest f.routine)) := by
  have hframes := h.control.frames_cons hk
  have hstage : (k.afterTest f.routine).stage = enterHandler f.routine s ∧
      (k.afterTest f.routine).inC = true := by
    have hcounter := h.control.counter
    cases f.routine with
    | hwint irq =>
      rw [Machine.afterTest, enterHandler]
      cases irqTable irq with
      | clockHandler =>
        dsimp only
        rw [hcounter]
        split_ifs <;> exact ⟨rfl, rfl⟩
      | keyboardHandler => exact ⟨rfl, rfl⟩
      | commonIrq => exact ⟨rfl, rfl⟩
    | kmain => exact ⟨rfl, rfl⟩
    | sysCall => exact ⟨rfl, rfl⟩
  refine follows_run (Legacy.goto (frame fs f) (frames fs) (k.afterTest f.routine).stage s)
    (by simp [event, hk, hp]) (Or.inr ?_) ?_ ?_
  · rw [hstage.1]
    simp [Legacy.step, Legacy.resume, hframes, frame, hp, Point.stage]
  · exact control_goto { f with point := k.afterTest f.routine } rfl rfl
      h.control.port21 h.control.counter h.control.proc h.control.flag
  · exact h.inside hk _ rfl rfl (by rw [hp]; rfl) hstage.2 rfl rfl rfl rfl rfl

theorem follows_nextProc (h : Good L mask₀ k t s) (hk : k.activations = f :: fs)
    (hp : f.point = .nextProc) :
    Follows L k t s .resume (k.nextProc.moveTo L f fs .wrapProc) := by
  have hframes := h.control.frames_cons hk
  refine follows_run (Legacy.goto (frame fs f) (frames fs) .wrapProc
    { s with pProcReady := s.pProcReady + 1 }) (by simp [event, hk, hp]) (Or.inr ?_) ?_ ?_
  · simp [Legacy.step, Legacy.resume, hframes, frame, hp, Point.stage]
  · refine control_goto { f with point := .wrapProc } rfl rfl h.control.port21
      h.control.counter ?_ h.control.flag
    rw [pcb_succ, ← h.control.proc]
    rfl
  · exact h.inside hk _ rfl rfl (by rw [hp]; rfl) rfl rfl rfl rfl rfl rfl

theorem follows_wrapProc (h : Good L mask₀ k t s) (hk : k.activations = f :: fs)
    (hp : f.point = .wrapProc) :
    Follows L k t s .resume ((k.wrapProc L).moveTo L f fs .done) := by
  have hframes := h.control.frames_cons hk
  have hle : s.pProcReady ≤ MAX_THREAD := by
    rcases h.inv.proc with hlt | ⟨heq, _⟩
    · exact Nat.le_of_lt hlt
    · exact Nat.le_of_eq heq
  have hproc : (k.wrapProc L).pProcReady =
      L.pcb (if s.pProcReady ≥ MAX_THREAD then 0 else s.pProcReady) := by
    have hsize : SIZEOF_PROCESS = 112 := rfl
    have hthread : MAX_THREAD = 3 := rfl
    have hat := toNat_pcb (L := L) hle
    rw [hsize] at hat
    rw [Machine.wrapProc, hsize]
    dsimp only
    rw [h.control.proc, hthread]
    by_cases hwrap : s.pProcReady ≥ 3
    · rw [if_pos (by omega), if_pos hwrap]
      exact (add_zero _).symm
    · rw [if_neg (by omega), if_neg hwrap]
  refine follows_run (Legacy.goto (frame fs f) (frames fs) .cli
    { s with pProcReady := if s.pProcReady ≥ MAX_THREAD then 0 else s.pProcReady })
    (by simp [event, hk, hp]) (Or.inr ?_) ?_ ?_
  · simp [Legacy.step, Legacy.resume, hframes, frame, hp, Point.stage]
  · exact control_goto { f with point := .done } rfl rfl h.control.port21
      h.control.counter hproc h.control.flag
  · exact h.inside hk _ rfl rfl (by rw [hp]; rfl) rfl rfl rfl rfl rfl rfl

/-- The return of a C function finds the word that its call pushed. -/
theorem returnFromC_eq (h : Good L mask₀ k t s) (hk : k.activations = f :: fs)
    (hp : f.point = .done) : k.returnFromC L f fs = some (({ k with
      registers := { k.registers with
        ebx := f.called.ebx
        esi := f.called.esi
        edi := f.called.edi
        ebp := f.called.ebp
        esp := f.called.esp } }).drop.moveTo L f fs .pop) := by
  obtain ⟨κ, sp, _, _, hat⟩ := h.holds.handler f fs hk
  obtain ⟨_, hreturn, _⟩ := hat.inC (by rw [hp]; rfl)
  exact if_pos hreturn

theorem follows_done (h : Good L mask₀ k t s) (hk : k.activations = f :: fs)
    (hp : f.point = .done) (hreturn : k.returnFromC L f fs = some k') :
    Follows L k t s .resume k' := by
  rw [returnFromC_eq h hk hp, Option.some.injEq] at hreturn
  subst hreturn
  obtain ⟨κ, sp, hkernel, hbelow, hat⟩ := h.holds.handler f fs hk
  have hfits := hat.fits
  obtain ⟨hcalled, _, _⟩ := hat.inC (by rw [hp]; rfl)
  rw [hp] at hfits
  refine follows_run s (by simp [event, hk, hp]) (Or.inl rfl) ?_ ?_
  · exact h.control.stay hk { f with point := .pop } rfl rfl (by rw [hp]; rfl) rfl rfl rfl
      rfl
  · refine h.holds.move hk hkernel hbelow { f with point := .pop } rfl
      (fun _ => ne_of_words (n := 1) rfl) (fun _ _ => rfl) (fun _ _ _ => rfl) ?_
    refine hat.flat rfl rfl rfl ?_ ?_ (n := 1) rfl ?_ ?_ ?_
    · cases hf : f.routine <;> rw [hf] at hfits <;> first | rfl | exact hfits
    · exact hat.label (by rw [hp]; decide) (by rw [hp]; decide)
    · change (f.called.esp + 4).toNat + 4 * 1 = sp.toNat
      have hlt := sp.toNat_lt
      have hnat := toNat_add_of_lt (a := f.called.esp) (k := 4) (by omega)
      rw [show UInt32.ofNat 4 = 4 from rfl] at hnat
      omega
    · intro _ _
      rw [Activation.esi, hp]
      rfl
    · intro _
      rw [hp]
      rfl

/-- The argument leaves the stack, for a machine `k'` with the changes that the
routine makes. -/
theorem follows_pop (h : Good L mask₀ k t s) (hk : k.activations = f :: fs)
    (hp : f.point = .pop) {p : Point} (ecx : UInt32)
    (hroutine : f.routine = .sysCall ∧ p = .store ∨ (∃ irq, f.routine = .hwint irq) ∧ p = .cli) :
    Follows L k t s .resume
      (({ k.drop with registers := { k.drop.registers with ecx := ecx } }).moveTo L f fs p) := by
  obtain ⟨κ, sp, hkernel, hbelow, hat⟩ := h.holds.handler f fs hk
  have hesp := hat.words 1 (by rw [hp]; rfl)
  have hlt := sp.toNat_lt
  have hnat := toNat_add_of_lt (a := k.registers.esp) (k := 4) (by omega)
  have hplace : p.stage = .cli ∧ p.words = some 0 ∧ p.fits f.routine = true := by
    rcases hroutine with ⟨hf, rfl⟩ | ⟨⟨irq, hf⟩, rfl⟩ <;> rw [hf] <;> exact ⟨rfl, rfl, rfl⟩
  refine follows_run s (by simp [event, hk, hp]) (Or.inl rfl) ?_ ?_
  · exact h.control.stay hk { f with point := p } rfl rfl (by rw [hp]; exact hplace.1) rfl
      rfl rfl rfl
  · refine h.quiet hk { f with point := p } rfl rfl rfl rfl rfl rfl hplace.2.2
      (show f.point.words = some 1 by rw [hp]; rfl) hplace.2.1 hnat ?_
    intro hsys
    rcases hroutine with ⟨_, rfl⟩ | ⟨⟨irq, hf⟩, _⟩
    · rw [hp]
      rfl
    · exact absurd hsys (ne_sysCall hf)

/-- A system call is at the bottom of the stack. -/
theorem Good.bottom (h : Good L mask₀ k t s) (hk : k.activations = f :: fs)
    (hf : ∀ irq, f.routine ≠ .hwint irq) : fs = [] := by
  have hnested := h.inv.nested
  rw [h.control.frames_cons hk] at hnested
  by_contra hne
  have hframes : frames fs ≠ [] := by
    cases fs with
    | nil => exact absurd rfl hne
    | cons g gs => exact List.cons_ne_nil _ _
  obtain ⟨irq, hirq⟩ := hnested.1.irq hframes
  cases hroutine : f.routine with
  | hwint irq' => exact hf irq' hroutine
  | kmain => simp [Frame.irq?, frame, hroutine] at hirq
  | sysCall => simp [Frame.irq?, frame, hroutine] at hirq

/-- Below the activation at the bottom no context waits. -/
theorem Below.at_bottom {m : Bytes} {current : Nat} {pending : Bool} {rs : List Registers}
    {sp : UInt32} (h : Below L m current pending [] rs sp) : rs = [] ∧ sp = L.stackTop - 4 := by
  cases h
  exact ⟨rfl, rfl⟩

/-- The result of a system call goes to the frame of its task. -/
theorem Good.store (h : Good L mask₀ k t s) (hk : k.activations = [f]) (hsys : f.routine = .sysCall)
    (hp : f.point = .store)
    (hmemory : k'.memory = store32 k.memory (L.pcb t.current + 44) k.registers.eax)
    (hact : k'.activations = [{ f with point := .cli }])
    (hregisters : ∃ eip, k'.registers = { k.registers with eip := eip }) :
    Holds L k' { t with
      live := k'.registers
      tasks := Function.update t.tasks t.current
        { t.tasks t.current with eax := k.registers.eax }
      kernel := some ⟨false, []⟩ } := by
  obtain ⟨κ, sp, hkernel, hbelow, hat⟩ := h.holds.handler f [] hk
  obtain ⟨eip, heip⟩ := hregisters
  have hcurrent := h.holds.current
  have hsize : SIZEOF_PROCESS = 112 := rfl
  have hpcb := pcb_le (L := L) hcurrent
  have hstack := pcb_apart_stack (L := L) hcurrent
  have hroom := h.room hk hbelow
  have hlt := L.stackTop.toNat_lt
  have hnat := toNat_add_of_lt (a := L.pcb t.current) (k := 44) (by omega)
  rw [show UInt32.ofNat 44 = 44 from rfl] at hnat
  have hkeep : ∀ a : UInt32, a.toNat < (L.pcb t.current).toNat ∨
      (L.pcb t.current).toNat + 72 ≤ a.toNat → k'.memory a = k.memory a := by
    intro a ha
    rw [hmemory]
    exact store32_of_outside _ _ (by omega) (by omega)
  have hothers := fun i (hi : i < MAX_THREAD) =>
    h.holds.others (m := k'.memory) (fun a ha _ => hkeep a ha) hi
  have hlabel := hat.label (by rw [hp]; decide) (by rw [hp]; decide)
  constructor
  case current => exact hcurrent
  case live => exact fun _ => rfl
  case ldt => exact fun i hi => (hothers i hi).1
  case task =>
    intro hnil
    rw [hact] at hnil
    cases hnil
  case leaving =>
    intro g hg hleave
    rw [hact] at hg
    rw [← (List.cons.inj hg).1] at hleave
    exact absurd hleave (show Point.cli ≠ .restartReenter by decide)
  case tasks =>
    intro i hi _
    have hold := h.holds.tasks i hi fun hnil => absurd (hk.symm.trans hnil) (List.cons_ne_nil _ _)
    by_cases hne : i = t.current
    · subst hne
      dsimp only
      rw [Function.update_self, ← hold.1, hmemory]
      refine ⟨savedOuter_store_eax (by omega) _, ?_⟩
      rw [hold.1]
      exact hold.2
    · dsimp only
      rw [Function.update_of_ne hne]
      exact ⟨((hothers i hi).2 hne).trans hold.1, hold.2⟩
  case handler =>
    intro g gs hg
    rw [hact] at hg
    obtain ⟨heq, hgs⟩ := List.cons.inj hg
    subst heq hgs
    refine ⟨⟨false, []⟩, sp, rfl, ?_, ?_⟩
    · rw [hbelow.at_bottom.2]
      exact .nil
    · rw [heip]
      constructor
      case cs => exact hat.cs
      case ss => exact hat.ss
      case fits =>
        change Point.cli.fits f.routine = true
        rw [hsys]
        rfl
      case label =>
        intro _ _
        exact (load32_congr (by omega) fun a hlo hhi => hkeep a (by omega)).trans hlabel
      case words =>
        intro n hn
        rw [← Option.some.inj hn]
        exact hat.words 0 (by rw [hp]; rfl)
      case inC => exact fun hC => absurd hC Bool.false_ne_true
      case leave => exact fun hp => absurd hp (show Point.cli ≠ .restartReenter by decide)
      case esi => exact fun _ hstore => absurd hstore Bool.false_ne_true
      case pending =>
        intro _
        exact iff_of_false Bool.false_ne_true fun hpend => absurd hpend.2 Bool.false_ne_true

theorem follows_store (h : Good L mask₀ k t s) (hk : k.activations = f :: fs)
    (hp : f.point = .store) :
    Follows L k t s .resume (({ k with
      memory := store32 k.memory (k.registers.esi + 44) k.registers.eax }).moveTo L f fs .cli) := by
  obtain ⟨κ, sp, hkernel, hbelow, hat⟩ := h.holds.handler f fs hk
  have hsys : f.routine = .sysCall := by
    have hfits := hat.fits
    rw [hp] at hfits
    cases hf : f.routine <;> rw [hf] at hfits <;> first | rfl | cases hfits
  have hnil : fs = [] := h.bottom hk (by rw [hsys]; simp)
  subst hnil
  have hesi : k.registers.esi = L.pcb t.current := by
    have hold := hat.esi hsys (by rw [hp]; rfl)
    rw [hp] at hold
    exact hold
  have hkernel' : t.kernel = some ⟨true, []⟩ := by
    rw [hkernel, ← (hat.pending rfl).mpr ⟨hsys, by rw [hp]; rfl⟩, ← hbelow.at_bottom.1]
  refine ⟨_, s, ?_, Or.inl rfl, ?_, h.store hk hsys hp (hesi ▸ rfl) rfl ⟨_, rfl⟩⟩
  · simp only [event, hk, hp, Interruption.step, hkernel']
  · exact h.control.stay hk { f with point := .cli } rfl rfl (by rw [hp]; rfl) rfl rfl rfl
      rfl

/-- Where the `ret` of an activation above `fs` goes. -/
def afterRet : List Activation → Point
  | [] => .restart
  | _ :: _ => .restartReenter

/-- The `ret` finds the label that `save` pushed. -/
theorem ret_eq (h : Good L mask₀ k t s) (hk : k.activations = f :: fs) (hp : f.point = .ret) :
    k.ret L f fs = some (k.drop.moveTo L f fs (afterRet fs)) := by
  obtain ⟨κ, sp, _, _, hat⟩ := h.holds.handler f fs hk
  have hesp : k.registers.esp = sp := by
    rw [← UInt32.toNat_inj]
    exact hat.words 0 (by rw [hp]; rfl)
  have htop : k.top = L.label fs := by
    rw [← hat.label (by rw [hp]; decide) (by rw [hp]; decide), ← hesp]
    rfl
  rw [Machine.ret, htop]
  cases fs with
  | nil => exact if_pos rfl
  | cons g gs =>
    have hne : L.label (g :: gs) ≠ L.restart := L.restart_ne.symm
    rw [if_neg hne]
    exact if_pos rfl

theorem follows_ret (h : Good L mask₀ k t s) (hk : k.activations = f :: fs) (hp : f.point = .ret)
    (hret : k.ret L f fs = some k') : Follows L k t s .resume k' := by
  rw [ret_eq h hk hp, Option.some.injEq] at hret
  subst hret
  obtain ⟨κ, sp, hkernel, hbelow, hat⟩ := h.holds.handler f fs hk
  have hframes := h.control.frames_cons hk
  have hesp : k.registers.esp = sp := by
    rw [← UInt32.toNat_inj]
    exact hat.words 0 (by rw [hp]; rfl)
  have hplace : (afterRet fs).words = none ∧ (afterRet fs).inC = false ∧
      (afterRet fs).beforeStore = false ∧ (afterRet fs = .restart ∨ afterRet fs = .restartReenter) ∧
      ∀ routine, (afterRet fs).fits routine = true := by
    cases fs with
    | nil => exact ⟨rfl, rfl, rfl, Or.inl rfl, fun _ => rfl⟩
    | cons g gs => exact ⟨rfl, rfl, rfl, Or.inr rfl, fun _ => rfl⟩
  obtain ⟨hwords, hC, hstore, hlast, hfits⟩ := hplace
  refine follows_run (Legacy.goto (frame fs f) (frames fs) (afterRet fs).stage s)
    (by simp [event, hk, hp]) (Or.inr ?_) ?_ ?_
  · cases fs <;> simp [Legacy.step, Legacy.resume, hframes, frame, hp, Point.stage, afterRet]
  · exact control_goto { f with point := afterRet fs } rfl rfl h.control.port21
      h.control.counter h.control.proc h.control.flag
  · refine h.holds.move hk hkernel hbelow { f with point := afterRet fs } rfl ?_
      (fun _ _ => rfl) (fun _ _ _ => rfl) ?_
    · intro hnil
      rw [hnil]
      exact show Point.restart ≠ .restartReenter by decide
    constructor
    case cs => exact hat.cs
    case ss => exact hat.ss
    case fits => exact hfits f.routine
    case label =>
      intro hrestart hreenter
      exact absurd hlast (not_or.mpr ⟨hrestart, hreenter⟩)
    case words =>
      intro n hn
      rw [hwords] at hn
      cases hn
    case inC =>
      intro hC'
      rw [hC] at hC'
      cases hC'
    case leave =>
      intro hleave
      cases fs with
      | nil => exact absurd hleave (show Point.restart ≠ .restartReenter by decide)
      | cons g gs => exact congrArg (· + 4) hesp
    case esi =>
      intro _ hstore'
      rw [hstore] at hstore'
      cases hstore'
    case pending =>
      intro hfs
      rw [hat.pending hfs, hp, hstore]
      exact Iff.rfl

/-- `restart` picks the task of `p_proc_ready`. -/
theorem follows_restart (h : Good L mask₀ k t s) (hk : k.activations = f :: fs)
    (hp : f.point = .restart) :
    Follows L k t s .resume (k.restart.moveTo L f fs .restartReenter) := by
  obtain ⟨κ, sp, hkernel, hbelow, hat⟩ := h.holds.handler f fs hk
  have hframes := h.control.frames_cons hk
  have hnil : fs = [] := by
    have hnested := h.inv.nested
    rw [hframes] at hnested
    have hlabel := hnested.1.restart (show f.point.stage = .restart by rw [hp]; rfl)
    cases fs with
    | nil => rfl
    | cons g gs => cases hlabel
  subst hnil
  have hlt : s.pProcReady < MAX_THREAD :=
    h.inv.proc_lt hframes (show f.point.stage ≠ .wrapProc by rw [hp]; decide)
  have hproc := h.control.proc
  have hkernel' : t.kernel = some ⟨κ.pending, []⟩ := by rw [hkernel, ← hbelow.at_bottom.1]
  refine ⟨{ t with current := s.pProcReady, kernel := some ⟨false, []⟩ },
    Legacy.goto (frame [] f) (frames []) .restartReenter s, ?_, Or.inr ?_, ?_, ?_⟩
  · simp only [event, hk, hp, Interruption.step, hkernel', hproc, index_pcb hlt]
  · simp [Legacy.step, Legacy.resume, hframes, frame, hp, Point.stage]
  · have hact : (k.restart.moveTo L f [] .restartReenter).activations =
        [{ f with point := .restartReenter }] := rfl
    exact control_goto _ hact rfl h.control.port21 h.control.counter h.control.proc h.control.flag
  · constructor
    case current => exact hlt
    case live =>
      intro hon
      have hoff := h.inv.flag (h.control.flag ▸ hon) (frame [] f) (by rw [hframes]; rfl)
      rw [frame, hp] at hoff
      exact absurd hoff Bool.false_ne_true
    case ldt => exact h.holds.ldt
    case task => exact fun hnil => absurd hnil (List.cons_ne_nil _ _)
    case leaving =>
      intro _ _ _
      refine ⟨congrArg (· + 72) hproc, ?_, hproc⟩
      exact (congrArg (fun p => load16 k.memory (p + 72)) hproc).trans (h.holds.ldt _ hlt)
    case tasks =>
      intro i hi _
      exact h.holds.tasks i hi fun hnil => absurd (hk.symm.trans hnil) (List.cons_ne_nil _ _)
    case handler =>
      intro g gs hg
      obtain ⟨heq, hgs⟩ := List.cons.inj hg
      subst heq hgs
      refine ⟨⟨false, []⟩, L.stackTop - 4, rfl, .nil, ?_⟩
      constructor
      case cs => exact hat.cs
      case ss => exact hat.ss
      case fits => rfl
      case label => exact fun _ hreenter => absurd rfl hreenter
      case words => exact fun n hn => absurd hn.symm (Option.some_ne_none n)
      case inC => exact fun hC => absurd hC Bool.false_ne_true
      case leave => exact fun _ => hproc
      case esi => exact fun _ hstore => absurd hstore Bool.false_ne_true
      case pending =>
        intro _
        exact iff_of_false Bool.false_ne_true fun hpend => absurd hpend.2 Bool.false_ne_true

/-- What a return does to the control. -/
theorem Control.leave (h : Control L k s) (fs : List Activation) {r : Registers}
    (hon : r.interruptFlag = true) :
    Control L ((left k fs).withRegisters r) { s with
      clockIntEnterTime := s.clockIntEnterTime - 1
      interruptFlag := true
      frames := Context.frames fs } :=
  ⟨h.port21, congrArg (· - 1) h.counter, h.proc, hon, rfl⟩

/-- The return to a task. -/
theorem follows_leave_task (h : Good L mask₀ k t s) (hk : k.activations = [f])
    (hp : f.point = .restartReenter) : Follows L k t s .resume (k.restartReenter []) := by
  obtain ⟨κ, sp, hkernel, hbelow, hat⟩ := h.holds.handler f [] hk
  have hframes := h.control.frames_cons hk
  have hne : k.activations ≠ [] := by
    rw [hk]
    exact List.cons_ne_nil _ _
  have hesp : k.registers.esp = L.pcb t.current := hat.leave hp
  obtain ⟨hsaved, houter⟩ := h.holds.tasks t.current h.holds.current fun hnil => absurd hnil hne
  have hleave := leaveOuter [] hat.cs (by rw [hesp, hsaved]; exact houter.2)
  rw [hesp, hsaved] at hleave
  have hkernel' : t.kernel = some ⟨κ.pending, []⟩ := by rw [hkernel, ← hbelow.at_bottom.1]
  have hloaded := h.holds.leaving f hk hp
  rw [hleave]
  refine ⟨{ t with live := t.tasks t.current, kernel := none }, _, ?_, Or.inr ?_,
    h.control.leave [] houter.1, ?_⟩
  · simp only [event, hk, hp, Interruption.step, hkernel']
  · simp [Legacy.step, Legacy.resume, hframes, frame, hp, Point.stage]
  · constructor
    case current => exact h.holds.current
    case live => exact fun _ => rfl
    case ldt => exact h.holds.ldt
    case task => exact fun _ => ⟨rfl, houter, hloaded.sp0, hloaded.ldtr, hloaded.pProcReady⟩
    case leaving => exact fun _ hnil => absurd hnil.symm (List.cons_ne_nil _ _)
    case tasks => exact fun i hi _ => h.holds.tasks i hi fun hnil => absurd hnil hne
    case handler => exact fun _ _ hnil => absurd hnil.symm (List.cons_ne_nil _ _)

/-- The return to an interrupted handler. -/
theorem follows_leave_handler (h : Good L mask₀ k t s) {g : Activation} {gs : List Activation}
    (hk : k.activations = f :: g :: gs) (hp : f.point = .restartReenter) :
    Follows L k t s .resume (k.restartReenter (g :: gs)) := by
  obtain ⟨κ, sp, hkernel, hbelow, hat⟩ := h.holds.handler f (g :: gs) hk
  obtain ⟨pending, rs⟩ := κ
  have hframes := h.control.frames_cons hk
  have hne : k.activations ≠ [] := by
    rw [hk]
    exact List.cons_ne_nil _ _
  cases hbelow with
  | @cons _ _ r rs sp _ below stands enabled flag hsp saved =>
    have hesp := hat.leave hp
    rw [Layout.base] at hesp
    have hleave := leaveInner (g :: gs) hat.cs hat.ss (by rw [hesp, saved]; exact stands.cs)
    rw [hesp, saved] at hleave
    rw [hleave]
    refine ⟨{ t with live := r, kernel := some ⟨pending, rs⟩ }, _, ?_, Or.inr ?_,
      h.control.leave (g :: gs) flag, ?_⟩
    · simp only [event, hk, hp, Interruption.step, hkernel]
    · simp [Legacy.step, Legacy.resume, hframes, frame, hp, Point.stage]
    · constructor
      case current => exact h.holds.current
      case live => exact fun _ => rfl
      case ldt => exact h.holds.ldt
      case task => exact fun hnil => absurd hnil (List.cons_ne_nil _ _)
      case leaving =>
        intro f' hf' hleaving
        rw [← (List.cons.inj hf').1] at hleaving
        exact absurd hleaving (point_ne_of_enabled enabled).2
      case tasks => exact fun i hi _ => h.holds.tasks i hi fun hnil => absurd hnil hne
      case handler =>
        intro f' fs' hf'
        obtain ⟨heq, hfs⟩ := List.cons.inj hf'
        subst heq hfs
        exact ⟨⟨pending, rs⟩, sp, rfl, below, stands⟩

end Resume

end Context

end Legacy

end BbnOS
