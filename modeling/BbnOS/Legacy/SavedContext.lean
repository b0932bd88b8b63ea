import BbnOS.Legacy.Context

/-!
# What `save` saves and `restart_reenter` restores

`savedOuter` and `savedInner` are the registers that the stack frame at an
address holds, of a context that was entered from a task and of one that was
entered from the kernel.  `enterOuter` and `enterInner` say that the entry of a
routine saves the registers it interrupts in such a frame, and what else it
changes; `leaveOuter` and `leaveInner` that `restart_reenter` loads the
registers of the frame that `esp` points to.
-/

namespace BbnOS

namespace Legacy

namespace Context

open WordStack

/-! ## Frames -/

/-- The registers in the frame at `p`, `STACK_FRAME` of `thread.h`. -/
def savedOuter (m : Bytes) (p : UInt32) : Registers where
  gs := (load32 m p).toUInt16
  fs := (load32 m (p + 4)).toUInt16
  es := (load32 m (p + 8)).toUInt16
  ds := (load32 m (p + 12)).toUInt16
  edi := load32 m (p + 16)
  esi := load32 m (p + 20)
  ebp := load32 m (p + 24)
  ebx := load32 m (p + 32)
  edx := load32 m (p + 36)
  ecx := load32 m (p + 40)
  eax := load32 m (p + 44)
  eip := load32 m (p + 52)
  cs := (load32 m (p + 56)).toUInt16
  eflags := load32 m (p + 60)
  esp := load32 m (p + 64)
  ss := (load32 m (p + 68)).toUInt16

/-- The registers in the frame at `p` of a context that kept its stack: the
frame ends with `eflags`. -/
def savedInner (m : Bytes) (p : UInt32) : Registers :=
  { savedOuter m p with esp := p + 64, ss := SELECTOR_KERNEL_DS }

/-- Frames in memories that agree on them. -/
theorem savedOuter_congr {m m' : Bytes} {p : UInt32} (hp : p.toNat + 72 ≤ 2 ^ 32)
    (h : ∀ a : UInt32, p.toNat ≤ a.toNat → a.toNat < p.toNat + 72 → m' a = m a) :
    savedOuter m' p = savedOuter m p := by
  have hword : ∀ d : UInt32, d.toNat ≤ 68 → load32 m' (p + d) = load32 m (p + d) := by
    intro d hd
    have hnat := UInt32.toNat_add p d
    exact load32_congr (by omega) fun a hlo hhi => h a (by omega) (by omega)
  have hfirst := hword 0 (by decide)
  rw [add_zero] at hfirst
  simp (disch := decide) only [savedOuter, hfirst, hword]

theorem savedInner_congr {m m' : Bytes} {p : UInt32} (hp : p.toNat + 64 ≤ 2 ^ 32)
    (h : ∀ a : UInt32, p.toNat ≤ a.toNat → a.toNat < p.toNat + 64 → m' a = m a) :
    savedInner m' p = savedInner m p := by
  have hword : ∀ d : UInt32, d.toNat ≤ 60 → load32 m' (p + d) = load32 m (p + d) := by
    intro d hd
    have hnat := UInt32.toNat_add p d
    exact load32_congr (by omega) fun a hlo hhi => h a (by omega) (by omega)
  have hfirst := hword 0 (by decide)
  rw [add_zero] at hfirst
  simp (disch := decide) only [savedInner, savedOuter, hfirst, hword]

/-- A new value for `eax` in a frame. -/
theorem savedOuter_store_eax {m : Bytes} {p : UInt32} (hp : p.toNat + 72 ≤ 2 ^ 32) (v : UInt32) :
    savedOuter (store32 m (p + 44) v) p = { savedOuter m p with eax := v } := by
  have hat := UInt32.toNat_add p 44
  rw [show (44 : UInt32).toNat = 44 from rfl] at hat
  have hword : ∀ d : UInt32, d.toNat ≤ 40 ∨ 48 ≤ d.toNat ∧ d.toNat ≤ 68 →
      load32 (store32 m (p + 44) v) (p + d) = load32 m (p + d) := by
    intro d hd
    have hnat := UInt32.toNat_add p d
    exact load32_store32_of_apart m v (by omega) (by omega) (by omega)
  have hfirst := hword 0 (by decide)
  rw [add_zero] at hfirst
  simp (disch := decide) only [savedOuter, hfirst, hword, load32_store32]

/-! ## Entries -/

/-- The words that `save` pushes on the words of the CPU, and its return
address. -/
def savedWords (r : Registers) (returnTo temp : UInt32) : List UInt32 :=
  [r.eflags, r.cs.toUInt32, r.eip, returnTo, r.eax, r.ecx, r.edx, r.ebx, temp, r.ebp, r.esi,
    r.edi, r.ds.toUInt32, r.es.toUInt32, r.fs.toUInt32, r.gs.toUInt32]

/-- The registers that pushes save read back from the frame they end at. -/
theorem savedOuter_pushAll (s : Stack) (r : Registers) {p : UInt32} (returnTo temp : UInt32)
    (hp : s.esp.toNat = p.toNat + 72) :
    savedOuter (s.pushAll (r.ss.toUInt32 :: r.esp :: savedWords r returnTo temp)).memory p = r := by
  have hesp := s.esp.toNat_lt
  have hlen : (r.ss.toUInt32 :: r.esp :: savedWords r returnTo temp).length = 18 := rfl
  have hword : ∀ (d : UInt32) (k : Nat) (w : UInt32), d.toNat + 4 * (k + 1) = 72 →
      (r.ss.toUInt32 :: r.esp :: savedWords r returnTo temp)[k]? = some w →
      load32 (s.pushAll (r.ss.toUInt32 :: r.esp :: savedWords r returnTo temp)).memory (p + d) =
        w := by
    intro d k w hd hk
    have hnat := UInt32.toNat_add p d
    exact Stack.load32_pushAll hk (hlen ▸ (by omega)) (by omega)
  have hfirst := hword 0 17 _ rfl rfl
  rw [add_zero] at hfirst
  rw [savedOuter, hfirst, hword 4 16 _ rfl rfl, hword 8 15 _ rfl rfl, hword 12 14 _ rfl rfl,
    hword 16 13 _ rfl rfl, hword 20 12 _ rfl rfl, hword 24 11 _ rfl rfl, hword 32 9 _ rfl rfl,
    hword 36 8 _ rfl rfl, hword 40 7 _ rfl rfl, hword 44 6 _ rfl rfl, hword 52 4 _ rfl rfl,
    hword 56 3 _ rfl rfl, hword 60 2 _ rfl rfl, hword 64 1 _ rfl rfl, hword 68 0 _ rfl rfl]
  simp only [UInt16.toUInt16_toUInt32]

theorem savedInner_pushAll (s : Stack) (r : Registers) {p : UInt32} (returnTo temp : UInt32)
    (hp : s.esp.toNat = p.toNat + 64) (hr : r.esp = s.esp) (hss : r.ss = SELECTOR_KERNEL_DS) :
    savedInner (s.pushAll (savedWords r returnTo temp)).memory p = r := by
  have hesp := s.esp.toNat_lt
  have hlen : (savedWords r returnTo temp).length = 16 := rfl
  have hword : ∀ (d : UInt32) (k : Nat) (w : UInt32), d.toNat + 4 * (k + 1) = 64 →
      (savedWords r returnTo temp)[k]? = some w →
      load32 (s.pushAll (savedWords r returnTo temp)).memory (p + d) = w := by
    intro d k w hd hk
    have hnat := UInt32.toNat_add p d
    exact Stack.load32_pushAll hk (hlen ▸ (by omega)) (by omega)
  have hfirst := hword 0 15 _ rfl rfl
  rw [add_zero] at hfirst
  have hend : p + 64 = r.esp := by
    have hnat := UInt32.toNat_add p 64
    rw [show (64 : UInt32).toNat = 64 from rfl] at hnat
    rw [hr, ← UInt32.toNat_inj]
    omega
  rw [savedInner, savedOuter, hfirst, hword 4 14 _ rfl rfl, hword 8 13 _ rfl rfl,
    hword 12 12 _ rfl rfl, hword 16 11 _ rfl rfl, hword 20 10 _ rfl rfl, hword 24 9 _ rfl rfl,
    hword 32 7 _ rfl rfl, hword 36 6 _ rfl rfl, hword 40 5 _ rfl rfl, hword 44 4 _ rfl rfl,
    hword 52 2 _ rfl rfl, hword 56 1 _ rfl rfl, hword 60 0 _ rfl rfl, hend, ← hss]
  simp only [UInt16.toUInt16_toUInt32]

/-- What pushes leave behind that end at `p`. -/
structure Ends (s : Stack) (p returnTo : UInt32) (s' : Stack) : Prop where
  esp : s'.esp = p
  returnTo : load32 s'.memory (p + 48) = returnTo
  outside : ∀ a : UInt32, a.toNat < p.toNat ∨ s.esp.toNat ≤ a.toNat → s'.memory a = s.memory a

theorem ends_pushAll {s : Stack} (ws : List UInt32) {p returnTo : UInt32}
    (hp : s.esp.toNat = p.toNat + 4 * ws.length) (hlen : 13 ≤ ws.length)
    (hreturn : ws[ws.length - 13]? = some returnTo) : Ends s p returnTo (s.pushAll ws) := by
  have hesp := s.esp.toNat_lt
  have hat := UInt32.toNat_add p 48
  rw [show (48 : UInt32).toNat = 48 from rfl] at hat
  constructor
  · rw [← UInt32.toNat_inj, Stack.toNat_pushAll (by omega), hp, Nat.add_sub_cancel]
  · exact Stack.load32_pushAll hreturn (by omega) (by omega)
  · intro a ha
    exact Stack.pushAll_of_outside (by omega) (by omega)

/-- The machine after the pushes of the CPU and of `save`, with the stack `s`. -/
def Machine.pushed (k : Machine) (s : Stack) : Machine :=
  { k.withStack s with registers := { k.registers with
      esp := s.esp
      ss := SELECTOR_KERNEL_DS
      cs := SELECTOR_KERNEL_CS
      eflags := k.registers.eflags &&& ~~~0x34300 } }

theorem pushRegisters_eq (k : Machine) :
    k.pushRegisters = k.withStack (k.stack.pushAll [k.registers.eax, k.registers.ecx,
      k.registers.edx, k.registers.ebx, k.registers.esp, k.registers.ebp, k.registers.esi,
      k.registers.edi, k.registers.ds.toUInt32, k.registers.es.toUInt32, k.registers.fs.toUInt32,
      k.registers.gs.toUInt32]) := by
  simp only [Machine.pushRegisters, Machine.pushad, Machine.push, Machine.stack_withStack,
    Machine.withStack_withStack, Machine.registers_withStack]
  rfl

theorem push_pushed (k : Machine) (s : Stack) (v : UInt32) :
    (k.pushed s).push v = k.pushed (s.push v) := rfl

theorem pushRegisters_pushed (k : Machine) (s : Stack) :
    (k.pushed s).pushRegisters = k.pushed (s.pushAll [k.registers.eax, k.registers.ecx,
      k.registers.edx, k.registers.ebx, s.esp, k.registers.ebp, k.registers.esi, k.registers.edi,
      k.registers.ds.toUInt32, k.registers.es.toUInt32, k.registers.fs.toUInt32,
      k.registers.gs.toUInt32]) := pushRegisters_eq _

/-- The gate from a task pushes on the stack of the TSS. -/
theorem interruptGate_outer {k : Machine} (h : rpl k.registers.cs ≠ rpl SELECTOR_KERNEL_CS) :
    k.interruptGate = k.pushed ((Stack.mk k.memory k.sp0).pushAll [k.registers.ss.toUInt32,
      k.registers.esp, k.registers.eflags, k.registers.cs.toUInt32, k.registers.eip]) := by
  rw [Machine.interruptGate]
  dsimp only
  rw [if_neg h, Machine.pushed]
  simp only [Machine.push, Machine.withStack, Machine.stack, Stack.pushAll, List.foldl_cons,
    List.foldl_nil]

/-- The gate from the kernel pushes on the stack in use. -/
theorem interruptGate_inner {k : Machine} (h : k.registers.cs = SELECTOR_KERNEL_CS)
    (hss : k.registers.ss = SELECTOR_KERNEL_DS) :
    k.interruptGate = k.pushed (k.stack.pushAll [k.registers.eflags, k.registers.cs.toUInt32,
      k.registers.eip]) := by
  rw [Machine.interruptGate, Machine.pushed, ← hss]
  dsimp only
  rw [if_pos (congrArg rpl h)]
  simp only [Machine.push, Machine.withStack, Machine.stack, Stack.pushAll, List.foldl_cons,
    List.foldl_nil]

theorem pushed_outer {k : Machine} (h : rpl k.registers.cs ≠ rpl SELECTOR_KERNEL_CS)
    (returnTo : UInt32) : ∃ temp, (k.interruptGate.push returnTo).pushRegisters =
      k.pushed ((Stack.mk k.memory k.sp0).pushAll
        (k.registers.ss.toUInt32 :: k.registers.esp :: savedWords k.registers returnTo temp)) := by
  rw [interruptGate_outer h, push_pushed, pushRegisters_pushed, Stack.push_eq_pushAll,
    Stack.pushAll_pushAll, Stack.pushAll_pushAll]
  exact ⟨_, rfl⟩

theorem pushed_inner {k : Machine} (h : k.registers.cs = SELECTOR_KERNEL_CS)
    (hss : k.registers.ss = SELECTOR_KERNEL_DS) (returnTo : UInt32) :
    ∃ temp, (k.interruptGate.push returnTo).pushRegisters =
      k.pushed (k.stack.pushAll (savedWords k.registers returnTo temp)) := by
  rw [interruptGate_inner h hss, push_pushed, pushRegisters_pushed, Stack.push_eq_pushAll,
    Stack.pushAll_pushAll, Stack.pushAll_pushAll]
  exact ⟨_, rfl⟩

/-- The stack with the label that `save` pushes. -/
def labelled (L : Layout) (counter : BitVec 32) (s : Stack) : Stack :=
  if counter = 0 then (Stack.mk s.memory L.stackTop).push L.restart else s.push L.restartReenter

/-- What the entry of a routine does to `k`, with the frame at `p`, and `s` the
stack after it. -/
structure Entered (routine : Routine) (k : Machine) (p : UInt32) (s : Stack)
    (k' : Machine) : Prop where
  stack : k'.stack = s
  top : ∃ f, k'.activations = f :: k.activations ∧ f.routine = routine ∧
    f.point = first routine
  counter : k'.clockIntEnterTime = k.clockIntEnterTime + 1
  sp0 : k'.sp0 = k.sp0
  ldtr : k'.ldtr = k.ldtr
  port21 : k'.port21 = k.port21
  pProcReady : k'.pProcReady = k.pProcReady
  esi : k'.registers.esi = p
  eax : k'.registers.eax = k.registers.eax
  cs : k'.registers.cs = SELECTOR_KERNEL_CS
  ss : k'.registers.ss = SELECTOR_KERNEL_DS
  interruptFlag : k'.registers.interruptFlag = false

/-- The gate clears the interrupt flag. -/
theorem interruptFlag_gate (eflags : UInt32) :
    (eflags &&& ~~~0x34300).toBitVec.getLsbD 9 = false := by
  rw [UInt32.toBitVec_and, BitVec.getLsbD_and, Bool.and_eq_false_iff]
  exact Or.inr rfl

/-- The jump of `save` finds the return address in the frame. -/
theorem entered_of_pushed {L : Layout} {routine : Routine} {k : Machine} {s : Stack}
    (hpushed : (k.interruptGate.push (L.code routine (first routine))).pushRegisters = k.pushed s)
    (hreturn : load32 (labelled L (k.clockIntEnterTime + 1) s).memory (s.esp + 48) =
      L.code routine (first routine)) :
    ∃ k', k.enter L routine = some k' ∧
      Entered routine k s.esp (labelled L (k.clockIntEnterTime + 1) s) k' := by
  have hlabel : (k.pushed s).enterKernel.pushLabel L =
      (k.pushed s).enterKernel.withStack (labelled L (k.clockIntEnterTime + 1) s) := by
    rw [Machine.pushLabel, labelled,
      show (k.pushed s).enterKernel.clockIntEnterTime = k.clockIntEnterTime + 1 from rfl]
    split_ifs
    · rw [Machine.push, Machine.withStack_withStack, Machine.stack_withStack]
      rfl
    · rw [Machine.push]
      rfl
  rw [Machine.enter, Machine.save, hpushed, hlabel, Machine.jumpBack]
  generalize labelled L (k.clockIntEnterTime + 1) s = t at hreturn ⊢
  refine ⟨_, if_pos hreturn, ?_⟩
  constructor
  case top => exact ⟨_, rfl, rfl, rfl⟩
  case interruptFlag => exact interruptFlag_gate _
  all_goals rfl

/-- The entry from a task: its registers lie in its PCB, whose end is `esp0` of
the TSS, and `restart` is the label at the bottom of the kernel stack. -/
theorem enterOuter {L : Layout} (routine : Routine) {k : Machine} {p : UInt32}
    (hring : rpl k.registers.cs ≠ rpl SELECTOR_KERNEL_CS) (hsp0 : k.sp0.toNat = p.toNat + 72)
    (hcounter : k.clockIntEnterTime + 1 = 0)
    (hapart : p.toNat + 72 ≤ L.stackSpace.toNat ∨ L.stackTop.toNat ≤ p.toNat) :
    ∃ k', k.enter L routine = some k' ∧ Entered routine k p ⟨k'.memory, L.stackTop - 4⟩ k' ∧
      savedOuter k'.memory p = k.registers ∧ load32 k'.memory (L.stackTop - 4) = L.restart ∧
      ∀ a : UInt32, a.toNat < p.toNat ∨ p.toNat + 72 ≤ a.toNat →
        a.toNat + 4 < L.stackTop.toNat ∨ L.stackTop.toNat ≤ a.toNat →
        k'.memory a = k.memory a := by
  obtain ⟨temp, hpushed⟩ := pushed_outer hring (L.code routine (first routine))
  have hread := savedOuter_pushAll ⟨k.memory, k.sp0⟩ k.registers (L.code routine (first routine))
    temp hsp0
  have hends : Ends ⟨k.memory, k.sp0⟩ p (L.code routine (first routine)) _ :=
    ends_pushAll (k.registers.ss.toUInt32 :: k.registers.esp ::
      savedWords k.registers (L.code routine (first routine)) temp) hsp0
      (show 13 ≤ 18 by decide) rfl
  generalize Stack.pushAll _ _ = s at hpushed hread hends
  have hsp := k.sp0.toNat_lt
  have htop := L.toNat_stackTop
  have hlast : (L.stackTop - 4).toNat = L.stackTop.toNat - 4 := toNat_sub_of_le (k := 4) (by omega)
  have hat := UInt32.toNat_add p 48
  rw [show (48 : UInt32).toNat = 48 from rfl] at hat
  have hlabel : labelled L (k.clockIntEnterTime + 1) s =
      ⟨store32 s.memory (L.stackTop - 4) L.restart, L.stackTop - 4⟩ := if_pos hcounter
  have hkeep : ∀ a : UInt32, a.toNat + 4 < L.stackTop.toNat ∨ L.stackTop.toNat ≤ a.toNat →
      store32 s.memory (L.stackTop - 4) L.restart a = s.memory a := by
    intro a ha
    have hlt := L.stackTop.toNat_lt
    exact store32_of_outside _ _ (by omega) (by omega)
  have hreturn : load32 (store32 s.memory (L.stackTop - 4) L.restart) (p + 48) =
      L.code routine (first routine) := by
    rw [← hends.returnTo]
    exact load32_congr (by omega) fun a hlo hhi => hkeep a (by omega)
  obtain ⟨k', hk', hentered⟩ := entered_of_pushed hpushed (by rw [hlabel, hends.esp]; exact hreturn)
  rw [hends.esp, hlabel] at hentered
  have hmemory : k'.memory = store32 s.memory (L.stackTop - 4) L.restart :=
    congrArg Stack.memory hentered.stack
  refine ⟨k', hk', hmemory ▸ hentered, ?_, ?_, ?_⟩
  · rw [← hread, hmemory]
    exact savedOuter_congr (by omega) fun a hlo hhi => hkeep a (by omega)
  · rw [hmemory]
    exact load32_store32 _ _ _
  · intro a hframe hstack
    rw [hmemory, hkeep a hstack]
    exact hends.outside a (hsp0 ▸ hframe)

/-- The entry from the kernel: the registers lie on the kernel stack, below
`restart_reenter`. -/
theorem enterInner {L : Layout} (routine : Routine) {k : Machine} {p : UInt32}
    (hcs : k.registers.cs = SELECTOR_KERNEL_CS) (hss : k.registers.ss = SELECTOR_KERNEL_DS)
    (hesp : k.registers.esp.toNat = p.toNat + 64) (hp : 4 ≤ p.toNat)
    (hcounter : k.clockIntEnterTime + 1 ≠ 0) :
    ∃ k', k.enter L routine = some k' ∧ Entered routine k p ⟨k'.memory, p - 4⟩ k' ∧
      savedInner k'.memory p = k.registers ∧ load32 k'.memory (p - 4) = L.restartReenter ∧
      ∀ a : UInt32, a.toNat + 4 < p.toNat ∨ p.toNat + 64 ≤ a.toNat →
        k'.memory a = k.memory a := by
  obtain ⟨temp, hpushed⟩ := pushed_inner hcs hss (L.code routine (first routine))
  have hread := savedInner_pushAll k.stack k.registers (L.code routine (first routine)) temp hesp
    rfl hss
  have hends : Ends k.stack p (L.code routine (first routine)) _ :=
    ends_pushAll (savedWords k.registers (L.code routine (first routine)) temp) hesp
      (show 13 ≤ 16 by decide) rfl
  generalize Stack.pushAll _ _ = s at hpushed hread hends
  have hsp := k.registers.esp.toNat_lt
  have hlast : (p - 4).toNat = p.toNat - 4 := toNat_sub_of_le hp
  have hat := UInt32.toNat_add p 48
  rw [show (48 : UInt32).toNat = 48 from rfl] at hat
  have hlabel : labelled L (k.clockIntEnterTime + 1) s =
      ⟨store32 s.memory (p - 4) L.restartReenter, p - 4⟩ := by
    rw [labelled, if_neg hcounter, Stack.push, hends.esp]
  have hkeep : ∀ a : UInt32, a.toNat + 4 < p.toNat ∨ p.toNat ≤ a.toNat →
      store32 s.memory (p - 4) L.restartReenter a = s.memory a := by
    intro a ha
    exact store32_of_outside _ _ (by omega) (by omega)
  have hreturn : load32 (store32 s.memory (p - 4) L.restartReenter) (p + 48) =
      L.code routine (first routine) := by
    rw [← hends.returnTo]
    exact load32_congr (by omega) fun a hlo hhi => hkeep a (by omega)
  obtain ⟨k', hk', hentered⟩ := entered_of_pushed hpushed (by rw [hlabel, hends.esp]; exact hreturn)
  rw [hends.esp, hlabel] at hentered
  have hmemory : k'.memory = store32 s.memory (p - 4) L.restartReenter :=
    congrArg Stack.memory hentered.stack
  refine ⟨k', hk', hmemory ▸ hentered, ?_, ?_, ?_⟩
  · rw [← hread, hmemory]
    exact savedInner_congr (by omega) fun a hlo hhi => hkeep a (by omega)
  · rw [hmemory]
    exact load32_store32 _ _ _
  · intro a ha
    have hout := hends.outside a (show _ ∨ k.registers.esp.toNat ≤ a.toNat by omega)
    rw [hmemory, hkeep a (by omega), hout]
    rfl

/-! ## Returns -/

def Machine.withRegisters (k : Machine) (r : Registers) : Machine := { k with registers := r }

theorem pop_withRegisters (k : Machine) (r : Registers) (set : Registers → UInt32 → Registers) :
    (k.withRegisters r).pop set =
      k.withRegisters (set { r with esp := r.esp + 4 } (load32 k.memory r.esp)) := rfl

theorem drop_withRegisters (k : Machine) (r : Registers) :
    (k.withRegisters r).drop = k.withRegisters { r with esp := r.esp + 4 } := rfl

theorem popRegisters_withRegisters (k : Machine) (r : Registers) :
    (k.withRegisters r).popRegisters = k.withRegisters { r with
      gs := (load32 k.memory r.esp).toUInt16
      fs := (load32 k.memory (r.esp + 4)).toUInt16
      es := (load32 k.memory (r.esp + 8)).toUInt16
      ds := (load32 k.memory (r.esp + 12)).toUInt16
      edi := load32 k.memory (r.esp + 16)
      esi := load32 k.memory (r.esp + 20)
      ebp := load32 k.memory (r.esp + 24)
      ebx := load32 k.memory (r.esp + 32)
      edx := load32 k.memory (r.esp + 36)
      ecx := load32 k.memory (r.esp + 40)
      eax := load32 k.memory (r.esp + 44)
      esp := r.esp + 52 } := by
  simp only [Machine.popRegisters, Machine.popad, pop_withRegisters, drop_withRegisters,
    UInt32.add_assoc, UInt32.reduceAdd]

/-- `iretd` to the ring it comes from. -/
theorem iretd_inner {k : Machine} {r : Registers}
    (h : rpl (load32 k.memory (r.esp + 4)).toUInt16 = rpl r.cs) :
    (k.withRegisters r).iretd = k.withRegisters { r with
      eip := load32 k.memory r.esp
      cs := (load32 k.memory (r.esp + 4)).toUInt16
      eflags := load32 k.memory (r.esp + 8)
      esp := r.esp + 12 } := by
  simp only [Machine.iretd, pop_withRegisters, UInt32.add_assoc, UInt32.reduceAdd]
  exact if_pos h

/-- `iretd` to another ring. -/
theorem iretd_outer {k : Machine} {r : Registers}
    (h : rpl (load32 k.memory (r.esp + 4)).toUInt16 ≠ rpl r.cs) :
    (k.withRegisters r).iretd = k.withRegisters { r with
      eip := load32 k.memory r.esp
      cs := (load32 k.memory (r.esp + 4)).toUInt16
      eflags := load32 k.memory (r.esp + 8)
      esp := load32 k.memory (r.esp + 12)
      ss := (load32 k.memory (r.esp + 16)).toUInt16 } := by
  simp only [Machine.iretd, pop_withRegisters, drop_withRegisters, UInt32.add_assoc,
    UInt32.reduceAdd]
  exact if_neg h

/-- What `restart_reenter` leaves, but for the registers. -/
def left (k : Machine) (fs : List Activation) : Machine :=
  { k with clockIntEnterTime := k.clockIntEnterTime - 1, activations := fs }

/-- The return to a task loads its registers. -/
theorem leaveOuter {k : Machine} (fs : List Activation)
    (hcs : k.registers.cs = SELECTOR_KERNEL_CS)
    (hring : rpl (savedOuter k.memory k.registers.esp).cs ≠ rpl SELECTOR_KERNEL_CS) :
    k.restartReenter fs = (left k fs).withRegisters (savedOuter k.memory k.registers.esp) := by
  have hstart : k.restartReenter fs =
      ((left k fs).withRegisters k.registers).popRegisters.iretd := rfl
  have hcpl : rpl (load32 k.memory (k.registers.esp + 52 + 4)).toUInt16 ≠ rpl k.registers.cs := by
    rw [UInt32.add_assoc, hcs]
    exact hring
  rw [hstart, popRegisters_withRegisters, iretd_outer (by exact hcpl)]
  simp only [UInt32.add_assoc, UInt32.reduceAdd]
  rfl

/-- The return to the kernel loads the registers that were interrupted. -/
theorem leaveInner {k : Machine} (fs : List Activation)
    (hcs : k.registers.cs = SELECTOR_KERNEL_CS) (hss : k.registers.ss = SELECTOR_KERNEL_DS)
    (hring : (savedInner k.memory k.registers.esp).cs = SELECTOR_KERNEL_CS) :
    k.restartReenter fs = (left k fs).withRegisters (savedInner k.memory k.registers.esp) := by
  have hstart : k.restartReenter fs =
      ((left k fs).withRegisters k.registers).popRegisters.iretd := rfl
  have hcpl : rpl (load32 k.memory (k.registers.esp + 52 + 4)).toUInt16 = rpl k.registers.cs := by
    rw [UInt32.add_assoc, hcs, ← hring]
    rfl
  rw [hstart, popRegisters_withRegisters, iretd_inner (by exact hcpl), savedInner, ← hss]
  simp only [UInt32.add_assoc, UInt32.reduceAdd]
  rfl

end Context

end Legacy

end BbnOS
