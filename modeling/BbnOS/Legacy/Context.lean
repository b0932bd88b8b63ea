import BbnOS.Lib.WordStack
import BbnOS.Legacy.Interrupts

/-!
# The registers and stacks of the legacy kernel

The entry and exit paths of `kernel.asm` once more, now with the registers and
the memory they save contexts in: `save`, `hwint0` to `hwint7`, `sys_call`,
`restart` and `restart_reenter`.  `Interrupts` models the same code with the
control alone.

A context lives in memory only.  The entry from a task pushes it on the stack
of the TSS, which lies in the PCB of the task, and every deeper entry on the
kernel stack.  The return addresses lie in memory too: `save` leaves through
`[esi + RETADR]`, a handler through the word that its call pushed, and `ret`
goes to the label that `save` pushed.  A word that is not the address of the
place stops the model.

The C functions are taken as the calling convention has them: between the call
and the return the registers change, `esp` stays within `handlerRoom` bytes
below the return address, the memory changes outside the PCBs and the part of
the kernel stack in use (the argument may change), and the return gives `ebx`,
`esi`, `edi` and `ebp` back.  A task changes its registers and the memory
outside the PCBs.  Neither changes the interrupt flag or its ring.
-/

namespace BbnOS

namespace Legacy

namespace Context

open WordStack

/-! ## Data -/

/-- `SELECTOR_KERNEL_CS`. -/
def SELECTOR_KERNEL_CS : UInt16 := 0x08

/-- `SELECTOR_KERNEL_DS`. -/
def SELECTOR_KERNEL_DS : UInt16 := 0x10

/-- `sizeof(PROCESS)`: the frame, `ldt_sel`, `ldts`, two bytes of padding, `pid`
and `p_name`. -/
def SIZEOF_PROCESS : Nat := 112

/-- The requested privilege level of a selector. -/
def rpl (selector : UInt16) : UInt16 := selector &&& 3

/-- The registers of a context. -/
structure Registers where
  gs : UInt16
  fs : UInt16
  es : UInt16
  ds : UInt16
  edi : UInt32
  esi : UInt32
  ebp : UInt32
  ebx : UInt32
  edx : UInt32
  ecx : UInt32
  eax : UInt32
  eip : UInt32
  cs : UInt16
  eflags : UInt32
  esp : UInt32
  ss : UInt16
  deriving DecidableEq

/-- The interrupt flag. -/
def Registers.interruptFlag (r : Registers) : Bool := r.eflags.toBitVec.getLsbD 9

/-- Places of the assembler code, and of the C code it calls: each before the
instructions named. -/
inductive Point where
  /-- `in al, 0x21`, `or al, 1 << irq`, `out 0x21, al`. -/
  | mask
  /-- The EOI and `sti`. -/
  | sti
  /-- `push %1`, or `push eax` of `sys_call`. -/
  | push
  | call
  /-- In the handler, before its test of `clock_int_enter_time`. -/
  | test
  | nextProc
  | wrapProc
  /-- In the handler, with nothing left but to return. -/
  | done
  /-- `pop ecx`, or `add esp, 4`. -/
  | pop
  /-- `mov [esi + EAXREG - P_STACKBASE], eax`. -/
  | store
  | cli
  /-- `in al, 0x21`, `and al, ~(1 << irq)`, `out 0x21, al`. -/
  | unmask
  | ret
  | restart
  | restartReenter
  deriving DecidableEq

/-- The places inside a C function. -/
def Point.inC : Point → Bool
  | test | nextProc | wrapProc | done => true
  | _ => false

/-- Where a routine goes on after `call save`. -/
def first : Routine → Point
  | .hwint _ => .mask
  | _ => .sti

/-- An activation of a routine, with the registers at its call of a C
function. -/
structure Activation where
  routine : Routine
  point : Point
  called : Registers
  deriving DecidableEq

/-- Where the linker puts things, and how much of the stack the C code of an activation
uses: `vprintf` alone has a buffer of 256 bytes. -/
structure Layout where
  procTable : UInt32
  stackSpace : UInt32
  restart : UInt32
  restartReenter : UInt32
  code : Routine → Point → UInt32
  handlerRoom : Nat
  restart_ne : restart ≠ restartReenter
  procTable_lt : procTable.toNat + MAX_THREAD * SIZEOF_PROCESS < 2 ^ 32
  stackSpace_lt : stackSpace.toNat + 2048 < 2 ^ 32
  apart : stackSpace.toNat + 2048 ≤ procTable.toNat ∨
    procTable.toNat + MAX_THREAD * SIZEOF_PROCESS ≤ stackSpace.toNat

/-- `StackTop`. -/
def Layout.stackTop (L : Layout) : UInt32 := L.stackSpace + 2048

theorem Layout.toNat_stackTop (L : Layout) : L.stackTop.toNat = L.stackSpace.toNat + 2048 := by
  have hlt := L.stackSpace_lt
  rw [Layout.stackTop, UInt32.toNat_add, show (2048 : UInt32).toNat = 2048 from rfl,
    Nat.mod_eq_of_lt hlt]

/-- `&proc_table[i]`. -/
def Layout.pcb (L : Layout) (i : Nat) : UInt32 := L.procTable + UInt32.ofNat (SIZEOF_PROCESS * i)

/-- The registers, the memory, and what the CPU and the C code keep elsewhere:
`esp0` of the TSS, the LDT register, the mask of the master PIC, and the
globals of `global.h`.  With no activation a task is running. -/
structure Machine where
  registers : Registers
  memory : Bytes
  sp0 : UInt32
  ldtr : UInt16
  port21 : BitVec 8
  clockIntEnterTime : BitVec 32
  pProcReady : UInt32
  activations : List Activation

/-! ## Instructions -/

namespace Machine

def stack (k : Machine) : Stack where
  memory := k.memory
  esp := k.registers.esp

def withStack (k : Machine) (s : Stack) : Machine :=
  { k with memory := s.memory, registers := { k.registers with esp := s.esp } }

@[simp] theorem stack_withStack (k : Machine) (s : Stack) : (k.withStack s).stack = s := rfl

@[simp] theorem withStack_withStack (k : Machine) (s s' : Stack) :
    (k.withStack s).withStack s' = k.withStack s' := rfl

@[simp] theorem registers_withStack (k : Machine) (s : Stack) :
    (k.withStack s).registers = { k.registers with esp := s.esp } := rfl

def push (k : Machine) (v : UInt32) : Machine := k.withStack (k.stack.push v)

/-- The word that a `pop` takes. -/
def top (k : Machine) : UInt32 := k.stack.top

/-- `pop`, without the word. -/
def drop (k : Machine) : Machine := k.withStack k.stack.drop

/-- `pop` of a register. -/
def pop (k : Machine) (set : Registers → UInt32 → Registers) : Machine :=
  { k.drop with registers := set k.drop.registers k.top }

def pushad (k : Machine) : Machine :=
  let temp := k.registers.esp
  let k := k.push k.registers.eax
  let k := k.push k.registers.ecx
  let k := k.push k.registers.edx
  let k := k.push k.registers.ebx
  let k := k.push temp
  let k := k.push k.registers.ebp
  let k := k.push k.registers.esi
  k.push k.registers.edi

def popad (k : Machine) : Machine :=
  let k := k.pop fun r v => { r with edi := v }
  let k := k.pop fun r v => { r with esi := v }
  let k := k.pop fun r v => { r with ebp := v }
  let k := k.drop
  let k := k.pop fun r v => { r with ebx := v }
  let k := k.pop fun r v => { r with edx := v }
  let k := k.pop fun r v => { r with ecx := v }
  k.pop fun r v => { r with eax := v }

def cli (k : Machine) : Machine :=
  { k with registers := { k.registers with eflags := k.registers.eflags &&& ~~~0x200 } }

def sti (k : Machine) : Machine :=
  { k with registers := { k.registers with eflags := k.registers.eflags ||| 0x200 } }

/-- A new value for `al`. -/
def setAl (k : Machine) (v : BitVec 8) : Machine :=
  { k with registers := { k.registers with
      eax := (k.registers.eax &&& 0xFFFFFF00) ||| UInt32.ofNat v.toNat } }

/-- `in al, 0x21`, an instruction on `al`, and `out 0x21, al`. -/
def updatePort21 (k : Machine) (f : BitVec 8 → BitVec 8) : Machine :=
  { k.setAl (f k.port21) with port21 := f k.port21 }

/-- What the CPU does before the first instruction of a handler.  Coming from a
task it changes to the stack of the TSS; it clears VM, RF, NT, IF and TF. -/
def interruptGate (k : Machine) : Machine :=
  let r := k.registers
  let k := if rpl r.cs = rpl SELECTOR_KERNEL_CS then k else
    let k := { k with registers := { r with ss := SELECTOR_KERNEL_DS, esp := k.sp0 } }
    let k := k.push r.ss.toUInt32
    k.push r.esp
  let k := k.push r.eflags
  let k := k.push r.cs.toUInt32
  let k := k.push r.eip
  { k with registers := { k.registers with
      cs := SELECTOR_KERNEL_CS
      eflags := k.registers.eflags &&& ~~~0x34300 } }

def iretd (k : Machine) : Machine :=
  let cpl := rpl k.registers.cs
  let k := k.pop fun r v => { r with eip := v }
  let k := k.pop fun r v => { r with cs := v.toUInt16 }
  let k := k.pop fun r v => { r with eflags := v }
  if rpl k.registers.cs = cpl then k else
    let esp := k.top
    let k := k.drop.pop fun r v => { r with ss := v.toUInt16 }
    { k with registers := { k.registers with esp := esp } }

/-- The activation `f` above `fs` goes to another place. -/
def moveTo (L : Layout) (f : Activation) (fs : List Activation) (point : Point)
    (k : Machine) : Machine :=
  { k with
    registers := { k.registers with eip := L.code f.routine point }
    activations := { f with point := point } :: fs }

/-! ## The routines -/

/-- `save` up to the last `push` of a register. -/
def pushRegisters (k : Machine) : Machine :=
  let k := k.pushad
  let k := k.push k.registers.ds.toUInt32
  let k := k.push k.registers.es.toUInt32
  let k := k.push k.registers.fs.toUInt32
  k.push k.registers.gs.toUInt32

/-- `save` up to `inc dword [clock_int_enter_time]`. -/
def enterKernel (k : Machine) : Machine :=
  { k with
    registers := { k.registers with
      edx := (k.registers.edx &&& 0xFFFF0000) ||| k.registers.ss.toUInt32
      ds := k.registers.ss
      es := k.registers.ss
      esi := k.registers.esp }
    clockIntEnterTime := k.clockIntEnterTime + 1 }

/-- `save` up to the push of a label. -/
def pushLabel (L : Layout) (k : Machine) : Machine :=
  if k.clockIntEnterTime = 0 then (k.withStack ⟨k.memory, L.stackTop⟩).push L.restart
  else k.push L.restartReenter

/-- `jmp [esi + RETADR - P_STACKBASE]`. -/
def jumpBack (L : Layout) (routine : Routine) (k : Machine) : Option Machine :=
  if load32 k.memory (k.registers.esi + 48) = L.code routine (first routine) then
    some (k.moveTo L ⟨routine, first routine, k.registers⟩ k.activations (first routine))
  else none

/-- `save`, after the `call` that pushed its return address. -/
def save (L : Layout) (routine : Routine) (k : Machine) : Option Machine :=
  (k.pushRegisters.enterKernel.pushLabel L).jumpBack L routine

/-- The entry of a routine through its interrupt gate, up to the jump of
`save`. -/
def enter (L : Layout) (routine : Routine) (k : Machine) : Option Machine :=
  save L routine (k.interruptGate.push (L.code routine (first routine)))

/-- `restart`, up to `restart_reenter`. -/
def restart (k : Machine) : Machine :=
  let k := { k with registers := { k.registers with esp := k.pProcReady } }
  let k := { k with ldtr := load16 k.memory (k.registers.esp + 72) }
  let k := { k with registers := { k.registers with eax := k.registers.esp + 72 } }
  { k with sp0 := k.registers.eax }

/-- The pops of `restart_reenter`. -/
def popRegisters (k : Machine) : Machine :=
  let k := k.pop fun r v => { r with gs := v.toUInt16 }
  let k := k.pop fun r v => { r with fs := v.toUInt16 }
  let k := k.pop fun r v => { r with es := v.toUInt16 }
  let k := k.pop fun r v => { r with ds := v.toUInt16 }
  let k := k.popad
  k.drop

/-- `restart_reenter`. -/
def restartReenter (fs : List Activation) (k : Machine) : Machine :=
  let k := { k with clockIntEnterTime := k.clockIntEnterTime - 1, activations := fs }
  k.popRegisters.iretd

/-- The return of a C function: what it preserves, and the word that its call
pushed. -/
def returnFromC (L : Layout) (f : Activation) (fs : List Activation) (k : Machine) :
    Option Machine :=
  let k := { k with registers := { k.registers with
      ebx := f.called.ebx
      esi := f.called.esi
      edi := f.called.edi
      ebp := f.called.ebp
      esp := f.called.esp } }
  if k.top = L.code f.routine .pop then some (k.drop.moveTo L f fs .pop) else none

/-- `ret` at the end of a routine: it goes to the label that `save` pushed. -/
def ret (L : Layout) (f : Activation) (fs : List Activation) (k : Machine) : Option Machine :=
  if k.top = L.restart then some (k.drop.moveTo L f fs .restart)
  else if k.top = L.restartReenter then some (k.drop.moveTo L f fs .restartReenter)
  else none

/-- `p_proc_ready++` of `clock_handler`. -/
def nextProc (k : Machine) : Machine :=
  { k with pProcReady := k.pProcReady + UInt32.ofNat SIZEOF_PROCESS }

/-- The `if` statement after it. -/
def wrapProc (L : Layout) (k : Machine) : Machine :=
  { k with pProcReady :=
      if L.procTable.toNat + MAX_THREAD * SIZEOF_PROCESS ≤ k.pProcReady.toNat then L.procTable
      else k.pProcReady }

/-- Where the handler that `spurious_irq` calls goes on after its test. -/
def afterTest (routine : Routine) (k : Machine) : Point :=
  match routine with
  | .hwint irq =>
    match irqTable irq with
    | .clockHandler => if k.clockIntEnterTime ≠ 0 then .done else .nextProc
    | .keyboardHandler => .done
    | .commonIrq => .done
  | _ => .done

/-- The running routine goes on. -/
def resume (L : Layout) (k : Machine) : Option Machine :=
  match k.activations with
  | [] => none
  | f :: fs =>
    match f.point, f.routine with
    | .mask, .hwint irq => some ((k.updatePort21 (· ||| irqBit irq)).moveTo L f fs .sti)
    | .mask, _ => none
    -- mov al, 0x20 and out 0x20, al, of which the interrupt controller is not modelled
    | .sti, .hwint _ => some ((k.setAl 0x20).sti.moveTo L f fs .push)
    | .sti, _ => some (k.sti.moveTo L f fs .push)
    | .push, .hwint irq => some ((k.push (UInt32.ofNat irq.val)).moveTo L f fs .call)
    | .push, _ => some ((k.push k.registers.eax).moveTo L f fs .call)
    | .call, routine =>
      let k := k.push (L.code routine .pop)
      some (k.moveTo L { f with called := k.registers } fs .test)
    | .test, routine => some (k.moveTo L f fs (k.afterTest routine))
    | .nextProc, _ => some (k.nextProc.moveTo L f fs .wrapProc)
    | .wrapProc, _ => some ((k.wrapProc L).moveTo L f fs .done)
    | .done, _ => k.returnFromC L f fs
    | .pop, .hwint _ =>
      let k := k.pop fun r v => { r with ecx := v }
      some (k.moveTo L f fs .cli)
    | .pop, _ => some (k.drop.moveTo L f fs .store)
    | .store, _ =>
      let k := { k with memory := store32 k.memory (k.registers.esi + 44) k.registers.eax }
      some (k.moveTo L f fs .cli)
    | .cli, .hwint _ => some (k.cli.moveTo L f fs .unmask)
    | .cli, _ => some (k.cli.moveTo L f fs .ret)
    | .unmask, .hwint irq => some ((k.updatePort21 (· &&& ~~~irqBit irq)).moveTo L f fs .ret)
    | .unmask, _ => none
    | .ret, _ => k.ret L f fs
    | .restart, _ => some (k.restart.moveTo L f fs .restartReenter)
    | .restartReenter, _ => some (k.restartReenter fs)

end Machine

/-! ## Steps -/

/-- What may happen next.  `run` is a task or a C function that goes on, with
the registers it comes to and the bytes it writes. -/
inductive Action where
  | irq (irq : Fin 8)
  | intSysCall
  | run (registers : Registers) (writes : List (UInt32 × UInt8))
  | resume

/-- The addresses of the PCBs. -/
def Layout.InTable (L : Layout) (a : UInt32) : Prop :=
  L.procTable.toNat ≤ a.toNat ∧ a.toNat < L.procTable.toNat + MAX_THREAD * SIZEOF_PROCESS

/-- The part of the kernel stack in use, but for the argument of the running
handler. -/
def Layout.InUse (L : Layout) (f : Activation) (a : UInt32) : Prop :=
  f.called.esp.toNat ≤ a.toNat ∧ a.toNat < L.stackTop.toNat ∧
    (a.toNat < f.called.esp.toNat + 4 ∨ f.called.esp.toNat + 8 ≤ a.toNat)

/-- The addresses that a running task or C function may write. -/
def Machine.MayWrite (L : Layout) (k : Machine) (a : UInt32) : Prop :=
  ¬ L.InTable a ∧ ∀ f, k.activations.head? = some f → ¬ L.InUse f a

/-- The registers `r'` that a task, or the C function of an activation, may come
to from `r`. -/
def Registers.MayBecome (L : Layout) (r r' : Registers) : List Activation → Prop
  | [] => r'.interruptFlag = r.interruptFlag ∧ rpl r'.cs ≠ rpl SELECTOR_KERNEL_CS
  | f :: _ => f.point.inC = true ∧ r'.interruptFlag = r.interruptFlag ∧ r'.cs = r.cs ∧
      r'.ss = r.ss ∧ r'.esp.toNat ≤ f.called.esp.toNat ∧
      f.called.esp.toNat ≤ r'.esp.toNat + L.handlerRoom

instance (L : Layout) (a : UInt32) : Decidable (L.InTable a) :=
  inferInstanceAs (Decidable (_ ∧ _))

instance (L : Layout) (f : Activation) (a : UInt32) : Decidable (L.InUse f a) :=
  inferInstanceAs (Decidable (_ ∧ _))

instance (L : Layout) (k : Machine) (a : UInt32) : Decidable (k.MayWrite L a) :=
  inferInstanceAs (Decidable (_ ∧ ∀ f, k.activations.head? = some f → _))

instance (L : Layout) (k : Machine) (writes : List (UInt32 × UInt8)) :
    Decidable (∀ w ∈ writes, k.MayWrite L w.1) :=
  List.decidableBAll _ _

instance (L : Layout) (r r' : Registers) : ∀ fs, Decidable (r.MayBecome L r' fs)
  | [] => inferInstanceAs (Decidable (_ ∧ _))
  | _ :: _ => inferInstanceAs (Decidable (_ ∧ _))

/-- One step.  An interrupt arrives only while interrupts are enabled and its
mask bit is clear, and only a task makes a system call. -/
def Machine.step (L : Layout) (k : Machine) : Action → Option Machine
  | .irq irq =>
    if k.registers.interruptFlag = true ∧ k.port21.getLsbD irq.val = false then
      k.enter L (.hwint irq)
    else none
  | .intSysCall => if k.activations = [] then k.enter L .sysCall else none
  | .run registers writes =>
    if k.registers.MayBecome L registers k.activations ∧ ∀ w ∈ writes, k.MayWrite L w.1 then
      some { k with
        registers := registers
        memory := writeAll k.memory writes }
    else none
  | .resume => k.resume L

end Context

end Legacy

end BbnOS
