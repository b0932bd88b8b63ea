import BbnOS.Lib.Runs
import Mathlib.Data.BitVec

/-!
# Interrupts of the legacy kernel

The entry and exit paths of `kernel.asm` (`hwint0` to `hwint7`, `sys_call`,
`save`, `restart` and `restart_reenter`), the dispatch of `spurious_irq`, and
the handlers of `irq.c`.

A frame is one activation of such a routine, with the place where it stands
(`Stage`).  The interrupted routines wait below it on the stack.  The gates of
all these vectors are interrupt gates, so the flag is clear from the entry to
the `sti`, and from the `cli` to the `iretd`.  Between the two an interrupt may
arrive before any statement of a handler.

`save` runs with the entry, and the decrement of `restart_reenter` with the
`iretd`: nothing can come between them.  The output of the handlers is not
modelled.
-/

namespace BbnOS

namespace Legacy

/-- `MAX_THREAD`. -/
def MAX_THREAD : Nat := 3

/-- The functions in `irq_table`. -/
inductive Handler where
  | clockHandler
  | keyboardHandler
  | commonIrq
  deriving DecidableEq

/-- `irq_table`, as `init_8259A` and `kmain` fill it. -/
def irqTable (irq : Fin 8) : Handler :=
  if irq = 0 then .clockHandler
  else if irq = 1 then .keyboardHandler
  else .commonIrq

/-- The interrupt of `clock_handler`. -/
def clockIrq : Fin 8 := 0

/-- The interrupt of `keyboard_handler`. -/
def keyboardIrq : Fin 8 := 1

/-- What entered the kernel: `kmain` itself, a master interrupt, or a system
call. -/
inductive Routine where
  | kmain
  | hwint (irq : Fin 8)
  | sysCall
  deriving DecidableEq

/-- The two labels that `save` pushes as a return address. -/
inductive Label where
  | restart
  | restartReenter
  deriving DecidableEq

/-- The place where a routine stands: before the instructions named. -/
inductive Stage where
  /-- `in al, 0x21`, `or al, 1 << irq`, `out 0x21, al`. -/
  | mask
  /-- The EOI and `sti`. -/
  | sti
  /-- The call of `spurious_irq` or `sys_call_master`. -/
  | handler
  /-- `p_proc_ready++` of `clock_handler`. -/
  | nextProc
  /-- The `if` statement after it. -/
  | wrapProc
  | cli
  /-- `in al, 0x21`, `and al, ~(1 << irq)`, `out 0x21, al`. -/
  | unmask
  | ret
  | restart
  | restartReenter
  deriving DecidableEq

/-- An activation of a routine, with the return address that `save` pushed. -/
structure Frame where
  routine : Routine
  stage : Stage
  label : Label
  deriving DecidableEq

/-- The interrupt mask, the globals of `global.h`, and the stack of frames, the
running one first.  `pProcReady` is the index of a pointer into `proc_table`.
With no frame on the stack a task is running. -/
structure Cpu where
  port21 : BitVec 8
  clockIntEnterTime : BitVec 32
  pProcReady : Nat
  interruptFlag : Bool
  frames : List Frame
  deriving DecidableEq

/-- The bit `1 << irq` of the mask. -/
def irqBit (irq : Fin 8) : BitVec 8 := 1#8 <<< irq.val

/-- The state in which `kmain` calls `restart` first. -/
def atRestart (mask : BitVec 8) : Cpu where
  port21 := mask
  clockIntEnterTime := 0
  pProcReady := 0
  interruptFlag := false
  frames := [{ routine := .kmain, stage := .restart, label := .restart }]

/-- The entry of a routine through its interrupt gate, with `save`. -/
def save (routine : Routine) (stage : Stage) (s : Cpu) : Cpu :=
  let clockIntEnterTime := s.clockIntEnterTime + 1
  let label := if clockIntEnterTime = 0 then Label.restart else Label.restartReenter
  { s with
    clockIntEnterTime := clockIntEnterTime
    interruptFlag := false
    frames := { routine := routine, stage := stage, label := label } :: s.frames }

/-- The handler of a routine, up to the point where it returns or changes the
state. -/
def enterHandler (routine : Routine) (s : Cpu) : Stage :=
  match routine with
  | .hwint irq =>
    match irqTable irq with
    | .clockHandler => if s.clockIntEnterTime ≠ 0 then .cli else .nextProc
    | .keyboardHandler => .cli
    | .commonIrq => .cli
  | _ => .cli

/-- The frame `f` above the frames `fs` goes to another place. -/
def goto (f : Frame) (fs : List Frame) (stage : Stage) (s : Cpu) : Cpu :=
  { s with frames := { f with stage := stage } :: fs }

/-- The running routine goes on. -/
def resume (s : Cpu) : Option Cpu :=
  match s.frames with
  | [] => none
  | f :: fs =>
    match f.stage with
    | .mask =>
      match f.routine with
      | .hwint irq => some (goto f fs .sti { s with port21 := s.port21 ||| irqBit irq })
      | _ => none
    | .sti => some (goto f fs .handler { s with interruptFlag := true })
    | .handler => some (goto f fs (enterHandler f.routine s) s)
    | .nextProc => some (goto f fs .wrapProc { s with pProcReady := s.pProcReady + 1 })
    | .wrapProc =>
      some (goto f fs .cli { s with
        pProcReady := if s.pProcReady ≥ MAX_THREAD then 0 else s.pProcReady })
    | .cli =>
      match f.routine with
      | .hwint _ => some (goto f fs .unmask { s with interruptFlag := false })
      | _ => some (goto f fs .ret { s with interruptFlag := false })
    | .unmask =>
      match f.routine with
      | .hwint irq => some (goto f fs .ret { s with port21 := s.port21 &&& ~~~irqBit irq })
      | _ => none
    | .ret =>
      match f.label with
      | .restart => some (goto f fs .restart s)
      | .restartReenter => some (goto f fs .restartReenter s)
    -- esp and the stack of the TSS are those of *p_proc_ready from here on
    | .restart => some (goto f fs .restartReenter s)
    -- the flags that iretd restores have interrupts enabled
    | .restartReenter =>
      some { s with
        clockIntEnterTime := s.clockIntEnterTime - 1
        interruptFlag := true
        frames := fs }

/-- What may happen next. -/
inductive Action where
  | irq (irq : Fin 8)
  | intSysCall
  | resume
  deriving DecidableEq

/-- One step.  An interrupt arrives only while interrupts are enabled and its
mask bit is clear, and only a task makes a system call. -/
def step (s : Cpu) : Action → Option Cpu
  | .irq irq =>
    if s.interruptFlag ∧ s.port21.getLsbD irq.val = false then
      some (save (.hwint irq) .mask s)
    else none
  | .intSysCall => if s.frames = [] then some (save .sysCall .sti s) else none
  | .resume => resume s

end Legacy

end BbnOS
