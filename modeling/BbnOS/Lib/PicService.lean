import BbnOS.Lib.Pic8259
import Mathlib.Logic.Function.Basic

/-!
# Requests and services of a pair of 8259As

What `Lib.Pic8259` leaves out of the two chips: the lines that request a service and those
in service.  A chip interrupts for the first of its lines that has a request and is not
masked, as long as neither this line nor one before it is in service.  The slave
interrupts through line 2 of the master.  A non-specific end of interrupt ends the first
service of a chip.

`int_eq_find` says which line interrupts while none is in service, and `outb_acknowledge_lt`
and `outb_acknowledge_ge` that a service is over when its chip, and the master if it is not
that, got such a command.
-/

namespace Pic8259

/-- The lines of a chip with a request, and those in service. -/
structure Lines where
  irr : Nat → Bool
  isr : Nat → Bool

namespace Lines

/-- The chip may interrupt for a line. -/
def ready (mask : BitVec 8) (l : Lines) (i : Nat) : Bool :=
  l.irr i && !mask.getLsbD i && (List.range (i + 1)).all fun j => !l.isr j

/-- The line that the chip interrupts for. -/
def int (mask : BitVec 8) (l : Lines) : Option Nat := (List.range 8).find? (l.ready mask)

/-- The processor accepts the interrupt of a line. -/
def acknowledge (i : Nat) (l : Lines) : Lines :=
  { irr := Function.update l.irr i false, isr := Function.update l.isr i true }

/-- The non-specific end of interrupt. -/
def eoi (l : Lines) : Lines :=
  match (List.range 8).find? l.isr with
  | none => l
  | some i => { l with isr := Function.update l.isr i false }

/-- No line is in service. -/
def Idle (l : Lines) : Prop := ∀ i, l.isr i = false

variable {l : Lines}

/-- The lines that are not masked. -/
def unmasked (mask : BitVec 8) : List Nat := (List.range 8).filter fun i => !mask.getLsbD i

/-- While no line is in service, a chip interrupts for the first open line with a request. -/
theorem int_eq_find (h : l.Idle) (mask : BitVec 8) : l.int mask = (unmasked mask).find? l.irr := by
  have hready : l.ready mask = fun i => !mask.getLsbD i && l.irr i := by
    funext i
    have hall : ((List.range (i + 1)).all fun j => !l.isr j) = true := by
      rw [List.all_eq_true]
      intro j _
      rw [h j]
      rfl
    rw [ready, hall, Bool.and_true, Bool.and_comm]
  rw [int, unmasked, hready, List.find?_filter]
  congr 1
  funext i
  rw [Bool.decide_and, Bool.decide_eq_true, Bool.decide_eq_true]

/-- The end of the only service. -/
theorem eoi_acknowledge (h : l.Idle) {i : Nat} (hi : i < 8) :
    (l.acknowledge i).eoi = { l with irr := Function.update l.irr i false } := by
  have hfind : (List.range 8).find? (l.acknowledge i).isr = some i := by
    rw [List.find?_range_eq_some]
    refine ⟨Function.update_self _ _ _, List.mem_range.mpr hi, fun j hj => ?_⟩
    have hne : (l.acknowledge i).isr j = l.isr j := Function.update_of_ne (Nat.ne_of_lt hj) _ _
    rw [hne, h j]
    rfl
  have hisr : Function.update (Function.update l.isr i true) i false = l.isr := by
    rw [Function.update_idem, ← h i, Function.update_eq_self]
  rw [eoi, hfind]
  dsimp only [acknowledge]
  rw [hisr]

end Lines

/-- The lines of both chips. -/
structure Services where
  master : Lines
  slave : Lines

namespace Services

/-- A device raises its line.  What it does to line 2 of the master does not count, and
there is no line past the 15th. -/
def raise (irq : Nat) (s : Services) : Services :=
  if irq < 8 then
    { s with master := { s.master with irr := Function.update s.master.irr irq true } }
  else if irq < 16 then
    { s with slave := { s.slave with irr := Function.update s.slave.irr (irq - 8) true } }
  else s

/-- The master, with the interrupt of the slave on its line 2. -/
def cascade (p : Pics) (s : Services) : Lines :=
  { s.master with irr := Function.update s.master.irr 2 (s.slave.int p.slave.mask).isSome }

/-- The line that the processor gets. -/
def pending (p : Pics) (s : Services) : Option Nat :=
  ((s.cascade p).int p.master.mask).bind fun i =>
    if i = 2 then (s.slave.int p.slave.mask).map (· + 8) else some i

/-- The vector that the processor gets for a line. -/
def vectorOf (p : Pics) (irq : Nat) : BitVec 8 :=
  if irq < 8 then p.master.base + BitVec.ofNat 8 irq else p.slave.base + BitVec.ofNat 8 (irq - 8)

/-- The processor accepts the interrupt of a line. -/
def acknowledge (irq : Nat) (s : Services) : Services :=
  if irq < 8 then { s with master := s.master.acknowledge irq }
  else { master := s.master.acknowledge 2, slave := s.slave.acknowledge (irq - 8) }

/-- A write of the non-specific end of interrupt to a command port. -/
def outb (port : BitVec 16) (v : BitVec 8) (s : Services) : Services :=
  if v = 0x20 then
    if port = 0x20 then { s with master := s.master.eoi }
    else if port = 0xA0 then { s with slave := s.slave.eoi }
    else s
  else s

/-- No line is in service. -/
structure Idle (s : Services) : Prop where
  master : s.master.Idle
  slave : s.slave.Idle

variable {s : Services} {irq : Nat}

/-- A new request is no service. -/
theorem Idle.raise (h : s.Idle) : (s.raise irq).Idle := by
  unfold Services.raise
  split_ifs
  · exact ⟨h.master, h.slave⟩
  · exact ⟨h.master, h.slave⟩
  · exact h

theorem update_true (f : Nat → Bool) (i j : Nat) :
    Function.update f i true j = (decide (i = j) || f j) := by
  by_cases h : i = j
  · rw [h, Function.update_self, decide_eq_true rfl, Bool.true_or]
  · rw [Function.update_of_ne (Ne.symm h), decide_eq_false h, Bool.false_or]

theorem raise_master_irr (s : Services) {i : Nat} (hi : i < 8) :
    (s.raise irq).master.irr i = (decide (irq = i) || s.master.irr i) := by
  unfold raise
  split_ifs with hlt hslave
  · exact update_true _ _ _
  · rw [decide_eq_false (show irq ≠ i by omega), Bool.false_or]
  · rw [decide_eq_false (show irq ≠ i by omega), Bool.false_or]

theorem raise_slave_irr (s : Services) {i : Nat} (hi : i < 8) :
    (s.raise irq).slave.irr i = (decide (irq = 8 + i) || s.slave.irr i) := by
  unfold raise
  split_ifs with hlt hslave
  · rw [decide_eq_false (show irq ≠ 8 + i by omega), Bool.false_or]
  · have heq : irq - 8 = i ↔ irq = 8 + i := by omega
    rw [← decide_eq_decide.mpr heq]
    exact update_true _ _ _
  · rw [decide_eq_false (show irq ≠ 8 + i by omega), Bool.false_or]

/-- The service of a line of the master. -/
theorem outb_acknowledge_lt (h : s.Idle) (hirq : irq < 8) :
    (s.acknowledge irq).outb 0x20 0x20 =
      { s with master := { s.master with irr := Function.update s.master.irr irq false } } := by
  rw [acknowledge, if_pos hirq, ← Lines.eoi_acknowledge h.master hirq]
  rfl

/-- The service of a line of the slave. -/
theorem outb_acknowledge_ge (h : s.Idle) (hge : 8 ≤ irq) (hlt : irq < 16) :
    ((s.acknowledge irq).outb 0xA0 0x20).outb 0x20 0x20 =
      { master := { s.master with irr := Function.update s.master.irr 2 false }
        slave := { s.slave with irr := Function.update s.slave.irr (irq - 8) false } } := by
  rw [acknowledge, if_neg (Nat.not_lt.mpr hge), ← Lines.eoi_acknowledge h.master (by decide),
    ← Lines.eoi_acknowledge h.slave (show irq - 8 < 8 by omega)]
  rfl

end Services

end Pic8259
