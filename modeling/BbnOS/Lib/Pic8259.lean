import BbnOS.Lib.Cells
import Mathlib.Data.BitVec
import Mathlib.Data.Fintype.Basic

/-!
# A pair of 8259A interrupt controllers

As far as their documentation says what the two ports of a chip do: a command
with bit 4 set is ICW1 and begins the initialisation, which clears the mask and
takes the next writes to the data port as ICW2, ICW3 and ICW4; any other write
to the data port sets the mask, and a read gives it back.  Other commands, the
end of an interrupt among them, do not change what is kept here.

`Sets` says that one mask bit of a pair is set, and nothing else changes;
`sets_outb` when a write to a data port does that, and `sets_foldl` what any
number of such calls leaves: the last one of each line counts.
-/

namespace Pic8259

/-- The next word that the data port takes. -/
inductive Expects where
  | icw2
  | icw3
  | icw4
  | mask
  deriving DecidableEq

/-- A chip: the mask register, the vector of its line 0, its place in the
cascade, whether ICW1 announced an ICW3 and an ICW4, and what comes next. -/
structure Chip where
  mask : BitVec 8
  base : BitVec 8
  cascade : BitVec 8
  single : Bool
  needsIcw4 : Bool
  expects : Expects
  deriving DecidableEq

namespace Chip

/-- After the last word but ICW4. -/
def afterIcw3 (c : Chip) : Expects := if c.needsIcw4 then .icw4 else .mask

def writeCommand (c : Chip) (v : BitVec 8) : Chip :=
  if v.getLsbD 4 then { c with
    mask := 0
    single := v.getLsbD 1
    needsIcw4 := v.getLsbD 0
    expects := .icw2 }
  else c

def writeData (c : Chip) (v : BitVec 8) : Chip :=
  match c.expects with
  | .icw2 => { c with
      base := v &&& 0xF8
      expects := if c.single then c.afterIcw3 else .icw3 }
  | .icw3 => { c with cascade := v, expects := c.afterIcw3 }
  | .icw4 => { c with expects := .mask }
  | .mask => { c with mask := v }

theorem writeData_mask {c : Chip} (h : c.expects = .mask) (v : BitVec 8) :
    c.writeData v = { c with mask := v } := by
  rw [writeData, h]

end Chip

/-- The master and the slave, and the ports of a PC. -/
structure Pics where
  master : Chip
  slave : Chip
  deriving DecidableEq

namespace Pics

def outb (p : Pics) (port : BitVec 16) (v : BitVec 8) : Pics :=
  if port = 0x20 then { p with master := p.master.writeCommand v }
  else if port = 0x21 then { p with master := p.master.writeData v }
  else if port = 0xA0 then { p with slave := p.slave.writeCommand v }
  else if port = 0xA1 then { p with slave := p.slave.writeData v }
  else p

/-- A read of a data port. -/
def inb (p : Pics) (port : BitVec 16) : BitVec 8 :=
  if port = 0x21 then p.master.mask else if port = 0xA1 then p.slave.mask else 0

/-- The initialisation is over. -/
structure Ready (p : Pics) : Prop where
  master : p.master.expects = .mask
  slave : p.slave.expects = .mask

/-- The line `irq` is masked. -/
def masked (p : Pics) (irq : Fin 16) : Bool :=
  if irq.val < 8 then p.master.mask.getLsbD irq.val else p.slave.mask.getLsbD (irq.val - 8)

/-- The vector of a line. -/
def vector (p : Pics) (irq : Fin 16) : BitVec 8 :=
  if irq.val < 8 then p.master.base + BitVec.ofNat 8 irq.val
  else p.slave.base + BitVec.ofNat 8 (irq.val - 8)

/-! ## One mask bit -/

/-- `p'` is `p` with one mask bit set to `b`. -/
structure Sets (p : Pics) (irq : Fin 16) (b : Bool) (p' : Pics) : Prop where
  masked : ∀ j, p'.masked j = if j = irq then b else p.masked j
  vector : ∀ j, p'.vector j = p.vector j
  ready : p'.Ready

/-- The data port of the chip of a line. -/
def port (irq : Fin 16) : BitVec 16 := if irq.val < 8 then 0x21 else 0xA1

/-- A write to the data port of a line that changes its bit alone. -/
theorem sets_outb {p : Pics} (hp : p.Ready) (irq : Fin 16) {b : Bool} {v : BitVec 8}
    (hv : ∀ i, i < 8 → v.getLsbD i =
      if i = irq.val % 8 then b else (p.inb (port irq)).getLsbD i) :
    p.Sets irq b (p.outb (port irq) v) := by
  by_cases hlt : irq.val < 8
  · have hport : port irq = 0x21 := if_pos hlt
    have hout : p.outb (port irq) v = { p with master := { p.master with mask := v } } := by
      rw [hport, ← Chip.writeData_mask hp.master]
      rfl
    rw [hport] at hv
    rw [hout]
    refine ⟨fun j => ?_, fun j => rfl, hp.master, hp.slave⟩
    by_cases hj : j.val < 8
    · rw [masked, masked, if_pos hj, if_pos hj, hv j.val hj, Nat.mod_eq_of_lt hlt]
      exact if_congr Fin.ext_iff.symm rfl rfl
    · have hne : j ≠ irq := fun heq => hj (heq ▸ hlt)
      rw [masked, masked, if_neg hj, if_neg hj, if_neg hne]
  · have hport : port irq = 0xA1 := if_neg hlt
    have hout : p.outb (port irq) v = { p with slave := { p.slave with mask := v } } := by
      rw [hport, ← Chip.writeData_mask hp.slave]
      rfl
    rw [hport] at hv
    rw [hout]
    refine ⟨fun j => ?_, fun j => rfl, hp.master, hp.slave⟩
    have hirq := irq.isLt
    have hjlt := j.isLt
    by_cases hj : j.val < 8
    · have hne : j ≠ irq := fun heq => hlt (heq ▸ hj)
      rw [masked, masked, if_pos hj, if_pos hj, if_neg hne]
    · rw [masked, masked, if_neg hj, if_neg hj, hv (j.val - 8) (by omega)]
      refine if_congr ?_ rfl rfl
      rw [Fin.ext_iff]
      omega

/-- What a list of calls leaves, each of which sets one bit or none. -/
theorem sets_foldl {σ α : Type} (pics : σ → Pics) (call : σ → α → σ)
    {bit? : α → Option (Fin 16 × Bool)}
    (hsome : ∀ s a w, (pics s).Ready → bit? a = some w → (pics s).Sets w.1 w.2 (pics (call s a)))
    (hnone : ∀ s a, bit? a = none → pics (call s a) = pics s) {s : σ} (hs : (pics s).Ready)
    (calls : List α) :
    (pics (calls.foldl call s)).Ready ∧
      (∀ j, (pics (calls.foldl call s)).masked j =
        (Cells.lastValue (calls.filterMap bit?) j).getD ((pics s).masked j)) ∧
      ∀ j, (pics (calls.foldl call s)).vector j = (pics s).vector j := by
  induction calls using List.reverseRecOn with
  | nil => exact ⟨hs, fun _ => rfl, fun _ => rfl⟩
  | append_singleton calls c ih =>
    obtain ⟨hready, hmasked, hvector⟩ := ih
    rw [List.foldl_append, List.foldl_cons, List.foldl_nil, List.filterMap_append]
    cases hbit : bit? c with
    | none =>
      rw [hnone _ c hbit, List.filterMap_cons_none hbit, List.filterMap_nil, List.append_nil]
      exact ⟨hready, hmasked, hvector⟩
    | some w =>
      have hlast := hsome _ c w hready hbit
      rw [List.filterMap_cons_some hbit, List.filterMap_nil]
      refine ⟨hlast.ready, fun j => ?_, fun j => (hlast.vector j).trans (hvector j)⟩
      rw [hlast.masked, Cells.lastValue_append_singleton]
      by_cases hj : j = w.1
      · rw [if_pos hj, if_pos hj]
        rfl
      · rw [if_neg hj, if_neg hj]
        exact hmasked j

end Pics

end Pic8259
