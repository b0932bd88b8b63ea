import BbnOS.Legacy.Interrupts
import BbnOS.Lib.Loop
import BbnOS.Lib.Pic8259

/-!
# The interrupt lines of the legacy kernel

`enable_irq` and `disable_irq` of `irq.asm`, `init_8259A` and
`register_handler` of `irq.c`, and the calls that `kmain` makes.

`register_handler` masks the line and leaves it masked, so a line is open only
if `enable_irq` was the last of the three to be called for it
(`lines_follow_calls`).
-/

namespace BbnOS

namespace Legacy

namespace Irq

open Pic8259 Pics Loop Cells

/-- `NUM_IRQ`. -/
def NUM_IRQ : Nat := 16

/-- The interrupt controllers, and `irq_table`. -/
structure Irqs where
  pics : Pics
  irqTable : Fin 16 → Handler

/-- `rol` of a byte. -/
def rol (v cl : BitVec 8) : BitVec 8 := v.rotateLeft (cl.toNat % 32)

/-- `disable_irq`, with what it returns. -/
def disableIrq (irq : BitVec 32) (p : Pics) : BitVec 32 × Pics :=
  let cl := irq.setWidth 8
  let ah := rol 1 cl
  if cl < 8 then
    let al := p.inb 0x21
    if al &&& ah ≠ 0 then (0, p) else (1, p.outb 0x21 (al ||| ah))
  else
    let al := p.inb 0xA1
    if al &&& ah ≠ 0 then (0, p) else (1, p.outb 0xA1 (al ||| ah))

/-- `enable_irq`. -/
def enableIrq (irq : BitVec 32) (p : Pics) : Pics :=
  let cl := irq.setWidth 8
  let ah := rol (~~~1) cl
  if cl < 8 then p.outb 0x21 (p.inb 0x21 &&& ah) else p.outb 0xA1 (p.inb 0xA1 &&& ah)

/-- `register_handler`. -/
def registerHandler (handler : Handler) (irq : Fin 16) (s : Irqs) : Irqs where
  pics := (disableIrq (BitVec.ofNat 32 irq.val) s.pics).2
  irqTable := Function.update s.irqTable irq handler

/-- The writes of `init_8259A`. -/
def remap (p : Pics) : Pics :=
  let p := p.outb 0x20 0x11
  let p := p.outb 0xA0 0x11
  let p := p.outb 0x21 0x20
  let p := p.outb 0xA1 0x28
  let p := p.outb 0x21 0x04
  let p := p.outb 0xA1 0x02
  let p := p.outb 0x21 0x01
  let p := p.outb 0xA1 0x01
  let p := p.outb 0x21 0xFF
  p.outb 0xA1 0xFF

/-- `init_8259A`. -/
def init8259A (s : Irqs) : Irqs :=
  forUpto (fun i => registerHandler .commonIrq (Fin.ofNat 16 i)) NUM_IRQ
    { s with pics := remap s.pics }

/-- What `kmain` does with the interrupts; its call of `enable_irq(0)` is commented
out. -/
def kmainIrqs (s : Irqs) : Irqs :=
  let s := registerHandler .clockHandler 0 s
  let s := registerHandler .keyboardHandler 1 s
  { s with pics := enableIrq 1 s.pics }

/-- The calls of the three functions. -/
inductive Call where
  | enable (irq : Fin 16)
  | disable (irq : Fin 16)
  | register (handler : Handler) (irq : Fin 16)

def Call.run (s : Irqs) : Call → Irqs
  | .enable irq => { s with pics := enableIrq (BitVec.ofNat 32 irq.val) s.pics }
  | .disable irq => { s with pics := (disableIrq (BitVec.ofNat 32 irq.val) s.pics).2 }
  | .register handler irq => registerHandler handler irq s

/-- The line of a call, and whether the line is masked then. -/
def Call.mask : Call → Fin 16 × Bool
  | .enable irq => (irq, false)
  | .disable irq => (irq, true)
  | .register _ irq => (irq, true)

/-- The handler that a call registers. -/
def Call.handler? : Call → Option (Fin 16 × Handler)
  | .register handler irq => some (irq, handler)
  | _ => none

/-! ## One line -/

theorem rol_one (irq : Fin 16) :
    rol 1 ((BitVec.ofNat 32 irq.val).setWidth 8) = BitVec.twoPow 8 (irq.val % 8) := by
  revert irq
  decide

theorem rol_not_one (irq : Fin 16) :
    rol (~~~1) ((BitVec.ofNat 32 irq.val).setWidth 8) = ~~~BitVec.twoPow 8 (irq.val % 8) := by
  revert irq
  decide

theorem low_iff (irq : Fin 16) : (BitVec.ofNat 32 irq.val).setWidth 8 < 8 ↔ irq.val < 8 := by
  revert irq
  decide

/-- The port and the mask of a line. -/
theorem inb_port (p : Pics) (irq : Fin 16) :
    (p.inb (port irq)).getLsbD (irq.val % 8) = p.masked irq := by
  have hlt := irq.isLt
  by_cases hlow : irq.val < 8
  · rw [port, masked, if_pos hlow, if_pos hlow, Nat.mod_eq_of_lt hlow]
    rfl
  · rw [port, masked, if_neg hlow, if_neg hlow, show irq.val % 8 = irq.val - 8 by omega]
    rfl

theorem disableIrq_eq (p : Pics) (irq : Fin 16) :
    disableIrq (BitVec.ofNat 32 irq.val) p =
      if p.masked irq then (0, p)
      else (1, p.outb (port irq) (p.inb (port irq) ||| BitVec.twoPow 8 (irq.val % 8))) := by
  have htest : ∀ al : BitVec 8, al &&& BitVec.twoPow 8 (irq.val % 8) ≠ 0 ↔
      al.getLsbD (irq.val % 8) = true := by
    intro al
    rw [BitVec.and_twoPow]
    split_ifs with hbit
    · refine iff_of_true ?_ hbit
      have hlt : irq.val % 8 < 8 := Nat.mod_lt _ (by decide)
      generalize irq.val % 8 = n at hlt
      revert n
      decide
    · exact iff_of_false (fun h => h rfl) hbit
  rw [← inb_port]
  by_cases hlow : irq.val < 8
  · rw [port, if_pos hlow]
    simp only [disableIrq, rol_one, (low_iff irq).mpr hlow, if_true, htest]
  · rw [port, if_neg hlow]
    simp only [disableIrq, rol_one, mt (low_iff irq).mp hlow, if_false, htest]

theorem enableIrq_eq (p : Pics) (irq : Fin 16) :
    enableIrq (BitVec.ofNat 32 irq.val) p =
      p.outb (port irq) (p.inb (port irq) &&& ~~~BitVec.twoPow 8 (irq.val % 8)) := by
  by_cases hlow : irq.val < 8
  · rw [port, if_pos hlow]
    simp only [enableIrq, rol_not_one, (low_iff irq).mpr hlow, if_true]
  · rw [port, if_neg hlow]
    simp only [enableIrq, rol_not_one, mt (low_iff irq).mp hlow, if_false]

theorem sets_disableIrq {p : Pics} (hp : p.Ready) (irq : Fin 16) :
    p.Sets irq true (disableIrq (BitVec.ofNat 32 irq.val) p).2 := by
  rw [disableIrq_eq]
  split_ifs with hmasked
  · refine ⟨fun j => ?_, fun _ => rfl, hp⟩
    split_ifs with hj
    · rw [hj, hmasked]
    · rfl
  · refine sets_outb hp irq fun i hi => ?_
    rw [BitVec.getLsbD_or, BitVec.getLsbD_twoPow]
    by_cases heq : i = irq.val % 8
    · simp [heq, Nat.mod_lt]
    · simp [heq, Ne.symm heq]

theorem sets_enableIrq {p : Pics} (hp : p.Ready) (irq : Fin 16) :
    p.Sets irq false (enableIrq (BitVec.ofNat 32 irq.val) p) := by
  rw [enableIrq_eq]
  refine sets_outb hp irq fun i hi => ?_
  rw [BitVec.getLsbD_and, BitVec.getLsbD_not, BitVec.getLsbD_twoPow]
  by_cases heq : i = irq.val % 8
  · simp [heq, Nat.mod_lt]
  · simp [heq, Ne.symm heq, hi]

/-- `disable_irq` returns whether it changed the mask. -/
theorem disableIrq_fst (p : Pics) (irq : Fin 16) :
    (disableIrq (BitVec.ofNat 32 irq.val) p).1 = if p.masked irq then 0 else 1 := by
  rw [disableIrq_eq]
  split_ifs <;> rfl

/-! ## Any calls -/

theorem Call.sets (c : Call) {s : Irqs} (hs : s.pics.Ready) :
    s.pics.Sets c.mask.1 c.mask.2 (c.run s).pics := by
  cases c with
  | enable irq => exact sets_enableIrq hs irq
  | disable irq => exact sets_disableIrq hs irq
  | register handler irq => exact sets_disableIrq hs irq

/-- A call writes the entry of the handler that it registers, and no other. -/
theorem Call.irqTable_run (c : Call) (s : Irqs) (j : Fin 16) :
    (c.run s).irqTable j =
      match c.handler? with
      | some w => if j = w.1 then w.2 else s.irqTable j
      | none => s.irqTable j := by
  cases c with
  | register handler irq => exact Function.update_apply ..
  | _ => rfl

/-- The table after any calls. -/
theorem irqTable_foldl (s : Irqs) (calls : List Call) (j : Fin 16) :
    (calls.foldl Call.run s).irqTable j =
      (lastValue (calls.filterMap Call.handler?) j).getD (s.irqTable j) := by
  induction calls using List.reverseRecOn with
  | nil => rfl
  | append_singleton calls c ih =>
    rw [List.foldl_append, List.foldl_cons, List.foldl_nil, List.filterMap_append,
      Call.irqTable_run, ih]
    cases hc : c.handler? with
    | none => rw [List.filterMap_cons_none hc, List.filterMap_nil, List.append_nil]
    | some w =>
      rw [List.filterMap_cons_some hc, List.filterMap_nil, lastValue_append_singleton]
      by_cases hj : j = w.1
      · simp [hj]
      · simp [hj]

/-- The controllers after any calls, if they are ready. -/
theorem pics_foldl {s : Irqs} (hs : s.pics.Ready) (calls : List Call) :
    (calls.foldl Call.run s).pics.Ready ∧
      (∀ j, (calls.foldl Call.run s).pics.masked j =
        (lastValue (calls.map Call.mask) j).getD (s.pics.masked j)) ∧
      ∀ j, (calls.foldl Call.run s).pics.vector j = s.pics.vector j := by
  rw [← List.filterMap_eq_map]
  refine sets_foldl Irqs.pics Call.run (fun s c w hs hw => ?_) (fun s c hc => ?_) hs calls
  · rw [← Option.some.inj hw]
    exact c.sets hs
  · exact absurd hc (Option.some_ne_none _)

/-- The writes of `init_8259A` start both chips anew. -/
theorem remap_eq (p : Pics) : remap p =
    ⟨⟨0xFF, 0x20, 0x04, false, true, .mask⟩, ⟨0xFF, 0x28, 0x02, false, true, .mask⟩⟩ := rfl

theorem masked_remap (p : Pics) (j : Fin 16) : (remap p).masked j = true := by
  rw [remap_eq]
  revert j
  decide

theorem vector_remap (p : Pics) (j : Fin 16) :
    (remap p).vector j = 0x20 + BitVec.ofNat 8 j.val := by
  rw [remap_eq]
  revert j
  decide

/-- What `init_8259A` leaves, whatever the controllers did before. -/
theorem init8259A_eq (s : Irqs) :
    (init8259A s).pics.Ready ∧ (∀ j, (init8259A s).pics.masked j = true) ∧
      (∀ j, (init8259A s).pics.vector j = 0x20 + BitVec.ofNat 8 j.val) ∧
      ∀ j, (init8259A s).irqTable j = .commonIrq := by
  have hloop : (init8259A s).pics.Ready ∧ (∀ j, (init8259A s).pics.masked j = true) ∧
      (∀ j, (init8259A s).pics.vector j = 0x20 + BitVec.ofNat 8 j.val) ∧
      ∀ j : Fin 16, j.val < NUM_IRQ → (init8259A s).irqTable j = .commonIrq := by
    refine forUpto_induct (fun (i : Nat) (t : Irqs) => t.pics.Ready ∧
      (∀ j, t.pics.masked j = true) ∧
      (∀ j, t.pics.vector j = 0x20 + BitVec.ofNat 8 j.val) ∧
      ∀ j : Fin 16, j.val < i → t.irqTable j = .commonIrq)
      ⟨⟨rfl, rfl⟩, masked_remap s.pics, vector_remap s.pics,
        fun j hj => absurd hj (Nat.not_lt_zero _)⟩ ?_
    intro i t hi ⟨hready, hmasked, hvector, htable⟩
    have hsets := sets_disableIrq hready (Fin.ofNat 16 i)
    refine ⟨hsets.ready, fun j => ?_, fun j => (hsets.vector j).trans (hvector j), fun j hj => ?_⟩
    · refine (hsets.masked j).trans ?_
      rw [hmasked j, ite_self]
    · by_cases heq : j = Fin.ofNat 16 i
      · rw [heq]
        exact Function.update_self ..
      · have hne : j.val ≠ i := by
          intro hval
          refine heq (Fin.ext ?_)
          rw [hval]
          exact (Nat.mod_eq_of_lt hi).symm
        exact (Function.update_of_ne heq ..).trans (htable j (by omega))
  obtain ⟨hready, hmasked, hvector, htable⟩ := hloop
  exact ⟨hready, hmasked, hvector, fun j => htable j j.isLt⟩

/-- After any calls a line is open only if `enable_irq` came last, and its handler is
the one that was registered last. -/
theorem lines_follow_calls (s : Irqs) (calls : List Call) :
    let s' := calls.foldl Call.run (init8259A s)
    s'.pics.Ready ∧
      (∀ j, s'.pics.masked j = (lastValue (calls.map Call.mask) j).getD true) ∧
      (∀ j, (disableIrq (BitVec.ofNat 32 j.val) s'.pics).1 = if s'.pics.masked j then 0 else 1) ∧
      (∀ j, s'.pics.vector j = 0x20 + BitVec.ofNat 8 j.val) ∧
      ∀ j, s'.irqTable j = (lastValue (calls.filterMap Call.handler?) j).getD .commonIrq := by
  obtain ⟨hready, hmasked, hvector, htable⟩ := init8259A_eq s
  obtain ⟨hready', hmasked', hvector'⟩ := pics_foldl hready calls
  refine ⟨hready', fun j => ?_, disableIrq_fst _, fun j => (hvector' j).trans (hvector j),
    fun j => ?_⟩
  · rw [hmasked', hmasked]
  · rw [irqTable_foldl, htable]

/-- The calls of `kmain`. -/
theorem kmainIrqs_eq (s : Irqs) :
    kmainIrqs s = [Call.register .clockHandler 0, .register .keyboardHandler 1,
      .enable 1].foldl Call.run s := rfl

/-- What `kmain` leaves: the keyboard alone may interrupt, and the table is the one
that `Interrupts` reads. -/
theorem kmainIrqs_init (s : Irqs) :
    (kmainIrqs (init8259A s)).pics.Ready ∧
      (∀ j, (kmainIrqs (init8259A s)).pics.masked j = decide (j ≠ 1)) ∧
      ∀ irq : Fin 8, (kmainIrqs (init8259A s)).irqTable (irq.castLE (by decide)) =
        irqTable irq := by
  obtain ⟨hready, hmasked, _, htable⟩ := init8259A_eq s
  obtain ⟨hready', hmasked', _⟩ := pics_foldl hready
    [.register .clockHandler 0, .register .keyboardHandler 1, .enable 1]
  rw [kmainIrqs_eq]
  refine ⟨hready', fun j => ?_, fun irq => ?_⟩
  · rw [hmasked', hmasked]
    revert j
    decide
  · rw [irqTable_foldl, htable]
    revert irq
    decide

end Irq

end Legacy

end BbnOS
