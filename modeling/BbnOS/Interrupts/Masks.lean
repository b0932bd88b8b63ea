import BbnOS.Interrupts.Prepared
import BbnOS.Lib.Pic8259
import BbnOS.Lib.Loop

/-!
# The interrupt lines of the UEFI kernel

`remapPIC`, `irqSetMask`, `irqClearMask` and `picSendEOI` of `idt.c`, and their
calls in `prepareInterrupts`.

`open_lines` says which lines are open after it and any later calls, and that
the vectors are those of `PIC_GET_INT_VECTOR`, for which the handlers are in the
table.
-/

namespace BbnOS

open Pic8259 Pics Loop Cells

/-- `remapPIC`. -/
def remapPIC (offset1 offset2 : BitVec 8) (p : Pics) : Pics :=
  let a1 := p.inb 0x21
  let a2 := p.inb 0xA1
  let p := p.outb 0x20 0x11
  let p := p.outb 0xA0 0x11
  let p := p.outb 0x21 offset1
  let p := p.outb 0xA1 offset2
  let p := p.outb 0x21 0x04
  let p := p.outb 0xA1 0x02
  let p := p.outb 0x21 0x01
  let p := p.outb 0xA1 0x01
  let p := p.outb 0x21 a1
  p.outb 0xA1 a2

/-- The port and the bit of a line, as both mask functions choose them. -/
def portAndBit (irqLine : BitVec 8) : BitVec 16 × BitVec 8 :=
  if irqLine < 8 then (0x21, irqLine) else (0xA1, irqLine - 8)

/-- `irqSetMask`. -/
def irqSetMask (irqLine : BitVec 8) (p : Pics) : Pics :=
  let (port, irqLine) := portAndBit irqLine
  let value := ((p.inb port).setWidth 32 ||| (1#32 <<< irqLine.toNat)).setWidth 8
  p.outb port value

/-- `irqClearMask`. -/
def irqClearMask (irqLine : BitVec 8) (p : Pics) : Pics :=
  let (port, irqLine) := portAndBit irqLine
  let value := ((p.inb port).setWidth 32 &&& ~~~(1#32 <<< irqLine.toNat)).setWidth 8
  p.outb port value

/-- `picSendEOI`. -/
def picSendEOI (irq : BitVec 32) (p : Pics) : Pics :=
  let p := if (8#32).sle irq then p.outb 0xA0 0x20 else p
  p.outb 0x20 0x20

/-- The lines of the keyboard, the cascade and the mouse. -/
def openLines : List (Fin 16) := (List.finRange 16).filter fun j => j.val ∈ [1, 2, 12]

/-- What `prepareInterrupts` does with the controllers. -/
def prepareLines (p : Pics) : Pics :=
  let p := remapPIC 0x20 0x28 p
  let p := forUpto (fun i => irqSetMask (BitVec.ofNat 8 i)) 16 p
  let p := irqClearMask 1 p
  let p := irqClearMask 2 p
  irqClearMask 12 p

/-- The later calls. -/
inductive LineCall where
  | setMask (irqLine : Fin 16)
  | clearMask (irqLine : Fin 16)
  | sendEOI (irq : BitVec 32)

def LineCall.run (p : Pics) : LineCall → Pics
  | .setMask irqLine => irqSetMask (BitVec.ofNat 8 irqLine.val) p
  | .clearMask irqLine => irqClearMask (BitVec.ofNat 8 irqLine.val) p
  | .sendEOI irq => picSendEOI irq p

/-- The line of a call, and whether it is masked then. -/
def LineCall.mask? : LineCall → Option (Fin 16 × Bool)
  | .setMask irqLine => some (irqLine, true)
  | .clearMask irqLine => some (irqLine, false)
  | .sendEOI _ => none

/-! ## One line -/

theorem portAndBit_eq (irq : Fin 16) :
    portAndBit (BitVec.ofNat 8 irq.val) = (port irq, BitVec.ofNat 8 (irq.val % 8)) := by
  revert irq
  decide

/-- The bit `1 << n` of a byte. -/
theorem getLsbD_one_shiftLeft {i n : Nat} (hi : i < 8) :
    (1#32 <<< n).getLsbD i = decide (i = n) := by
  rw [BitVec.getLsbD_shiftLeft, BitVec.getLsbD_one]
  by_cases h : i = n
  · simp [h, show n < 32 by omega]
  · simp [h]
    omega

theorem sets_irqSetMask {p : Pics} (hp : p.Ready) (irq : Fin 16) :
    p.Sets irq true (irqSetMask (BitVec.ofNat 8 irq.val) p) := by
  rw [irqSetMask, portAndBit_eq]
  refine sets_outb hp irq fun i hi => ?_
  have hmod : (BitVec.ofNat 8 (irq.val % 8)).toNat = irq.val % 8 :=
    Nat.mod_eq_of_lt (Nat.lt_trans (Nat.mod_lt _ (by decide)) (by decide))
  rw [BitVec.getLsbD_setWidth, BitVec.getLsbD_or, BitVec.getLsbD_setWidth, hmod,
    getLsbD_one_shiftLeft hi]
  by_cases heq : i = irq.val % 8
  · simp [heq, Nat.mod_lt]
  · simp [heq, hi, show i < 32 by omega]

theorem sets_irqClearMask {p : Pics} (hp : p.Ready) (irq : Fin 16) :
    p.Sets irq false (irqClearMask (BitVec.ofNat 8 irq.val) p) := by
  rw [irqClearMask, portAndBit_eq]
  refine sets_outb hp irq fun i hi => ?_
  have hmod : (BitVec.ofNat 8 (irq.val % 8)).toNat = irq.val % 8 :=
    Nat.mod_eq_of_lt (Nat.lt_trans (Nat.mod_lt _ (by decide)) (by decide))
  rw [BitVec.getLsbD_setWidth, BitVec.getLsbD_and, BitVec.getLsbD_not, BitVec.getLsbD_setWidth,
    hmod, getLsbD_one_shiftLeft hi]
  by_cases heq : i = irq.val % 8
  · simp [heq]
  · simp [heq, hi, show i < 32 by omega]

/-- The end of an interrupt changes no line. -/
theorem picSendEOI_eq (irq : BitVec 32) (p : Pics) : picSendEOI irq p = p := by
  rw [picSendEOI]
  split_ifs <;> rfl

/-- `remapPIC` gives the lines new vectors and keeps their masks. -/
theorem remapPIC_eq (p : Pics) :
    (remapPIC 0x20 0x28 p).Ready ∧ (∀ j, (remapPIC 0x20 0x28 p).masked j = p.masked j) ∧
      ∀ j, (remapPIC 0x20 0x28 p).vector j = 0x20 + BitVec.ofNat 8 j.val := by
  have heq : remapPIC 0x20 0x28 p =
      ⟨⟨p.master.mask, 0x20, 0x04, false, true, .mask⟩,
        ⟨p.slave.mask, 0x28, 0x02, false, true, .mask⟩⟩ := rfl
  refine ⟨⟨rfl, rfl⟩, fun j => ?_, fun j => ?_⟩
  · rw [heq]
    rfl
  · have hbase : ∀ m s : Chip, m.base = 0x20 → s.base = 0x28 →
        (Pics.mk m s).vector j = 0x20 + BitVec.ofNat 8 j.val := by
      intro m s hm hs
      rw [Pics.vector, hm, hs]
      revert j
      decide
    exact hbase _ _ rfl rfl

/-! ## Any calls -/

/-- What `prepareInterrupts` leaves of the controllers. -/
theorem prepareLines_eq (p : Pics) :
    (prepareLines p).Ready ∧ (∀ j, (prepareLines p).masked j = decide (j ∉ openLines)) ∧
      ∀ j, (prepareLines p).vector j = 0x20 + BitVec.ofNat 8 j.val := by
  obtain ⟨hready, _, hvector⟩ := remapPIC_eq p
  -- after the loop every line is masked
  have hloop : ∀ n, n ≤ 16 →
      let q := forUpto (fun i => irqSetMask (BitVec.ofNat 8 i)) n (remapPIC 0x20 0x28 p)
      q.Ready ∧ (∀ j : Fin 16, j.val < n → q.masked j = true) ∧
        ∀ j, q.vector j = 0x20 + BitVec.ofNat 8 j.val := by
    intro n
    induction n with
    | zero => exact fun _ => ⟨hready, fun j hj => absurd hj (Nat.not_lt_zero _), hvector⟩
    | succ n ih =>
      intro hn
      obtain ⟨hready', hmasked', hvector'⟩ := ih (by omega)
      have hsets := sets_irqSetMask hready' ⟨n, hn⟩
      refine ⟨hsets.ready, fun j hj => (hsets.masked j).trans ?_,
        fun j => (hsets.vector j).trans (hvector' j)⟩
      split_ifs with heq
      · rfl
      · have hne : j.val ≠ n := fun hval => heq (Fin.ext hval)
        exact hmasked' j (by omega)
  obtain ⟨hready₀, hmasked₀, hvector₀⟩ := hloop 16 (Nat.le_refl _)
  have h₁ := sets_irqClearMask hready₀ 1
  have h₂ := sets_irqClearMask h₁.ready 2
  have h₃ := sets_irqClearMask h₂.ready 12
  refine ⟨h₃.ready, fun j => (h₃.masked j).trans ?_, fun j => ?_⟩
  · rw [h₂.masked, h₁.masked, hmasked₀ j j.isLt]
    revert j
    decide
  · exact (h₃.vector j).trans ((h₂.vector j).trans ((h₁.vector j).trans (hvector₀ j)))

/-- The vector of a line is the one of `PIC_GET_INT_VECTOR`. -/
theorem toNat_vector (j : Fin 16) :
    (0x20 + BitVec.ofNat 8 j.val).toNat = (picGetIntVector (UInt64.ofNat j.val)).toNat := by
  revert j
  decide

/-- The lines with a handler. -/
theorem vector_mem_of_open (h : Handlers) {j : Fin 16} (hj : j ∈ openLines) (hne : j ≠ 2) :
    picGetIntVector (UInt64.ofNat j.val) ∈ (vectors h).map Prod.fst := by
  rw [vectors_fst]
  revert j
  decide

/-- A later call sets its bit. -/
theorem LineCall.sets {p : Pics} {c : LineCall} {w : Fin 16 × Bool} (hp : p.Ready)
    (hw : c.mask? = some w) : p.Sets w.1 w.2 (c.run p) := by
  cases c with
  | setMask irqLine =>
    rw [← Option.some.inj hw]
    exact sets_irqSetMask hp irqLine
  | clearMask irqLine =>
    rw [← Option.some.inj hw]
    exact sets_irqClearMask hp irqLine
  | sendEOI irq => cases hw

theorem LineCall.keeps {p : Pics} {c : LineCall} (hc : c.mask? = none) : c.run p = p := by
  cases c with
  | sendEOI irq => exact picSendEOI_eq irq p
  | _ => cases hc

/-- Whatever the firmware left and whatever is called after `prepareInterrupts`: a line
is open if it was cleared last, or if it is one of the three and was not set; and
the interrupts come at the vectors of `PIC_GET_INT_VECTOR`.  With no later call,
every open line but the cascade has its handler. -/
theorem open_lines (h : Handlers) (p : Pics) (calls : List LineCall) :
    let q := calls.foldl LineCall.run (prepareLines p)
    (∀ j, q.masked j =
        (lastValue (calls.filterMap LineCall.mask?) j).getD (decide (j ∉ openLines))) ∧
      (∀ j, (q.vector j).toNat = (picGetIntVector (UInt64.ofNat j.val)).toNat) ∧
      ∀ j, (prepareLines p).masked j = false → j ≠ 2 →
        picGetIntVector (UInt64.ofNat j.val) ∈ (vectors h).map Prod.fst := by
  obtain ⟨hready, hmasked, hvector⟩ := prepareLines_eq p
  obtain ⟨_, hmasked', hvector'⟩ := sets_foldl id LineCall.run
    (fun _ _ _ hp hw => LineCall.sets hp hw) (fun _ _ hc => LineCall.keeps hc) hready calls
  refine ⟨fun j => ?_, fun j => ?_, fun j hopen hne => ?_⟩
  · exact (hmasked' j).trans (congrArg _ (hmasked j))
  · exact (congrArg BitVec.toNat ((hvector' j).trans (hvector j))).trans (toNat_vector j)
  · rw [hmasked, decide_eq_false_iff_not, not_not] at hopen
    exact vector_mem_of_open h hopen hne

end BbnOS
