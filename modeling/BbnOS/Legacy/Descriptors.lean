import Mathlib.Data.UInt
import Mathlib.Tactic.Common
import Mathlib.Tactic.IntervalCases

/-!
# Segment descriptors of the legacy kernel

`init_descriptor` and `seg2phys` of `dt.c`, and the macro `Descriptor` of `pm.inc`, with
which the loader lays out the table that the kernel copies and extends.

A descriptor has eight bytes, in which base, limit and attribute each lie in pieces.
`initDescriptor_eq` says that the six field stores are one store of the macro's bytes;
`decodesBack` adds what is read back from them, and that no other entry changes.

The memory is flat, with addresses modulo `2 ^ 32`.  The arguments of the macro are taken
as values: the assembler replaces its parameters by their text.
-/

namespace BbnOS

namespace Legacy

namespace Descriptors

/-! ## The code -/

abbrev Memory := UInt32 → UInt8

def store8 (mem : Memory) (a : UInt32) (v : UInt8) : Memory :=
  fun b => if b = a then v else mem b

def store16 (mem : Memory) (a : UInt32) (v : UInt16) : Memory :=
  store8 (store8 mem a v.toUInt8) (a + 1) (v >>> 8).toUInt8

def load16 (mem : Memory) (a : UInt32) : UInt16 :=
  (mem a).toUInt16 ||| (mem (a + 1)).toUInt16 <<< 8

/-- The record `DESCRIPTOR` of `dt.h`. -/
structure DESCRIPTOR where
  limit_low : UInt16
  base_low : UInt16
  base_mid : UInt8
  attr1 : UInt8
  limit_high_attr2 : UInt8
  base_high : UInt8
  deriving DecidableEq

/-- `*p_desc`. -/
def DESCRIPTOR.load (mem : Memory) (p_desc : UInt32) : DESCRIPTOR where
  limit_low := load16 mem p_desc
  base_low := load16 mem (p_desc + 2)
  base_mid := mem (p_desc + 4)
  attr1 := mem (p_desc + 5)
  limit_high_attr2 := mem (p_desc + 6)
  base_high := mem (p_desc + 7)

/-- `init_descriptor`. -/
def initDescriptor (mem : Memory) (p_desc base limit : UInt32) (attr : UInt16) : Memory :=
  let mem := store16 mem p_desc (limit &&& 0xFFFF).toUInt16
  let mem := store16 mem (p_desc + 2) (base &&& 0xFFFF).toUInt16
  let mem := store8 mem (p_desc + 4) ((base >>> 16) &&& 0xFF).toUInt8
  let mem := store8 mem (p_desc + 5) (attr &&& 0xFF).toUInt8
  let mem := store8 mem (p_desc + 6)
    (((limit >>> 16) &&& (0x0F : UInt32)) ||| ((attr.toUInt32 >>> 8) &&& 0xF0)).toUInt8
  store8 mem (p_desc + 7) ((base >>> 24) &&& 0xFF).toUInt8

/-- `&gdt[index]`. -/
def entry (gdt : UInt32) (index : Int32) : UInt32 := gdt + 8 * index.toUInt32

/-- `seg2phys`. -/
def seg2phys (gdt : UInt32) (mem : Memory) (seg : Int32) : UInt32 :=
  let p_dest := DESCRIPTOR.load mem (entry gdt (seg >>> 3))
  (p_dest.base_high.toUInt32 <<< 24) ||| (p_dest.base_mid.toUInt32 <<< 16) |||
    p_dest.base_low.toUInt32

/-- The assembler computes with 64 bits and emits the low ones. -/
def db (x : UInt64) : List UInt8 := [x.toUInt8]

def dw (x : UInt64) : List UInt8 := [x.toUInt8, (x >>> 8).toUInt8]

/-- The macro `Descriptor`. -/
def descriptorMacro (base limit attr : UInt64) : List UInt8 :=
  dw (limit &&& 0xFFFF) ++
  dw (base &&& 0xFFFF) ++
  db ((base >>> 16) &&& 0xFF) ++
  dw (((limit >>> 8) &&& 0xF00) ||| (attr &&& 0xF0FF)) ++
  db ((base >>> 24) &&& 0xFF)

/-! ## What a descriptor says -/

namespace DESCRIPTOR

/-- The limit, in the unit that the granularity bit of the attribute selects. -/
def limit (d : DESCRIPTOR) : UInt32 :=
  ((d.limit_high_attr2 &&& 0x0F).toUInt32 <<< 16) ||| d.limit_low.toUInt32

/-- The attribute, with zeros in the place of the limit's bits. -/
def attr (d : DESCRIPTOR) : UInt16 :=
  ((d.limit_high_attr2 &&& 0xF0).toUInt16 <<< 8) ||| d.attr1.toUInt16

end DESCRIPTOR

/-- The eight bytes of a descriptor. -/
def bytesAt (mem : Memory) (p_desc : UInt32) : List UInt8 :=
  (List.range 8).map fun k => mem (p_desc + UInt32.ofNat k)

/-- After `init_descriptor` for the entry of the selector `sel`. -/
structure DecodesBack (gdt : UInt32) (mem : Memory) (sel : Int32) (base limit : UInt32)
    (attr : UInt16) (mem' : Memory) : Prop where
  same_bytes : bytesAt mem' (entry gdt (sel >>> 3)) =
    descriptorMacro base.toUInt64 limit.toUInt64 attr.toUInt64
  base : ∀ seg : Int32, seg >>> 3 = sel >>> 3 → seg2phys gdt mem' seg = base
  limit : (DESCRIPTOR.load mem' (entry gdt (sel >>> 3))).limit.toNat = limit.toNat % 2 ^ 20
  attr : (DESCRIPTOR.load mem' (entry gdt (sel >>> 3))).attr = attr &&& 0xF0FF
  others : ∀ seg : Int32, seg >>> 3 ≠ sel >>> 3 → seg2phys gdt mem' seg = seg2phys gdt mem seg

/-! ## Eight bytes at once -/

/-- Store the bytes of a list from `p` up. -/
def store (mem : Memory) (p : UInt32) (l : List UInt8) : Memory :=
  fun a => l.getD (a - p).toNat (mem a)

theorem store_add (mem : Memory) (p d : UInt32) (l : List UInt8) :
    store mem p l (p + d) = l.getD d.toNat (mem (p + d)) := by
  rw [store, add_sub_cancel_left]

theorem store_of_length_le (mem : Memory) {p a : UInt32} {l : List UInt8}
    (h : l.length ≤ (a - p).toNat) : store mem p l a = mem a := by
  rw [store, List.getD_eq_getElem?_getD, List.getElem?_eq_none h, Option.getD_none]

/-- Eight byte stores to consecutive addresses. -/
theorem store_eight (mem : Memory) (p : UInt32) (b0 b1 b2 b3 b4 b5 b6 b7 : UInt8) :
    store8 (store8 (store8 (store8 (store8 (store8 (store8 (store8 mem p b0) (p + 1) b1)
      (p + 2) b2) (p + 3) b3) (p + 4) b4) (p + 5) b5) (p + 6) b6) (p + 7) b7 =
      store mem p [b0, b1, b2, b3, b4, b5, b6, b7] := by
  funext a
  obtain ⟨d, rfl⟩ : ∃ d, a = p + d := ⟨a - p, (add_sub_cancel p a).symm⟩
  by_cases hd : d.toNat < 8
  · have hk : d = UInt32.ofNat d.toNat := UInt32.ofNat_toNat.symm
    rw [store_add]
    generalize d.toNat = k at *
    subst hk
    simp only [store8, add_right_inj]
    interval_cases k <;> simp
  · have hne : ∀ k : UInt32, k.toNat < 8 → ¬ p + d = p + k := by
      intro k hk he
      rw [add_right_inj] at he
      exact hd (he ▸ hk)
    have hzero : ¬ p + d = p := fun he => hne 0 (by decide) (he.trans (add_zero p).symm)
    rw [store_of_length_le]
    · simp (disch := decide) only [store8, if_neg, hne, hzero]
    · rw [add_sub_cancel_left]
      exact Nat.not_lt.mp hd

/-! ## Where the pieces lie -/

/-- The layout of a descriptor, piece by piece. -/
def layout (base limit : UInt32) (attr : UInt16) : List UInt8 :=
  [limit.toUInt8, (limit >>> 8).toUInt8, base.toUInt8, (base >>> 8).toUInt8,
    (base >>> 16).toUInt8, attr.toUInt8,
    ((limit >>> 16).toUInt8 &&& (0x0F : UInt8)) ||| ((attr >>> 8).toUInt8 &&& 0xF0),
    (base >>> 24).toUInt8]

/-- Bytes are compared bit by bit. -/
private theorem byte_ext {x y : UInt8} (h : ∀ i (_ : i < 8), x.toBitVec[i] = y.toBitVec[i]) :
    x = y :=
  UInt8.eq_of_toBitVec_eq (BitVec.eq_of_getElem_eq h)

theorem descriptorMacro_eq (base limit : UInt32) (attr : UInt16) :
    descriptorMacro base.toUInt64 limit.toUInt64 attr.toUInt64 = layout base limit attr := by
  simp only [descriptorMacro, layout, dw, db, List.cons_append, List.nil_append, List.cons.injEq,
    and_true]
  refine ⟨?_, ?_, ?_, ?_, ?_, ?_, ?_, ?_⟩
  all_goals
    refine byte_ext fun i hi => ?_
    interval_cases i <;> simp

theorem initDescriptor_eq (mem : Memory) (p base limit : UInt32) (attr : UInt16) :
    initDescriptor mem p base limit attr = store mem p (layout base limit attr) := by
  have hpieces : [(limit &&& 0xFFFF).toUInt16.toUInt8, ((limit &&& 0xFFFF).toUInt16 >>> 8).toUInt8,
      (base &&& 0xFFFF).toUInt16.toUInt8, ((base &&& 0xFFFF).toUInt16 >>> 8).toUInt8,
      ((base >>> 16) &&& 0xFF).toUInt8, (attr &&& 0xFF).toUInt8,
      (((limit >>> 16) &&& (0x0F : UInt32)) ||| ((attr.toUInt32 >>> 8) &&& 0xF0)).toUInt8,
      ((base >>> 24) &&& 0xFF).toUInt8] = layout base limit attr := by
    simp only [layout, List.cons.injEq, and_true]
    refine ⟨?_, ?_, ?_, ?_, ?_, ?_, ?_, ?_⟩
    all_goals
      refine byte_ext fun i hi => ?_
      interval_cases i <;> simp
  rw [← hpieces, ← store_eight]
  simp only [initDescriptor, store16, add_assoc]
  rfl

/-! ## Reading an entry back -/

theorem bytesAt_store (mem : Memory) (p base limit : UInt32) (attr : UInt16) :
    bytesAt (store mem p (layout base limit attr)) p = layout base limit attr := by
  simp only [bytesAt, store_add]
  rfl

theorem base_pieces (base : UInt32) :
    ((base >>> 24).toUInt8.toUInt32 <<< 24) ||| ((base >>> 16).toUInt8.toUInt32 <<< 16) |||
      base.toUInt16.toUInt32 = base := by
  refine UInt32.eq_of_toBitVec_eq (BitVec.eq_of_getElem_eq fun i hi => ?_)
  interval_cases i <;> simp [-UInt32.toUInt32_toUInt16, -UInt32.toUInt32_toUInt8]

theorem limit_pieces (limit : UInt32) (attr : UInt16) :
    (((((limit >>> 16).toUInt8 &&& (0x0F : UInt8)) ||| ((attr >>> 8).toUInt8 &&& 0xF0)) &&&
      0x0F).toUInt32 <<< 16) ||| limit.toUInt16.toUInt32 = limit &&& 0xFFFFF := by
  refine UInt32.eq_of_toBitVec_eq (BitVec.eq_of_getElem_eq fun i hi => ?_)
  interval_cases i <;> simp [-UInt32.toUInt32_toUInt16, -UInt32.toUInt32_toUInt8]

theorem attr_pieces (limit : UInt32) (attr : UInt16) :
    (((((limit >>> 16).toUInt8 &&& (0x0F : UInt8)) ||| ((attr >>> 8).toUInt8 &&& 0xF0)) &&&
      0xF0).toUInt16 <<< 8) ||| attr.toUInt8.toUInt16 = attr &&& 0xF0FF := by
  refine UInt16.eq_of_toBitVec_eq (BitVec.eq_of_getElem_eq fun i hi => ?_)
  interval_cases i <;> simp [-UInt16.toUInt16_toUInt8]

theorem word_pieces16 (w : UInt32) :
    w.toUInt8.toUInt16 ||| (w >>> 8).toUInt8.toUInt16 <<< 8 = w.toUInt16 := by
  refine UInt16.eq_of_toBitVec_eq (BitVec.eq_of_getElem_eq fun i hi => ?_)
  interval_cases i <;> simp [-UInt32.toUInt16_toUInt8]

/-- The record that the layout holds. -/
theorem load_store (mem : Memory) (p base limit : UInt32) (attr : UInt16) :
    DESCRIPTOR.load (store mem p (layout base limit attr)) p =
      { limit_low := limit.toUInt16
        base_low := base.toUInt16
        base_mid := (base >>> 16).toUInt8
        attr1 := attr.toUInt8
        limit_high_attr2 :=
          ((limit >>> 16).toUInt8 &&& (0x0F : UInt8)) ||| ((attr >>> 8).toUInt8 &&& 0xF0)
        base_high := (base >>> 24).toUInt8 } := by
  have hread := store_add mem p
  have hfirst : store mem p (layout base limit attr) p = limit.toUInt8 := by
    have h := store_add mem p 0 (layout base limit attr)
    rwa [add_zero] at h
  have h3 : (2 : UInt32) + 1 = 3 := rfl
  simp only [DESCRIPTOR.load, load16, add_assoc, h3, hread, hfirst, DESCRIPTOR.mk.injEq]
  exact ⟨word_pieces16 limit, word_pieces16 base, rfl, rfl, rfl, rfl⟩

/-! ## The other entries -/

/-- The index of a selector: an arithmetic shift divides and rounds down. -/
theorem toInt_index (seg : Int32) : (seg >>> 3).toInt = seg.toInt / 8 := by
  rw [← Int32.toInt_toBitVec, Int32.toBitVec_shiftRight, BitVec.toInt_sshiftRight',
    Int.shiftRight_eq_div_pow, Int32.toInt_toBitVec]
  rfl

/-- Entries with different indices do not meet, since eight times an index fits in 32 bits. -/
theorem entry_apart (gdt : UInt32) {seg sel : Int32} (h : seg >>> 3 ≠ sel >>> 3) {k : Nat}
    (hk : k < 8) :
    8 ≤ (entry gdt (seg >>> 3) + UInt32.ofNat k - entry gdt (sel >>> 3)).toNat := by
  have hseg := toInt_index seg
  have hsel := toInt_index sel
  have hseg_lt := seg.toInt_lt
  have hsel_lt := sel.toInt_lt
  have hseg_le := seg.le_toInt
  have hsel_le := sel.le_toInt
  generalize seg >>> 3 = i at *
  generalize sel >>> 3 = j at *
  have hne : i.toInt ≠ j.toInt := fun he => h (Int32.toInt_inj.mp he)
  have hoffset : entry gdt i + UInt32.ofNat k - entry gdt j =
      8 * i.toUInt32 + UInt32.ofNat k - 8 * j.toUInt32 := by
    rw [entry, entry, add_assoc, add_sub_add_left_eq_sub]
  have hi : i.toUInt32.toNat = i.toBitVec.toNat := rfl
  have hj : j.toUInt32.toNat = j.toBitVec.toNat := rfl
  rw [← Int32.toInt_toBitVec i, BitVec.toInt_eq_toNat_cond] at hseg hne
  rw [← Int32.toInt_toBitVec j, BitVec.toInt_eq_toNat_cond] at hsel hne
  rw [hoffset, UInt32.toNat_sub, UInt32.toNat_add, UInt32.toNat_mul, UInt32.toNat_mul, hi, hj,
    UInt32.toNat_ofNat']
  simp only [UInt32.reduceToNat]
  generalize i.toBitVec.toNat = a at *
  generalize j.toBitVec.toNat = b at *
  omega

/-- A record is determined by its eight bytes. -/
theorem load_congr {mem mem' : Memory} {p : UInt32}
    (h : ∀ k, k < 8 → mem' (p + UInt32.ofNat k) = mem (p + UInt32.ofNat k)) :
    DESCRIPTOR.load mem' p = DESCRIPTOR.load mem p := by
  have hzero := h 0 (by decide)
  rw [show UInt32.ofNat 0 = 0 from rfl, add_zero] at hzero
  have hbyte : ∀ k : UInt32, k.toNat < 8 → mem' (p + k) = mem (p + k) := by
    intro k hk
    have := h k.toNat hk
    rwa [UInt32.ofNat_toNat] at this
  have h3 : (2 : UInt32) + 1 = 3 := rfl
  simp (disch := decide) only [DESCRIPTOR.load, load16, add_assoc, h3, hzero, hbyte]

/-- The two encoders agree, the parts read back, and no other entry changes. -/
theorem decodesBack (gdt : UInt32) (mem : Memory) (sel : Int32) (base limit : UInt32)
    (attr : UInt16) :
    DecodesBack gdt mem sel base limit attr
      (initDescriptor mem (entry gdt (sel >>> 3)) base limit attr) := by
  rw [initDescriptor_eq]
  have hload := load_store mem (entry gdt (sel >>> 3)) base limit attr
  constructor
  case same_bytes => rw [bytesAt_store, descriptorMacro_eq]
  case base =>
    intro seg hseg
    rw [seg2phys, hseg, hload]
    exact base_pieces base
  case limit =>
    rw [hload, DESCRIPTOR.limit, limit_pieces, UInt32.toNat_and]
    exact Nat.and_two_pow_sub_one_eq_mod limit.toNat 20
  case attr =>
    rw [hload]
    exact attr_pieces limit attr
  case others =>
    intro seg hseg
    have hsame : ∀ k, k < 8 →
        store mem (entry gdt (sel >>> 3)) (layout base limit attr)
          (entry gdt (seg >>> 3) + UInt32.ofNat k) = mem (entry gdt (seg >>> 3) + UInt32.ofNat k) :=
      fun k hk => store_of_length_le mem (entry_apart gdt hseg hk)
    rw [seg2phys, seg2phys, load_congr hsame]

end Descriptors

end Legacy

end BbnOS
