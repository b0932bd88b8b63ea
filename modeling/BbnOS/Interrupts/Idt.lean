import BbnOS.Mem.Machine

/-!
# The interrupt descriptor table of `idt.c`

`prepareInterrupts` asks `requestPage` for a page, takes it for the table of 256
descriptors, and assigns the handlers of five vectors.  The table is in memory,
and every assignment stores its fields one by one.  The accesses to the ports of
the interrupt controller and of the mouse are left out, as they store nothing
in memory.

`IDTDesc.assign` is what an assignment does to one descriptor.
`read_intAssignFunc_self` and `read_intAssignFunc_of_ne` say that it does this
to its own descriptor and nothing to the others, and `read_assignAll` puts
several assignments together.
-/

namespace BbnOS

open ByteMemory

/-! ## One descriptor -/

/-- The fields of `IDTDesc` that are written or read. -/
@[ext]
structure IDTDesc where
  offset0 : UInt16
  selector : UInt16
  ist : UInt8
  typeAttr : UInt8
  offset1 : UInt16
  offset2 : UInt32
  deriving DecidableEq

namespace IDTDesc

/-- `sizeof(IDTDesc)`. -/
def size : Nat := 16

/-- The address of a field. -/
def field (desc : UInt64) (off : Nat) : UInt64 := desc + UInt64.ofNat off

/-- The descriptor at an address. -/
def read (ram : ByteMemory) (desc : UInt64) : IDTDesc where
  offset0 := UInt16.ofNat (ram.readLE (field desc 0) 2)
  selector := UInt16.ofNat (ram.readLE (field desc 2) 2)
  ist := UInt8.ofNat (ram.readLE (field desc 4) 1)
  typeAttr := UInt8.ofNat (ram.readLE (field desc 5) 1)
  offset1 := UInt16.ofNat (ram.readLE (field desc 6) 2)
  offset2 := UInt32.ofNat (ram.readLE (field desc 8) 4)

end IDTDesc

open IDTDesc

/-- `IDT_TA_Interrupt`. -/
def idtTAInterrupt : UInt8 := 0b10001110

/-- `SEG_OFFSET_KERNEL_CODE`. -/
def segOffsetKernelCode : UInt16 := 0x8

/-- `idtDescSetOffset`. -/
def idtDescSetOffset (desc offset : UInt64) (ram : ByteMemory) : ByteMemory :=
  let offset0 := (offset &&& 0x000000000000ffff).toUInt16
  let offset1 := ((offset &&& 0x00000000ffff0000) >>> 16).toUInt16
  let offset2 := ((offset &&& 0xffffffff00000000) >>> 32).toUInt32
  let ram := ram.writeLE (field desc 0) 2 offset0.toNat
  let ram := ram.writeLE (field desc 6) 2 offset1.toNat
  ram.writeLE (field desc 8) 4 offset2.toNat

/-- `idtDescGetOffset`. -/
def idtDescGetOffset (d : IDTDesc) : UInt64 :=
  (0 : UInt64) ||| d.offset0.toUInt64 ||| d.offset1.toUInt64 <<< 16 ||| d.offset2.toUInt64 <<< 32

/-- `IDT_DESC_BY_INDEX`, for the table at `base`. -/
def idtDescByIndex (base index : UInt64) : UInt64 := base + index * UInt64.ofNat IDTDesc.size

/-- `IntAssignFunc`, for the table at `base`. -/
def intAssignFunc (base index handler : UInt64) (ram : ByteMemory) : ByteMemory :=
  let desc := idtDescByIndex base index
  let ram := idtDescSetOffset desc handler ram
  let ram := ram.writeLE (field desc 2) 2 segOffsetKernelCode.toNat
  ram.writeLE (field desc 5) 1 idtTAInterrupt.toNat

/-! ## The table -/

/-- `IDT_ENTRIES`. -/
def idtEntries : Nat := 256

/-- `PAGE_SIZE`. -/
def pageSize : Nat := 4096

/-- `PIC_GET_INT_VECTOR`. -/
def picGetIntVector (irq : UInt64) : UInt64 := if irq < 8 then 0x20 + irq else 0x28 + irq - 8

def exDoubleFault : UInt64 := 8
def exGeneralProtection : UInt64 := 13
def exPageFault : UInt64 := 14
def irqKeyboardInt : UInt64 := 1
def irqPS2Mouse : UInt64 := 12

/-- The addresses of the five handlers. -/
structure Handlers where
  exHandlerDF : UInt64
  exHandlerGP : UInt64
  exHandlerPF : UInt64
  intHandlerKB : UInt64
  intHandlePS2Mouse : UInt64

/-- `IDTR`. -/
structure IDTR where
  limit : UInt16
  base : UInt64

/-- `prepareInterrupts`, which blocks when the table does not fit a page. -/
def prepareInterrupts (h : Handlers) (s : Machine) : Option (IDTR × Machine) :=
  let idtSize := idtEntries * IDTDesc.size
  if idtSize > pageSize then none
  else
    let (page, s) := s.requestPage
    let idtr : IDTR := { limit := UInt16.ofNat (idtSize - 1), base := page }
    let ram := intAssignFunc idtr.base exDoubleFault h.exHandlerDF s.ram
    let ram := intAssignFunc idtr.base exGeneralProtection h.exHandlerGP ram
    let ram := intAssignFunc idtr.base exPageFault h.exHandlerPF ram
    let ram := intAssignFunc idtr.base (picGetIntVector irqKeyboardInt) h.intHandlerKB ram
    let ram := intAssignFunc idtr.base (picGetIntVector irqPS2Mouse) h.intHandlePS2Mouse ram
    some (idtr, { s with ram := ram })

/-! ## One assignment -/

namespace IDTDesc

/-- A descriptor after an assignment: `ist` stays as it is. -/
def assign (d : IDTDesc) (handler : UInt64) : IDTDesc :=
  { d with
    offset0 := (handler &&& 0x000000000000ffff).toUInt16
    selector := segOffsetKernelCode
    typeAttr := idtTAInterrupt
    offset1 := ((handler &&& 0x00000000ffff0000) >>> 16).toUInt16
    offset2 := ((handler &&& 0xffffffff00000000) >>> 32).toUInt32 }

/-- A field after a store to another one. -/
theorem readLE_field_of_sep (m : ByteMemory) (desc : UInt64) {o n o' n' : Nat} (v : Nat)
    (hsep : o + n ≤ o' ∨ o' + n' ≤ o) (ho : o + n ≤ size) (ho' : o' + n' ≤ size) :
    (m.writeLE (field desc o') n' v).readLE (field desc o) n = m.readLE (field desc o) n := by
  unfold size at ho ho'
  refine readLE_congr (by omega) fun b hb => ?_
  refine bytes_writeLE_of_not_inRange m v (by omega) ?_
  exact disjoint_of_offsets ho ho' (by omega) hsep b hb

end IDTDesc

/-! ## The three parts of an address -/

private theorem or_shiftLeft {a i : Nat} (h : a < 2 ^ i) (b : Nat) :
    a ||| b <<< i = a + b * 2 ^ i := by
  rw [Nat.or_comm, ← Nat.shiftLeft_add_eq_or_of_lt h, Nat.shiftLeft_eq, Nat.add_comm]

theorem offset0_toNat (o : UInt64) :
    (o &&& 0x000000000000ffff).toUInt16.toNat = o.toNat % 2 ^ 16 := by
  have hmask : (0x000000000000ffff : UInt64).toNat = 2 ^ 16 - 1 := rfl
  rw [UInt64.toNat_toUInt16, UInt64.toNat_and, hmask, Nat.and_two_pow_sub_one_eq_mod,
    Nat.mod_mod]

theorem offset1_toNat (o : UInt64) :
    ((o &&& 0x00000000ffff0000) >>> 16).toUInt16.toNat = o.toNat / 2 ^ 16 % 2 ^ 16 := by
  have hmask : (0x00000000ffff0000 : UInt64).toNat >>> 16 = 2 ^ 16 - 1 := rfl
  rw [UInt64.toNat_toUInt16, UInt64.toNat_shiftRight, UInt64.toNat_and,
    show (16 : UInt64).toNat % 64 = 16 from rfl, Nat.shiftRight_and_distrib, hmask,
    Nat.and_two_pow_sub_one_eq_mod, Nat.mod_mod, Nat.shiftRight_eq_div_pow]

theorem offset2_toNat (o : UInt64) :
    ((o &&& 0xffffffff00000000) >>> 32).toUInt32.toNat = o.toNat / 2 ^ 32 := by
  have hlt := o.toNat_lt
  have hmask : (0xffffffff00000000 : UInt64).toNat >>> 32 = 2 ^ 32 - 1 := rfl
  rw [UInt64.toNat_toUInt32, UInt64.toNat_shiftRight, UInt64.toNat_and,
    show (32 : UInt64).toNat % 64 = 32 from rfl, Nat.shiftRight_and_distrib, hmask,
    Nat.and_two_pow_sub_one_eq_mod, Nat.mod_mod, Nat.shiftRight_eq_div_pow]
  omega

/-- Decoding gives back the address that was encoded. -/
theorem idtDescGetOffset_assign (d : IDTDesc) (handler : UInt64) :
    idtDescGetOffset (d.assign handler) = handler := by
  have hlt := handler.toNat_lt
  rw [← UInt64.toNat_inj, idtDescGetOffset, IDTDesc.assign]
  simp only [UInt64.toNat_or, UInt64.toNat_shiftLeft, UInt16.toNat_toUInt64,
    UInt32.toNat_toUInt64, offset0_toNat, offset1_toNat, offset2_toNat, UInt64.toNat_zero,
    Nat.zero_or, UInt64.reduceToNat, Nat.reduceMod]
  have hmid : (handler.toNat / 2 ^ 16 % 2 ^ 16) <<< 16 % 2 ^ 64 =
      (handler.toNat / 2 ^ 16 % 2 ^ 16) <<< 16 := by
    refine Nat.mod_eq_of_lt ?_
    rw [Nat.shiftLeft_eq]
    omega
  have hhigh : (handler.toNat / 2 ^ 32) <<< 32 % 2 ^ 64 = (handler.toNat / 2 ^ 32) <<< 32 := by
    refine Nat.mod_eq_of_lt ?_
    rw [Nat.shiftLeft_eq]
    omega
  rw [hmid, hhigh, or_shiftLeft (Nat.mod_lt _ (by decide)), or_shiftLeft (by omega)]
  omega

/-! ## The table after assignments -/

/-- An assignment, for its own descriptor. -/
theorem read_intAssignFunc_self (base index handler : UInt64) (ram : ByteMemory) :
    IDTDesc.read (intAssignFunc base index handler ram) (idtDescByIndex base index) =
      (IDTDesc.read ram (idtDescByIndex base index)).assign handler := by
  have h16 : ∀ v : UInt16, UInt16.ofNat (v.toNat % 256 ^ 2) = v := by
    intro v
    rw [show 256 ^ 2 = 2 ^ 16 from rfl, Nat.mod_eq_of_lt v.toNat_lt, UInt16.ofNat_toNat]
  have h32 : ∀ v : UInt32, UInt32.ofNat (v.toNat % 256 ^ 4) = v := by
    intro v
    rw [show 256 ^ 4 = 2 ^ 32 from rfl, Nat.mod_eq_of_lt v.toNat_lt, UInt32.ofNat_toNat]
  unfold intAssignFunc idtDescSetOffset IDTDesc.read IDTDesc.assign
  generalize idtDescByIndex base index = desc
  simp (disch := decide) only [readLE_field_of_sep, readLE_writeLE, h16, h32]
  rfl

/-- An assignment stores to its own descriptor only. -/
theorem bytes_intAssignFunc_of_not_inRange {base index a : UInt64} (handler : UInt64)
    (ram : ByteMemory) (h : ¬ InRange (idtDescByIndex base index) IDTDesc.size a) :
    (intAssignFunc base index handler ram).bytes a = ram.bytes a := by
  have hout : ∀ {o n : Nat}, o + n ≤ IDTDesc.size →
      ¬ InRange (field (idtDescByIndex base index) o) n a :=
    fun hle hin => h (inRange_of_offset hle (by decide) hin)
  unfold intAssignFunc idtDescSetOffset
  rw [bytes_writeLE_of_not_inRange _ _ (by omega) (hout (by decide)),
    bytes_writeLE_of_not_inRange _ _ (by omega) (hout (by decide)),
    bytes_writeLE_of_not_inRange _ _ (by omega) (hout (by decide)),
    bytes_writeLE_of_not_inRange _ _ (by omega) (hout (by decide)),
    bytes_writeLE_of_not_inRange _ _ (by omega) (hout (by decide))]

/-- A descriptor depends on its own bytes only. -/
theorem IDTDesc.read_congr {ram ram' : ByteMemory} {desc : UInt64}
    (h : ∀ a, InRange desc size a → ram'.bytes a = ram.bytes a) :
    IDTDesc.read ram' desc = IDTDesc.read ram desc := by
  have hfield : ∀ (o n : Nat), o + n ≤ size →
      ram'.readLE (field desc o) n = ram.readLE (field desc o) n := by
    intro o n hle
    refine readLE_congr (by unfold size at hle; omega) fun a ha => ?_
    exact h a (inRange_of_offset hle (by decide) ha)
  unfold IDTDesc.read
  rw [hfield 0 2 (by decide), hfield 2 2 (by decide), hfield 4 1 (by decide),
    hfield 5 1 (by decide), hfield 6 2 (by decide), hfield 8 4 (by decide)]

theorem idtDescByIndex_eq (base index : UInt64) :
    idtDescByIndex base index = base + UInt64.ofNat (IDTDesc.size * index.toNat) := by
  rw [idtDescByIndex, Nat.mul_comm, UInt64.ofNat_mul, UInt64.ofNat_toNat]

/-- An assignment, for the other descriptors. -/
theorem read_intAssignFunc_of_ne {base index v : UInt64} (handler : UInt64) (ram : ByteMemory)
    (hindex : index.toNat < idtEntries) (hv : v.toNat < idtEntries) (hne : v ≠ index) :
    IDTDesc.read (intAssignFunc base index handler ram) (idtDescByIndex base v) =
      IDTDesc.read ram (idtDescByIndex base v) := by
  have hne' : v.toNat ≠ index.toNat := fun heq => hne (UInt64.toNat_inj.mp heq)
  refine IDTDesc.read_congr fun a ha => bytes_intAssignFunc_of_not_inRange handler ram ?_
  rw [idtDescByIndex_eq] at ha ⊢
  unfold idtEntries at hindex hv
  refine disjoint_of_offsets (N := 4096) ?_ ?_ (by decide) ?_ a ha
  · unfold size
    omega
  · unfold size
    omega
  · unfold size
    omega

/-- Assignments one after the other. -/
def assignAll (base : UInt64) (l : List (UInt64 × UInt64)) (ram : ByteMemory) : ByteMemory :=
  l.foldl (fun ram p => intAssignFunc base p.1 p.2 ram) ram

/-- Assignments to different vectors: each does its own descriptor. -/
theorem read_assignAll (base : UInt64) {l : List (UInt64 × UInt64)} (ram : ByteMemory)
    (hlt : ∀ p ∈ l, p.1.toNat < idtEntries) (hnodup : (l.map Prod.fst).Nodup) {v : UInt64}
    (hv : v.toNat < idtEntries) :
    (∀ handler, (v, handler) ∈ l →
      IDTDesc.read (assignAll base l ram) (idtDescByIndex base v) =
        (IDTDesc.read ram (idtDescByIndex base v)).assign handler) ∧
    (v ∉ l.map Prod.fst →
      IDTDesc.read (assignAll base l ram) (idtDescByIndex base v) =
        IDTDesc.read ram (idtDescByIndex base v)) := by
  induction l generalizing ram with
  | nil => exact ⟨fun _ h => absurd h List.not_mem_nil, fun _ => rfl⟩
  | cons p l ih =>
    rw [List.map_cons, List.nodup_cons] at hnodup
    obtain ⟨hself, hrest⟩ := ih (intAssignFunc base p.1 p.2 ram)
      (fun q hq => hlt q (List.mem_cons_of_mem p hq)) hnodup.2
    have hp := hlt p List.mem_cons_self
    rw [show assignAll base (p :: l) ram =
      assignAll base l (intAssignFunc base p.1 p.2 ram) from rfl]
    constructor
    · intro handler hmem
      rcases List.mem_cons.mp hmem with heq | hin
      · subst heq
        rw [hrest hnodup.1, read_intAssignFunc_self]
      · have hne : v ≠ p.1 := by
          intro heq
          subst heq
          exact hnodup.1 (List.mem_map.mpr ⟨_, hin, rfl⟩)
        rw [hself handler hin, read_intAssignFunc_of_ne _ _ hp hv hne]
    · intro hout
      rw [List.map_cons, List.mem_cons, not_or] at hout
      rw [hrest hout.2, read_intAssignFunc_of_ne _ _ hp hv hout.1]

end BbnOS
