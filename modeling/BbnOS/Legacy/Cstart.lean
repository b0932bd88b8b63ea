import BbnOS.Legacy.Kmain
import BbnOS.Lib.Cells

/-!
# The descriptor tables of the legacy kernel

`cstart` and `init_prot`: the GDT is copied from the loader, the TSS and the
LDTs get their descriptors, and the IDT its gates.

`segments_ready` says what the selectors that the kernel and its tasks load stand
for, after `cstart` and the loop of `kmain`.  `gates_ready` says which routine the
processor enters for a vector, and in particular for an interrupt line at the
vector that `init_8259A` gives it; `exception_arguments` what the routines of the
exceptions pass on.

The processor sets the accessed bit of a segment and the busy bit of a TSS when it
loads them.  The loader's GDT comes with such bits, and `Marked` lets it set more
between `cstart` and `kmain`; a descriptor is stated `unmarked` where it may have one.

The output is not modelled, nor is what the compiled code leaves on the kernel
stack; `irq_table` is the one of `Irq`.
-/

namespace BbnOS

namespace Legacy

namespace Context

open WordStack Windows Loop Cells
open Descriptors (store16 DESCRIPTOR initDescriptor initDescriptor_eq seg2phys entry descriptorMacro
  layout store store_add store_of_length_le)

/-! ## Data -/

/-- The routines whose addresses are in the IDT. -/
inductive Isr where
  | divideError
  | singleStepError
  | nmi
  | breakpointException
  | overflow
  | boundsCheck
  | invalOpcode
  | coprNotAvailable
  | doubleFault
  | coprSegOverrun
  | invalTss
  | segmentNotPresent
  | stackException
  | generalProtection
  | pageFault
  | coprError
  | hwint (irq : Fin 16)
  | sysCall
  deriving DecidableEq

/-- The tables that the kernel sets up. -/
inductive Table where
  | gdtPtr
  | gdt
  | idtPtr
  | idt
  | tss
  | procTable
  deriving DecidableEq

/-- `sizeof(TSS)`. -/
def SIZEOF_TSS : Nat := 104

def Table.size : Table → Nat
  | gdtPtr | idtPtr => 6
  | gdt => 128 * 8
  | idt => 256 * 8
  | tss => SIZEOF_TSS
  | procTable => MAX_THREAD * SIZEOF_PROCESS

/-- Where the linker puts the tables and the routines. -/
structure Addresses extends Kernel where
  gdtPtr : UInt32
  idtPtr : UInt32
  idt : UInt32
  tss : UInt32
  isr : Isr → UInt32

/-- The address of a table. -/
def Addresses.table (K : Addresses) : Table → UInt32
  | .gdtPtr => K.gdtPtr
  | .gdt => K.gdt
  | .idtPtr => K.idtPtr
  | .idt => K.idt
  | .tss => K.tss
  | .procTable => K.procTable

/-- The tables do not meet. -/
structure Image extends Addresses where
  table_le : ∀ x : Table, (toAddresses.table x).toNat + x.size ≤ 2 ^ 32
  table_apart : ∀ x y : Table, x ≠ y →
    (toAddresses.table x).toNat + x.size ≤ (toAddresses.table y).toNat ∨
      (toAddresses.table y).toNat + y.size ≤ (toAddresses.table x).toNat

/-- The record `GATE` of `dt.h`. -/
structure GATE where
  base_low : UInt16
  sel : UInt16
  always0 : UInt8
  flags : UInt8
  base_high : UInt16
  deriving DecidableEq

/-! ## The code -/

/-- The loop of `memset`; the count is `ecx`. -/
def memset (m : Bytes) (edi : UInt32) (dl : UInt8) : Nat → Bytes
  | 0 => m
  | ecx + 1 => memset (store8 m edi dl) (edi + 1) dl ecx

/-- `vir2phys`. -/
def vir2phys (seg_base vir : UInt32) : UInt32 := seg_base + vir

/-- `vir2phys(seg2phys(SELECTOR_KERNEL_DS), vir)`. -/
def kernelPhys (K : Addresses) (m : Bytes) (vir : UInt32) : UInt32 :=
  vir2phys (seg2phys K.gdt m 0x10) vir

/-- The first part of `cstart`: the GDT moves. -/
def reloadGdt (K : Addresses) (m : Bytes) : Bytes :=
  let m := memcpy m K.gdt (load32 m (K.gdtPtr + 2)) ((load16 m K.gdtPtr).toNat + 1)
  let m := store16 m K.gdtPtr (128 * 8 - 1)
  store32 m (K.gdtPtr + 2) (kernelPhys K m K.gdt)

/-- `DA_386TSS`. -/
def DA_386TSS : UInt16 := 0x89

/-- `DA_LDT`. -/
def DA_LDT : UInt16 := 0x82

/-- `DA_386IGate`. -/
def DA_386IGate : UInt8 := 0x8E

/-- The second part: the TSS. -/
def setTss (K : Addresses) (m : Bytes) : Bytes :=
  let m := memset m K.tss 0 SIZEOF_TSS
  let m := store32 m (K.tss + 8) SELECTOR_KERNEL_DS.toUInt32
  let m := initDescriptor m (entry K.gdt 4) (kernelPhys K m K.tss) (104 - 1) DA_386TSS
  store16 m (K.tss + 102) 104

/-- The body of the loop over the LDTs. -/
def setLdt (K : Addresses) (i : Nat) (s : Bytes × UInt16) : Bytes × UInt16 :=
  (initDescriptor s.1 (entry K.gdt (s.2 >>> 3).toUInt32.toInt32)
    (kernelPhys K s.1 (K.pcb i + 74)) (2 * 8 - 1) DA_LDT, s.2 + (1 : UInt16) <<< 3)

/-- The third part: the LDTs. -/
def setLdts (K : Addresses) (m : Bytes) : Bytes :=
  (forUpto (setLdt K) MAX_THREAD (m, (5 : UInt16) <<< 3)).1

/-- The fourth part: `idt_ptr`. -/
def setIdtPtr (K : Addresses) (m : Bytes) : Bytes :=
  let m := store16 m K.idtPtr (256 * 8 - 1)
  store32 m (K.idtPtr + 2) K.idt

/-- `init_idt_desc`. -/
def initIdtDesc (K : Addresses) (m : Bytes) (vector desc_type : UInt8) (handler : UInt32)
    (privilege : UInt8) : Bytes :=
  let p_gate := K.idt + 8 * vector.toUInt32
  let m := store16 m p_gate (handler &&& 0xFFFF).toUInt16
  let m := store16 m (p_gate + 2) SELECTOR_KERNEL_CS
  let m := store16 m (p_gate + 6) ((handler >>> 16) &&& 0xFFFF).toUInt16
  store8 m (p_gate + 5) (desc_type ||| privilege <<< 5)

/-- The calls of `init_prot` for the exceptions: the vector and the routine. -/
def exceptionGates : List (UInt8 × Isr) :=
  [(0x0, .divideError), (0x1, .singleStepError), (0x2, .nmi), (0x3, .breakpointException),
    (0x4, .overflow), (0x5, .boundsCheck), (0x6, .invalOpcode), (0x7, .coprNotAvailable),
    (0x8, .doubleFault), (0x9, .coprSegOverrun), (0xA, .invalTss), (0xB, .segmentNotPresent),
    (0xC, .stackException), (0xD, .generalProtection), (0xE, .pageFault), (0x10, .coprError)]

/-- The calls for the interrupt lines. -/
def irqGates : List (UInt8 × Isr) :=
  (List.finRange 16).map fun irq => (0x20 + UInt8.ofNat irq.val, .hwint irq)

/-- All calls of `init_prot`, with the privilege. -/
def gateCalls : List (UInt8 × Isr × UInt8) :=
  (exceptionGates ++ irqGates).map (fun g => (g.1, g.2, 0)) ++ [(0x90, .sysCall, 3)]

/-- `init_prot`, but for `init_8259A`. -/
def initProt (K : Addresses) (m : Bytes) : Bytes :=
  gateCalls.foldl (fun m g => initIdtDesc K m g.1 DA_386IGate (K.isr g.2.1) g.2.2) m

/-- `cstart`. -/
def cstart (K : Addresses) (m : Bytes) : Bytes :=
  initProt K (setIdtPtr K (setLdts K (setTss K (reloadGdt K m))))

/-- What the routine of an exception pushes before `exception` calls
`exception_handler`. -/
def Isr.pushes : Isr → List UInt32
  | divideError => [0xFFFFFFFF, 0]
  | singleStepError => [0xFFFFFFFF, 1]
  | nmi => [0xFFFFFFFF, 2]
  | breakpointException => [0xFFFFFFFF, 3]
  | overflow => [0xFFFFFFFF, 4]
  | boundsCheck => [0xFFFFFFFF, 5]
  | invalOpcode => [0xFFFFFFFF, 6]
  | coprNotAvailable => [0xFFFFFFFF, 7]
  | doubleFault => [8]
  | coprSegOverrun => [0xFFFFFFFF, 9]
  | invalTss => [10]
  | segmentNotPresent => [11]
  | stackException => [12]
  | generalProtection => [13]
  | pageFault => [14]
  | coprError => [0xFFFFFFFF, 16]
  | hwint _ | sysCall => []

/-! ## What the processor reads -/

/-- The base of a segment. -/
def segmentBase (d : DESCRIPTOR) : UInt32 :=
  (d.base_high.toUInt32 <<< 24) ||| (d.base_mid.toUInt32 <<< 16) ||| d.base_low.toUInt32

/-- What `lgdt` and `lidt` load. -/
structure TableRegister where
  limit : UInt32
  base : UInt32
  deriving DecidableEq

def TableRegister.load (m : Bytes) (p : UInt32) : TableRegister :=
  ⟨(load16 m p).toUInt32, load32 m (p + 2)⟩

/-- The descriptor that a selector names in a table, if the table has one there. -/
def TableRegister.descriptor (t : TableRegister) (m : Bytes) (sel : UInt16) :
    Option DESCRIPTOR :=
  if (sel ||| 7).toNat ≤ t.limit.toNat then
    some (DESCRIPTOR.load m (t.base + (sel &&& 0xFFF8).toUInt32))
  else none

/-- The descriptor that a selector stands for: bit 2 selects the LDT. -/
def segment (m : Bytes) (gdtr : TableRegister) (ldtr sel : UInt16) : Option DESCRIPTOR :=
  if sel &&& 4 = 0 then gdtr.descriptor m sel
  else (gdtr.descriptor m ldtr).bind fun d =>
    TableRegister.descriptor ⟨d.limit, segmentBase d⟩ m sel

/-- The type of a descriptor without the bit that the processor sets in it: the accessed
bit of a code or data segment, the busy bit of a TSS. -/
def unmarked (attr1 : UInt8) : UInt8 :=
  if attr1 &&& 0x10 ≠ 0 then attr1 &&& 0xFE
  else if attr1 &&& 0x0D = 0x09 then attr1 &&& 0xFD
  else attr1

/-- The same for a descriptor. -/
def unmarkedEntry (d : DESCRIPTOR) : DESCRIPTOR := { d with attr1 := unmarked d.attr1 }

/-- The same for the bytes of a table. -/
def unmarkedTable (t : List UInt8) : List UInt8 :=
  t.mapIdx fun k b => if k % 8 = 5 then unmarked b else b

/-- The processor has set such bits in the GDT, or taken them away, and nothing else has
changed. -/
structure Marked (K : Addresses) (m m' : Bytes) : Prop where
  types : ∀ j, j < 128 → unmarked (m' (K.gdt + (8 * UInt32.ofNat j + 5))) =
    unmarked (m (K.gdt + (8 * UInt32.ofNat j + 5)))
  others : ∀ a, (∀ j, j < 128 → a ≠ K.gdt + (8 * UInt32.ofNat j + 5)) → m' a = m a

/-- What the processor reads of a gate. -/
structure Gate where
  offset : UInt32
  sel : UInt16
  flags : UInt8
  deriving DecidableEq

/-- `*p_gate`. -/
def GATE.load (m : Bytes) (p_gate : UInt32) : GATE where
  base_low := load16 m p_gate
  sel := load16 m (p_gate + 2)
  always0 := m (p_gate + 4)
  flags := m (p_gate + 5)
  base_high := load16 m (p_gate + 6)

def GATE.gate (g : GATE) : Gate :=
  ⟨g.base_low.toUInt32 ||| g.base_high.toUInt32 <<< 16, g.sel, g.flags⟩

/-- The gate of a vector, if the IDT has one. -/
def TableRegister.gate (t : TableRegister) (m : Bytes) (vector : UInt8) : Option Gate :=
  if 8 * vector.toNat + 7 ≤ t.limit.toNat then
    some (GATE.load m (t.base + 8 * vector.toUInt32)).gate
  else none

/-- The exceptions for which the processor pushes an error code. -/
def pushesErrorCode (vector : UInt8) : Bool :=
  vector ∈ [(0x8 : UInt8), 0xA, 0xB, 0xC, 0xD, 0xE, 0x11]

/-- The stack at the call of `exception_handler`, below its return address. -/
def exceptionStack (s : Stack) (eflags cs eip error : UInt32) (g : UInt8 × Isr) : Stack :=
  s.pushAll ([eflags, cs, eip] ++ (if pushesErrorCode g.1 then [error] else []) ++ g.2.pushes)

/-! ## Tables that change -/

section Tables

variable {K : Image} {m m' m'' : Bytes} {x y : Table} {xs ys : List Table}

/-- Nothing changes but in the tables of a list. -/
def Changes (K : Addresses) (xs : List Table) (m m' : Bytes) : Prop :=
  ∀ a : UInt32, (∀ x ∈ xs, x.size ≤ (a - K.table x).toNat) → m' a = m a

theorem Changes.trans (h : Changes K.toAddresses xs m m') (h' : Changes K.toAddresses ys m' m'') :
    Changes K.toAddresses (xs ++ ys) m m'' := by
  intro a ha
  rw [h' a fun x hx => ha x (List.mem_append_right _ hx),
    h a fun x hx => ha x (List.mem_append_left _ hx)]

theorem Changes.mono (h : Changes K.toAddresses xs m m') (hsub : xs ⊆ ys) :
    Changes K.toAddresses ys m m' :=
  fun a ha => h a fun x hx => ha x (hsub hx)

/-- A change inside one table. -/
theorem changes_of_keeps {c : UInt32} {l : Nat}
    (h : Keeps m m' (K.table x + c) l) (hle : c.toNat + l ≤ x.size) :
    Changes K.toAddresses [x] m m' :=
  fun a ha => h.within hle a (ha x (List.mem_singleton.mpr rfl))

/-- The other tables stay. -/
theorem Changes.agrees (h : Changes K.toAddresses xs m m') (hy : y ∉ xs) :
    Agrees m m' (K.table y) y.size := by
  intro k hk
  refine h _ fun x hx => le_distance (K.table_le y) (K.table_le x) (K.table_apart y x ?_) hk
  intro heq
  rw [heq] at hy
  exact hy hx

end Tables

/-! ## The GDT -/

section Gdt

variable {K : Image} {m m' : Bytes} {xs : List Table} {i j n : Nat}
  {base limit : UInt32} {attr : UInt16}

/-- The record that `init_descriptor` makes. -/
def described (d : UInt32 × UInt32 × UInt16) : DESCRIPTOR where
  limit_low := d.2.1.toUInt16
  base_low := d.1.toUInt16
  base_mid := (d.1 >>> 16).toUInt8
  attr1 := d.2.2.toUInt8
  limit_high_attr2 :=
    ((d.2.1 >>> 16).toUInt8 &&& (0x0F : UInt8)) ||| ((d.2.2 >>> 8).toUInt8 &&& 0xF0)
  base_high := (d.1 >>> 24).toUInt8

theorem segmentBase_described (d : UInt32 × UInt32 × UInt16) :
    segmentBase (described d) = d.1 := Descriptors.base_pieces d.1

theorem limit_described (d : UInt32 × UInt32 × UInt16) :
    (described d).limit = d.2.1 &&& 0xFFFFF := Descriptors.limit_pieces d.2.1 d.2.2

theorem unmarkedEntry_described (d : UInt32 × UInt32 × UInt16)
    (h : unmarked d.2.2.toUInt8 = d.2.2.toUInt8) : unmarkedEntry (described d) = described d :=
  congrArg (fun attr1 => { described d with attr1 }) h

/-- An entry of the GDT. -/
def gdtEntry (K : Addresses) (m : Bytes) (j : Nat) : DESCRIPTOR :=
  DESCRIPTOR.load m (K.gdt + 8 * UInt32.ofNat j)

theorem toNat_ofNat_index (hi : i < 128) : (UInt32.ofNat i).toNat = i := by
  rw [UInt32.toNat_ofNat', Nat.mod_eq_of_lt (by omega)]

theorem toNat_slot (hi : i < 128) : (8 * UInt32.ofNat i).toNat = 8 * i := by
  rw [UInt32.toNat_mul, toNat_ofNat_index hi, show (8 : UInt32).toNat = 8 from rfl,
    Nat.mod_eq_of_lt (by omega)]

theorem gdtEntry_initDescriptor (hi : i < 128) (hj : j < 128) :
    gdtEntry K.toAddresses (initDescriptor m (K.gdt + 8 * UInt32.ofNat i) base limit attr) j =
      if j = i then described (base, limit, attr) else gdtEntry K.toAddresses m j := by
  rw [initDescriptor_eq]
  split_ifs with heq
  · subst heq
    exact Descriptors.load_store m _ base limit attr
  · have hne : UInt32.ofNat j ≠ UInt32.ofNat i := by
      intro h
      have hnat := congrArg UInt32.toNat h
      rw [toNat_ofNat_index hi, toNat_ofNat_index hj] at hnat
      exact heq hnat
    obtain ⟨hdist, hwrap⟩ := slot_distance (by rw [toNat_ofNat_index hi]; omega)
      (by rw [toNat_ofNat_index hj]; omega) hne
    exact load_agrees ((keeps_store m (K.gdt + 8 * UInt32.ofNat i) (Nat.le_refl 8)).agrees_add
      hdist hwrap)

theorem changes_initDescriptor (hi : i < 128) :
    Changes K.toAddresses [.gdt] m
      (initDescriptor m (K.gdt + 8 * UInt32.ofNat i) base limit attr) := by
  rw [initDescriptor_eq]
  refine changes_of_keeps (x := .gdt) (keeps_store m _ (Nat.le_refl 8)) ?_
  rw [toNat_slot hi, Table.size]
  omega

theorem gdtEntry_congr (h : Changes K.toAddresses xs m m') (hgdt : Table.gdt ∉ xs)
    (hj : j < 128) : gdtEntry K.toAddresses m' j = gdtEntry K.toAddresses m j := by
  refine load_agrees ((h.agrees hgdt).part ?_ (by decide))
  rw [toNat_slot hj, Table.size]
  omega

/-- The GDT of the loader: bases, limits and attributes. -/
def loaderTable : List (UInt32 × UInt32 × UInt16) :=
  [(0, 0, 0), (0, 0xFFFFF, (0x9A : UInt16) ||| 0x4000 ||| 0x8000),
    (0, 0xFFFFF, (0x92 : UInt16) ||| 0x4000 ||| 0x8000),
    (0xB8000, 0xFFFF, (0x92 : UInt16) ||| 0x60)]

/-- Its bytes, as the macro lays them out. -/
def loaderGdt : List UInt8 :=
  loaderTable.flatMap fun d => descriptorMacro d.1.toUInt64 d.2.1.toUInt64 d.2.2.toUInt64

/-- The GDT after `cstart`. -/
def gdtTable (K : Addresses) : List (UInt32 × UInt32 × UInt16) :=
  loaderTable ++ (K.tss, 103, DA_386TSS) ::
    (List.range MAX_THREAD).map fun i => (K.pcb i + 74, 15, DA_LDT)

/-- The first `n` entries are as they shall be. -/
def HasEntries (K : Addresses) (m : Bytes) (n : Nat) : Prop :=
  ∀ j, j < n → ∀ d, (gdtTable K)[j]? = some d → unmarkedEntry (gdtEntry K m j) = described d

theorem gdtTable_ldt (K : Addresses) {i : Nat} (hi : i < MAX_THREAD) :
    (gdtTable K)[5 + i]? = some (K.pcb i + 74, 15, DA_LDT) := by
  rw [gdtTable, List.getElem?_append_right (Nat.le_trans (by decide) (Nat.le_add_right 5 i)),
    show 5 + i - loaderTable.length = i + 1 by rw [show loaderTable.length = 4 from rfl]; omega,
    List.getElem?_cons_succ, List.getElem?_map, List.getElem?_range hi]
  rfl

theorem HasEntries.congr (h : HasEntries K.toAddresses m n) (hn : n ≤ 8)
    (hm : Changes K.toAddresses xs m m') (hgdt : Table.gdt ∉ xs) :
    HasEntries K.toAddresses m' n :=
  fun j hj d hd =>
    (congrArg unmarkedEntry (gdtEntry_congr hm hgdt (by omega))).trans (h j hj d hd)

/-- One more entry. -/
theorem HasEntries.next (h : HasEntries K.toAddresses m n) (hn : n < 8)
    (hattr : unmarked attr.toUInt8 = attr.toUInt8)
    (hd : (gdtTable K.toAddresses)[n]? = some (base, limit, attr)) :
    HasEntries K.toAddresses (initDescriptor m (K.gdt + 8 * UInt32.ofNat n) base limit attr)
      (n + 1) := by
  intro j hj d hd'
  rw [gdtEntry_initDescriptor (by omega) (by omega)]
  split_ifs with heq
  · subst heq
    have hentry : described (base, limit, attr) = described d :=
      congrArg described (Option.some.inj (hd.symm.trans hd'))
    exact (unmarkedEntry_described (base, limit, attr) hattr).trans hentry
  · exact h j (by omega) d hd'

/-- Entries whose bytes differ in the bit that the processor sets. -/
theorem unmarkedEntry_load {p : UInt32} (htype : unmarked (m' (p + 5)) = unmarked (m (p + 5)))
    (hothers : ∀ k : UInt32, k.toNat < 8 → k ≠ 5 → m' (p + k) = m (p + k)) :
    unmarkedEntry (DESCRIPTOR.load m' p) = unmarkedEntry (DESCRIPTOR.load m p) := by
  have hfirst := hothers 0 (by decide) (by decide)
  rw [add_zero] at hfirst
  simp (disch := decide) only [unmarkedEntry, DESCRIPTOR.load, Descriptors.load16, add_assoc,
    show (2 : UInt32) + 1 = 3 from rfl, hfirst, hothers, htype]

theorem toNat_type {j : Nat} (hj : j < 128) :
    (8 * UInt32.ofNat j + 5).toNat = 8 * j + 5 := by
  rw [UInt32.toNat_add, toNat_slot hj, show (5 : UInt32).toNat = 5 from rfl,
    Nat.mod_eq_of_lt (by omega)]

/-- The entries stay, whatever the processor sets. -/
theorem Marked.changes (h : Marked K.toAddresses m m') : Changes K.toAddresses [.gdt] m m' := by
  intro a ha
  refine h.others a fun j hj heq => ?_
  have hle := ha .gdt (List.mem_singleton.mpr rfl)
  rw [heq, Addresses.table, add_sub_cancel_left, toNat_type hj, Table.size] at hle
  omega

theorem Marked.hasEntries (h : Marked K.toAddresses m m') (hn : n ≤ 8)
    (hentries : HasEntries K.toAddresses m n) : HasEntries K.toAddresses m' n := by
  intro j hj d hd
  rw [← hentries j hj d hd]
  refine unmarkedEntry_load ?_ fun k hk hne => ?_
  · rw [add_assoc]
    exact h.types j (by omega)
  · rw [add_assoc]
    refine h.others _ fun i hi heq => hne (UInt32.toNat_inj.mp ?_)
    have hnat := congrArg UInt32.toNat (add_left_cancel heq)
    rw [toNat_type hi, UInt32.toNat_add, toNat_slot (by omega), Nat.mod_eq_of_lt (by omega)] at hnat
    rw [show (5 : UInt32).toNat = 5 from rfl]
    omega

/-- Two tables that differ in what the processor sets. -/
theorem marked_store {t t' : List UInt8} (h : unmarkedTable t = unmarkedTable t')
    (hlen : t.length ≤ 128 * 8) :
    Marked K.toAddresses (store m K.gdt t) (store m K.gdt t') := by
  have hbyte : ∀ k, (t[k]?).map (fun b => if k % 8 = 5 then unmarked b else b) =
      (t'[k]?).map fun b => if k % 8 = 5 then unmarked b else b := by
    intro k
    have hk := congrArg (·[k]?) h
    simp only [unmarkedTable, List.getElem?_mapIdx] at hk
    exact hk
  constructor
  case types =>
    intro j hj
    have hj' := hbyte (8 * j + 5)
    simp only [show (8 * j + 5) % 8 = 5 by omega, if_true] at hj'
    rw [store_add, store_add, toNat_type hj, List.getD_eq_getElem?_getD,
      List.getD_eq_getElem?_getD, ← Option.getD_map unmarked, ← Option.getD_map unmarked, hj']
  case others =>
    intro a ha
    obtain ⟨d, rfl⟩ : ∃ d, a = K.gdt + d := ⟨a - K.gdt, (add_sub_cancel K.gdt a).symm⟩
    have hd := hbyte d.toNat
    rw [store_add, store_add, List.getD_eq_getElem?_getD, List.getD_eq_getElem?_getD]
    by_cases htype : d.toNat % 8 = 5
    · -- a type byte beyond the GDT, so beyond both tables
      have hfar : 128 * 8 ≤ d.toNat := by
        by_contra hnear
        refine ha (d.toNat / 8) (by omega) (congrArg (K.gdt + ·) (UInt32.toNat_inj.mp ?_))
        rw [toNat_type (by omega)]
        omega
      rw [List.getElem?_eq_none (Nat.le_trans hlen hfar), Option.map_none] at hd
      rw [List.getElem?_eq_none (Nat.le_trans hlen hfar), Option.map_eq_none_iff.mp hd.symm]
    · simp only [if_neg htype, Option.map_id'] at hd
      rw [hd]

/-- With the flat segment of the loader a virtual address is the physical one. -/
theorem HasEntries.kernelPhys (h : HasEntries K.toAddresses m n) (hn : 3 ≤ n) (vir : UInt32) :
    kernelPhys K.toAddresses m vir = vir := by
  have hbase : seg2phys K.gdt m 0x10 = 0 := by
    have hentry := h 2 (by omega) _ rfl
    exact (congrArg segmentBase hentry).trans (segmentBase_described _)
  rw [Context.kernelPhys, hbase]
  exact zero_add vir

/-- What the loader hands over: the register that `sgdt` stores in `gdt_ptr`, and the
table that it names. -/
structure Booted (K : Addresses) (m : Bytes) : Prop where
  limit : load16 m K.gdtPtr = 31
  /-- The loader has loaded its selectors by then. -/
  bytes : unmarkedTable (window m (load32 m (K.gdtPtr + 2)) 32) = loaderGdt
  base_le : (load32 m (K.gdtPtr + 2)).toNat + 32 ≤ 2 ^ 32
  apart : (load32 m (K.gdtPtr + 2)).toNat + 32 ≤ K.gdt.toNat ∨
    K.gdt.toNat + Table.gdt.size ≤ (load32 m (K.gdtPtr + 2)).toNat

theorem loaderGdt_bytes : ∀ j, j < 4 → ∀ k, k < 8 →
    loaderGdt[8 * j + k]? = loaderTable[j]?.bind fun d => (layout d.1 d.2.1 d.2.2)[k]? := by
  decide +kernel

theorem unmarkedTable_loaderGdt : unmarkedTable loaderGdt = loaderGdt := by decide +kernel

theorem hasEntries_loaderGdt (m : Bytes) :
    HasEntries K.toAddresses (store m K.gdt loaderGdt) 4 := by
  intro j hj d hd
  have hd' : loaderTable[j]? = some d := by
    rw [gdtTable, List.getElem?_append_left hj] at hd
    exact hd
  have hclear : ∀ j, j < 4 → loaderTable[j]?.map (fun d => unmarked d.2.2.toUInt8) =
      loaderTable[j]?.map fun d => d.2.2.toUInt8 := by decide
  have hattr := hclear j hj
  rw [hd', Option.map_some, Option.map_some] at hattr
  rw [← unmarkedEntry_described d (Option.some.inj hattr), gdtEntry, described,
    ← Descriptors.load_store m (K.gdt + 8 * UInt32.ofNat j)]
  refine congrArg unmarkedEntry (Descriptors.load_congr fun k hk => ?_)
  have hk' : (UInt32.ofNat k).toNat = k := toNat_ofNat_index (by omega)
  have hlen : k < (layout d.1 d.2.1 d.2.2).length := hk
  -- byte `k` of entry `j`
  have hbyte := loaderGdt_bytes j hj k hk
  rw [hd', Option.bind_some, List.getElem?_eq_getElem hlen] at hbyte
  rw [store_add, hk', add_assoc, store_add, UInt32.toNat_add, toNat_slot (by omega), hk',
    Nat.mod_eq_of_lt (by omega), List.getD_eq_getElem?_getD, hbyte, List.getD_eq_getElem _ _ hlen]
  rfl

/-- What `cstart` needs of the memory that a part of it leaves. -/
theorem reloadGdt_eq (h : Booted K.toAddresses m) :
    Changes K.toAddresses [.gdt, .gdtPtr] m (reloadGdt K.toAddresses m) ∧
      HasEntries K.toAddresses (reloadGdt K.toAddresses m) 4 ∧
      TableRegister.load (reloadGdt K.toAddresses m) K.gdtPtr = ⟨1023, K.gdt⟩ := by
  obtain ⟨t, ht⟩ : ∃ t, t = window m (load32 m (K.gdtPtr + 2)) 32 := ⟨_, rfl⟩
  have htable : unmarkedTable t = loaderGdt := ht ▸ h.bytes
  have hlen : t.length = 32 := by rw [ht, window, List.length_map, List.length_range]
  have hcopy : memcpy m K.gdt (load32 m (K.gdtPtr + 2)) ((load16 m K.gdtPtr).toNat + 1) =
      store m K.gdt t := by
    rw [h.limit, memcpy_eq_store (by decide)]
    · exact congrArg (store m K.gdt) ht.symm
    · intro k hk
      have hlt : (UInt32.ofNat k).toNat < 32 := by
        rw [toNat_ofNat_index (Nat.lt_trans hk (by decide))]
        exact hk
      exact Nat.le_trans (by decide) (le_distance h.base_le (K.table_le .gdt) h.apart hlt)
  have hmarked : Marked K.toAddresses (store m K.gdt loaderGdt) (store m K.gdt t) :=
    marked_store (htable.trans unmarkedTable_loaderGdt.symm).symm (by decide +kernel)
  obtain ⟨m₁, h₁⟩ : ∃ m₁, m₁ = store m K.gdt t := ⟨_, rfl⟩
  obtain ⟨m₂, h₂⟩ : ∃ m₂, m₂ = store16 m₁ K.gdtPtr (128 * 8 - 1) := ⟨_, rfl⟩
  have c₁ : Changes K.toAddresses [.gdt] m m₁ := by
    refine changes_of_keeps (x := .gdt) (c := 0) ?_ (show 0 + 32 ≤ 128 * 8 by decide)
    rw [add_zero, h₁]
    exact keeps_store m K.gdt hlen.le
  have k₂ : Keeps m₁ m₂ (K.gdtPtr + 0) 2 := by
    rw [add_zero, h₂]
    exact keeps_store16 m₁ K.gdtPtr _
  have c₂ : Changes K.toAddresses [.gdtPtr] m₁ m₂ := changes_of_keeps (x := .gdtPtr) k₂ (by decide)
  have hentries : HasEntries K.toAddresses m₂ 4 :=
    (h₁ ▸ hmarked.hasEntries (by decide) (hasEntries_loaderGdt m)).congr (by decide) c₂ (by decide)
  have hlast : reloadGdt K.toAddresses m = store32 m₂ (K.gdtPtr + 2) K.gdt := by
    rw [reloadGdt, hcopy, ← h₁, ← h₂, hentries.kernelPhys (by decide)]
  have k₃ := keeps_store32 m₂ (K.gdtPtr + 2) K.gdt
  have c₃ : Changes K.toAddresses [.gdtPtr] m₂ (store32 m₂ (K.gdtPtr + 2) K.gdt) :=
    changes_of_keeps (x := .gdtPtr) k₃ (by decide)
  have hlimit : load16 (store32 m₂ (K.gdtPtr + 2) K.gdt) (K.gdtPtr + 0) = 1023 := by
    rw [k₃.load16 (by decide) (by decide), add_zero, h₂]
    exact load16_store16 m₁ K.gdtPtr _
  rw [add_zero] at hlimit
  rw [hlast]
  refine ⟨((c₁.trans c₂).trans c₃).mono (by decide), hentries.congr (by decide) c₃ (by decide), ?_⟩
  rw [TableRegister.load, hlimit, load32_store32]
  rfl

theorem memset_eq_store {p : UInt32} {c : UInt8} (hn : n < 2 ^ 32) :
    memset m p c n = store m p (List.replicate n c) := by
  induction n generalizing m p with
  | zero => rfl
  | succ n ih =>
    rw [memset, ih (by omega), store_store8 m p c, List.replicate_succ]
    rw [List.length_replicate]
    omega

/-- The TSS after `cstart`: the stack segment of ring 0, and no I/O permissions. -/
structure TssReady (m : Bytes) (tss : UInt32) : Prop where
  ss0 : load32 m (tss + 8) = SELECTOR_KERNEL_DS.toUInt32
  iobase : load16 m (tss + 102) = 104
  zero : ∀ c : UInt32, c.toNat < 102 → 4 ≤ (c - 8).toNat → m (tss + c) = 0

theorem setTss_eq (h : HasEntries K.toAddresses m 4) :
    Changes K.toAddresses [.tss, .gdt] m (setTss K.toAddresses m) ∧
      HasEntries K.toAddresses (setTss K.toAddresses m) 5 ∧
      TssReady (setTss K.toAddresses m) K.tss := by
  obtain ⟨m₁, h₁⟩ : ∃ m₁, m₁ = store m K.tss (List.replicate SIZEOF_TSS 0) := ⟨_, rfl⟩
  obtain ⟨m₂, h₂⟩ : ∃ m₂, m₂ = store32 m₁ (K.tss + 8) SELECTOR_KERNEL_DS.toUInt32 := ⟨_, rfl⟩
  obtain ⟨m₃, h₃⟩ : ∃ m₃, m₃ =
      initDescriptor m₂ (K.gdt + 8 * UInt32.ofNat 4) K.tss 103 DA_386TSS := ⟨_, rfl⟩
  have c₁ : Changes K.toAddresses [.tss] m m₁ := by
    refine changes_of_keeps (x := .tss) (c := 0) (l := SIZEOF_TSS) ?_ (by decide)
    rw [add_zero, h₁]
    exact keeps_store m K.tss (by decide)
  have k₂ : Keeps m₁ m₂ (K.tss + 8) 4 := h₂ ▸ keeps_store32 m₁ (K.tss + 8) _
  have c₂ : Changes K.toAddresses [.tss] m₁ m₂ := changes_of_keeps (x := .tss) k₂ (by decide)
  have c₃ : Changes K.toAddresses [.gdt] m₂ m₃ := h₃ ▸ changes_initDescriptor (by decide)
  have hentries₂ := (h.congr (by decide) c₁ (by decide)).congr (by decide) c₂ (by decide)
  have hentries₃ : HasEntries K.toAddresses m₃ 5 := h₃ ▸ hentries₂.next (by decide) (by decide) rfl
  have hlast : setTss K.toAddresses m = store16 m₃ (K.tss + 102) 104 := by
    rw [setTss, memset_eq_store (by decide), ← h₁, ← h₂, hentries₂.kernelPhys (by decide), h₃]
    rfl
  have k₄ := keeps_store16 m₃ (K.tss + 102) 104
  have c₄ : Changes K.toAddresses [.tss] m₃ (store16 m₃ (K.tss + 102) 104) :=
    changes_of_keeps (x := .tss) k₄ (by decide)
  have a₃ : Agrees m₂ m₃ K.tss SIZEOF_TSS := c₃.agrees (y := .tss) (by decide)
  rw [hlast]
  refine ⟨(((c₁.trans c₂).trans c₃).trans c₄).mono (by decide),
    hentries₃.congr (by decide) c₄ (by decide), ?_⟩
  constructor
  case ss0 =>
    rw [k₄.load32 (by decide) (by decide), a₃.load32 (by decide) (by decide), h₂]
    exact load32_store32 m₁ (K.tss + 8) _
  case iobase => exact load16_store16 m₃ (K.tss + 102) 104
  case zero =>
    intro c hc hfar
    have hlow : 2 ≤ (c - 102).toNat := by
      rw [UInt32.toNat_sub, show (102 : UInt32).toNat = 102 from rfl]
      omega
    have hlt : c.toNat < SIZEOF_TSS := Nat.lt_trans hc (by decide)
    rw [k₄.byte hlow, a₃ c hlt, k₂.byte hfar, h₁, store_add,
      List.getD_eq_getElem _ _ (by rw [List.length_replicate]; exact hlt), List.getElem_replicate]

/-- The loop over the LDTs. -/
theorem setLdts_eq (h : HasEntries K.toAddresses m 5) :
    Changes K.toAddresses [.gdt] m (setLdts K.toAddresses m) ∧
      HasEntries K.toAddresses (setLdts K.toAddresses m) 8 := by
  have hloop : Changes K.toAddresses [.gdt] m (setLdts K.toAddresses m) ∧
      HasEntries K.toAddresses (setLdts K.toAddresses m) (5 + MAX_THREAD) ∧
      (forUpto (setLdt K.toAddresses) MAX_THREAD (m, (5 : UInt16) <<< 3)).2 =
        ldtSelector MAX_THREAD := by
    refine forUpto_induct (n := MAX_THREAD) (fun i (s : Bytes × UInt16) =>
      Changes K.toAddresses [.gdt] m s.1 ∧ HasEntries K.toAddresses s.1 (5 + i) ∧
        s.2 = ldtSelector i) ⟨fun _ _ => rfl, h, rfl⟩ ?_
    rintro i ⟨m', sel⟩ hi ⟨hchanges, hentries, hsel⟩
    dsimp only at hchanges hentries hsel
    have hindex : ∀ i, i < MAX_THREAD →
        (8 : UInt32) * (ldtSelector i >>> 3).toUInt32.toInt32.toUInt32 =
            8 * UInt32.ofNat (5 + i) ∧
          ldtSelector i + (1 : UInt16) <<< 3 = ldtSelector (i + 1) := by decide
    have htable := gdtTable_ldt K.toAddresses hi
    rw [show MAX_THREAD = 3 from rfl] at hi
    have hbody : setLdt K.toAddresses i (m', sel) =
        (initDescriptor m' (K.gdt + 8 * UInt32.ofNat (5 + i)) (K.pcb i + 74) 15 DA_LDT,
          ldtSelector (i + 1)) := by
      obtain ⟨hslot, hnext⟩ := hindex i hi
      rw [setLdt, hentries.kernelPhys (by omega), hsel, hnext, entry, hslot]
      rfl
    rw [hbody]
    exact ⟨(hchanges.trans (changes_initDescriptor (by omega))).mono (by decide),
      hentries.next (by omega) (by decide) htable, rfl⟩
  exact ⟨hloop.1, hloop.2.1⟩

end Gdt

/-! ## The IDT -/

section Idt

variable {m m' : Bytes} {i j : UInt8}

/-- A gate of the IDT. -/
def gateAt (K : Addresses) (m : Bytes) (j : UInt8) : Gate :=
  (GATE.load m (K.idt + 8 * j.toUInt32)).gate

theorem setIdtPtr_eq (K : Image) (m : Bytes) :
    Changes K.toAddresses [.idtPtr] m (setIdtPtr K.toAddresses m) ∧
      TableRegister.load (setIdtPtr K.toAddresses m) K.idtPtr = ⟨2047, K.idt⟩ := by
  obtain ⟨m₁, h₁⟩ : ∃ m₁, m₁ = store16 m K.idtPtr (256 * 8 - 1) := ⟨_, rfl⟩
  have k₁ : Keeps m m₁ (K.idtPtr + 0) 2 := by
    rw [add_zero, h₁]
    exact keeps_store16 m K.idtPtr _
  have k₂ := keeps_store32 m₁ (K.idtPtr + 2) K.idt
  have hlast : setIdtPtr K.toAddresses m = store32 m₁ (K.idtPtr + 2) K.idt := by
    rw [setIdtPtr, ← h₁]
  have hlimit : load16 (store32 m₁ (K.idtPtr + 2) K.idt) (K.idtPtr + 0) = 2047 := by
    rw [k₂.load16 (by decide) (by decide), add_zero, h₁]
    exact load16_store16 m K.idtPtr _
  rw [add_zero] at hlimit
  rw [hlast]
  refine ⟨((changes_of_keeps (x := .idtPtr) k₁ (by decide)).trans
    (changes_of_keeps (x := .idtPtr) k₂ (by decide))).mono (by decide), ?_⟩
  rw [TableRegister.load, hlimit, load32_store32]
  rfl

theorem offset_pieces (handler : UInt32) :
    (handler &&& 0xFFFF).toUInt16.toUInt32 |||
      ((handler >>> 16) &&& 0xFFFF).toUInt16.toUInt32 <<< 16 = handler := by
  refine UInt32.eq_of_toBitVec_eq (BitVec.eq_of_getElem_eq fun i hi => ?_)
  interval_cases i <;> simp [-UInt32.toUInt32_toUInt16]

theorem toNat_gate (j : UInt8) : (8 * j.toUInt32).toNat = 8 * j.toNat := by
  have hlt := j.toNat_lt
  rw [UInt32.toNat_mul, UInt8.toNat_toUInt32, show (8 : UInt32).toNat = 8 from rfl,
    Nat.mod_eq_of_lt (by omega)]

/-- `init_idt_desc` writes the gate of its vector, but for `always0`. -/
theorem initIdtDesc_eq (K : Image) (m : Bytes) (i desc_type privilege : UInt8)
    (handler : UInt32) :
    let p := K.idt + 8 * i.toUInt32
    let m' := initIdtDesc K.toAddresses m i desc_type handler privilege
    Keeps m m' p 8 ∧ m' (p + 4) = m (p + 4) ∧
      (GATE.load m' p).gate = ⟨handler, SELECTOR_KERNEL_CS, desc_type ||| privilege <<< 5⟩ := by
  dsimp only
  obtain ⟨p, hp⟩ : ∃ p, p = K.idt + 8 * i.toUInt32 := ⟨_, rfl⟩
  rw [initIdtDesc, ← hp]
  obtain ⟨m₁, h₁⟩ : ∃ m₁, m₁ = store16 m p (handler &&& 0xFFFF).toUInt16 := ⟨_, rfl⟩
  obtain ⟨m₂, h₂⟩ : ∃ m₂, m₂ = store16 m₁ (p + 2) SELECTOR_KERNEL_CS := ⟨_, rfl⟩
  obtain ⟨m₃, h₃⟩ : ∃ m₃, m₃ = store16 m₂ (p + 6) ((handler >>> 16) &&& 0xFFFF).toUInt16 :=
    ⟨_, rfl⟩
  obtain ⟨m₄, h₄⟩ : ∃ m₄, m₄ = store8 m₃ (p + 5) (desc_type ||| privilege <<< 5) := ⟨_, rfl⟩
  have k₁ : Keeps m m₁ (p + 0) 2 := by
    rw [add_zero, h₁]
    exact keeps_store16 m p _
  have k₂ : Keeps m₁ m₂ (p + 2) 2 := h₂ ▸ keeps_store16 m₁ (p + 2) _
  have k₃ : Keeps m₂ m₃ (p + 6) 2 := h₃ ▸ keeps_store16 m₂ (p + 6) _
  have k₄ : Keeps m₃ m₄ (p + 5) 1 := h₄ ▸ keeps_store8 m₃ (p + 5) _
  have hlow : load16 m₄ (p + 0) = (handler &&& 0xFFFF).toUInt16 := by
    rw [k₄.load16 (by decide) (by decide), k₃.load16 (by decide) (by decide),
      k₂.load16 (by decide) (by decide), add_zero, h₁]
    exact load16_store16 m p _
  have hsel : load16 m₄ (p + 2) = SELECTOR_KERNEL_CS := by
    rw [k₄.load16 (by decide) (by decide), k₃.load16 (by decide) (by decide), h₂]
    exact load16_store16 m₁ (p + 2) _
  have hhigh : load16 m₄ (p + 6) = ((handler >>> 16) &&& 0xFFFF).toUInt16 := by
    rw [k₄.load16 (by decide) (by decide), h₃]
    exact load16_store16 m₂ (p + 6) _
  have hflags : m₄ (p + 5) = desc_type ||| privilege <<< 5 := by
    rw [h₄]
    exact if_pos rfl
  rw [add_zero] at hlow
  rw [← h₁, ← h₂, ← h₃, ← h₄]
  refine ⟨?_, ?_, ?_⟩
  · exact (((k₁.within (by decide)).trans (k₂.within (by decide))).trans
      (k₃.within (by decide))).trans (k₄.within (by decide))
  · rw [k₄.byte (by decide), k₃.byte (by decide), k₂.byte (by decide), k₁.byte (by decide)]
  · rw [GATE.load, GATE.gate, hlow, hsel, hhigh, hflags]
    exact congrArg (Gate.mk · _ _) (offset_pieces handler)

/-- The gates of the other vectors. -/
theorem initIdtDesc_agrees (K : Image) (m : Bytes) (desc_type privilege : UInt8)
    (handler : UInt32) (hne : j ≠ i) :
    Agrees m (initIdtDesc K.toAddresses m i desc_type handler privilege)
      (K.idt + 8 * j.toUInt32) 8 := by
  have hi := i.toNat_lt
  have hj := j.toNat_lt
  obtain ⟨hdist, hwrap⟩ := slot_distance (i := i.toUInt32) (j := j.toUInt32)
    (by rw [UInt8.toNat_toUInt32]; omega) (by rw [UInt8.toNat_toUInt32]; omega) fun h => hne (by
      have hnat := congrArg UInt32.toNat h
      rw [UInt8.toNat_toUInt32, UInt8.toNat_toUInt32] at hnat
      exact UInt8.toNat_inj.mp hnat)
  exact (initIdtDesc_eq K m i desc_type privilege handler).1.agrees_add hdist hwrap

theorem gate_congr {p : UInt32} (h : Agrees m m' p 8) : GATE.load m' p = GATE.load m p := by
  have hfirst := h.load16 (d := 0) (by decide) (by decide)
  rw [add_zero] at hfirst
  rw [GATE.load, GATE.load, hfirst, h.load16 (d := 2) (by decide) (by decide),
    h.load16 (d := 6) (by decide) (by decide), h 4 (by decide), h 5 (by decide)]

/-- After the calls of a list: a gate is the one of its last call, and the other bytes
are as before. -/
theorem initIdtDescs_eq (K : Image) (m : Bytes) (calls : List (UInt8 × Isr × UInt8)) :
    let m' := calls.foldl (fun m g =>
      initIdtDesc K.toAddresses m g.1 DA_386IGate (K.isr g.2.1) g.2.2) m
    Changes K.toAddresses [.idt] m m' ∧
      ∀ j, m' (K.idt + 8 * j.toUInt32 + 4) = m (K.idt + 8 * j.toUInt32 + 4) ∧
        match lastValue calls j with
        | some (isr, privilege) => gateAt K.toAddresses m' j =
            ⟨K.isr isr, SELECTOR_KERNEL_CS, DA_386IGate ||| privilege <<< 5⟩
        | none => GATE.load m' (K.idt + 8 * j.toUInt32) = GATE.load m (K.idt + 8 * j.toUInt32) := by
  dsimp only
  induction calls using List.reverseRecOn with
  | nil => exact ⟨fun _ _ => rfl, fun j => ⟨rfl, rfl⟩⟩
  | append_singleton calls g ih =>
    obtain ⟨hchanges, hgates⟩ := ih
    obtain ⟨v, isr, privilege⟩ := g
    rw [List.foldl_append, List.foldl_cons, List.foldl_nil]
    obtain ⟨m', hm'⟩ : ∃ m', m' = calls.foldl (fun m g =>
      initIdtDesc K.toAddresses m g.1 DA_386IGate (K.isr g.2.1) g.2.2) m := ⟨_, rfl⟩
    rw [← hm'] at hchanges hgates ⊢
    obtain ⟨hkeeps, hzero, hgate⟩ := initIdtDesc_eq K m' v DA_386IGate privilege (K.isr isr)
    have hsize : (8 * v.toUInt32).toNat + 8 ≤ Table.idt.size := by
      have hlt := v.toNat_lt
      rw [toNat_gate, Table.size]
      omega
    refine ⟨(hchanges.trans (changes_of_keeps (x := .idt) hkeeps hsize)).mono (by decide),
      fun j => ?_⟩
    obtain ⟨hbyte, hlast⟩ := hgates j
    rw [lastValue_append_singleton]
    by_cases heq : j = v
    · subst heq
      rw [if_pos rfl]
      exact ⟨hzero.trans hbyte, hgate⟩
    · have hsame := initIdtDesc_agrees K m' DA_386IGate privilege (K.isr isr) heq
      rw [if_neg heq]
      refine ⟨(hsame 4 (by decide)).trans hbyte, ?_⟩
      rw [gateAt, gate_congr hsame]
      exact hlast

end Idt

/-! ## The whole of `cstart` -/

section Started

variable {K : Image} {m : Bytes}

/-- The parts of `cstart`, one after the other. -/
structure Parts (K : Image) (m : Bytes) : Prop where
  changes : Changes K.toAddresses [.gdtPtr, .gdt, .idtPtr, .idt, .tss] m (cstart K.toAddresses m)
  entries : HasEntries K.toAddresses (cstart K.toAddresses m) 8
  gdtr : TableRegister.load (cstart K.toAddresses m) K.gdtPtr = ⟨1023, K.gdt⟩
  tss : TssReady (cstart K.toAddresses m) K.tss
  idtr : TableRegister.load (cstart K.toAddresses m) K.idtPtr = ⟨2047, K.idt⟩
  gates : ∀ j, cstart K.toAddresses m (K.idt + 8 * j.toUInt32 + 4) =
      m (K.idt + 8 * j.toUInt32 + 4) ∧
    match lastValue gateCalls j with
    | some (isr, privilege) => gateAt K.toAddresses (cstart K.toAddresses m) j =
        ⟨K.isr isr, SELECTOR_KERNEL_CS, DA_386IGate ||| privilege <<< 5⟩
    | none => GATE.load (cstart K.toAddresses m) (K.idt + 8 * j.toUInt32) =
        GATE.load m (K.idt + 8 * j.toUInt32)

theorem register_congr {m' : Bytes} {p : UInt32} (h : Agrees m m' p 6) :
    TableRegister.load m' p = TableRegister.load m p := by
  have hfirst := h.load16 (d := 0) (by decide) (by decide)
  rw [add_zero] at hfirst
  rw [TableRegister.load, TableRegister.load, hfirst, h.load32 (d := 2) (by decide) (by decide)]

theorem TssReady.congr {m' : Bytes} {p : UInt32} (h : TssReady m p)
    (hm : Agrees m m' p SIZEOF_TSS) : TssReady m' p where
  ss0 := (hm.load32 (by decide) (by decide)).trans h.ss0
  iobase := (hm.load16 (by decide) (by decide)).trans h.iobase
  zero c hc hfar := (hm c (Nat.lt_trans hc (by decide))).trans (h.zero c hc hfar)

theorem parts_cstart (h : Booted K.toAddresses m) : Parts K m := by
  obtain ⟨c₁, hentries₁, hgdtr₁⟩ := reloadGdt_eq h
  obtain ⟨c₂, hentries₂, htss₂⟩ := setTss_eq hentries₁
  obtain ⟨c₃, hentries₃⟩ := setLdts_eq hentries₂
  obtain ⟨c₄, hidtr₄⟩ := setIdtPtr_eq K (setLdts K.toAddresses (setTss K.toAddresses
    (reloadGdt K.toAddresses m)))
  obtain ⟨c₅, hgates₅⟩ := initIdtDescs_eq K (setIdtPtr K.toAddresses (setLdts K.toAddresses
    (setTss K.toAddresses (reloadGdt K.toAddresses m)))) gateCalls
  have before : Changes K.toAddresses [.gdtPtr, .gdt, .idtPtr, .tss] m (setIdtPtr K.toAddresses
      (setLdts K.toAddresses (setTss K.toAddresses (reloadGdt K.toAddresses m)))) :=
    (((c₁.trans c₂).trans c₃).trans c₄).mono (by decide)
  have hidt := before.agrees (y := .idt) (by decide)
  have hgate : ∀ j : UInt8, (8 * j.toUInt32).toNat + 8 ≤ Table.idt.size := by
    intro j
    have hlt := j.toNat_lt
    rw [toNat_gate, Table.size]
    omega
  constructor
  case changes => exact (before.trans c₅).mono (by decide)
  case entries =>
    exact (hentries₃.congr (by decide) c₄ (by decide)).congr (by decide) c₅ (by decide)
  case gdtr =>
    have hlater := ((c₂.trans c₃).trans c₄).trans c₅
    exact (register_congr (hlater.agrees (y := .gdtPtr) (by decide))).trans hgdtr₁
  case tss =>
    exact htss₂.congr (((c₃.trans c₄).trans c₅).agrees (y := .tss) (by decide))
  case idtr => exact (register_congr (c₅.agrees (y := .idtPtr) (by decide))).trans hidtr₄
  case gates =>
    intro j
    obtain ⟨hbyte, hgates⟩ := hgates₅ j
    have hslot := hidt.part (d := 8 * j.toUInt32) (l := 8) (hgate j) (by decide)
    have hsame : GATE.load (setIdtPtr K.toAddresses (setLdts K.toAddresses
        (setTss K.toAddresses (reloadGdt K.toAddresses m)))) (K.idt + 8 * j.toUInt32) =
          GATE.load m (K.idt + 8 * j.toUInt32) := gate_congr hslot
    rw [hsame] at hgates
    exact ⟨hbyte.trans (hslot 4 (by decide)), hgates⟩

/-- The memory at the first `restart`, from that at the entry of `kmain`. -/
def started (K : Addresses) (m : Bytes) : Bytes := (fillPcbs K.toKernel m).memory

/-- The loop of `kmain` changes the PCBs alone. -/
theorem changes_fillPcbs (K : Image) (m : Bytes) :
    Changes K.toAddresses [.procTable] m (fillPcbs K.toKernel m).memory :=
  fun a ha => (rounds_fillPcbs K.toKernel m).keeps a
    (Nat.le_trans (by decide) (ha .procTable (List.mem_singleton.mpr rfl)))

/-- A selector within the limit. -/
theorem descriptor_eq {t : TableRegister} {sel : UInt16} {p : UInt32}
    (hlimit : (sel ||| 7).toNat ≤ t.limit.toNat) (hp : t.base + (sel &&& 0xFFF8).toUInt32 = p) :
    t.descriptor m sel = some (DESCRIPTOR.load m p) := by
  rw [TableRegister.descriptor, if_pos hlimit, hp]

/-- A selector of the GDT. -/
theorem descriptor_gdt {t : TableRegister} (sel : UInt16) (j : Nat)
    (d : UInt32 × UInt32 × UInt16) (ht : t = ⟨1023, K.gdt⟩)
    (hentries : HasEntries K.toAddresses m 8) (hj : j < 8)
    (hd : (gdtTable K.toAddresses)[j]? = some d) (hlimit : (sel ||| 7).toNat ≤ 1023)
    (hsel : (sel &&& 0xFFF8).toUInt32 = 8 * UInt32.ofNat j) :
    (t.descriptor m sel).map unmarkedEntry = some (described d) := by
  rw [ht, descriptor_eq (t := ⟨1023, K.gdt⟩) hlimit (congrArg (K.gdt + ·) hsel)]
  exact congrArg some (hentries j hj d hd)

/-- The descriptor of an LDT has no such bit. -/
theorem eq_of_unmarkedEntry_ldt {e : DESCRIPTOR} {base limit : UInt32}
    (h : unmarkedEntry e = described (base, limit, DA_LDT)) :
    e = described (base, limit, DA_LDT) := by
  have htype : unmarked e.attr1 = DA_LDT.toUInt8 := congrArg DESCRIPTOR.attr1 h
  have hall : ∀ n : Fin 256, unmarked (UInt8.ofNat n.val) = DA_LDT.toUInt8 →
      UInt8.ofNat n.val = DA_LDT.toUInt8 := by decide +kernel
  have hattr := hall ⟨e.attr1.toNat, e.attr1.toNat_lt⟩
  rw [UInt8.ofNat_toNat] at hattr
  calc
    e = { unmarkedEntry e with attr1 := e.attr1 } := rfl
    _ = described (base, limit, DA_LDT) := by rw [h, hattr htype]; rfl

/-- What the selectors stand for. -/
structure SegmentsReady (K : Addresses) (gdtr : TableRegister) (m : Bytes) : Prop where
  code : (segment m gdtr 0 SELECTOR_KERNEL_CS).map unmarkedEntry =
    some (described (0, 0xFFFFF, 0xC09A))
  data : (segment m gdtr 0 SELECTOR_KERNEL_DS).map unmarkedEntry =
    some (described (0, 0xFFFFF, 0xC092))
  /-- The operand of `ltr`. -/
  tss : (segment m gdtr 0 0x20).map unmarkedEntry = some (described (K.tss, 103, DA_386TSS))
  tssReady : TssReady m K.tss
  /-- The operand of `lldt` in `restart`: the table in the task's own PCB. -/
  ldt : ∀ i, i < MAX_THREAD →
    segment m gdtr 0 (load16 m (K.pcb i + 72)) = some (described (K.pcb i + 74, 15, DA_LDT))
  /-- The selectors that `restart` loads with the task's own LDT. -/
  taskCs : ∀ i, i < MAX_THREAD →
    segment m gdtr (load16 m (K.pcb i + 72)) (savedOuter m (K.pcb i)).cs =
      some (described (0, 0xFFFFF, 0xC0B8))
  taskDs : ∀ i, i < MAX_THREAD → ∀ sel, sel ∈ [(savedOuter m (K.pcb i)).ds,
      (savedOuter m (K.pcb i)).es, (savedOuter m (K.pcb i)).fs, (savedOuter m (K.pcb i)).ss] →
    segment m gdtr (load16 m (K.pcb i + 72)) sel = some (described (0, 0xFFFFF, 0xC0B2))
  taskGs : ∀ i, i < MAX_THREAD →
    (segment m gdtr (load16 m (K.pcb i + 72)) (savedOuter m (K.pcb i)).gs).map unmarkedEntry =
      some (described (0xB8000, 0xFFFF, 0xF2))

section Tasks

variable {gdtr : TableRegister} {i : Nat}

/-- A descriptor of a task's LDT. -/
theorem segment_ldt {sel : UInt16} {c : UInt32} {d : DESCRIPTOR}
    (hldt : gdtr.descriptor m (ldtSelector i) = some (described (K.pcb i + 74, 15, DA_LDT)))
    (hsel : sel &&& 4 ≠ 0) (hlimit : (sel ||| 7).toNat ≤ 15)
    (hc : 74 + (sel &&& 0xFFF8).toUInt32 = c) (hd : DESCRIPTOR.load m (K.pcb i + c) = d) :
    segment m gdtr (ldtSelector i) sel = some d := by
  have hle : (sel ||| 7).toNat ≤ ((15 : UInt32) &&& 0xFFFFF).toNat := by
    rw [show ((15 : UInt32) &&& 0xFFFFF).toNat = 15 by decide]
    exact hlimit
  rw [segment, if_neg hsel, hldt, Option.bind_some, segmentBase_described, limit_described,
    descriptor_eq (t := ⟨_, _⟩) hle (p := K.pcb i + c) (by rw [add_assoc, hc]), hd]

end Tasks

/-- From whatever memory the loader hands over, and whatever bits the processor sets: at
the first `restart` the kernel's selectors and those of the three tasks stand for flat
segments, those of the tasks with ring 1, the LDT of each task is the one in its PCB, and
the task register names the TSS. -/
theorem segments_ready (K : Image) (m m' : Bytes) (h : Booted K.toAddresses m)
    (hmarked : Marked K.toAddresses (cstart K.toAddresses m) m') :
    SegmentsReady K.toAddresses (TableRegister.load (cstart K.toAddresses m) K.gdtPtr)
      (started K.toAddresses m') := by
  have hparts := parts_cstart h
  have hfill := changes_fillPcbs K m'
  have hcopied := hmarked.hasEntries (by decide) hparts.entries
  have hentries := hcopied.congr (by decide) hfill (by decide)
  have hfilled := (rounds_fillPcbs K.toKernel m').filled
  have hgdt := fun (sel : UInt16) (j : Nat) (d : UInt32 × UInt32 × UInt16) =>
    descriptor_gdt sel j d hparts.gdtr hentries
  have hindex : ∀ i, i < MAX_THREAD → (ldtSelector i ||| 7).toNat ≤ 1023 ∧
      (ldtSelector i &&& 0xFFF8).toUInt32 = 8 * UInt32.ofNat (5 + i) ∧
        ldtSelector i &&& 4 = 0 := by decide
  have hldt : ∀ i, i < MAX_THREAD →
      (TableRegister.load (cstart K.toAddresses m) K.gdtPtr).descriptor (started K.toAddresses m')
        (ldtSelector i) = some (described (K.pcb i + 74, 15, DA_LDT)) := by
    intro i hi
    obtain ⟨hlimit, hsel, _⟩ := hindex i hi
    obtain ⟨e, he, hunmarked⟩ := Option.map_eq_some_iff.mp (hgdt _ (5 + i) _
      (Nat.add_lt_add_left hi 5) (gdtTable_ldt K.toAddresses hi) hlimit hsel)
    rw [started, he, eq_of_unmarkedEntry_ldt hunmarked]
  have hsel : ∀ i, i < MAX_THREAD →
      load16 (started K.toAddresses m') (K.pcb i + 72) = ldtSelector i :=
    fun i hi => (hfilled i hi).ldtSel
  -- the descriptors of the loader that the loop of `kmain` copies
  have hcode : unmarkedEntry (DESCRIPTOR.load m' (K.gdt + 8)) =
      described (0, 0xFFFFF, 0xC09A) := hcopied 1 (by decide) _ rfl
  have hdata : unmarkedEntry (DESCRIPTOR.load m' (K.gdt + 16)) =
      described (0, 0xFFFFF, 0xC092) := hcopied 2 (by decide) _ rfl
  constructor
  case code => exact hgdt _ 1 _ (by decide) rfl (by decide) (by decide)
  case data => exact hgdt _ 2 _ (by decide) rfl (by decide) (by decide)
  case tss => exact hgdt _ 4 _ (by decide) rfl (by decide) (by decide)
  case tssReady =>
    exact hparts.tss.congr ((hmarked.changes.trans hfill).agrees (y := .tss) (by decide))
  case ldt =>
    intro i hi
    rw [hsel i hi, segment, if_pos (hindex i hi).2.2]
    exact hldt i hi
  case taskCs =>
    intro i hi
    have hcs : (savedOuter (started K.toAddresses m') (K.pcb i)).cs = taskCs.toUInt16 :=
      congrArg Registers.cs (hfilled i hi).registers
    rw [hsel i hi, hcs]
    refine segment_ldt (hldt i hi) (by decide) (by decide) rfl ?_
    exact (hfilled i hi).code.trans (congrArg (fun d => { d with attr1 := codeAttr }) hcode)
  case taskDs =>
    intro i hi sel hmem
    have hregs : savedOuter (started K.toAddresses m') (K.pcb i) = _ := (hfilled i hi).registers
    rw [hregs] at hmem
    have hds : sel = taskDs.toUInt16 := by
      simpa using hmem
    rw [hsel i hi, hds]
    refine segment_ldt (hldt i hi) (by decide) (by decide) rfl ?_
    exact (hfilled i hi).data.trans (congrArg (fun d => { d with attr1 := dataAttr }) hdata)
  case taskGs =>
    intro i hi
    have hgs : (savedOuter (started K.toAddresses m') (K.pcb i)).gs = taskGs.toUInt16 :=
      congrArg Registers.gs (hfilled i hi).registers
    rw [hgs, segment, if_pos (by decide)]
    exact hgdt _ 3 _ (by decide) rfl (by decide) (by decide)

/-- The vectors of `init_prot` are different, so each gate is the one of its call. -/
theorem lastValue_gateCalls : ∀ g ∈ gateCalls, lastValue gateCalls g.1 = some g.2 := by
  decide +kernel

/-- The gates after `cstart`. -/
theorem gate_started {m' : Bytes} (h : Booted K.toAddresses m)
    (hmarked : Marked K.toAddresses (cstart K.toAddresses m) m')
    {g : UInt8 × Isr × UInt8} {flags : UInt8} (hg : g ∈ gateCalls)
    (hflags : DA_386IGate ||| g.2.2 <<< 5 = flags) :
    (TableRegister.load (cstart K.toAddresses m) K.idtPtr).gate (started K.toAddresses m') g.1 =
      some ⟨K.isr g.2.1, SELECTOR_KERNEL_CS, flags⟩ := by
  have hparts := parts_cstart h
  have hidt := (hmarked.changes.trans (changes_fillPcbs K m')).agrees (y := .idt) (by decide)
  have hlt := g.1.toNat_lt
  have hslot := hidt.part (d := 8 * g.1.toUInt32) (l := 8)
    (by rw [toNat_gate, Table.size]; omega) (by decide)
  have hgate := (hparts.gates g.1).2
  rw [lastValue_gateCalls g hg] at hgate
  have hlimit : 8 * g.1.toNat + 7 ≤ (2047 : UInt32).toNat := by
    rw [show (2047 : UInt32).toNat = 2047 from rfl]
    omega
  rw [TableRegister.gate, hparts.idtr, if_pos hlimit, ← hflags]
  exact congrArg some ((congrArg GATE.gate (gate_congr hslot)).trans hgate)

/-- From whatever memory the loader hands over, whatever bits the processor sets, and
whatever is registered, enabled and disabled later: an interrupt line comes at a vector
whose gate leads to the line's own routine, and the exceptions lead to theirs, both with
the privilege of the kernel; a system call may come from every ring.  No other gate
changes, nor does `always0` of any. -/
theorem gates_ready (K : Image) (m m₁ : Bytes) (irqs : Irq.Irqs) (calls : List Irq.Call)
    (h : Booted K.toAddresses m) (hmarked : Marked K.toAddresses (cstart K.toAddresses m) m₁) :
    let idtr := TableRegister.load (cstart K.toAddresses m) K.idtPtr
    let m' := started K.toAddresses m₁
    let pics := (calls.foldl Irq.Call.run (Irq.init8259A irqs)).pics
    (∀ irq, idtr.gate m' (UInt8.ofBitVec (pics.vector irq)) =
        some ⟨K.isr (.hwint irq), SELECTOR_KERNEL_CS, 0x8E⟩) ∧
      (∀ g ∈ exceptionGates, idtr.gate m' g.1 = some ⟨K.isr g.2, SELECTOR_KERNEL_CS, 0x8E⟩) ∧
      idtr.gate m' 0x90 = some ⟨K.isr .sysCall, SELECTOR_KERNEL_CS, 0xEE⟩ ∧
      (∀ v, v ∉ gateCalls.map Prod.fst →
        GATE.load m' (K.idt + 8 * v.toUInt32) = GATE.load m (K.idt + 8 * v.toUInt32)) ∧
      ∀ v : UInt8, m' (K.idt + 8 * v.toUInt32 + 4) = m (K.idt + 8 * v.toUInt32 + 4) := by
  have hparts := parts_cstart h
  have hidt := (hmarked.changes.trans (changes_fillPcbs K m₁)).agrees (y := .idt) (by decide)
  have hslot : ∀ v : UInt8, Agrees (cstart K.toAddresses m) (started K.toAddresses m₁)
      (K.idt + 8 * v.toUInt32) 8 := by
    intro v
    have hlt := v.toNat_lt
    exact hidt.part (by rw [toNat_gate, Table.size]; omega) (by decide)
  obtain ⟨hready, _, hvector, _⟩ := Irq.init8259A_eq irqs
  obtain ⟨_, _, hvector'⟩ := Irq.pics_foldl hready calls
  have hirq : ∀ irq : Fin 16, (0x20 + UInt8.ofNat irq.val, Isr.hwint irq, (0 : UInt8)) ∈ gateCalls ∧
      UInt8.ofBitVec (0x20 + BitVec.ofNat 8 irq.val) = 0x20 + UInt8.ofNat irq.val := by
    decide +kernel
  have hkernel : DA_386IGate ||| (0 : UInt8) <<< 5 = 0x8E := by decide
  refine ⟨fun irq => ?_, fun g hg => ?_, ?_, fun v hv => ?_, fun v => ?_⟩
  · obtain ⟨hmem, heq⟩ := hirq irq
    rw [hvector', hvector, heq]
    exact gate_started h hmarked hmem hkernel
  · refine gate_started (g := (g.1, g.2, 0)) h hmarked ?_ hkernel
    exact List.mem_append_left _ (List.mem_map_of_mem (List.mem_append_left _ hg))
  · exact gate_started (g := (0x90, .sysCall, 3)) h hmarked (by decide +kernel) (by decide)
  · have hnone : lastValue gateCalls v = none := by
      rw [lastValue, Option.map_eq_none_iff, List.find?_eq_none]
      intro g hg heq
      exact hv (List.mem_map.mpr ⟨g, List.mem_reverse.mp hg, by simpa using heq⟩)
    have hgate := (hparts.gates v).2
    rw [hnone] at hgate
    exact (gate_congr (hslot v)).trans hgate
  · exact (hslot v 4 (by decide)).trans (hparts.gates v).1

/-- The words that an exception puts on the stack. -/
theorem exception_words (error eflags cs eip : UInt32) :
    ∀ g ∈ exceptionGates,
      [eflags, cs, eip] ++ (if pushesErrorCode g.1 then [error] else []) ++ g.2.pushes =
        [eflags, cs, eip, if pushesErrorCode g.1 then error else 0xFFFFFFFF, g.1.toUInt32] := by
  have hpushes : ∀ g ∈ exceptionGates,
      g.2.pushes = (if pushesErrorCode g.1 then [] else [0xFFFFFFFF]) ++ [g.1.toUInt32] := by
    decide
  intro g hg
  rw [hpushes g hg]
  split_ifs <;> rfl

/-- The arguments of `exception_handler`: the vector, the error code or `0xFFFFFFFF`, and
where the exception came from. -/
theorem exception_arguments (s : Stack) (eflags cs eip error : UInt32) {g : UInt8 × Isr}
    (hg : g ∈ exceptionGates) (hroom : 20 ≤ s.esp.toNat) :
    let s' := exceptionStack s eflags cs eip error g
    s'.esp = s.esp - 20 ∧ load32 s'.memory s'.esp = g.1.toUInt32 ∧
      load32 s'.memory (s'.esp + 4) = (if pushesErrorCode g.1 then error else 0xFFFFFFFF) ∧
      load32 s'.memory (s'.esp + 8) = eip ∧ load32 s'.memory (s'.esp + 12) = cs ∧
      load32 s'.memory (s'.esp + 16) = eflags := by
  dsimp only
  rw [exceptionStack, exception_words error eflags cs eip g hg]
  obtain ⟨ws, hws⟩ : ∃ ws, ws =
    [eflags, cs, eip, if pushesErrorCode g.1 then error else 0xFFFFFFFF, g.1.toUInt32] := ⟨_, rfl⟩
  have hlen : ws.length = 5 := congrArg List.length hws
  have hnat : (s.pushAll ws).esp.toNat = s.esp.toNat - 4 * ws.length :=
    Stack.toNat_pushAll (by omega)
  rw [← hws]
  have hesp : (s.pushAll ws).esp = s.esp - 20 := by
    rw [← UInt32.toNat_inj, hnat, hlen]
    exact (toNat_sub_of_le hroom).symm
  have hword : ∀ (k : Nat) (c : UInt32) (w : UInt32), ws[k]? = some w → k < 5 →
      c.toNat + 4 * (k + 1) = 20 → load32 (s.pushAll ws).memory ((s.pushAll ws).esp + c) = w := by
    intro k c w hk hlt hc
    have hsp := s.esp.toNat_lt
    refine Stack.load32_pushAll hk (by omega) ?_
    rw [UInt32.toNat_add, hnat, hlen, Nat.mod_eq_of_lt (by omega)]
    omega
  have hlast := hword 4 0 g.1.toUInt32 (by rw [hws]; rfl) (by decide) rfl
  rw [add_zero] at hlast
  exact ⟨hesp, hlast, hword 3 4 _ (by rw [hws]; rfl) (by decide) rfl,
    hword 2 8 _ (by rw [hws]; rfl) (by decide) rfl,
    hword 1 12 _ (by rw [hws]; rfl) (by decide) rfl,
    hword 0 16 _ (by rw [hws]; rfl) (by decide) rfl⟩

/-- The sample kernel with its other tables. -/
def sampleImage : Image where
  toKernel := sampleKernel
  gdtPtr := 0x33400
  idtPtr := 0x33410
  idt := 0x33800
  tss := 0x33420
  isr
    | .hwint irq => 0x30A00 + 16 * UInt32.ofNat irq.val
    | isr => 0x30800 + 16 * UInt32.ofNat isr.ctorIdx
  table_le x := by cases x <;> decide
  table_apart x y h := by cases x <;> cases y <;> first | exact absurd rfl h | decide

/-- The memory at the entry of that kernel, but for the loader and the code: the loader
has loaded its three segments. -/
def sampleBoot : Bytes :=
  store (store32 (store16 (fun _ => 0) 0x33400 31) 0x33402 0x90300) 0x90300
    (loaderGdt.mapIdx fun k b => if k = 13 ∨ k = 21 ∨ k = 29 then b ||| 1 else b)

/-- At the entry of its `kmain`: `ltr` has set the busy bit. -/
def sampleLtr : Bytes :=
  store8 (cstart sampleImage.toAddresses sampleBoot) (sampleImage.gdt + 37) 0x8B

theorem booted_sample : Booted sampleImage.toAddresses sampleBoot := by
  constructor <;> decide +kernel

theorem marked_sample :
    Marked sampleImage.toAddresses (cstart sampleImage.toAddresses sampleBoot) sampleLtr := by
  constructor
  case types =>
    intro j hj
    by_cases heq : j = 4
    · subst heq
      decide +kernel
    · refine congrArg unmarked (store8_of_ne _ _ fun h => heq ?_)
      have hnat := congrArg UInt32.toNat (add_left_cancel h)
      rw [toNat_type hj, show (37 : UInt32).toNat = 37 from rfl] at hnat
      omega
  case others => exact fun a ha => store8_of_ne _ _ (ha 4 (by decide))

theorem segments_ready_sample :
    SegmentsReady sampleImage.toAddresses
      (TableRegister.load (cstart sampleImage.toAddresses sampleBoot) 0x33400)
      (started sampleImage.toAddresses sampleLtr) :=
  segments_ready sampleImage sampleBoot sampleLtr booted_sample marked_sample

/-- The keyboard's line. -/
theorem gates_ready_sample :
    (TableRegister.load (cstart sampleImage.toAddresses sampleBoot) 0x33410).gate
        (started sampleImage.toAddresses sampleLtr)
        (UInt8.ofBitVec ((Irq.init8259A sampleIrqs).pics.vector 1)) =
      some ⟨sampleImage.isr (.hwint 1), SELECTOR_KERNEL_CS, 0x8E⟩ :=
  (gates_ready sampleImage sampleBoot sampleLtr sampleIrqs [] booted_sample marked_sample).1 1

end Started

end Context

end Legacy

end BbnOS
