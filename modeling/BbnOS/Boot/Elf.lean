import BbnOS.Lib.ByteMemory

/-!
# ELF64 files as the UEFI loader reads them

The two ELF structures that `efi_main` reads, decoded from the bytes at an
address, and the six checks that it makes of the file header.

`memcmp` is the loader's own.  `formatBad` is the condition under which the
loader prints that the format is bad, and `HeaderOk` is what the six checks
ask for; `formatBad_eq_false_iff` connects the two.
-/

namespace BbnOS

open ByteMemory

/-- A 16-bit little-endian field. -/
def read16 (m : ByteMemory) (a : UInt64) : UInt16 :=
  UInt16.ofNat (m.readLE a 2)

/-! ## The file header -/

/-- The fields of `Elf64_Ehdr` that the loader reads. -/
structure Elf64Ehdr where
  eIdent : List UInt8
  eType : UInt16
  eMachine : UInt16
  eVersion : UInt32
  eEntry : UInt64
  ePhoff : UInt64
  ePhentsize : UInt16
  ePhnum : UInt16
  deriving DecidableEq

namespace Elf64Ehdr

/-- `sizeof(Elf64_Ehdr)`. -/
def size : Nat := 64

/-- The header at an address. -/
def read (m : ByteMemory) (a : UInt64) : Elf64Ehdr where
  eIdent := (List.range 16).map fun i => m.bytes (a + UInt64.ofNat i)
  eType := read16 m (a + 16)
  eMachine := read16 m (a + 18)
  eVersion := m.read32 (a + 20)
  eEntry := m.read64 (a + 24)
  ePhoff := m.read64 (a + 32)
  ePhentsize := read16 m (a + 54)
  ePhnum := read16 m (a + 56)

/-- The header at the start of a list of bytes. -/
def ofList (l : List UInt8) : Elf64Ehdr := read (ofBytes l) 0

/-- The header depends on the first bytes of the list only. -/
theorem ofList_congr {l l' : List UInt8} (h : ∀ i, i < size → l'.getD i 0 = l.getD i 0) :
    ofList l' = ofList l := by
  have hbytes : ∀ i, i < size → (ofBytes l').bytes (0 + UInt64.ofNat i) =
      (ofBytes l).bytes (0 + UInt64.ofNat i) := by
    intro i hi
    have h64 : i < 2 ^ 64 := Nat.lt_of_lt_of_le hi (by decide)
    rw [zero_add, bytes_ofBytes_ofNat l' h64, bytes_ofBytes_ofNat l h64, h i hi]
  have hident : (List.range 16).map (fun i => (ofBytes l').bytes (0 + UInt64.ofNat i)) =
      (List.range 16).map fun i => (ofBytes l).bytes (0 + UInt64.ofNat i) := by
    apply List.map_congr_left
    intro i hi
    exact hbytes i (Nat.lt_trans (List.mem_range.mp hi) (by decide))
  have hfield : ∀ k n, k + n ≤ size → (ofBytes l').readLE (0 + UInt64.ofNat k) n =
      (ofBytes l).readLE (0 + UInt64.ofNat k) n :=
    fun k n hkn => readLE_congr_field hbytes hkn
  rw [ofList, ofList, read, read, hident]
  simp only [read16, read32, read64, show (16 : UInt64) = UInt64.ofNat 16 from rfl,
    show (18 : UInt64) = UInt64.ofNat 18 from rfl, show (20 : UInt64) = UInt64.ofNat 20 from rfl,
    show (24 : UInt64) = UInt64.ofNat 24 from rfl, show (32 : UInt64) = UInt64.ofNat 32 from rfl,
    show (54 : UInt64) = UInt64.ofNat 54 from rfl, show (56 : UInt64) = UInt64.ofNat 56 from rfl,
    hfield 16 2 (by decide), hfield 18 2 (by decide), hfield 20 4 (by decide),
    hfield 24 8 (by decide), hfield 32 8 (by decide), hfield 54 2 (by decide),
    hfield 56 2 (by decide)]

end Elf64Ehdr

/-! ## The program headers -/

/-- The fields of `Elf64_Phdr` that the loader reads. -/
structure Elf64Phdr where
  pType : UInt32
  pOffset : UInt64
  pPaddr : UInt64
  pFilesz : UInt64
  pMemsz : UInt64
  deriving DecidableEq

/-- The type of a loadable segment. -/
def PT_LOAD : UInt32 := 1

namespace Elf64Phdr

/-- `sizeof(Elf64_Phdr)`. -/
def size : Nat := 56

/-- The program header at an address. -/
def read (m : ByteMemory) (a : UInt64) : Elf64Phdr where
  pType := m.read32 a
  pOffset := m.read64 (a + 8)
  pPaddr := m.read64 (a + 24)
  pFilesz := m.read64 (a + 32)
  pMemsz := m.read64 (a + 40)

/-- The program header at the start of a list of bytes. -/
def ofList (l : List UInt8) : Elf64Phdr := read (ofBytes l) 0

/-- A program header depends on its own bytes only, wherever they are. -/
theorem read_congr_offset {m m' : ByteMemory} {a a' : UInt64}
    (h : ∀ i, i < size → m'.bytes (a' + UInt64.ofNat i) = m.bytes (a + UInt64.ofNat i)) :
    read m' a' = read m a := by
  have htype : m'.read32 a' = m.read32 a := by
    have h0 := readLE_congr_field h (show 0 + 4 ≤ size by decide)
    rw [show UInt64.ofNat 0 = 0 from rfl, add_zero, add_zero] at h0
    rw [read32, read32, h0]
  have hfield : ∀ k, k + 8 ≤ size →
      m'.read64 (a' + UInt64.ofNat k) = m.read64 (a + UInt64.ofNat k) := by
    intro k hk
    rw [read64, read64, readLE_congr_field h hk]
  rw [read, read, htype, show (8 : UInt64) = UInt64.ofNat 8 from rfl,
    show (24 : UInt64) = UInt64.ofNat 24 from rfl, show (32 : UInt64) = UInt64.ofNat 32 from rfl,
    show (40 : UInt64) = UInt64.ofNat 40 from rfl, hfield 8 (by decide), hfield 24 (by decide),
    hfield 32 (by decide), hfield 40 (by decide)]

/-- A program header in a memory that holds the bytes of a list. -/
theorem read_eq_ofList {m : ByteMemory} {a : UInt64} {l : List UInt8}
    (h : ∀ i, i < size → m.bytes (a + UInt64.ofNat i) = l.getD i 0) : read m a = ofList l := by
  apply read_congr_offset
  intro i hi
  rw [h i hi, zero_add, bytes_ofBytes_ofNat l (Nat.lt_of_lt_of_le hi (by decide))]

end Elf64Phdr

/-! ## The checks of the file header -/

/-- `memcmp` of `uefi_main.c`, on two regions of one size. -/
def memcmp : List UInt8 → List UInt8 → Int
  | l :: ls, r :: rs =>
    if l < r then -1
    else if l > r then 1
    else memcmp ls rs
  | _, _ => 0

/-- `memcmp` answers zero exactly on equal regions. -/
theorem memcmp_eq_zero_iff {l r : List UInt8} (h : l.length = r.length) :
    memcmp l r = 0 ↔ l = r := by
  induction l generalizing r with
  | nil =>
    have hr : r = [] := List.eq_nil_of_length_eq_zero h.symm
    subst hr
    simp [memcmp]
  | cons a l ih =>
    cases r with
    | nil => simp at h
    | cons b r =>
      have hlen : l.length = r.length := by simpa using h
      rw [memcmp]
      by_cases hlt : a < b
      · have hne : a ≠ b := UInt8.ne_of_lt hlt
        simp [hlt, hne]
      · by_cases hgt : a > b
        · have hne : a ≠ b := (UInt8.ne_of_lt hgt).symm
          simp [hlt, hgt, hne]
        · have heq : a = b := UInt8.le_antisymm (UInt8.not_lt.mp hgt) (UInt8.not_lt.mp hlt)
          simp [heq, ih hlen]

/-- `ELFMAG`. -/
def ELFMAG : List UInt8 := [0x7f, 0x45, 0x4c, 0x46]

/-- `ELFCLASS64`. -/
def ELFCLASS64 : UInt8 := 2

/-- `ELFDATA2LSB`. -/
def ELFDATA2LSB : UInt8 := 1

/-- `ET_EXEC`. -/
def ET_EXEC : UInt16 := 2

/-- `EM_X86_64`. -/
def EM_X86_64 : UInt16 := 62

/-- `EV_CURRENT`. -/
def EV_CURRENT : UInt32 := 1

namespace Elf64Ehdr

/-- The condition of the check in `efi_main`. -/
def formatBad (header : Elf64Ehdr) : Bool :=
  memcmp (header.eIdent.take 4) ELFMAG != 0 ||
    header.eIdent.getD 4 0 != ELFCLASS64 ||
    header.eIdent.getD 5 0 != ELFDATA2LSB || header.eType != ET_EXEC ||
    header.eMachine != EM_X86_64 || header.eVersion != EV_CURRENT

/-- The six header checks: magic, class, data, type, machine and version. -/
structure HeaderOk (header : Elf64Ehdr) : Prop where
  magic : header.eIdent.take 4 = ELFMAG
  class64 : header.eIdent.getD 4 0 = ELFCLASS64
  data : header.eIdent.getD 5 0 = ELFDATA2LSB
  type : header.eType = ET_EXEC
  machine : header.eMachine = EM_X86_64
  version : header.eVersion = EV_CURRENT

/-- The check of `efi_main` tests the six conditions. -/
theorem formatBad_eq_false_iff (m : ByteMemory) (a : UInt64) :
    (read m a).formatBad = false ↔ (read m a).HeaderOk := by
  have hmagic : memcmp ((read m a).eIdent.take 4) ELFMAG = 0 ↔
      (read m a).eIdent.take 4 = ELFMAG := by
    apply memcmp_eq_zero_iff
    simp [read, ELFMAG]
  simp only [formatBad, Bool.or_eq_false_iff, bne_eq_false_iff_eq, hmagic]
  constructor
  · rintro ⟨⟨⟨⟨⟨h1, h2⟩, h3⟩, h4⟩, h5⟩, h6⟩
    exact ⟨h1, h2, h3, h4, h5, h6⟩
  · intro h
    exact ⟨⟨⟨⟨⟨h.magic, h.class64⟩, h.data⟩, h.type⟩, h.machine⟩, h.version⟩

end Elf64Ehdr

end BbnOS
