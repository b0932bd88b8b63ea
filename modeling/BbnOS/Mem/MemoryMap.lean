import BbnOS.Mem.PageOps

/-!
# Reading the UEFI memory map

The firmware's memory map is an array of descriptors in memory, with a stride
that the firmware chooses.  `getMemSize` adds up the sizes of the regions, and
`readEFIMemoryMap` places the bitmap at the largest conventional region, locks
the pages of the bitmap, and reserves the pages of every region that is
neither conventional memory nor memory-mapped I/O.

The functions read the descriptors through pointers into the memory, as the
source does, so a store between two reads may change what is read.  They
answer `none` where the source does not return: in the endless loop of
`_descAddMemSize`, and at the division by a stride of zero.
-/

namespace BbnOS

open ByteMemory Loop

/-- `EFI_MEMORY_TYPE` of `efi_mem.h`. -/
inductive EfiMemoryType where
  | efiReservedMemoryType
  | efiLoaderCode
  | efiLoaderData
  | efiBootServicesCode
  | efiBootServicesData
  | efiRuntimeServicesCode
  | efiRuntimeServicesData
  | efiConventionalMemory
  | efiUnusableMemory
  | efiACPIReclaimMemory
  | efiACPIMemoryNVS
  | efiMemoryMappedIO
  | efiMemoryMappedIOPortSpace
  | efiPalCode
  | efiMaxMemoryType
  deriving DecidableEq

namespace EfiMemoryType

/-- The number of a memory type. -/
def code : EfiMemoryType → UInt32
  | efiReservedMemoryType => 0
  | efiLoaderCode => 1
  | efiLoaderData => 2
  | efiBootServicesCode => 3
  | efiBootServicesData => 4
  | efiRuntimeServicesCode => 5
  | efiRuntimeServicesData => 6
  | efiConventionalMemory => 7
  | efiUnusableMemory => 8
  | efiACPIReclaimMemory => 9
  | efiACPIMemoryNVS => 10
  | efiMemoryMappedIO => 11
  | efiMemoryMappedIOPortSpace => 12
  | efiPalCode => 13
  | efiMaxMemoryType => 14

end EfiMemoryType

open EfiMemoryType

/-- The fields of `EFI_MEMORY_DESCRIPTOR` that the kernel reads. -/
structure EfiMemoryDescriptor where
  type : UInt32
  physAddr : UInt64
  numPages : UInt64
  deriving DecidableEq

namespace EfiMemoryDescriptor

/-- The descriptor at an address: the type at offset 0, the physical address
at offset 8 and the number of pages at offset 24. -/
def read (ram : ByteMemory) (desc : UInt64) : EfiMemoryDescriptor where
  type := ram.read32 desc
  physAddr := ram.read64 (desc + 8)
  numPages := ram.read64 (desc + 24)

/-- `sizeof(EFI_MEMORY_DESCRIPTOR)`. -/
def size : Nat := 40

/-- Store a descriptor at an address. -/
def write (d : EfiMemoryDescriptor) (ram : ByteMemory) (desc : UInt64) : ByteMemory :=
  ((ram.writeLE desc 4 d.type.toNat).write64 (desc + 8) d.physAddr).write64 (desc + 24)
    d.numPages

/-- The guard of `_descReservePage`: the types whose pages get reserved. -/
def isReserved (d : EfiMemoryDescriptor) : Bool :=
  d.type != efiConventionalMemory.code && d.type != efiMemoryMappedIO.code &&
    d.type != efiMemoryMappedIOPortSpace.code

/-- `p` is a page of the region. -/
def HasPage (d : EfiMemoryDescriptor) (p : Nat) : Prop :=
  Covers d.physAddr d.numPages.toNat p

instance (d : EfiMemoryDescriptor) (p : Nat) : Decidable (d.HasPage p) :=
  inferInstanceAs (Decidable (Covers _ _ _))

end EfiMemoryDescriptor

/-- A stride that holds a descriptor is not zero. -/
theorem ne_zero_of_size_le {z : UInt64} (h : EfiMemoryDescriptor.size ≤ z.toNat) : z ≠ 0 := by
  intro heq
  subst heq
  exact absurd h (by decide)

/-- The address of descriptor `i` of the array. -/
def descAt (mmap mmapDescSize : UInt64) (i : Nat) : UInt64 :=
  mmap + UInt64.ofNat i * mmapDescSize

/-- The first `n` descriptors of the array. -/
def descriptors (ram : ByteMemory) (mmap mmapDescSize : UInt64) (n : Nat) :
    List EfiMemoryDescriptor :=
  (List.range n).map fun i => EfiMemoryDescriptor.read ram (descAt mmap mmapDescSize i)

/-- Store a map as an array of descriptors, as the firmware does before it
starts the kernel. -/
def storeMap (ram : ByteMemory) (mmap mmapDescSize : UInt64) :
    List EfiMemoryDescriptor → ByteMemory
  | [] => ram
  | d :: ds => d.write (storeMap ram (mmap + mmapDescSize) mmapDescSize ds) mmap

/-- A memory that holds nothing but a map, at 1 MiB and with a stride of 48. -/
def sampleRam : List EfiMemoryDescriptor → ByteMemory :=
  storeMap ⟨fun _ => 0⟩ 0x100000 48

namespace Machine

/-- `_descReservePage`. -/
def descReservePage (desc : UInt64) (s : Machine) : Option Machine :=
  let d := EfiMemoryDescriptor.read s.ram desc
  if d.isReserved then some (s.reservePages d.physAddr d.numPages) else some s

/-- `_descAddMemSize`, which does not return for a type above 15. -/
def descAddMemSize (desc : UInt64) (s : Machine) : Option Machine :=
  let d := EfiMemoryDescriptor.read s.ram desc
  if d.type > 15 then none
  else
    some { s with
      memInfo := { s.memInfo with
        memSizeBytes := s.memInfo.memSizeBytes + d.numPages * 4096 } }

/-- `_doForAllMMapDesc`. -/
def doForAllMMapDesc (mmap numMmapEntries mmapDescSize : UInt64)
    (func : UInt64 → Machine → Option Machine) : Machine → Option Machine :=
  forUpto? (fun i => func (descAt mmap mmapDescSize i)) numMmapEntries.toNat

/-- `getMemSize`. -/
def getMemSize (mmap numMmapEntries mmapDescSize : UInt64) (s : Machine) :
    Option (UInt64 × Machine) :=
  if s.memInfo.memSizeBytes > 0 then some (s.memInfo.memSizeBytes, s)
  else
    (doForAllMMapDesc mmap numMmapEntries mmapDescSize descAddMemSize s).map fun s =>
      (s.memInfo.memSizeBytes, s)

/-- `PGinitBitMap`. -/
def pgInitBitMap (size addr : UInt64) (s : Machine) : Machine :=
  { s with
    memInfo := { s.memInfo with memBitMap := { size := size, buffer := addr } }
    ram := forUpto (fun i ram => ram.write8 (addr + UInt64.ofNat i) 0) size.toNat s.ram }

end Machine

/-- One round of the loop in `readEFIMemoryMap` that looks for the largest
conventional region.  The pair is `largest_mem_seg` and `largest_mem_seg_size`. -/
def largerMemSeg (d : EfiMemoryDescriptor) (seg : UInt64 × UInt64) : UInt64 × UInt64 :=
  if d.type = efiConventionalMemory.code then
    if d.numPages * 4096 > seg.2 then (d.physAddr, d.numPages * 4096) else seg
  else seg

/-- The loop in `readEFIMemoryMap` that looks for the largest conventional
region, with its result `largest_mem_seg`. -/
def largestMemSeg (ram : ByteMemory) (mmap numMmapEntries mmapDescSize : UInt64) : UInt64 :=
  (forUpto (fun i => largerMemSeg (EfiMemoryDescriptor.read ram (descAt mmap mmapDescSize i)))
    numMmapEntries.toNat (NULL, 0)).1

namespace Machine

/-- The size of the bitmap for a memory size, in bytes. -/
def bitmapSizeOf (memSize : UInt64) : UInt64 := memSize / 4096 / 8 + 1

/-- `readEFIMemoryMap`. -/
def readEFIMemoryMap (mmap mmapSize mmapDescSize : UInt64) (s : Machine) : Option Machine :=
  if s.initialized then some s
  else if mmapDescSize = 0 then none
  else
    let s := { s with initialized := true }
    let numMmapEntries := mmapSize / mmapDescSize
    let seg := largestMemSeg s.ram mmap numMmapEntries mmapDescSize
    match getMemSize mmap numMmapEntries mmapDescSize s with
    | none => none
    | some (memSize, s) =>
      let s := { s with memInfo := { s.memInfo with freeMemory := memSize } }
      let s := pgInitBitMap (bitmapSizeOf memSize) seg s
      let s := s.lockPages s.memInfo.memBitMap.buffer (s.memInfo.memBitMap.size / 4096 + 1)
      -- reserve pages of unused/reserved memory
      doForAllMMapDesc mmap numMmapEntries mmapDescSize descReservePage s

/-- The state in which the kernel starts: every static of `mem.c` is zero. -/
def boot (ram : ByteMemory) : Machine where
  ram := ram
  memInfo :=
    { memBitMap := { size := 0, buffer := 0 }
      freeMemory := 0
      reservedMemory := 0
      usedMemory := 0
      memSizeBytes := 0 }
  initialized := false
  requested := []

/-- The states in which `readEFIMemoryMap` is called first: the initial one,
and the one after the call of `getMemSize` with which `kmain` begins. -/
inductive AtBoot (ram : ByteMemory) (mmap mmapSize mmapDescSize : UInt64) : Machine → Prop
  | initial : AtBoot ram mmap mmapSize mmapDescSize (boot ram)
  | sized {memSize : UInt64} {s : Machine}
      (h : getMemSize mmap (mmapSize / mmapDescSize) mmapDescSize (boot ram) =
        some (memSize, s)) :
      AtBoot ram mmap mmapSize mmapDescSize s

end Machine

/-! ## The map as a list of descriptors -/

/-- The descriptors of the map. -/
def mapOf (ram : ByteMemory) (mmap mmapSize mmapDescSize : UInt64) : List EfiMemoryDescriptor :=
  descriptors ram mmap mmapDescSize (mmapSize / mmapDescSize).toNat

/-- The sum of the region sizes, as `_descAddMemSize` adds them up. -/
def totalSize (ds : List EfiMemoryDescriptor) : UInt64 :=
  (ds.map fun d => d.numPages * 4096).sum

/-- The address at which `readEFIMemoryMap` places the bitmap. -/
def bitmapBase (ds : List EfiMemoryDescriptor) : UInt64 :=
  (ds.foldl (fun seg d => largerMemSeg d seg) (NULL, 0)).1

/-- The size of the bitmap in bytes. -/
def bitmapSize (ds : List EfiMemoryDescriptor) : UInt64 :=
  Machine.bitmapSizeOf (totalSize ds)

end BbnOS
