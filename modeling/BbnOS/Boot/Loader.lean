import BbnOS.Boot.Elf
import BbnOS.Lib.Loop
import BbnOS.Mem.Machine

/-!
# The UEFI loader

`efi_main` of `uefi_main.c`: it opens `kernel.elf`, reads the file header and
the program headers, loads the segments, and calls the entry point.

The firmware is not part of the repository.  `Firmware` collects its answers:
the contents of the file, the status of each call, and how far each `Read`
gets.  Any combination of answers is allowed, and a `Read` may deliver fewer
bytes than it is asked for.

The functions answer `none` where C gives the program no meaning: a call
through a null pointer, a `GetInfo` that stores more than the variable it is
given has room for, and the `int` product `e_phnum * e_phentsize` when it
overflows.

Not modelled: the other local variables of `efi_main` as memory, the font, and
what is printed apart from the verdict on the format.
-/

namespace BbnOS

open ByteMemory Loop

namespace Uefi

/-! ## The firmware -/

/-- `EFI_SUCCESS`. -/
def EFI_SUCCESS : UInt64 := 0

/-- `EFI_ERROR`: the status is negative as a signed number. -/
def efiError (status : UInt64) : Bool := status ≥ 0x8000000000000000

/-- The answer to a `Read`: its status, and the number of bytes after which it
stops, if it stops early. -/
structure ReadAnswer where
  status : UInt64
  limit : Option Nat
  deriving DecidableEq

/-- The bytes that a `Read` of `size` bytes delivers. -/
def ReadAnswer.data (o : ReadAnswer) (file : List UInt8) (position size : UInt64) : List UInt8 :=
  (file.drop position.toNat).take (min size.toNat (o.limit.getD size.toNat))

/-- The `Read` succeeded and delivered all that it was asked for. -/
def ReadAnswer.Complete (o : ReadAnswer) (file : List UInt8) (position size : UInt64) : Prop :=
  o.status = EFI_SUCCESS ∧ (o.data file position size).length = size.toNat

/-- What the firmware answers. -/
structure Firmware where
  /-- The contents of `kernel.elf`. -/
  file : List UInt8
  /-- The pointer that `HandleProtocol` leaves in `LoadedImage`. -/
  loadedImage : UInt64
  /-- The result of `LibOpenRoot`. -/
  root : UInt64
  openStatus : UInt64
  /-- The pointer that `Open` leaves in `LoadedFile`. -/
  loadedFile : UInt64
  /-- The bytes that the first `GetInfo` stores at its null buffer. -/
  nullInfo : List UInt8
  /-- The bytes that the second `GetInfo` stores from `&FileInfo` up. -/
  fileInfo : List UInt8
  /-- The bytes that the variable `header` holds before it is read. -/
  stack : List UInt8
  readHeader : ReadAnswer
  seekTable : UInt64
  /-- The pointer that `AllocatePool` leaves in `phdrs`. -/
  phdrs : UInt64
  readTable : ReadAnswer
  /-- The status of `AllocatePages` in a round of the loop, for a number of
  pages and an address. -/
  allocatePages : Nat → UInt64 → UInt64 → UInt64
  seekSegment : Nat → UInt64
  readSegment : Nat → ReadAnswer
  locateProtocol : UInt64
  /-- The status of `GetMemoryMap` in a round of its loop. -/
  getMemoryMap : Nat → UInt64

/-- A segment that a round of the loop has loaded, with the answers it got. -/
structure Load where
  round : Nat
  phdr : Elf64Phdr
  allocated : UInt64
  seek : UInt64
  read : ReadAnswer
  data : List UInt8

/-- The memory, the file position of `Kernel`, and the segments loaded. -/
structure State where
  ram : ByteMemory
  position : UInt64
  loads : List Load

/-- `SetPosition`. -/
def setPosition (status position : UInt64) (s : State) : State :=
  if efiError status then s else { s with position := position }

/-- `Read` of `size` bytes to `buffer`. -/
def read (file : List UInt8) (o : ReadAnswer) (size buffer : UInt64) (s : State) : State :=
  let data := o.data file s.position size
  { s with
    ram := s.ram.store buffer data
    position := s.position + UInt64.ofNat data.length }

/-! ## Opening and reading the kernel -/

/-- `LoadFile` with a null directory. -/
def loadFile (fw : Firmware) : Option UInt64 :=
  -- the status of HandleProtocol is not looked at: LoadedImage->DeviceHandle
  if fw.loadedImage = NULL then none
  -- Directory->Open
  else if fw.root = NULL then none
  else if fw.openStatus ≠ EFI_SUCCESS then some NULL
  else some fw.loadedFile

/-- The variable `header` after it is read. -/
def headerOf (fw : Firmware) : Elf64Ehdr :=
  let data := fw.readHeader.data fw.file 0 (UInt64.ofNat Elf64Ehdr.size)
  .ofList (data ++ fw.stack.drop data.length)

/-- `e_phnum * e_phentsize`, a product of `int`. -/
def tableSize (header : Elf64Ehdr) : Option UInt64 :=
  let size := header.ePhnum.toNat * header.ePhentsize.toNat
  if size < 2 ^ 31 then some (UInt64.ofNat size) else none

/-- The number of rounds of the loop over the program headers: the multiples
of the stride below `e_phnum * e_phentsize`. -/
def rounds (header : Elf64Ehdr) : Nat :=
  if header.ePhentsize = 0 then 0 else header.ePhnum.toNat

/-- The value of `phdr` in a round of the loop. -/
def phdrAt (phdrs : UInt64) (header : Elf64Ehdr) (i : Nat) : UInt64 :=
  phdrs + UInt64.ofNat (i * header.ePhentsize.toNat)

/-- `int pages`, as it is passed to `AllocatePages`. -/
def pagesOf (memsz : UInt64) : UInt64 :=
  ((memsz + 0x1000 - 1) / 0x1000).toUInt32.toInt32.toInt64.toUInt64

/-- The record of a segment that a round of the loop loads. -/
def loadOf (fw : Firmware) (i : Nat) (phdr : Elf64Phdr) (s : State) : Load where
  round := i
  phdr := phdr
  allocated := fw.allocatePages i (pagesOf phdr.pMemsz) phdr.pPaddr
  seek := fw.seekSegment i
  read := fw.readSegment i
  data := (fw.readSegment i).data fw.file s.position phdr.pFilesz

/-- One round of the loop over the program headers.  The status of no call is
looked at. -/
def loadSegment (fw : Firmware) (header : Elf64Ehdr) (i : Nat) (s : State) : State :=
  let phdr := Elf64Phdr.read s.ram (phdrAt fw.phdrs header i)
  if phdr.pType = PT_LOAD then
    let s := setPosition (fw.seekSegment i) phdr.pOffset s
    let load := loadOf fw i phdr s
    let s := read fw.file (fw.readSegment i) phdr.pFilesz phdr.pPaddr s
    { s with loads := s.loads ++ [load] }
  else s

/-- The loop over the program headers. -/
def loadSegments (fw : Firmware) (header : Elf64Ehdr) : State → State :=
  forUpto (loadSegment fw header) (rounds header)

/-- The state before the loop: the program headers are read. -/
def readTable (fw : Firmware) (header : Elf64Ehdr) (size : UInt64) (ram : ByteMemory) : State :=
  let position :=
    UInt64.ofNat (fw.readHeader.data fw.file 0 (UInt64.ofNat Elf64Ehdr.size)).length
  let s := setPosition fw.seekTable header.ePhoff { ram := ram, position := position, loads := [] }
  read fw.file fw.readTable size fw.phdrs s

/-- The program headers are read and the segments loaded. -/
def loadProgram (fw : Firmware) (header : Elf64Ehdr) (ram : ByteMemory) : Option State :=
  (tableSize header).map fun size => loadSegments fw header (readTable fw header size ram)

end Uefi

end BbnOS
