import BbnOS.Lib.ByteMemory

/-!
# Loading the kernel file from a floppy disk

The part of `loader.asm` that loads the kernel: `LABEL_KERNEL_FOUND`, with the
directory entry of the file in memory, and the loop
`LABEL_GOON_LOADING_FILE`, which reads one cluster and asks `GetFATEntry` for
the next one.

The BIOS is not part of the repository.  `int13` stands for its disk service:
the bytes that it reads, or `none` when it sets the carry flag however often
`ReadSector` repeats the request.  The functions answer `none` where the source
does not go on: in that loop, and at a quotient that its register cannot hold.

The stack and the variables of the loader, which lie outside the memory it
loads to, are the fields of `LoaderState`.  `reads` is a history variable: the
clusters read so far, as the sector and the address that it was read to.
-/

namespace BbnOS

namespace Legacy

open ByteMemory

/-! ## The constants of `fat12hdr.inc` and `load.inc` -/

def BPB_BytesPerSec : UInt16 := 512

def BPB_SecPerTrk : UInt8 := 18

def BS_DrvNum : UInt8 := 0

def RootDirSectors : UInt16 := 14

def SectorNoOfFAT1 : UInt16 := 1

def DeltaSectorNo : UInt16 := 17

def BaseOfKernelFile : UInt16 := 0x8000

def OffsetOfKernelFile : UInt16 := 0

/-- The physical address of `seg:off` in real mode. -/
def physAddr (seg off : UInt16) : UInt64 := seg.toUInt64 * 16 + off.toUInt64

/-! ## Reading sectors -/

/-- The registers of INT 13h, function 2. -/
structure DiskRequest where
  count : UInt8
  cylinder : UInt8
  sector : UInt8
  head : UInt8
  drive : UInt8
  deriving DecidableEq

/-- `ReadSector`: `cl` sectors from sector `ax` on, to `es:bx`. -/
def readSector (int13 : DiskRequest → Option (List UInt8)) (ax : UInt16) (cl : UInt8)
    (es bx : UInt16) (ram : ByteMemory) : Option ByteMemory :=
  let quotient := ax / BPB_SecPerTrk.toUInt16
  let remainder := ax % BPB_SecPerTrk.toUInt16
  -- `div bl` leaves the quotient in `al`
  if quotient > 255 then none
  else
    let y := quotient.toUInt8
    let request :=
      { count := cl, cylinder := y >>> 1, sector := remainder.toUInt8 + 1, head := y &&& 1,
        drive := BS_DrvNum }
    (int13 request).map fun data => ram.store (physAddr es bx) data

/-- `GetFATEntry`: the entry of cluster `ax`, from two sectors of the first FAT. -/
def getFATEntry (int13 : DiskRequest → Option (List UInt8)) (ax : UInt16) (ram : ByteMemory) :
    Option (UInt16 × ByteMemory) :=
  let es := BaseOfKernelFile - 0x100
  let product := ax.toUInt32 * 3
  -- the second `div bx` leaves the quotient in `ax`
  if product / 2 > 0xffff then none
  else
    let odd := product % 2 = 1
    let offset := (product / 2).toUInt16
    let sector := offset / BPB_BytesPerSec + SectorNoOfFAT1
    (readSector int13 sector 2 es 0 ram).map fun ram =>
      let word := UInt16.ofNat (ram.readLE (physAddr es (offset % BPB_BytesPerSec)) 2)
      let word := if odd then word >>> 4 else word
      (word &&& 0xfff, ram)

/-! ## The loop -/

/-- The state at `LABEL_GOON_LOADING_FILE`: the memory, the sector to read in
`ax`, the cluster on the stack, the offset in `bx`, and the history. -/
structure LoaderState where
  ram : ByteMemory
  ax : UInt16
  cluster : UInt16
  bx : UInt16
  kernelSize : UInt32
  reads : List (UInt16 × UInt64)

namespace LoaderState

/-- `LABEL_KERNEL_FOUND`, with `di` behind the file name in the directory entry. -/
def kernelFound (ram : ByteMemory) (di : UInt16) : LoaderState :=
  let di := di &&& 0xffe0
  let cx := UInt16.ofNat (ram.readLE (physAddr BaseOfKernelFile (di + 0x1a)) 2)
  { ram := ram
    ax := cx + RootDirSectors + DeltaSectorNo
    cluster := cx
    bx := OffsetOfKernelFile
    kernelSize := ram.read32 (physAddr BaseOfKernelFile (di + 0x1c))
    reads := [] }

/-- One round of the loop: it reads the cluster and its entry in the FAT. -/
def readCluster (int13 : DiskRequest → Option (List UInt8)) (s : LoaderState) :
    Option (UInt16 × LoaderState) :=
  (readSector int13 s.ax 1 BaseOfKernelFile s.bx s.ram).bind fun ram =>
    (getFATEntry int13 s.cluster ram).map fun (entry, ram) =>
      (entry,
        { s with ram := ram, reads := s.reads ++ [(s.ax, physAddr BaseOfKernelFile s.bx)] })

/-- The registers for the next round. -/
def advance (entry : UInt16) (s : LoaderState) : LoaderState :=
  { s with
    ax := entry + RootDirSectors + DeltaSectorNo
    cluster := entry
    bx := s.bx + BPB_BytesPerSec }

/-- `LABEL_GOON_LOADING_FILE`, for at most `fuel` rounds. -/
def goonLoadingFile (int13 : DiskRequest → Option (List UInt8)) :
    Nat → LoaderState → Option LoaderState
  | 0, _ => none
  | fuel + 1, s =>
    (s.readCluster int13).bind fun (entry, s) =>
      if entry = 0xfff then some s else goonLoadingFile int13 fuel (s.advance entry)

end LoaderState

end Legacy

end BbnOS
