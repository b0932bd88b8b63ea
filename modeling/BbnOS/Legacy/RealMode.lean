import BbnOS.Legacy.ClusterChain

/-!
# Real mode

The registers, the stack and the variables of `boot.asm` and `loader.asm`, and the
routine `ReadSector`, which both have.  The two programs differ in where they load their
file and in its name.

The stack and the variables lie outside the memory that the programs load to.  `bp` is
the frame pointer of `ReadSector`, which saves it, and is left out.  INT 13h keeps all
registers but `ax`.  `loads` is a history of the addresses that the programs read
through `es`.
-/

namespace BbnOS

namespace Legacy

namespace RealMode

open ByteMemory

/-! ## The machine -/

/-- The low half of a register. -/
def lo (w : UInt16) : UInt8 := w.toUInt8

/-- The high half of a register. -/
def hi (w : UInt16) : UInt8 := (w >>> 8).toUInt8

/-- A register from its halves. -/
def word (h l : UInt8) : UInt16 := h.toUInt16 * 256 + l.toUInt16

structure Machine where
  ax : UInt16
  bx : UInt16
  cx : UInt16
  dx : UInt16
  si : UInt16
  di : UInt16
  es : UInt16
  stack : List UInt16
  bOdd : UInt8
  wSectorNo : UInt16
  wRootDirSizeForLoop : UInt16
  ram : ByteMemory
  loads : List UInt64

namespace Machine

def push (w : UInt16) (s : Machine) : Machine := { s with stack := w :: s.stack }

/-- `pop`: the word on top of the stack. -/
def pop (s : Machine) : Option (UInt16 × Machine) :=
  match s.stack with
  | [] => none
  | w :: stack => some (w, { s with stack := stack })

/-- `mul` by a word: the product is in `dx:ax`. -/
def mulWord (w : UInt16) (s : Machine) : Machine :=
  let product := s.ax.toUInt32 * w.toUInt32
  { s with ax := product.toUInt16, dx := (product >>> 16).toUInt16 }

/-- `div` by a word: the quotient of `dx:ax` is in `ax`, which has to hold it, and the
remainder in `dx`. -/
def divWord (w : UInt16) (s : Machine) : Option Machine :=
  let dividend := s.dx.toUInt32 * 0x10000 + s.ax.toUInt32
  if w = 0 ∨ dividend / w.toUInt32 > 0xffff then none
  else
    some { s with
      ax := (dividend / w.toUInt32).toUInt16
      dx := (dividend % w.toUInt32).toUInt16 }

/-- `div` by a byte: the quotient of `ax` is in `al`, and the remainder in `ah`. -/
def divByte (b : UInt8) (s : Machine) : Option Machine :=
  if b = 0 ∨ s.ax / b.toUInt16 > 255 then none
  else some { s with ax := word (s.ax % b.toUInt16).toUInt8 (s.ax / b.toUInt16).toUInt8 }

/-- `[es:off]`. -/
def address (s : Machine) (off : UInt16) : UInt64 := physAddr s.es off

/-- `mov ax, [es:off]`. -/
def loadWord (off : UInt16) (s : Machine) : Machine :=
  { s with
    ax := UInt16.ofNat (s.ram.readLE (s.address off) 2)
    loads := s.loads ++ [s.address off, s.address off + 1] }

/-- `GoOnReading`: INT 13h, function 2, until the carry flag is clear. -/
def goOnReading (int13 : DiskRequest → Option (List UInt8)) (count : UInt8) (s : Machine) :
    Option Machine :=
  let request :=
    { count := count, cylinder := hi s.cx, sector := lo s.cx, head := hi s.dx, drive := lo s.dx }
  (int13 request).map fun data =>
    { s with ax := word 0 count, ram := s.ram.store (s.address s.bx) data }

/-- `ReadSector`: `cl` sectors from sector `ax` on, to `es:bx`. -/
def readSector (int13 : DiskRequest → Option (List UInt8)) (s : Machine) : Option Machine := do
  let count := lo s.cx
  let s := s.push s.bx
  let s := { s with bx := word (hi s.bx) BPB_SecPerTrk }
  let s ← s.divByte (lo s.bx)
  let s := { s with ax := word (hi s.ax + 1) (lo s.ax) }
  let s := { s with cx := word (hi s.cx) (hi s.ax) }
  let s := { s with dx := word (lo s.ax) (lo s.dx) }
  let s := { s with ax := word (hi s.ax) (lo s.ax >>> 1) }
  let s := { s with cx := word (lo s.ax) (lo s.cx) }
  let s := { s with dx := word (hi s.dx &&& 1) (lo s.dx) }
  let (bx, s) ← s.pop
  let s := { s with bx := bx }
  let s := { s with dx := word (hi s.dx) BS_DrvNum }
  s.goOnReading int13 count

end Machine

/-! ## The two programs -/

/-- The two programs. -/
inductive Program where
  | boot
  | loader
  deriving DecidableEq

namespace Program

/-- `BaseOfLoader` and `BaseOfKernelFile`. -/
def base : Program → UInt16
  | boot => 0x9000
  | loader => BaseOfKernelFile

/-- `OffsetOfLoader` and `OffsetOfKernelFile`. -/
def offset : Program → UInt16
  | boot => 0x100
  | loader => OffsetOfKernelFile

/-- `LoaderFileName` and `KernelFileName`. -/
def fileName : Program → List UInt8
  | boot => "LOADER  BIN".toList.map Char.toUInt8
  | loader => "KERNEL  BIN".toList.map Char.toUInt8

end Program

/-! ## Addresses and halves of registers -/

theorem toUInt64_ofNat16 {k : Nat} (hk : k < 65536) :
    (UInt16.ofNat k).toUInt64 = UInt64.ofNat k := by
  rw [← UInt64.toNat_inj, UInt16.toNat_toUInt64, toNat_ofNat16 hk, ofNat_toNat_of_lt (by omega)]

/-- An address in a segment. -/
theorem physAddr_eq_add (seg off : UInt16) :
    physAddr seg off = physAddr seg 0 + off.toUInt64 := by
  rw [physAddr, physAddr]
  exact congrArg (· + _) (UInt64.add_zero _).symm

section Halves

variable (h l : UInt8)

theorem toNat_word : (word h l).toNat = h.toNat * 256 + l.toNat := by
  have hh := h.toNat_lt
  have hl := l.toNat_lt
  have hbyte : (256 : UInt16).toNat = 256 := rfl
  rw [word, UInt16.toNat_add, UInt16.toNat_mul, UInt8.toNat_toUInt16, UInt8.toNat_toUInt16, hbyte]
  omega

@[simp] theorem hi_word : hi (word h l) = h := by
  have hl := l.toNat_lt
  have hh := h.toNat_lt
  have height : (8 : UInt16).toNat % 16 = 8 := rfl
  rw [← UInt8.toNat_inj, hi, UInt16.toNat_toUInt8, UInt16.toNat_shiftRight, toNat_word, height,
    Nat.shiftRight_eq_div_pow]
  omega

@[simp] theorem lo_word : lo (word h l) = l := by
  have hl := l.toNat_lt
  rw [← UInt8.toNat_inj, lo, UInt16.toNat_toUInt8, toNat_word]
  omega

end Halves

/-- `ReadSector` asks the BIOS for the sectors, and stores them. -/
theorem Machine.readSector_eq (int13 : DiskRequest → Option (List UInt8)) (s : Machine) :
    s.readSector int13 = (Legacy.readSector int13 s.ax (lo s.cx) s.es s.bx s.ram).map fun ram =>
      { s with
        ax := word 0 (lo s.cx)
        cx := word ((s.ax / 18).toUInt8 >>> 1) ((s.ax % 18).toUInt8 + 1)
        dx := word ((s.ax / 18).toUInt8 &&& 1) 0
        ram := ram } := by
  have hbyte : BPB_SecPerTrk.toUInt16 = 18 := rfl
  have hdiv : ∀ t : Machine, t.divByte BPB_SecPerTrk = if t.ax / 18 > 255 then none
      else some { t with ax := word (t.ax % 18).toUInt8 (t.ax / 18).toUInt8 } := by
    intro t
    have hne : BPB_SecPerTrk ≠ 0 := by decide
    rw [divByte, hbyte]
    simp only [hne, false_or]
  simp only [readSector, Legacy.readSector, push, pop, lo_word, hdiv, hbyte]
  by_cases hlarge : s.ax / 18 > 255
  · simp only [hlarge, if_true]
    rfl
  · simp only [hlarge, if_false, Option.bind_eq_bind, Option.bind_some, hi_word, lo_word,
      goOnReading, Option.map_map]
    rfl

section Serve

variable {int13 : DiskRequest → Option (List UInt8)} {disk : Nat → Nat → UInt8}

/-- A read of `n` sectors of one track. -/
theorem Machine.readSector_of_serves (h : Serves int13 disk) {s : Machine} {lba n : Nat}
    (hax : s.ax = UInt16.ofNat lba) (hcl : lo s.cx = UInt8.ofNat n) (hn : 0 < n)
    (htrack : lba % 18 + n ≤ 18) (hdisk : lba + n ≤ 2880) :
    ∃ ax cx dx, s.readSector int13 = some { s with
      ax := ax
      cx := cx
      dx := dx
      ram := s.ram.store (s.address s.bx) (sectors disk lba n) } := by
  rw [readSector_eq, hax, hcl, Legacy.readSector_eq h hn htrack hdisk]
  exact ⟨_, _, _, rfl⟩

end Serve

end RealMode

end Legacy

end BbnOS
