import BbnOS.Mem.Machine

/-!
# The page tables of `mem.c`

A page table is an array of 512 entries in one page of the memory, and an
entry is one 64-bit word with the bit fields of `PageDirEntry`.
`pageTableManagerMapMemory` descends through three levels of tables and stores
an entry in the fourth.  `getNextPageTable` is one step of the descent: it
follows a present entry, and puts a new table behind one that is not present.

`translate` is the walk of the processor.  It is written from the meaning of
the tables and not from the code, and is what the builder is compared with.
-/

namespace BbnOS

open ByteMemory

/-- `PageDirEntry` of `mem.h`. -/
@[ext]
structure PageDirEntry where
  present : Bool
  readWrite : Bool
  userSuper : Bool
  writeThrough : Bool
  cacheDisabled : Bool
  accessed : Bool
  ignoreZero : Bool
  largerPages : Bool
  ignoreOne : Bool
  available : BitVec 3
  address : BitVec 52
  deriving DecidableEq

namespace PageDirEntry

/-- The fields of a word, from the lowest bit up. -/
def ofWord (w : UInt64) : PageDirEntry where
  present := w.toBitVec.getLsbD 0
  readWrite := w.toBitVec.getLsbD 1
  userSuper := w.toBitVec.getLsbD 2
  writeThrough := w.toBitVec.getLsbD 3
  cacheDisabled := w.toBitVec.getLsbD 4
  accessed := w.toBitVec.getLsbD 5
  ignoreZero := w.toBitVec.getLsbD 6
  largerPages := w.toBitVec.getLsbD 7
  ignoreOne := w.toBitVec.getLsbD 8
  available := w.toBitVec.extractLsb' 9 3
  address := w.toBitVec.extractLsb' 12 52

/-- The word of an entry. -/
def toWord (e : PageDirEntry) : UInt64 :=
  UInt64.ofBitVec (e.address ++ e.available ++ BitVec.ofBool e.ignoreOne ++
    BitVec.ofBool e.largerPages ++ BitVec.ofBool e.ignoreZero ++ BitVec.ofBool e.accessed ++
    BitVec.ofBool e.cacheDisabled ++ BitVec.ofBool e.writeThrough ++ BitVec.ofBool e.userSuper ++
    BitVec.ofBool e.readWrite ++ BitVec.ofBool e.present)

private theorem getLsbD_append_ofBool_zero {n : Nat} (x : BitVec n) (b : Bool) :
    (x ++ BitVec.ofBool b).getLsbD 0 = b := by
  rw [BitVec.getLsbD_append, if_pos (by decide)]
  cases b <;> rfl

private theorem getLsbD_append_ofBool_succ {n : Nat} (x : BitVec n) (b : Bool) (i : Nat) :
    (x ++ BitVec.ofBool b).getLsbD (i + 1) = x.getLsbD i := by
  rw [BitVec.getLsbD_append, if_neg (by omega)]
  rfl

/-- An entry reads back from its word. -/
@[simp] theorem ofWord_toWord (e : PageDirEntry) : ofWord e.toWord = e := by
  ext i hi
  case available =>
    simp only [ofWord, toWord, BitVec.getElem_extractLsb', Nat.add_comm 9 i,
      getLsbD_append_ofBool_succ]
    rw [BitVec.getLsbD_append, if_pos hi, BitVec.getLsbD_eq_getElem]
  case address =>
    simp only [ofWord, toWord, BitVec.getElem_extractLsb', Nat.add_comm 12 i,
      getLsbD_append_ofBool_succ]
    rw [BitVec.getLsbD_append, if_neg (by omega), Nat.add_sub_cancel, BitVec.getLsbD_eq_getElem]
  all_goals simp only [ofWord, toWord, getLsbD_append_ofBool_zero, getLsbD_append_ofBool_succ]

/-- The entry at an address. -/
def read (ram : ByteMemory) (pde : UInt64) : PageDirEntry :=
  ofWord (ram.read64 pde)

/-- Store an entry. -/
def write (ram : ByteMemory) (pde : UInt64) (e : PageDirEntry) : ByteMemory :=
  ram.write64 pde e.toWord

/-- `(uint64_t)pde->Address << 12`. -/
def target (e : PageDirEntry) : UInt64 :=
  UInt64.ofBitVec (e.address.setWidth 64) <<< 12

/-- The stores `Address = (uint64_t)addr >> 12`, `Present = 1` and
`ReadWrite = 1`. -/
def mapTo (e : PageDirEntry) (addr : UInt64) : PageDirEntry :=
  { e with
    address := (addr >>> 12).toBitVec.setWidth 52
    present := true
    readWrite := true }

end PageDirEntry

/-- The address of entry `index` of a page table. -/
def entryAddr (pt index : UInt64) : UInt64 := pt + index * 8

/-- `PageMapIndexer` of `mem.h`. -/
structure PageMapIndexer where
  pdpI : UInt64
  pdI : UInt64
  ptI : UInt64
  pI : UInt64
  deriving DecidableEq

/-- `initPageMapIndexer`. -/
def initPageMapIndexer (virtualAddress : UInt64) : PageMapIndexer :=
  let virtualAddress := virtualAddress >>> 12
  let pI := virtualAddress &&& 0x1ff
  let virtualAddress := virtualAddress >>> 9
  let ptI := virtualAddress &&& 0x1ff
  let virtualAddress := virtualAddress >>> 9
  let pdI := virtualAddress &&& 0x1ff
  let virtualAddress := virtualAddress >>> 9
  let pdpI := virtualAddress &&& 0x1ff
  { pdpI := pdpI, pdI := pdI, ptI := ptI, pI := pI }

/-- `PageTableManager` of `mem.h`. -/
structure PageTableManager where
  pml4 : UInt64

/-- `initPageTableManager`. -/
def initPageTableManager (pml4Addr : UInt64) : PageTableManager := { pml4 := pml4Addr }

/-- `memset`. -/
def memset (dst : UInt64) (value : UInt8) (count : UInt64) (s : Machine) : Machine :=
  { s with ram := s.ram.fill dst count.toNat value }

/-- `getNextPageTable`. -/
def getNextPageTable (pde : UInt64) (s : Machine) : UInt64 × Machine :=
  let e := PageDirEntry.read s.ram pde
  if e.present then (e.target, s)
  else
    let (retPt, s) := s.requestPage
    let s := memset retPt 0 0x1000 s
    let e := PageDirEntry.read s.ram pde
    (retPt, { s with ram := PageDirEntry.write s.ram pde (e.mapTo retPt) })

/-- `pageTableManagerMapMemory`. -/
def pageTableManagerMapMemory (ptm : PageTableManager) (virtMem physMem : UInt64) (s : Machine) :
    Machine :=
  let indexer := initPageMapIndexer virtMem
  let (pdp, s) := getNextPageTable (entryAddr ptm.pml4 indexer.pdpI) s
  let (pd, s) := getNextPageTable (entryAddr pdp indexer.pdI) s
  let (pt, s) := getNextPageTable (entryAddr pd indexer.ptI) s
  let pde := PageDirEntry.read s.ram (entryAddr pt indexer.pI)
  { s with ram := PageDirEntry.write s.ram (entryAddr pt indexer.pI) (pde.mapTo physMem) }

/-! ## The walk of the processor -/

/-- The nine bits of an address from bit `lo` up. -/
def indexBits (a : UInt64) (lo : Nat) : Fin 512 :=
  ⟨a.toNat / 2 ^ lo % 512, Nat.mod_lt _ (by decide)⟩

/-- Entry `i` of the page table at an address, if it is present. -/
def presentEntry (ram : ByteMemory) (pt : UInt64) (i : Fin 512) : Option PageDirEntry :=
  let e := PageDirEntry.read ram (entryAddr pt (UInt64.ofNat i))
  if e.present then some e else none

/-- The four-level walk: the entry of the last level that maps an address. -/
def translate (ram : ByteMemory) (pml4 a : UInt64) : Option PageDirEntry := do
  let pml4e ← presentEntry ram pml4 (indexBits a 39)
  let pdpe ← presentEntry ram pml4e.target (indexBits a 30)
  let pde ← presentEntry ram pdpe.target (indexBits a 21)
  presentEntry ram pde.target (indexBits a 12)

end BbnOS
