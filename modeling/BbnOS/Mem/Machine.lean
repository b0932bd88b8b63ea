import BbnOS.Bitmap
import BbnOS.Lib.Loop

/-!
# The page frame allocator of `mem.c`

The allocator keeps one bit per page in a bitmap that lives in the memory it
manages, and three byte counters.  `Machine` is its state: the memory and the
statics of `mem.c`.  The console output of the functions is not modelled.

`_ReservePage`, `_FreePage` and `_LockPage` are one function up to the value
they store and the counters they move, `changePage`.  `ReservePages`,
`freePages` and `lockPages` are its loop, `changePages`.

`requested` is a history variable: the addresses that `requestPage` has
returned so far.  No function reads it.
-/

namespace BbnOS

open Loop

/-- `MemDesc` of `mem.h`. -/
structure MemDesc where
  memBitMap : BitMap
  freeMemory : UInt64
  reservedMemory : UInt64
  usedMemory : UInt64
  memSizeBytes : UInt64
  deriving DecidableEq

/-- The memory, the statics of `mem.c`, and the history of `requestPage`. -/
structure Machine where
  ram : ByteMemory
  memInfo : MemDesc
  initialized : Bool
  requested : List UInt64

/-- The null pointer. -/
def NULL : UInt64 := 0

/-! ## One page -/

namespace MemDesc

/-- A page goes from the free to the reserved memory. -/
def reserve (m : MemDesc) : MemDesc :=
  { m with
    freeMemory := m.freeMemory - 4096
    reservedMemory := m.reservedMemory + 4096 }

/-- A page goes from the used to the free memory. -/
def free (m : MemDesc) : MemDesc :=
  { m with
    freeMemory := m.freeMemory + 4096
    usedMemory := m.usedMemory - 4096 }

/-- A page goes from the free to the used memory. -/
def lock (m : MemDesc) : MemDesc :=
  { m with
    freeMemory := m.freeMemory - 4096
    usedMemory := m.usedMemory + 4096 }

@[simp] theorem memBitMap_reserve (m : MemDesc) : m.reserve.memBitMap = m.memBitMap := by
  simp only [reserve]

@[simp] theorem memBitMap_free (m : MemDesc) : m.free.memBitMap = m.memBitMap := by
  simp only [free]

@[simp] theorem memBitMap_lock (m : MemDesc) : m.lock.memBitMap = m.memBitMap := by
  simp only [lock]

@[simp] theorem memSizeBytes_reserve (m : MemDesc) : m.reserve.memSizeBytes = m.memSizeBytes := by
  simp only [reserve]

@[simp] theorem memSizeBytes_free (m : MemDesc) : m.free.memSizeBytes = m.memSizeBytes := by
  simp only [free]

@[simp] theorem memSizeBytes_lock (m : MemDesc) : m.lock.memSizeBytes = m.memSizeBytes := by
  simp only [lock]

@[simp] theorem usedMemory_reserve (m : MemDesc) : m.reserve.usedMemory = m.usedMemory := by
  simp only [reserve]

@[simp] theorem usedMemory_lock (m : MemDesc) : m.lock.usedMemory = m.usedMemory + 4096 := by
  simp only [lock]

@[simp] theorem reservedMemory_free (m : MemDesc) : m.free.reservedMemory = m.reservedMemory := by
  simp only [free]

@[simp] theorem reservedMemory_lock (m : MemDesc) : m.lock.reservedMemory = m.reservedMemory := by
  simp only [lock]

end MemDesc

namespace Machine

/-- The common body of `_ReservePage`, `_FreePage` and `_LockPage`: nothing
when the bit of the page has the value already, else the bit is stored and the
counters move. -/
def changePage (value : Bool) (account : MemDesc → MemDesc) (addr : UInt64) (s : Machine) :
    Machine :=
  let index := addr / 4096
  if bitmapGetVal s.ram s.memInfo.memBitMap index = value then s
  else
    match bitmapSetVal s.ram s.memInfo.memBitMap index value with
    | (true, ram) => { s with ram := ram, memInfo := account s.memInfo }
    | (false, ram) => { s with ram := ram }

/-- `_ReservePage`. -/
def reservePage : UInt64 → Machine → Machine := changePage true MemDesc.reserve

/-- `_FreePage`. -/
def freePage : UInt64 → Machine → Machine := changePage false MemDesc.free

/-- `_LockPage`. -/
def lockPage : UInt64 → Machine → Machine := changePage true MemDesc.lock

/-! ## Ranges of pages -/

/-- The common loop of `ReservePages`, `freePages` and `lockPages`. -/
def changePages (page : UInt64 → Machine → Machine) (addr numPages : UInt64) :
    Machine → Machine :=
  forUpto (fun i => page (addr + UInt64.ofNat i * 4096)) numPages.toNat

/-- `ReservePages`. -/
def reservePages : UInt64 → UInt64 → Machine → Machine := changePages reservePage

/-- `freePages`. -/
def freePages : UInt64 → UInt64 → Machine → Machine := changePages freePage

/-- `lockPages`. -/
def lockPages : UInt64 → UInt64 → Machine → Machine := changePages lockPage

/-! ## Requesting a page -/

/-- The index at which the loop of `requestPage` leaves, if it does. -/
def firstClear (s : Machine) : Option Nat :=
  (List.range (s.memInfo.memBitMap.size * 8).toNat).find? fun index =>
    !bitmapGetVal s.ram s.memInfo.memBitMap (UInt64.ofNat index)

/-- `requestPage`. -/
def requestPage (s : Machine) : UInt64 × Machine :=
  match s.firstClear with
  | some index =>
    let addr := UInt64.ofNat index * 4096
    let s := lockPage addr s
    (addr, { s with requested := s.requested ++ [addr] })
  | none => (NULL, { s with requested := s.requested ++ [NULL] })

/-! ## Calls from outside -/

/-- A call of one of the four page functions. -/
inductive PageOp where
  | requestPage
  | reservePages (addr numPages : UInt64)
  | freePages (addr numPages : UInt64)
  | lockPages (addr numPages : UInt64)

/-- The state after one call. -/
def call (s : Machine) : PageOp → Machine
  | .requestPage => s.requestPage.2
  | .reservePages addr numPages => s.reservePages addr numPages
  | .freePages addr numPages => s.freePages addr numPages
  | .lockPages addr numPages => s.lockPages addr numPages

/-- The state after a sequence of calls. -/
def calls (s : Machine) (ops : List PageOp) : Machine :=
  ops.foldl call s

@[simp] theorem calls_nil (s : Machine) : s.calls [] = s := rfl

@[simp] theorem calls_cons (s : Machine) (op : PageOp) (ops : List PageOp) :
    s.calls (op :: ops) = (s.call op).calls ops := rfl

theorem calls_append (s : Machine) (ops ops' : List PageOp) :
    s.calls (ops ++ ops') = (s.calls ops).calls ops' :=
  List.foldl_append

end Machine

end BbnOS
