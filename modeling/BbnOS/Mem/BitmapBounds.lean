import BbnOS.Lib.Traced
import BbnOS.Mem.PageOps

/-!
# The bytes that the bitmap functions use

`bitmapGetVal` and `bitmapSetVal` once more, as programs that record the
addresses they read and write.  Without the record they are the functions of
`BbnOS.Bitmap` (`bitmapGetTraced_eq`, `bitmapSetTraced_eq`).

Their guard `byte_index > bm->size` lets byte number `size` pass, one past the
buffer.  `staysInside_iff_ne` says that this is the only byte at which they go
wrong, and `changePages_eq_self_iff` which calls of the page functions change
something, for pages that have no bit in the buffer too.
-/

namespace BbnOS

open ByteMemory Loop Traced

/-- The read of one byte. -/
def load (a : UInt64) : StateM (Traced ByteMemory UInt64) UInt8 :=
  use a fun ram => (ram.bytes a, ram)

/-- The store of one byte. -/
def store8 (a : UInt64) (v : UInt8) : StateM (Traced ByteMemory UInt64) Unit :=
  use a fun ram => ((), ram.write8 a v)

/-- `bitmapGetVal`, with its accesses. -/
def bitmapGetTraced (bm : BitMap) (index : UInt64) : StateM (Traced ByteMemory UInt64) Bool :=
  let byteIndex := index / 8
  if byteIndex > bm.size then pure false
  else
    let bitIndex := (index % 8).toUInt8
    if byteIndex > bm.size then pure false
    else do
      let mask := 0b10000000 >>> bitIndex
      let byte ← load (bm.buffer + byteIndex)
      pure (byte &&& mask != 0)

/-- `bitmapSetVal`, with its accesses. -/
def bitmapSetTraced (bm : BitMap) (index : UInt64) (value : Bool) :
    StateM (Traced ByteMemory UInt64) Bool :=
  let byteIndex := index / 8
  if byteIndex > bm.size then pure false
  else do
    let bitIndex := (index % 8).toUInt8
    let mask : UInt8 := 0b10000000 >>> bitIndex
    let byte ← load (bm.buffer + byteIndex)
    store8 (bm.buffer + byteIndex) (byte &&& ~~~mask)
    if value then do
      let byte ← load (bm.buffer + byteIndex)
      store8 (bm.buffer + byteIndex) (byte ||| mask)
    pure true

/-- The bytes that a program uses in a memory. -/
def bytesUsed {α : Type} (prog : StateM (Traced ByteMemory UInt64) α) (ram : ByteMemory) :
    List UInt64 :=
  (prog (start ram)).2.used

section Accesses

variable {bm : BitMap} {index : UInt64}

theorem bitmapGetTraced_eq (bm : BitMap) (index : UInt64) (t : Traced ByteMemory UInt64) :
    ((bitmapGetTraced bm index t).1, (bitmapGetTraced bm index t).2.state) =
      (bitmapGetVal t.state bm index, t.state) := by
  unfold bitmapGetTraced bitmapGetVal
  by_cases hguard : index / 8 > bm.size
  · simp only [hguard, if_true]
    rfl
  · simp only [hguard, if_false]
    rfl

theorem bitmapSetTraced_eq (bm : BitMap) (index : UInt64) (value : Bool)
    (t : Traced ByteMemory UInt64) :
    ((bitmapSetTraced bm index value t).1, (bitmapSetTraced bm index value t).2.state) =
      bitmapSetVal t.state bm index value := by
  unfold bitmapSetTraced bitmapSetVal
  by_cases hguard : index / 8 > bm.size
  · simp only [hguard, if_true]
    rfl
  · simp only [hguard, if_false]
    cases value <;> rfl

/-- Both functions use the byte of their index only, and only when the guard
lets it pass. -/
theorem bitmapGetTraced_confined (bm : BitMap) (index : UInt64) :
    Confined (fun a => index / 8 ≤ bm.size ∧ a = bm.buffer + index / 8)
      (bitmapGetTraced bm index) := by
  unfold bitmapGetTraced
  by_cases hguard : index / 8 > bm.size
  · simp only [hguard, if_true]
    exact confined_pure false
  · simp only [hguard, if_false]
    exact (confined_use ⟨UInt64.not_lt.mp hguard, rfl⟩ _).bind fun _ => confined_pure _

theorem bitmapSetTraced_confined (bm : BitMap) (index : UInt64) (value : Bool) :
    Confined (fun a => index / 8 ≤ bm.size ∧ a = bm.buffer + index / 8)
      (bitmapSetTraced bm index value) := by
  unfold bitmapSetTraced
  by_cases hguard : index / 8 > bm.size
  · simp only [hguard, if_true]
    exact confined_pure false
  · simp only [hguard, if_false]
    have hbyte := UInt64.not_lt.mp hguard
    refine (confined_use ⟨hbyte, rfl⟩ _).bind fun _ =>
      (confined_use ⟨hbyte, rfl⟩ _).bind fun _ => ?_
    cases value
    · exact confined_pure true
    · exact (confined_use ⟨hbyte, rfl⟩ _).bind fun _ =>
        (confined_use ⟨hbyte, rfl⟩ _).bind fun _ => confined_pure true

/-- An index that passes the guard makes `bitmapGetVal` read its byte. -/
theorem mem_bytesUsed_get (hguard : index / 8 ≤ bm.size) (ram : ByteMemory) :
    bm.buffer + index / 8 ∈ bytesUsed (bitmapGetTraced bm index) ram := by
  unfold bitmapGetTraced
  simp only [gt_iff_lt, UInt64.not_lt.mpr hguard, if_false]
  exact List.mem_cons_self

/-- The functions keep to the buffer for this index, and do nothing when it has
no bit there. -/
structure StaysInside (ram : ByteMemory) (bm : BitMap) (index : UInt64) : Prop where
  get : ∀ a ∈ bytesUsed (bitmapGetTraced bm index) ram, InRange bm.buffer bm.size.toNat a
  set : ∀ value, ∀ a ∈ bytesUsed (bitmapSetTraced bm index value) ram,
    InRange bm.buffer bm.size.toNat a
  past : bm.bits ≤ index.toNat → bitmapGetVal ram bm index = false ∧
    ∀ value, bitmapSetVal ram bm index value = (false, ram)

/-- The byte of an index, as an offset from the buffer. -/
theorem inRange_byte_iff (bm : BitMap) (index : UInt64) :
    InRange bm.buffer bm.size.toNat (bm.buffer + index / 8) ↔
      index.toNat / 8 < bm.size.toNat := by
  rw [InRange, add_sub_cancel_left, UInt64.toNat_div]
  rfl

/-- The functions keep to the buffer for every index but the eight of the byte
after it. -/
theorem staysInside_iff_ne (ram : ByteMemory) (bm : BitMap) (index : UInt64) :
    StaysInside ram bm index ↔ index.toNat / 8 ≠ bm.size.toNat := by
  have hbyte : (index / 8).toNat = index.toNat / 8 := by
    rw [UInt64.toNat_div]
    rfl
  constructor
  · intro h heq
    have hpass : index / 8 ≤ bm.size := by
      rw [UInt64.le_iff_toNat_le, hbyte, heq]
    have hin := (inRange_byte_iff bm index).mp (h.get _ (mem_bytesUsed_get hpass ram))
    omega
  · intro hne
    have hinside : ∀ a, index / 8 ≤ bm.size ∧ a = bm.buffer + index / 8 →
        InRange bm.buffer bm.size.toNat a := by
      intro a ha
      have hle := UInt64.le_iff_toNat_le.mp ha.1
      rw [hbyte] at hle
      rw [ha.2, inRange_byte_iff]
      omega
    have hnone : ∀ a ∈ (start ram : Traced ByteMemory UInt64).used,
        index / 8 ≤ bm.size ∧ a = bm.buffer + index / 8 := fun a ha => absurd ha List.not_mem_nil
    constructor
    · exact fun a ha => hinside a (bitmapGetTraced_confined bm index _ hnone a ha)
    · exact fun value a ha => hinside a (bitmapSetTraced_confined bm index value _ hnone a ha)
    · intro hpast
      have hout : ¬ index.toNat < bm.reach := by
        unfold BitMap.bits at hpast
        unfold BitMap.reach
        omega
      refine ⟨?_, fun value => bitmapSetVal_of_reach_le ram value hout⟩
      rw [bitmapGetVal_eq, decide_eq_false hout, Bool.false_and]

end Accesses

namespace Machine

/-- A call of a page function changes nothing when it finds its value at every
page it visits that passes the guard. -/
theorem changePages_eq_self_iff (value : Bool) {account : MemDesc → MemDesc}
    (hacc : ∀ m, (account m).memBitMap = m.memBitMap) (addr numPages : UInt64) (s : Machine) :
    changePages (changePage value account) addr numPages s = s ↔
      ∀ p, Covers addr numPages.toNat p → p < s.reach → s.marked p = value := by
  constructor
  · intro h p hcov hp
    have hmarks := changePages_marks value hacc addr numPages s
    rw [h] at hmarks
    exact hmarks.marked_of_covered hp hcov
  · intro h
    unfold changePages
    refine forUpto_induct (fun _ t => t = s) rfl ?_
    intro i t hi ht
    subst ht
    rcases changePage_cases value account (addr + UInt64.ofNat i * 4096) t with
      ⟨hin, hne, _⟩ | ⟨_, heq⟩
    · exact absurd (h _ ⟨i, hi, rfl⟩ hin) hne
    · exact heq

/-- The bitmap functions keep to the buffer if and only if the index is not one
of the byte after it.  A page function changes nothing if and only if every
page it visits, up to the end of that byte, has its value already. -/
theorem staysInside_iff (s : Machine) (index addr numPages : UInt64) :
    (StaysInside s.ram s.memInfo.memBitMap index ↔
      index.toNat / 8 ≠ s.memInfo.memBitMap.size.toNat) ∧
    (s.lockPages addr numPages = s ↔
      ∀ p, Covers addr numPages.toNat p → p < s.bits + 8 → s.marked p = true) ∧
    (s.reservePages addr numPages = s ↔
      ∀ p, Covers addr numPages.toNat p → p < s.bits + 8 → s.marked p = true) ∧
    (s.freePages addr numPages = s ↔
      ∀ p, Covers addr numPages.toNat p → p < s.bits + 8 → s.marked p = false) :=
  ⟨staysInside_iff_ne s.ram s.memInfo.memBitMap index,
    changePages_eq_self_iff true MemDesc.memBitMap_lock addr numPages s,
    changePages_eq_self_iff true MemDesc.memBitMap_reserve addr numPages s,
    changePages_eq_self_iff false MemDesc.memBitMap_free addr numPages s⟩

/-- A bitmap of one clear byte at 1 MiB, with a clear byte after it. -/
def oneByteMachine : Machine where
  ram := ⟨fun _ => 0⟩
  memInfo :=
    { memBitMap := { size := 1, buffer := 0x100000 }
      freeMemory := 0x8000
      reservedMemory := 0
      usedMemory := 0
      memSizeBytes := 0x8000 }
  initialized := true
  requested := []

/-- Page 8 has no bit in that bitmap, and `lockPages` sets one for it behind the
buffer and counts it. -/
theorem not_staysInside_oneByteMachine :
    ¬ StaysInside oneByteMachine.ram oneByteMachine.memInfo.memBitMap 8 ∧
      (∀ p, Covers 0x8000 1 p → oneByteMachine.bits ≤ p) ∧
      (oneByteMachine.lockPages 0x8000 1).ram.bytes 0x100001 = 0x80 ∧
      (oneByteMachine.lockPages 0x8000 1).memInfo.usedMemory = 0x1000 := by
  refine ⟨fun h => ?_, fun p hp => ?_, by decide +kernel, by decide +kernel⟩
  · exact (staysInside_iff_ne _ _ 8).mp h (by decide)
  · have hpage := (covers_iff_of_le p (by decide)).mp hp
    rw [show pageOf 0x8000 = 8 from by decide] at hpage
    exact hpage.1

end Machine

end BbnOS
