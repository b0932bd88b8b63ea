import BbnOS.Mem.Pool
import Mathlib.Order.Interval.Finset.Nat
import Mathlib.Tactic.Ring

/-!
# The counters of the allocator

The three counters move with the bits of the bitmap: each page function moves
4096 bytes between two of them for every bit that it changes.  So the sum of
the three is the size of the memory, and `reservedMemory + usedMemory` is 4096
times the number of set bits (`Balanced`).

The guard of the bitmap functions lets the eight pages after the last bit of
the buffer through.  Such a stray page has its bit in the byte after the
buffer: it is counted, but not a set bit of the buffer.  `Counted` is the
invariant with the number of such pages in it, which no call changes
(`counted_calls`), and `balanced_calls_iff` says when `readEFIMemoryMap` counts
none.
-/

namespace BbnOS

open ByteBits ByteMemory Marking
open scoped UInt64.CommRing

namespace MemDesc

/-- The sum of the three counters. -/
def total (m : MemDesc) : UInt64 := m.freeMemory + m.reservedMemory + m.usedMemory

/-- The memory that is not free. -/
def taken (m : MemDesc) : UInt64 := m.reservedMemory + m.usedMemory

theorem total_reserve (m : MemDesc) : m.reserve.total = m.total := by
  simp only [total, reserve]
  ring

theorem total_free (m : MemDesc) : m.free.total = m.total := by
  simp only [total, free]
  ring

theorem total_lock (m : MemDesc) : m.lock.total = m.total := by
  simp only [total, lock]
  ring

theorem taken_reserve (m : MemDesc) : m.reserve.taken = m.taken + 4096 := by
  simp only [taken, reserve]
  ring

theorem taken_free (m : MemDesc) : m.free.taken = m.taken - 4096 := by
  simp only [taken, free]
  ring

theorem taken_lock (m : MemDesc) : m.lock.taken = m.taken + 4096 := by
  simp only [taken, lock]
  ring

/-- A field that one step of an account moves by `c`. -/
theorem iterate_move {account : MemDesc → MemDesc} {field : MemDesc → UInt64} {c : UInt64}
    (h : ∀ m, field (account m) = field m + c) (k : Nat) (m : MemDesc) :
    field (account^[k] m) = field m + UInt64.ofNat k * c := by
  induction k with
  | zero => simp
  | succ k ih =>
    rw [Function.iterate_succ_apply', h, ih, UInt64.ofNat_add]
    simp only [UInt64.reduceOfNat]
    ring

end MemDesc

namespace Machine

/-- The number of set bits in the bytes of the buffer. -/
def setBits (s : Machine) : Nat := (withMark (Finset.range s.bits) true s.marked).card

/-- The page is one of the eight that pass the guard without a bit in the
buffer. -/
def Stray (s : Machine) (p : Nat) : Prop := s.bits ≤ p ∧ p < s.bits + 8

theorem reach_eq (s : Machine) : s.reach = s.bits + 8 := rfl

/-- The stray pages. -/
def strays (s : Machine) : Finset Nat := Finset.Ico s.bits s.reach

@[simp] theorem mem_strays {s : Machine} {p : Nat} : p ∈ s.strays ↔ s.Stray p :=
  Finset.mem_Ico

/-- The two equations of the counters. -/
structure Balanced (s : Machine) : Prop where
  total : s.memInfo.freeMemory + s.memInfo.reservedMemory + s.memInfo.usedMemory =
    s.memInfo.memSizeBytes
  taken : s.memInfo.reservedMemory + s.memInfo.usedMemory = UInt64.ofNat (4096 * s.setBits)

/-- The two equations with `k` stray pages counted on top of the set bits. -/
structure Counted (k : Nat) (s : Machine) : Prop where
  total : s.memInfo.total = s.memInfo.memSizeBytes
  taken : s.memInfo.taken = UInt64.ofNat (4096 * (s.setBits + k))

/-- The call covers page `p`. -/
def PageOp.CoversPage (op : PageOp) (p : Nat) : Prop :=
  match op with
  | requestPage => False
  | reservePages addr numPages => Covers addr numPages.toNat p
  | freePages addr numPages => Covers addr numPages.toNat p
  | lockPages addr numPages => Covers addr numPages.toNat p

/-- A count of at most eight pages is not hidden by the wrap of a counter. -/
theorem ofNat_pages_add_eq {n k : Nat} (hk : k ≤ 8) :
    UInt64.ofNat (4096 * (n + k)) = UInt64.ofNat (4096 * n) ↔ k = 0 := by
  constructor
  · intro heq
    have hsum : UInt64.ofNat (4096 * n) + UInt64.ofNat (4096 * k) =
        UInt64.ofNat (4096 * n) + 0 := by
      rw [← UInt64.ofNat_add, ← Nat.mul_add, heq, add_zero]
    have hzero := congrArg UInt64.toNat (add_left_cancel hsum)
    rw [ofNat_toNat_of_lt (by omega), UInt64.toNat_zero] at hzero
    omega
  · intro heq
    subst heq
    rfl

/-- The counters balance when no stray page is counted. -/
theorem Counted.balanced_iff {s : Machine} {k : Nat} (h : s.Counted k) (hk : k ≤ 8) :
    s.Balanced ↔ k = 0 := by
  rw [← ofNat_pages_add_eq (n := s.setBits) hk]
  constructor
  · intro hb
    exact h.taken.symm.trans hb.taken
  · intro heq
    exact ⟨h.total, h.taken.trans heq⟩

theorem Balanced.counted {s : Machine} (h : s.Balanced) : s.Counted 0 :=
  ⟨h.total, h.taken⟩

theorem Counted.balanced {s : Machine} (h : s.Counted 0) : s.Balanced :=
  (h.balanced_iff (Nat.zero_le 8)).mpr rfl

section Counting

variable {account : MemDesc → MemDesc} {cov : Nat → Prop} {s s' : Machine} {k : Nat}

private theorem range_bits_subset (s : Machine) :
    Finset.range s.bits ⊆ Finset.range s.reach :=
  Finset.range_mono s.bits_le_reach

/-- The pages that pass the guard are those of the buffer and the stray ones. -/
theorem card_changed_reach (s : Machine) (value : Bool) (cov : Nat → Prop) :
    (changed (Finset.range s.reach) value cov s.marked).card =
      (changed (Finset.range s.bits) value cov s.marked).card +
        (changed s.strays value cov s.marked).card := by
  rw [← card_changed_union]
  · congr 2
    apply Finset.ext
    intro q
    rw [Finset.mem_union, mem_strays, Stray, Finset.mem_range, Finset.mem_range, reach_eq]
    omega
  · rw [Finset.disjoint_left]
    intro q hq hq'
    exact Nat.not_lt.mpr (mem_strays.mp hq').1 (Finset.mem_range.mp hq)

/-- Setting bits counts every bit of the buffer that changes. -/
theorem Marks.setBits_true (h : Marks true account cov s s') :
    s'.setBits = s.setBits + (changed (Finset.range s.bits) true cov s.marked).card := by
  rw [setBits, setBits, h.bits_eq]
  exact card_withMark_update h.update (range_bits_subset s)

/-- Clearing bits takes every bit of the buffer that changes. -/
theorem Marks.setBits_false (h : Marks false account cov s s') :
    s'.setBits + (changed (Finset.range s.bits) false cov s.marked).card = s.setBits := by
  rw [setBits, setBits, h.bits_eq]
  exact card_withMark_true_update_false h.update (range_bits_subset s)

/-- A field of the counters that the account moves by `c`. -/
theorem Marks.field_move {value : Bool} (h : Marks value account cov s s')
    {field : MemDesc → UInt64} {c : UInt64} (hmove : ∀ m, field (account m) = field m + c) :
    field s'.memInfo = field s.memInfo +
      UInt64.ofNat (changed (Finset.range s.reach) value cov s.marked).card * c := by
  rw [h.memInfo]
  exact MemDesc.iterate_move hmove _ _

/-- An account that leaves the sum and the size alone keeps the first
equation. -/
theorem Marks.total_eq {value : Bool} (h : Marks value account cov s s')
    (htotal : ∀ m, (account m).total = m.total)
    (hsize : ∀ m, (account m).memSizeBytes = m.memSizeBytes)
    (hs : s.memInfo.total = s.memInfo.memSizeBytes) :
    s'.memInfo.total = s'.memInfo.memSizeBytes := by
  rw [h.field_keep htotal, hs, h.field_keep hsize]

/-- A call that sets bits counts the stray pages that change on top. -/
theorem Marks.counted_true (h : Marks true account cov s s')
    (htotal : ∀ m, (account m).total = m.total)
    (htaken : ∀ m, (account m).taken = m.taken + 4096)
    (hsize : ∀ m, (account m).memSizeBytes = m.memSizeBytes) (hs : s.Counted k) :
    s'.Counted (k + (changed s.strays true cov s.marked).card) where
  total := h.total_eq htotal hsize hs.total
  taken := by
    have hcount := card_changed_reach s true cov
    have hbits := h.setBits_true
    rw [h.field_move htaken, hs.taken, hcount, hbits]
    simp only [Nat.mul_add, UInt64.ofNat_add, UInt64.ofNat_mul, UInt64.reduceOfNat]
    ring

/-- A call that clears bits, and no stray one, keeps the count. -/
theorem Marks.counted_false (h : Marks false MemDesc.free cov s s')
    (hstray : (changed s.strays false cov s.marked).card = 0) (hs : s.Counted k) :
    s'.Counted k where
  total := h.total_eq MemDesc.total_free MemDesc.memSizeBytes_free hs.total
  taken := by
    have htaken : ∀ m : MemDesc, m.free.taken = m.taken + (-4096) := fun m => by
      rw [MemDesc.taken_free]
      ring
    have hcount := card_changed_reach s false cov
    have hbits := h.setBits_false
    rw [hstray, Nat.add_zero] at hcount
    rw [h.field_move htaken, hs.taken, hcount, ← hbits]
    simp only [Nat.mul_add, UInt64.ofNat_add, UInt64.ofNat_mul, UInt64.reduceOfNat]
    ring

end Counting

/-- The history of `requestPage` does not enter the counters. -/
theorem counted_of_requested {s : Machine} {l : List UInt64} {k : Nat}
    (h : ({ s with requested := l } : Machine).Counted k) : s.Counted k :=
  ⟨h.total, h.taken⟩

private theorem no_stray_change {s : Machine} {value : Bool} {cov : Nat → Prop}
    (hcov : ∀ p, cov p → ¬ s.Stray p) : (changed s.strays value cov s.marked).card = 0 :=
  card_changed_eq_zero.mpr fun p hp hc => absurd (mem_strays.mp hp) (hcov p hc)

/-- One call that covers no stray page keeps the count. -/
theorem counted_call {s : Machine} {k : Nat} (h : s.Narrow) (hs : s.Counted k) {op : PageOp}
    (hop : ∀ p, op.CoversPage p → ¬ s.Stray p) : (s.call op).Counted k := by
  cases op with
  | requestPage =>
    have hret : ∀ p, s.Returns p → ¬ s.Stray p := fun p hp hstray =>
      Nat.not_lt.mpr hstray.1 ((firstClear_eq_some h).mp hp).1
    have hcount := (requestPage_marks h).counted_true MemDesc.total_lock MemDesc.taken_lock
      MemDesc.memSizeBytes_lock hs
    rw [no_stray_change hret] at hcount
    exact counted_of_requested (l := s.requested) hcount
  | reservePages addr numPages =>
    have hcount := (reservePages_marks addr numPages s).counted_true MemDesc.total_reserve
      MemDesc.taken_reserve MemDesc.memSizeBytes_reserve hs
    have hcov : ∀ p, Covers addr numPages.toNat p → ¬ s.Stray p := hop
    rwa [no_stray_change hcov] at hcount
  | lockPages addr numPages =>
    have hcount := (lockPages_marks addr numPages s).counted_true MemDesc.total_lock
      MemDesc.taken_lock MemDesc.memSizeBytes_lock hs
    have hcov : ∀ p, Covers addr numPages.toNat p → ¬ s.Stray p := hop
    rwa [no_stray_change hcov] at hcount
  | freePages addr numPages =>
    exact (freePages_marks addr numPages s).counted_false (no_stray_change hop) hs

/-- A sequence of calls that cover no stray page keeps the count. -/
theorem counted_calls {s : Machine} {k : Nat} (h : s.Narrow) (hs : s.Counted k)
    {ops : List PageOp} (hops : ∀ op ∈ ops, ∀ p, op.CoversPage p → ¬ s.Stray p) :
    (s.calls ops).Counted k := by
  induction ops generalizing s with
  | nil => exact hs
  | cons op ops ih =>
    refine ih (narrow_call h op) (counted_call h hs (hops op List.mem_cons_self)) ?_
    intro op' hop' p hcov
    rw [Stray, bits, memBitMap_call h op]
    exact hops op' (List.mem_cons_of_mem op hop') p hcov

/-! ## After `readEFIMemoryMap` -/

/-- The page has its bit in the byte after the buffer, and that bit is clear
in `ram`. -/
def ClearStray (ram : ByteMemory) (ds : List EfiMemoryDescriptor) (p : Nat) : Prop :=
  8 * (bitmapSize ds).toNat ≤ p ∧ p < 8 * (bitmapSize ds).toNat + 8 ∧
    highBit (ram.bytes (bitmapBase ds + bitmapSize ds)) (p % 8) = false

/-- Clearing the buffer leaves the stray bits alone. -/
theorem clearStray_iff {ram : ByteMemory} {ds : List EfiMemoryDescriptor} {p : Nat} :
    ClearStray ram ds p ↔ (cleared ram ds).Stray p ∧ (cleared ram ds).marked p ≠ true := by
  rw [Stray, bits_cleared, ClearStray, and_assoc]
  refine and_congr_right fun hlo => and_congr_right fun hhi => ?_
  have hsize := (bitmapSize ds).toNat_lt
  have hbyte : p / 8 = (bitmapSize ds).toNat := by omega
  have hout : ¬ InRange (bitmapBase ds) (bitmapSize ds).toNat
      (bitmapBase ds + UInt64.ofNat (p / 8)) := by
    rw [inRange_add_ofNat (by omega)]
    omega
  have hmark : (cleared ram ds).marked p =
      highBit (ram.bytes (bitmapBase ds + bitmapSize ds)) (p % 8) := by
    have hkept := bytes_fill_of_not_inRange ram 0 hout
    rw [hbyte, UInt64.ofNat_toNat] at hkept
    rw [← hkept, marked, BitMap.bit, hbyte, memBitMap_cleared, UInt64.ofNat_toNat]
    rfl
  rw [hmark, ne_eq, Bool.not_eq_true]

/-- At most eight stray pages change. -/
theorem card_changed_strays_le (s : Machine) (value : Bool) (cov : Nat → Prop) :
    (changed s.strays value cov s.marked).card ≤ 8 := by
  refine le_trans (Finset.card_le_card (changed_subset _ _ _ _)) ?_
  rw [strays, Nat.card_Ico, reach_eq]
  exact (Nat.add_sub_cancel_left _ _).le

/-- The stray pages that `readEFIMemoryMap` counts. -/
noncomputable def strayCount (ram : ByteMemory) (mmap mmapSize z : UInt64) : Nat :=
  (changed (cleared ram (mapOf ram mmap mmapSize z)).strays true
    (BootCover ram mmap mmapSize z) (cleared ram (mapOf ram mmap mmapSize z)).marked).card

/-- None is counted when every stray page that gets covered has its bit set
already. -/
theorem strayCount_eq_zero {ram : ByteMemory} {mmap mmapSize z : UInt64} :
    strayCount ram mmap mmapSize z = 0 ↔
      ∀ p, ClearStray ram (mapOf ram mmap mmapSize z) p → ¬ BootCover ram mmap mmapSize z p := by
  rw [strayCount, card_changed_eq_zero]
  simp only [mem_strays, clearStray_iff]
  constructor
  · rintro h p ⟨hstray, hclear⟩ hcov
    exact hclear (h p hstray hcov)
  · intro h p hstray hcov
    by_contra hclear
    exact h p ⟨hstray, hclear⟩ hcov

/-- `PGinitBitMap` clears every bit. -/
theorem setBits_cleared (ram : ByteMemory) (ds : List EfiMemoryDescriptor) :
    (cleared ram ds).setBits = 0 := by
  rw [setBits, Finset.card_eq_zero, Finset.eq_empty_iff_forall_notMem]
  intro q hq
  rw [mem_withMark, Finset.mem_range] at hq
  rw [marked_cleared ram ds hq.1] at hq
  exact absurd hq.2 (by decide)

/-- The counters balance in the cleared state. -/
theorem counted_cleared (ram : ByteMemory) (ds : List EfiMemoryDescriptor) :
    (cleared ram ds).Counted 0 where
  total := by
    simp only [MemDesc.total, cleared, add_zero]
  taken := by
    rw [setBits_cleared]
    simp only [MemDesc.taken, cleared, add_zero]
    rfl

/-- The count after the first call of `readEFIMemoryMap`. -/
theorem counted_readEFIMemoryMap {ram : ByteMemory} {mmap mmapSize z : UInt64} {s s' : Machine}
    (hboot : AtBoot ram mmap mmapSize z s)
    (h : readEFIMemoryMap mmap mmapSize z s = some s') :
    s'.Counted (strayCount ram mmap mmapSize z) := by
  have hlock := locked_marks ram (mapOf ram mmap mmapSize z)
  have hpass := readEFIMemoryMap_stages hboot h
  have hstrays : (locked ram (mapOf ram mmap mmapSize z)).strays =
      (cleared ram (mapOf ram mmap mmapSize z)).strays := by
    rw [strays, strays, hlock.bits_eq, hlock.reach_eq]
  have hsub : (cleared ram (mapOf ram mmap mmapSize z)).strays ⊆
      Finset.range (cleared ram (mapOf ram mmap mmapSize z)).reach := by
    intro q hq
    rw [mem_strays, Stray, ← reach_eq] at hq
    exact Finset.mem_range.mpr hq.2
  have hcount := hpass.counted_true MemDesc.total_reserve MemDesc.taken_reserve
    MemDesc.memSizeBytes_reserve
    (hlock.counted_true MemDesc.total_lock MemDesc.taken_lock
      MemDesc.memSizeBytes_lock (counted_cleared ram _))
  rw [Nat.zero_add, hstrays, ← card_changed_trans (hlock.update.mono hsub)] at hcount
  exact hcount

/-- `readEFIMemoryMap` leaves the sum of the region sizes. -/
theorem memSizeBytes_of_readEFIMemoryMap {ram : ByteMemory} {mmap mmapSize z : UInt64}
    {s s' : Machine} (hboot : AtBoot ram mmap mmapSize z s)
    (h : readEFIMemoryMap mmap mmapSize z s = some s') :
    s'.memInfo.memSizeBytes = totalSize (mapOf ram mmap mmapSize z) := by
  rw [(readEFIMemoryMap_stages hboot h).field_keep MemDesc.memSizeBytes_reserve,
    (locked_marks ram _).field_keep MemDesc.memSizeBytes_lock]
  simp only [cleared]

/-- The counters balance in every state that calls reach which cover no stray
page, if and only if `readEFIMemoryMap` itself covers no stray page with a
clear bit.  With the map apart from the bitmap, the pages it covers are the
pages of the bitmap and of the regions that get reserved. -/
theorem balanced_calls_iff {ram : ByteMemory} {mmap mmapSize mmapDescSize : UInt64}
    {s s₀ : Machine} (hboot : AtBoot ram mmap mmapSize mmapDescSize s)
    (hread : readEFIMemoryMap mmap mmapSize mmapDescSize s = some s₀) :
    ((∀ ops : List PageOp, (∀ op ∈ ops, ∀ p, op.CoversPage p → ¬ s₀.Stray p) →
        (s₀.calls ops).Balanced) ↔
      ∀ p, ClearStray ram (mapOf ram mmap mmapSize mmapDescSize) p →
        ¬ BootCover ram mmap mmapSize mmapDescSize p) ∧
    (EfiMemoryDescriptor.size ≤ mmapDescSize.toNat →
      ArrayApart mmap mmapSize (mapOf ram mmap mmapSize mmapDescSize) →
      ∀ p, BootCover ram mmap mmapSize mmapDescSize p ↔
        LockCover (mapOf ram mmap mmapSize mmapDescSize) p ∨
          ReserveCover (mapOf ram mmap mmapSize mmapDescSize) p) := by
  have hcount := counted_readEFIMemoryMap hboot hread
  have hstart := hcount.balanced_iff (card_changed_strays_le _ _ _)
  rw [strayCount_eq_zero] at hstart
  refine ⟨⟨fun h => ?_, fun h ops hops => ?_⟩, fun hz hapart p => ?_⟩
  · exact hstart.mp (h [] (by simp))
  · have hbalanced := (hstart.mpr h).counted
    exact (counted_calls (narrow_of_readEFIMemoryMap hboot hread) hbalanced hops).balanced
  · exact or_congr_right (passCover_of_arrayApart hz hapart p)

/-- A map of two pages: the bitmap has one byte, and the reserved page 8 has
its bit in the byte after it. -/
theorem not_balanced_of_stray :
    ∃ s₀, readEFIMemoryMap 0x100000 96 48
        (boot (sampleRam [⟨7, 0, 1⟩, ⟨0, 0x8000, 1⟩])) = some s₀ ∧
      ¬ (s₀.calls []).Balanced := by
  have heval : ((readEFIMemoryMap 0x100000 96 48
      (boot (sampleRam [⟨7, 0, 1⟩, ⟨0, 0x8000, 1⟩]))).map fun s =>
        decide (s.memInfo.reservedMemory + s.memInfo.usedMemory =
          UInt64.ofNat (4096 * s.setBits))) = some false := by decide +kernel
  obtain ⟨s₀, hread, htaken⟩ := Option.map_eq_some_iff.mp heval
  exact ⟨s₀, hread, fun h => of_decide_eq_false htaken h.taken⟩

/-- With the reserved page inside the buffer no stray page is covered, and the counters
balance. -/
theorem balanced_calls_sample :
    ∃ s₀, readEFIMemoryMap 0x100000 96 48
        (boot (sampleRam [⟨7, 0, 1⟩, ⟨0, 0x1000, 1⟩])) = some s₀ ∧
      (∀ p, ClearStray (sampleRam [⟨7, 0, 1⟩, ⟨0, 0x1000, 1⟩]) [⟨7, 0, 1⟩, ⟨0, 0x1000, 1⟩] p →
        ¬ BootCover (sampleRam [⟨7, 0, 1⟩, ⟨0, 0x1000, 1⟩]) 0x100000 96 48 p) ∧
      ∀ ops : List PageOp, (∀ op ∈ ops, ∀ p, op.CoversPage p → ¬ s₀.Stray p) →
        (s₀.calls ops).Balanced := by
  have hmap : mapOf (sampleRam [⟨7, 0, 1⟩, ⟨0, 0x1000, 1⟩]) 0x100000 96 48 =
      [⟨7, 0, 1⟩, ⟨0, 0x1000, 1⟩] := by decide +kernel
  obtain ⟨s₀, hread⟩ := Option.isSome_iff_exists.mp
    (show (readEFIMemoryMap 0x100000 96 48
      (boot (sampleRam [⟨7, 0, 1⟩, ⟨0, 0x1000, 1⟩]))).isSome = true by decide +kernel)
  obtain ⟨hbalanced, hcover⟩ := balanced_calls_iff AtBoot.initial hread
  rw [hmap] at hbalanced hcover
  have hnone : ∀ p, p < 16 → 8 ≤ p → ¬ (LockCover [⟨7, 0, 1⟩, ⟨0, 0x1000, 1⟩] p ∨
      ReserveCover [⟨7, 0, 1⟩, ⟨0, 0x1000, 1⟩] p) := by decide +kernel
  have hstray : ∀ p, ClearStray (sampleRam [⟨7, 0, 1⟩, ⟨0, 0x1000, 1⟩])
      [⟨7, 0, 1⟩, ⟨0, 0x1000, 1⟩] p →
        ¬ BootCover (sampleRam [⟨7, 0, 1⟩, ⟨0, 0x1000, 1⟩]) 0x100000 96 48 p := by
    rintro p ⟨hlo, hhi, _⟩
    rw [hcover (by decide) (disjoint_of_toNat_le (by decide +kernel) (by decide)).symm]
    have hsize : bitmapSize [⟨7, 0, 1⟩, ⟨0, 0x1000, 1⟩] = 1 := by decide +kernel
    rw [hsize, show (1 : UInt64).toNat = 1 from rfl] at hlo hhi
    exact hnone p hhi hlo
  exact ⟨s₀, hread, hstray, hbalanced.mpr hstray⟩

end Machine

end BbnOS
