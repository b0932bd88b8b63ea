import BbnOS.Mem.Accounting

/-!
# Locking and freeing the same pages

`freePages` undoes `lockPages` on pages that were all free: every bit of the
range is set and then cleared, and the counters of the range go up and down the
same number of times.  `lockPages_freePages` is the round trip, for the whole
state of the allocator.
-/

namespace BbnOS

open ByteMemory Marking

/-- Freeing a page undoes locking it, also when the counters wrap. -/
theorem MemDesc.leftInverse_free_lock : Function.LeftInverse MemDesc.free MemDesc.lock := by
  intro m
  simp only [lock, free, sub_add_cancel, add_sub_cancel_right]

namespace Machine

/-- All `n` pages from `addr` on have a clear bit in the buffer, and none is beyond
the end of the address space. -/
structure FreeRange (s : Machine) (addr numPages : UInt64) : Prop where
  noWrap : pageOf addr + numPages.toNat ≤ 2 ^ 52
  inBuffer : ∀ i, i < numPages.toNat → pageOf addr + i < s.bits
  clear : ∀ i, i < numPages.toNat → s.marked (pageOf addr + i) = false

/-- The pages whose bits differ, among all that pass the guard. -/
def differing (s s' : Machine) : Finset Nat :=
  (Finset.range s.reach).filter fun p => s'.marked p ≠ s.marked p

/-- Two states with one bitmap, the same bits and the same other memory have the
same memory. -/
theorem ram_eq_of_bits {s s' : Machine} (hbm : s'.memInfo.memBitMap = s.memInfo.memBitMap)
    (hbits : ∀ p, p < s.reach → s'.marked p = s.marked p)
    (hother : ∀ a, ¬ s.memInfo.memBitMap.touched a → s'.ram.bytes a = s.ram.bytes a) :
    s'.ram = s.ram := by
  unfold reach marked at hbits
  rw [hbm] at hbits
  have hbytes := (BitMap.bytes_iff_bits (Nat.succ_le_of_lt
    s.memInfo.memBitMap.size.toNat_lt)).mpr hbits
  ext a
  by_cases ha : s.memInfo.memBitMap.touched a
  · rw [hbytes a ha]
  · rw [hother a ha]

section FreeRange

variable {s : Machine} {addr numPages : UInt64}

theorem FreeRange.clear_of_covers (h : s.FreeRange addr numPages) {p : Nat}
    (hcov : Covers addr numPages.toNat p) : p < s.bits ∧ s.marked p = false := by
  obtain ⟨hlo, hhi⟩ := (covers_iff_of_le p h.noWrap).mp hcov
  obtain ⟨i, rfl⟩ := Nat.exists_eq_add_of_le hlo
  have hi : i < numPages.toNat := by omega
  exact ⟨h.inBuffer i hi, h.clear i hi⟩

/-- What `lockPages` changes in a free range: its pages. -/
theorem FreeRange.changed_eq (h : s.FreeRange addr numPages) :
    changed (Finset.range s.reach) true (Covers addr numPages.toNat) s.marked =
      Finset.Ico (pageOf addr) (pageOf addr + numPages.toNat) := by
  apply Finset.ext
  intro p
  rw [mem_changed, Finset.mem_range, Finset.mem_Ico, ← covers_iff_of_le p h.noWrap]
  constructor
  · exact fun hp => hp.2.1
  · intro hcov
    obtain ⟨hp, hclear⟩ := h.clear_of_covers hcov
    refine ⟨Nat.lt_of_lt_of_le hp s.bits_le_reach, hcov, ?_⟩
    rw [hclear]
    exact Bool.false_ne_true

/-- The bits that `lockPages` changes are those that differ afterwards. -/
theorem differing_lockPages (s : Machine) (addr numPages : UInt64) :
    differing s (s.lockPages addr numPages) =
      changed (Finset.range s.reach) true (Covers addr numPages.toNat) s.marked := by
  have hlock := lockPages_marks addr numPages s
  apply Finset.ext
  intro p
  rw [differing, Finset.mem_filter, mem_changed, Finset.mem_range]
  refine and_congr_right fun hp => ?_
  by_cases hcov : Covers addr numPages.toNat p
  · rw [hlock.marked_of_covered hp hcov]
    exact ⟨fun hne => ⟨hcov, hne.symm⟩, fun hne => hne.2.symm⟩
  · rw [hlock.marked_of_not_covered hp hcov]
    exact ⟨fun hne => absurd rfl hne, fun hne => absurd hne.1 hcov⟩

/-- After that, `freePages` changes the same bits. -/
theorem FreeRange.changed_lockPages (h : s.FreeRange addr numPages) :
    changed (Finset.range s.reach) false (Covers addr numPages.toNat)
        (s.lockPages addr numPages).marked =
      changed (Finset.range s.reach) true (Covers addr numPages.toNat) s.marked := by
  have hlock := lockPages_marks addr numPages s
  apply Finset.ext
  intro p
  rw [mem_changed, mem_changed, Finset.mem_range]
  refine and_congr_right fun hp => and_congr_right fun hcov => ?_
  rw [hlock.marked_of_covered hp hcov, (h.clear_of_covers hcov).2]
  decide

/-- The state after both calls is the first one. -/
theorem FreeRange.restored (h : s.FreeRange addr numPages) :
    (s.lockPages addr numPages).freePages addr numPages = s := by
  have hlock := lockPages_marks addr numPages s
  have hfree := freePages_marks addr numPages (s.lockPages addr numPages)
  have hbm := hfree.memBitMap.trans hlock.memBitMap
  have hbits : ∀ p, p < s.reach →
      ((s.lockPages addr numPages).freePages addr numPages).marked p = s.marked p := by
    intro p hp
    have hp' : p < (s.lockPages addr numPages).reach := by
      rw [hlock.reach_eq]
      exact hp
    by_cases hcov : Covers addr numPages.toNat p
    · rw [hfree.marked_of_covered hp' hcov, (h.clear_of_covers hcov).2]
    · rw [hfree.marked_of_not_covered hp' hcov, hlock.marked_of_not_covered hp hcov]
  have hother : ∀ a, ¬ s.memInfo.memBitMap.touched a →
      ((s.lockPages addr numPages).freePages addr numPages).ram.bytes a = s.ram.bytes a := by
    intro a ha
    rw [hfree.bytes a (by rw [hlock.memBitMap]; exact ha), hlock.bytes a ha]
  have hram := ram_eq_of_bits hbm hbits hother
  have hmem : ((s.lockPages addr numPages).freePages addr numPages).memInfo = s.memInfo := by
    rw [hfree.memInfo, hlock.reach_eq, h.changed_lockPages, hlock.memInfo]
    exact Function.LeftInverse.iterate MemDesc.leftInverse_free_lock _ _
  have hinit := hfree.initialized.trans hlock.initialized
  have hreq := hfree.requested.trans hlock.requested
  generalize (s.lockPages addr numPages).freePages addr numPages = t at *
  cases t
  cases s
  simp only at hram hmem hinit hreq
  rw [hram, hmem, hinit, hreq]

end FreeRange

/-- Locking free pages and freeing them gives back the state of the allocator, its
bitmap and its counters included.  In between, exactly the bits of these pages
differ, and `4096` bytes more are used for each. -/
theorem lockPages_freePages {s : Machine} {addr numPages : UInt64}
    (h : s.FreeRange addr numPages) :
    (s.lockPages addr numPages).freePages addr numPages = s ∧
      differing s (s.lockPages addr numPages) =
        Finset.Ico (pageOf addr) (pageOf addr + numPages.toNat) ∧
      (differing s (s.lockPages addr numPages)).card = numPages.toNat ∧
      (s.lockPages addr numPages).memInfo.usedMemory =
        s.memInfo.usedMemory + 4096 * numPages := by
  have hdiff := (differing_lockPages s addr numPages).trans h.changed_eq
  have hcard : (Finset.Ico (pageOf addr) (pageOf addr + numPages.toNat)).card =
      numPages.toNat := by
    rw [Nat.card_Ico, Nat.add_sub_cancel_left]
  refine ⟨h.restored, hdiff, by rw [hdiff, hcard], ?_⟩
  have hused := (lockPages_marks addr numPages s).field_move MemDesc.usedMemory_lock
  rw [h.changed_eq, hcard, UInt64.ofNat_toNat, mul_comm] at hused
  exact hused

/-- A bitmap of one byte, in which the pages 2 to 4 are free. -/
def threeFreePages : Machine where
  ram := ⟨fun a => if a = 0x100000 then 0b11000111 else 0⟩
  memInfo :=
    { memBitMap := { size := 1, buffer := 0x100000 }
      freeMemory := 0x3000
      reservedMemory := 0x1000
      usedMemory := 0x4000
      memSizeBytes := 0x8000 }
  initialized := true
  requested := []

theorem lockPages_freePages_three :
    (threeFreePages.lockPages 0x2000 3).freePages 0x2000 3 = threeFreePages ∧
      differing threeFreePages (threeFreePages.lockPages 0x2000 3) =
        Finset.Ico (pageOf 0x2000) (pageOf 0x2000 + (3 : UInt64).toNat) ∧
      (differing threeFreePages (threeFreePages.lockPages 0x2000 3)).card =
        (3 : UInt64).toNat ∧
      (threeFreePages.lockPages 0x2000 3).memInfo.usedMemory =
        threeFreePages.memInfo.usedMemory + 4096 * 3 :=
  lockPages_freePages ⟨by decide, by decide +kernel, by decide +kernel⟩

end Machine

end BbnOS
