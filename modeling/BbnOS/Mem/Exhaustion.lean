import BbnOS.Mem.Accounting
import Mathlib.Tactic.LinearCombination

/-!
# Requests until the memory is exhausted

`freeMemory` counts the pages of the memory, but `requestPage` scans the bits
of a bitmap that `readEFIMemoryMap` makes at least one bit and at most eight
bits larger.  `freeMemory_add` is the difference: the clear bits are the
counted free pages, the extra bits, and the stray pages that were counted
without a bit.

So a run of requests can stay within the count only when too few clear bits
are left for the counter to reach zero.  But then more pages have been counted
than the memory has, and the counter has wrapped before the first request
(`not_withinCount`).
-/

namespace BbnOS

open ByteMemory FirstFit Marking
open scoped UInt64.CommRing

namespace Machine

/-- A run of `j` requests. -/
def requests (s : Machine) (j : Nat) : Machine := s.calls (List.replicate j .requestPage)

/-- The number of clear bits in the buffer. -/
def clearBits (s : Machine) : Nat := s.pool.free.card

/-- The number of pages of the memory. -/
def memPages (s : Machine) : Nat := (s.memInfo.memSizeBytes / 4096).toNat

theorem clearBits_eq (s : Machine) : s.clearBits = s.bits - s.setBits := by
  rw [clearBits, Pool.free, Finset.card_sdiff_of_subset s.pool.inUse_subset]
  simp only [pool, Finset.card_range]
  rfl

theorem pool_requests {s : Machine} (h : s.Narrow) (j : Nat) :
    (s.requests j).pool = s.pool.run (List.replicate j .request) := by
  rw [requests, pool_calls h, List.map_replicate]
  rfl

/-- Every request takes one clear bit, as long as there is one. -/
theorem clearBits_requests {s : Machine} (h : s.Narrow) {j : Nat} (hj : j ≤ s.clearBits) :
    (s.requests j).clearBits = s.clearBits - j := by
  rw [clearBits, pool_requests h, Pool.card_free_run_requests hj]
  rfl

theorem narrow_requests {s : Machine} (h : s.Narrow) (j : Nat) : (s.requests j).Narrow :=
  narrow_calls h _

theorem bits_requests {s : Machine} (h : s.Narrow) (j : Nat) : (s.requests j).bits = s.bits :=
  bits_calls h _

/-- A run of requests covers no stray page. -/
theorem counted_requests {s : Machine} {k : Nat} (h : s.Narrow) (hs : s.Counted k) (j : Nat) :
    (s.requests j).Counted k := by
  refine counted_calls h hs fun op hop p hcov => ?_
  rw [List.eq_of_mem_replicate hop] at hcov
  exact hcov.elim

theorem memSizeBytes_requests {s : Machine} (h : s.Narrow) (j : Nat) :
    (s.requests j).memInfo.memSizeBytes = s.memInfo.memSizeBytes := by
  induction j generalizing s with
  | zero => rfl
  | succ j ih =>
    have hstep : (s.call .requestPage).memInfo.memSizeBytes = s.memInfo.memSizeBytes :=
      (requestPage_marks h).field_keep MemDesc.memSizeBytes_lock
    exact (ih (narrow_call h .requestPage)).trans hstep

/-! ## The counter against the clear bits -/

/-- The clear bits are the counted free pages, the bits that the bitmap has in
excess of the memory, and the stray pages that were counted. -/
theorem freeMemory_add {s : Machine} {k : Nat} (hs : s.Counted k)
    (hsize : s.memInfo.memSizeBytes = UInt64.ofNat (4096 * s.memPages))
    (hle : s.memPages ≤ s.bits) :
    s.memInfo.freeMemory + UInt64.ofNat (4096 * (s.bits - s.memPages + k)) =
      UInt64.ofNat (4096 * s.clearBits) := by
  have hset : s.setBits ≤ s.bits := by
    refine (Finset.card_le_card (Finset.filter_subset _ _)).trans ?_
    rw [Finset.card_range]
  have hbits : UInt64.ofNat s.setBits + UInt64.ofNat s.clearBits =
      UInt64.ofNat s.memPages + UInt64.ofNat (s.bits - s.memPages) := by
    rw [← UInt64.ofNat_add, ← UInt64.ofNat_add, clearBits_eq]
    congr 1
    omega
  have htotal : s.memInfo.freeMemory + s.memInfo.taken = s.memInfo.memSizeBytes := by
    rw [← hs.total, MemDesc.total, MemDesc.taken, add_assoc]
  rw [hs.taken, hsize] at htotal
  simp only [Nat.mul_add, UInt64.ofNat_add, UInt64.ofNat_mul, UInt64.reduceOfNat] at htotal ⊢
  linear_combination htotal - 4096 * hbits

/-- Along a run of requests `freeMemory` does not wrap: it is what the used and
the reserved memory leave of the memory.  Every request that returns a page
returns one within the memory and is made with a counted free page, and no
request after the counter has reached zero returns an address. -/
structure WithinCount (s : Machine) : Prop where
  unwrapped : ∀ j, (s.requests j).memInfo.freeMemory.toNat +
    (s.requests j).memInfo.usedMemory.toNat + (s.requests j).memInfo.reservedMemory.toNat =
      (s.requests j).memInfo.memSizeBytes.toNat
  counted : ∀ j p, (s.requests j).Returns p → 4096 ≤ (s.requests j).memInfo.freeMemory
  inside : ∀ j p, (s.requests j).Returns p → p < (s.requests j).memPages
  exhausted : ∀ j j', (s.requests j).memInfo.freeMemory = 0 → j ≤ j' →
    (s.requests j').requestPage.1 = NULL

theorem memPages_requests {s : Machine} (h : s.Narrow) (j : Nat) :
    (s.requests j).memPages = s.memPages := by
  rw [memPages, memSizeBytes_requests h]
  rfl

/-- `freeMemory_add` along a run of requests. -/
theorem freeMemory_add_requests {s : Machine} {k : Nat} (h : s.Narrow) (hs : s.Counted k)
    (hsize : s.memInfo.memSizeBytes = UInt64.ofNat (4096 * s.memPages))
    (hle : s.memPages ≤ s.bits) (j : Nat) :
    (s.requests j).memInfo.freeMemory + UInt64.ofNat (4096 * (s.bits - s.memPages + k)) =
      UInt64.ofNat (4096 * (s.requests j).clearBits) := by
  have hadd := freeMemory_add (counted_requests h hs j)
    (by rw [memSizeBytes_requests h, memPages_requests h, hsize])
    (by rw [bits_requests h, memPages_requests h]; exact hle)
  rwa [bits_requests h, memPages_requests h] at hadd

/-- When the clear bits exceed the excess, the counter reaches zero while a
bit is clear, so the next request takes a page that is not counted. -/
theorem WithinCount.clearBits_lt {s : Machine} {k : Nat} (hw : s.WithinCount) (h : s.Narrow)
    (hs : s.Counted k) (hsize : s.memInfo.memSizeBytes = UInt64.ofNat (4096 * s.memPages))
    (hlt : s.memPages < s.bits) : s.clearBits < s.bits - s.memPages + k := by
  by_contra hge
  have hclear := clearBits_requests h
    (show s.clearBits - (s.bits - s.memPages + k) ≤ s.clearBits from Nat.sub_le _ _)
  rw [Nat.sub_sub_self (Nat.le_of_not_lt hge)] at hclear
  have hadd := freeMemory_add_requests h hs hsize hlt.le
    (s.clearBits - (s.bits - s.memPages + k))
  rw [hclear] at hadd
  have hzero : (s.requests (s.clearBits - (s.bits - s.memPages + k))).memInfo.freeMemory = 0 :=
    add_eq_right.mp hadd
  have hpos : 0 < (s.requests (s.clearBits - (s.bits - s.memPages + k))).pool.free.card := by
    rw [show Finset.card _ = _ from hclear]
    omega
  obtain ⟨p, hp⟩ := Pool.exists_request (Finset.card_pos.mp hpos)
  rw [pool_request (narrow_requests h _)] at hp
  have hcount := hw.counted _ p hp
  rw [hzero] at hcount
  exact absurd hcount (by decide)

/-! ## After `readEFIMemoryMap` -/

/-- The number of pages of a map. -/
def mapPages (ds : List EfiMemoryDescriptor) : Nat := (totalSize ds / 4096).toNat

theorem mapPages_eq (ds : List EfiMemoryDescriptor) :
    mapPages ds = (totalSize ds).toNat / 4096 := by
  rw [mapPages, UInt64.toNat_div]
  rfl

/-- The bitmap has at least one bit and at most eight bits more than the map
has pages. -/
theorem mapPages_lt (ds : List EfiMemoryDescriptor) :
    mapPages ds < 8 * (bitmapSize ds).toNat ∧ 8 * (bitmapSize ds).toNat ≤ mapPages ds + 8 := by
  rw [bitmapSize_toNat, mapPages_eq]
  omega

/-- The pages that the first call of `readEFIMemoryMap` counts. -/
noncomputable def countedPages (ram : ByteMemory) (mmap mmapSize z : UInt64) : Finset Nat :=
  changed (Finset.range (cleared ram (mapOf ram mmap mmapSize z)).reach) true
    (BootCover ram mmap mmapSize z) (cleared ram (mapOf ram mmap mmapSize z)).marked

/-- A page that a call visits is a page of the address space. -/
theorem countedPages_subset {ram : ByteMemory} {mmap mmapSize z : UInt64} :
    countedPages ram mmap mmapSize z ⊆ Finset.range (2 ^ 52) := by
  intro p hp
  rw [Finset.mem_range]
  rcases (mem_changed.mp hp).2.1 with hlock | ⟨_, _, _, _, _, hpass⟩
  · exact hlock.lt
  · exact hpass.lt

/-- The counted pages are the set bits of the buffer and the counted stray
pages. -/
theorem setBits_add_strayCount {ram : ByteMemory} {mmap mmapSize z : UInt64} {s s' : Machine}
    (hboot : AtBoot ram mmap mmapSize z s)
    (h : readEFIMemoryMap mmap mmapSize z s = some s') :
    s'.setBits + strayCount ram mmap mmapSize z = (countedPages ram mmap mmapSize z).card := by
  have hlock := locked_marks ram (mapOf ram mmap mmapSize z)
  have hpass := readEFIMemoryMap_stages hboot h
  have hbuffer := Finset.range_mono (cleared ram (mapOf ram mmap mmapSize z)).bits_le_reach
  rw [countedPages, card_changed_reach, hpass.setBits_true, hlock.setBits_true, hlock.bits_eq,
    setBits_cleared, Nat.zero_add, ← card_changed_trans (hlock.update.mono hbuffer)]
  rfl

/-- A call changes at most the pages that it visits. -/
theorem card_changed_covers_le (U : Finset Nat) (value : Bool) (m : Nat → Bool)
    (addr : UInt64) (n : Nat) : (changed U value (Covers addr n) m).card ≤ n := by
  classical
  have hsub : changed U value (Covers addr n) m ⊆
      (Finset.range n).image fun i => pageOf (addr + UInt64.ofNat i * 4096) := by
    intro q hq
    obtain ⟨i, hi, hpage⟩ := (mem_changed.mp hq).2.1
    exact Finset.mem_image.mpr ⟨i, Finset.mem_range.mpr hi, hpage⟩
  refine (Finset.card_le_card hsub).trans (Finset.card_image_le.trans ?_)
  rw [Finset.card_range]

/-- When no memory is used, the page of the bitmap was not counted. -/
theorem pageOf_bitmapBase_not_mem {ram : ByteMemory} {mmap mmapSize z : UInt64}
    {s s' : Machine} (hboot : AtBoot ram mmap mmapSize z s)
    (h : readEFIMemoryMap mmap mmapSize z s = some s') (hused : s'.memInfo.usedMemory = 0) :
    pageOf (bitmapBase (mapOf ram mmap mmapSize z)) ∉ countedPages ram mmap mmapSize z := by
  have hsize := bitmapSize_toNat (mapOf ram mmap mmapSize z)
  have htotal := (totalSize (mapOf ram mmap mmapSize z)).toNat_lt
  have hpages : (bitmapSize (mapOf ram mmap mmapSize z) / 4096 + 1).toNat =
      (bitmapSize (mapOf ram mmap mmapSize z)).toNat / 4096 + 1 := by
    rw [UInt64.toNat_add, UInt64.toNat_div]
    simp only [UInt64.reduceToNat]
    omega
  -- so few pages are locked that their count does not wrap
  have hfew : (changed (Finset.range (cleared ram (mapOf ram mmap mmapSize z)).reach) true
      (LockCover (mapOf ram mmap mmapSize z))
      (cleared ram (mapOf ram mmap mmapSize z)).marked).card ≤
        (bitmapSize (mapOf ram mmap mmapSize z) / 4096 + 1).toNat :=
    card_changed_covers_le _ _ _ _ _
  have hmove := (locked_marks ram (mapOf ram mmap mmapSize z)).field_move
    MemDesc.usedMemory_lock
  rw [← (readEFIMemoryMap_stages hboot h).field_keep MemDesc.usedMemory_reserve, hused,
    show (cleared ram (mapOf ram mmap mmapSize z)).memInfo.usedMemory = 0 from rfl,
    zero_add] at hmove
  have hnone := congrArg UInt64.toNat hmove
  rw [UInt64.toNat_mul, UInt64.toNat_ofNat'] at hnone
  simp only [UInt64.reduceToNat] at hnone
  have hzero : (changed (Finset.range (cleared ram (mapOf ram mmap mmapSize z)).reach) true
      (LockCover (mapOf ram mmap mmapSize z))
      (cleared ram (mapOf ram mmap mmapSize z)).marked).card = 0 := by omega
  intro hmem
  obtain ⟨hreach, -, hclear⟩ := mem_changed.mp hmem
  refine hclear (card_changed_eq_zero.mp hzero _ hreach ⟨0, by omega, ?_⟩)
  simp

/-- No run of requests stays within the memory and within the count, whatever
the map: `readEFIMemoryMap` would have to count more pages than the memory has,
and then the counter has wrapped before the first request. -/
theorem not_withinCount {ram : ByteMemory} {mmap mmapSize mmapDescSize : UInt64}
    {s s₀ : Machine} (hboot : AtBoot ram mmap mmapSize mmapDescSize s)
    (hread : readEFIMemoryMap mmap mmapSize mmapDescSize s = some s₀) : ¬ s₀.WithinCount := by
  intro hw
  have hcount := counted_readEFIMemoryMap hboot hread
  have hsize := memSizeBytes_of_readEFIMemoryMap hboot hread
  have hpages : s₀.memPages = mapPages (mapOf ram mmap mmapSize mmapDescSize) := by
    rw [memPages, hsize]
    rfl
  have hexact : s₀.memInfo.memSizeBytes = UInt64.ofNat (4096 * s₀.memPages) := by
    have hmod := totalSize_mod (mapOf ram mmap mmapSize mmapDescSize)
    rw [hpages, mapPages_eq, hsize, Nat.mul_div_cancel' (Nat.dvd_of_mod_eq_zero hmod),
      UInt64.ofNat_toNat]
  have hlt : s₀.memPages < s₀.bits := by
    rw [hpages, bits_of_readEFIMemoryMap hboot hread]
    exact (mapPages_lt _).1
  -- too few clear bits are left, so more pages were counted than there are
  have hmore : s₀.memPages < (countedPages ram mmap mmapSize mmapDescSize).card := by
    have hclear := hw.clearBits_lt (narrow_of_readEFIMemoryMap hboot hread) hcount hexact hlt
    rw [clearBits_eq] at hclear
    rw [← setBits_add_strayCount hboot hread]
    omega
  -- but used and reserved memory are part of the memory
  have hsum := hw.unwrapped 0
  have htaken := congrArg UInt64.toNat hcount.taken
  rw [setBits_add_strayCount hboot hread, MemDesc.taken, UInt64.toNat_add,
    UInt64.toNat_ofNat'] at htaken
  have hmem : (s₀.memInfo.memSizeBytes).toNat < 4096 * (s₀.memPages + 1) := by
    rw [memPages, UInt64.toNat_div]
    simp only [UInt64.reduceToNat]
    omega
  have hsub : countedPages ram mmap mmapSize mmapDescSize ⊆ Finset.range (2 ^ 52) :=
    countedPages_subset
  have hle := Finset.card_le_card hsub
  rw [Finset.card_range] at hle
  have hlimit := (s₀.memInfo.memSizeBytes).toNat_lt
  rw [show s₀.requests 0 = s₀ from rfl] at hsum
  -- which leaves the count of all pages of the address space
  have hall : 2 ^ 52 ≤ (countedPages ram mmap mmapSize mmapDescSize).card := by omega
  have hused : s₀.memInfo.usedMemory.toNat = 0 := by omega
  have hfull := Finset.eq_of_subset_of_card_le hsub ((Finset.card_range _).le.trans hall)
  refine pageOf_bitmapBase_not_mem hboot hread (UInt64.toNat_inj.mp hused) ?_
  rw [hfull, Finset.mem_range]
  exact pageOf_lt _

/-- A map of one page: its bitmap has eight bits, and after the only page is
locked for the bitmap itself a request returns page 1. -/
theorem not_withinCount_of_one_page :
    ∃ s₀, readEFIMemoryMap 0x100000 48 48 (boot (sampleRam [⟨7, 0, 1⟩])) = some s₀ ∧
      s₀.memInfo.freeMemory = 0 ∧ s₀.memInfo.memSizeBytes = 4096 ∧
      s₀.requestPage.1 = 0x1000 ∧ ¬ s₀.WithinCount := by
  have heval : ((readEFIMemoryMap 0x100000 48 48 (boot (sampleRam [⟨7, 0, 1⟩]))).map fun s =>
      (s.memInfo.freeMemory, s.memInfo.memSizeBytes, s.requestPage.1, s.firstClear)) =
      some (0, 4096, 0x1000, some 1) := by decide +kernel
  obtain ⟨s₀, hread, htuple⟩ := Option.map_eq_some_iff.mp heval
  simp only [Prod.mk.injEq] at htuple
  obtain ⟨hfree, hsize, hrequest, hret⟩ := htuple
  refine ⟨s₀, hread, hfree, hsize, hrequest, fun hw => ?_⟩
  have hcount := hw.counted 0 1 hret
  rw [show (s₀.requests 0).memInfo.freeMemory = 0 from hfree] at hcount
  exact absurd hcount (by decide)

/-- A map of sixteen pages: its bitmap has twenty-four bits. -/
theorem not_withinCount_sample :
    ∃ s₀, readEFIMemoryMap 0x100000 48 48 (boot (sampleRam [⟨7, 0, 16⟩])) = some s₀ ∧
      ¬ s₀.WithinCount := by
  obtain ⟨s₀, hread⟩ := Option.isSome_iff_exists.mp
    (show (readEFIMemoryMap 0x100000 48 48 (boot (sampleRam [⟨7, 0, 16⟩]))).isSome = true
      by decide +kernel)
  exact ⟨s₀, hread, not_withinCount AtBoot.initial hread⟩

end Machine

end BbnOS
