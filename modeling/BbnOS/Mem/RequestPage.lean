import BbnOS.Mem.PageOps

/-!
# Requesting a page, for a bitmap of any size

`ExactFirstFit` is what a caller of `requestPage` relies on: it takes the
lowest page that is clear, changes nothing else, and answers `NULL` when there
is no such page and only then.

`exactFirstFit_iff` says for which bitmaps it holds.  Page 0 has the address
`NULL`, so a caller cannot tell it from a failure.  The other two bounds matter
for a bitmap of more than 2^49 bytes only: the address of a page from 2^52 up
does not fit 64 bits, and the bound `size * 8` of the loop wraps.
-/

namespace BbnOS

open ByteMemory

namespace Machine

/-- The lowest page that is clear. -/
structure LowestClear (s : Machine) (p : Nat) : Prop where
  lt_bits : p < s.bits
  clear : s.marked p = false
  below : ∀ q, q < p → s.marked q = true

/-- `requestPage` takes page `p`: it returns the address, sets the bit, and
moves the page from the free to the used memory. -/
structure TakesPage (s : Machine) (p : Nat) : Prop where
  address : s.requestPage.1.toNat = 4096 * p
  ne_null : s.requestPage.1 ≠ NULL
  bits : ∀ q, q < s.bits → s.requestPage.2.marked q = if q = p then true else s.marked q
  bytes : ∀ a, a ≠ s.memInfo.memBitMap.buffer + UInt64.ofNat (p / 8) →
    s.requestPage.2.ram.bytes a = s.ram.bytes a
  freeMemory : s.requestPage.2.memInfo.freeMemory = s.memInfo.freeMemory - 4096
  usedMemory : s.requestPage.2.memInfo.usedMemory = s.memInfo.usedMemory + 4096

/-- First fit, with an answer that a caller can tell from a failure. -/
structure ExactFirstFit (s : Machine) : Prop where
  takes : ∀ p, s.LowestClear p → s.TakesPage p
  null : s.requestPage.1 = NULL ↔ ∀ p, p < s.bits → s.marked p = true
  unchanged : s.requestPage.1 = NULL →
    s.requestPage.2.ram = s.ram ∧ s.requestPage.2.memInfo = s.memInfo

variable {s : Machine} {p : Nat}

theorem lowestClear_of_firstClear (h : s.firstClear = some p) : s.LowestClear p := by
  obtain ⟨hlt, hclear, hbelow⟩ := firstClear_eq_some_iff.mp h
  exact ⟨Nat.lt_of_lt_of_le hlt s.scanned_le, hclear, hbelow⟩

/-- The loop finds the lowest clear page if it gets there. -/
theorem LowestClear.firstClear (h : s.LowestClear p) (hp : p < s.scanned) :
    s.firstClear = some p :=
  firstClear_eq_some_iff.mpr ⟨hp, h.clear, h.below⟩

/-- The loop finds nothing when it does not get to the lowest clear page. -/
theorem LowestClear.firstClear_none (h : s.LowestClear p) (hp : s.scanned ≤ p) :
    s.firstClear = none :=
  firstClear_eq_none_iff.mpr fun q hq => h.below q (Nat.lt_of_lt_of_le hq hp)

/-- Every bit is set, or there is a lowest clear page. -/
theorem exists_lowestClear (h : ¬ ∀ p, p < s.bits → s.marked p = true) :
    ∃ p, s.LowestClear p := by
  have hex : ∃ p, p < s.bits ∧ s.marked p = false := by
    by_contra hnone
    refine h fun p hp => ?_
    by_contra hclear
    exact hnone ⟨p, hp, Bool.eq_false_iff.mpr hclear⟩
  obtain ⟨hlt, hclear⟩ := Nat.find_spec hex
  refine ⟨Nat.find hex, hlt, hclear, fun q hq => ?_⟩
  have hmin := Nat.find_min hex hq
  by_contra hq'
  exact hmin ⟨Nat.lt_trans hq hlt, Bool.eq_false_iff.mpr hq'⟩

/-- A page of the address space that the loop gets to is taken. -/
theorem LowestClear.takesPage (h : s.LowestClear p) (hpos : 0 < p) (hp : p < 2 ^ 52)
    (hscanned : p < s.scanned) : s.TakesPage p := by
  obtain ⟨haddr, hram, hinfo⟩ := requestPage_of_firstClear (h.firstClear hscanned) hp
  have hp64 : (UInt64.ofNat p).toNat = p := ofNat_toNat_of_lt (by omega)
  have hreach : (UInt64.ofNat p).toNat < s.memInfo.memBitMap.reach := by
    rw [hp64]
    exact Nat.lt_of_lt_of_le h.lt_bits s.bits_le_reach
  constructor
  · exact haddr
  · intro hnull
    rw [hnull] at haddr
    have hzero : 0 = 4096 * p := haddr
    omega
  · intro q hq
    have hq67 : q < 2 ^ 67 :=
      Nat.lt_of_lt_of_le hq (s.bits_le_reach.trans s.memInfo.memBitMap.reach_le)
    rw [marked, hram, hinfo, MemDesc.memBitMap_lock, bit_bitmapSetVal s.ram true hreach hq67, hp64]
    rfl
  · intro a ha
    rw [hram]
    refine bytes_bitmapSetVal_of_ne s.ram _ true ?_
    have hbyte : UInt64.ofNat p / 8 = UInt64.ofNat (p / 8) := by
      rw [← UInt64.toNat_inj, UInt64.toNat_div, hp64, ofNat_toNat_of_lt (by omega)]
      rfl
    rw [hbyte]
    exact ha
  · rw [hinfo]
    rfl
  · rw [hinfo]
    rfl

/-- `requestPage` is exact first fit if and only if the lowest clear page is
not page 0, its address fits 64 bits, and the loop gets to it. -/
theorem exactFirstFit_iff (s : Machine) :
    s.ExactFirstFit ↔
      ∀ p, s.LowestClear p → 0 < p ∧ p < 2 ^ 52 ∧ p < s.bits % 2 ^ 64 := by
  rw [← scanned_eq]
  constructor
  · intro h p hp
    have htakes := h.takes p hp
    have haddr := htakes.address
    have hlt := s.requestPage.1.toNat_lt
    refine ⟨?_, by omega, ?_⟩
    · by_contra hzero
      refine htakes.ne_null (UInt64.toNat_inj.mp ?_)
      rw [haddr, show p = 0 by omega]
      rfl
    · by_contra hscanned
      have hnone := hp.firstClear_none (Nat.not_lt.mp hscanned)
      exact htakes.ne_null (requestPage_of_firstClear_none hnone).1
  · intro h
    have htakes : ∀ p, s.LowestClear p → s.TakesPage p := fun p hp =>
      hp.takesPage (h p hp).1 (h p hp).2.1 (h p hp).2.2
    have hfull : s.requestPage.1 = NULL → s.firstClear = none := by
      intro hnull
      rcases hfirst : s.firstClear with _ | p
      · rfl
      · exact absurd hnull (htakes p (lowestClear_of_firstClear hfirst)).ne_null
    refine ⟨htakes, ⟨fun hnull => ?_, fun hall => ?_⟩, fun hnull => ?_⟩
    · by_contra hclear
      obtain ⟨p, hp⟩ := exists_lowestClear hclear
      exact (htakes p hp).ne_null hnull
    · refine (requestPage_of_firstClear_none (firstClear_eq_none_iff.mpr fun p hp => ?_)).1
      exact hall p (Nat.lt_of_lt_of_le hp s.scanned_le)
    · exact (requestPage_of_firstClear_none (hfull hnull)).2

/-- A machine with a bitmap of eight pages at 1 MiB, all of which are free. -/
def emptyMachine : Machine where
  ram := ⟨fun _ => 0⟩
  memInfo :=
    { memBitMap := { size := 1, buffer := 0x100000 }
      freeMemory := 0x8000
      reservedMemory := 0
      usedMemory := 0
      memSizeBytes := 0x8000 }
  initialized := true
  requested := []

/-- The first request gets page 0, whose address is the answer for a failure. -/
theorem not_exactFirstFit_emptyMachine : ¬ emptyMachine.ExactFirstFit := by
  intro h
  have hnull : emptyMachine.requestPage.1 = NULL := by decide +kernel
  have hset := h.null.mp hnull 0 (by decide)
  have hclear : emptyMachine.marked 0 = false := by decide +kernel
  rw [hclear] at hset
  cases hset

end Machine

end BbnOS
