import BbnOS.Mem.Contents

/-!
# The order of the memory map

Two runs of `readEFIMemoryMap`, on a map and on a permutation of it.  The first
of the largest conventional regions gives the place of the bitmap
(`bitmapBase_eq_iff`), the sum of the sizes does not depend on the order, and
neither does the set of pages that get locked or reserved.  What a descriptor
adds to a counter does depend on the order, but `usedMemory_eq` and
`reservedMemory_eq` give the totals as numbers of pages, which do not.

The exception is a map that begins right behind the buffer, as in
`BbnOS.Mem.Contents`: then the type of the first descriptor is the byte with
the stray bits, and another descriptor there reads and counts differently
(`sameResult_iff`).
-/

namespace BbnOS

open ByteBits ByteMemory EfiMemoryType Marking
open scoped UInt64.CommRing

namespace EfiMemoryDescriptor

/-- The region is conventional memory. -/
def Conventional (d : EfiMemoryDescriptor) : Prop := d.type = efiConventionalMemory.code

instance (d : EfiMemoryDescriptor) : Decidable d.Conventional :=
  inferInstanceAs (Decidable (_ = _))

/-- The size of the region in bytes, in the 64 bits of the source. -/
def byteSize (d : EfiMemoryDescriptor) : UInt64 := d.numPages * 4096

end EfiMemoryDescriptor

/-! ## The largest region -/

/-- `d` is a conventional region larger than all before it, and no smaller than
those behind it, by the 64-bit sizes that the source compares. -/
def FirstLargest (ds : List EfiMemoryDescriptor) (d : EfiMemoryDescriptor) : Prop :=
  d.Conventional ∧ 0 < d.byteSize ∧
    ∃ l r, ds = l ++ d :: r ∧ (∀ e ∈ l, e.Conventional → e.byteSize < d.byteSize) ∧
      ∀ e ∈ r, e.Conventional → e.byteSize ≤ d.byteSize

/-- Exactly one conventional region has the most pages. -/
def UniqueLargest (ds : List EfiMemoryDescriptor) : Prop :=
  ∃ d l r, ds = l ++ d :: r ∧ d.Conventional ∧
    ∀ e ∈ l ++ r, e.Conventional → e.numPages < d.numPages

/-- The size in bytes of every conventional region is a 64-bit number. -/
def SizesFit (ds : List EfiMemoryDescriptor) : Prop :=
  ∀ d ∈ ds, d.Conventional → d.numPages.toNat * 4096 < 2 ^ 64

/-- The largest conventional regions that two orders of a map have first begin
at one address. -/
def SamePlace (ds ds' : List EfiMemoryDescriptor) : Prop :=
  ∀ d d', FirstLargest ds d → FirstLargest ds' d' → d.physAddr = d'.physAddr

theorem FirstLargest.mem {ds : List EfiMemoryDescriptor} {d : EfiMemoryDescriptor}
    (h : FirstLargest ds d) : d ∈ ds := by
  obtain ⟨_, _, l, r, hds, _⟩ := h
  rw [hds]
  exact List.mem_append_right l List.mem_cons_self

theorem FirstLargest.byteSize_le {ds : List EfiMemoryDescriptor} {d e : EfiMemoryDescriptor}
    (h : FirstLargest ds d) (he : e ∈ ds) (hconv : e.Conventional) :
    e.byteSize ≤ d.byteSize := by
  obtain ⟨_, _, l, r, hds, hl, hr⟩ := h
  rw [hds, List.mem_append, List.mem_cons] at he
  rcases he with he | he | he
  · exact UInt64.le_of_lt (hl e he hconv)
  · rw [he]
    exact UInt64.le_refl _
  · exact hr e he hconv

/-- A region in front that is smaller does not matter. -/
theorem FirstLargest.cons {ds : List EfiMemoryDescriptor} {d e : EfiMemoryDescriptor}
    (h : FirstLargest ds e) (hlt : d.Conventional → d.byteSize < e.byteSize) :
    FirstLargest (d :: ds) e := by
  obtain ⟨hconv, hpos, l, r, hds, hl, hr⟩ := h
  refine ⟨hconv, hpos, d :: l, r, by rw [hds]; rfl, ?_, hr⟩
  intro e' he' hconv'
  rcases List.mem_cons.mp he' with heq | hin
  · rw [heq] at hconv' ⊢
    exact hlt hconv'
  · exact hl e' hin hconv'

/-- One round of the search. -/
theorem largerMemSeg_cases (d : EfiMemoryDescriptor) (seg : UInt64 × UInt64) :
    (d.Conventional ∧ seg.2 < d.byteSize ∧ largerMemSeg d seg = (d.physAddr, d.byteSize)) ∨
    ((d.Conventional → d.byteSize ≤ seg.2) ∧ largerMemSeg d seg = seg) := by
  unfold largerMemSeg
  split
  · rename_i hconv
    split
    · rename_i hlt
      exact Or.inl ⟨hconv, hlt, rfl⟩
    · rename_i hle
      exact Or.inr ⟨fun _ => UInt64.not_lt.mp hle, rfl⟩
  · rename_i hconv
    exact Or.inr ⟨fun h => absurd h hconv, rfl⟩

/-- What the search finds: nothing larger than it knows, or the first of the
largest regions. -/
theorem foldl_largerMemSeg (ds : List EfiMemoryDescriptor) (seg : UInt64 × UInt64) :
    ((∀ e ∈ ds, e.Conventional → e.byteSize ≤ seg.2) ∧
      ds.foldl (fun seg d => largerMemSeg d seg) seg = seg) ∨
    ∃ d, FirstLargest ds d ∧ seg.2 < d.byteSize ∧
      ds.foldl (fun seg d => largerMemSeg d seg) seg = (d.physAddr, d.byteSize) := by
  induction ds generalizing seg with
  | nil => exact Or.inl ⟨by simp, rfl⟩
  | cons d ds ih =>
    rw [List.foldl_cons]
    rcases largerMemSeg_cases d seg with ⟨hconv, hlt, heq⟩ | ⟨hle, heq⟩
    · rw [heq]
      refine Or.inr ?_
      rcases ih (d.physAddr, d.byteSize) with ⟨hall, hfold⟩ | ⟨e, he, hgt, hfold⟩
      · have hpos : 0 < d.byteSize := UInt64.lt_of_le_of_lt UInt64.zero_le hlt
        exact ⟨d, ⟨hconv, hpos, [], ds, rfl, by simp, hall⟩, hlt, hfold⟩
      · exact ⟨e, he.cons fun _ => hgt, UInt64.lt_trans hlt hgt, hfold⟩
    · rw [heq]
      rcases ih seg with ⟨hall, hfold⟩ | ⟨e, he, hgt, hfold⟩
      · refine Or.inl ⟨fun e he => ?_, hfold⟩
        rcases List.mem_cons.mp he with heq' | hin
        · rw [heq']
          exact hle
        · exact hall e hin
      · exact Or.inr ⟨e, he.cons fun hconv => UInt64.lt_of_le_of_lt (hle hconv) hgt, hgt, hfold⟩

/-- The bitmap goes to the first of the largest regions, if there is one. -/
theorem bitmapBase_cases (ds : List EfiMemoryDescriptor) :
    ((∀ e ∈ ds, e.Conventional → e.byteSize = 0) ∧ bitmapBase ds = NULL) ∨
    ∃ d, FirstLargest ds d ∧ bitmapBase ds = d.physAddr := by
  unfold bitmapBase
  rcases foldl_largerMemSeg ds (NULL, 0) with ⟨hall, hfold⟩ | ⟨d, hd, _, hfold⟩
  · exact Or.inl ⟨fun e he hconv => UInt64.le_zero_iff.mp (hall e he hconv), by rw [hfold]⟩
  · exact Or.inr ⟨d, hd, by rw [hfold]⟩

/-- There is one first largest region only. -/
theorem FirstLargest.unique {ds : List EfiMemoryDescriptor} {d e : EfiMemoryDescriptor}
    (hd : FirstLargest ds d) (he : FirstLargest ds e) : d = e := by
  obtain ⟨hdconv, _, l, r, hds, hl, hr⟩ := id hd
  have hle := hd.byteSize_le he.mem he.1
  have hge := he.byteSize_le hd.mem hdconv
  obtain ⟨heconv, _, l', r', hds', hl', hr'⟩ := he
  -- the longer of the two fronts would hold the other region
  rw [hds, List.append_eq_append_iff] at hds'
  rcases hds' with ⟨m, hm, hcons⟩ | ⟨m, hm, hcons⟩
  · rcases m with _ | ⟨x, m⟩
    · exact (List.cons.inj hcons).1
    · rw [List.cons_append] at hcons
      have hx := (List.cons.inj hcons).1
      have hlt := hl' d (by rw [hm, hx]; simp) hdconv
      exact absurd hlt (UInt64.not_lt.mpr hle)
  · rcases m with _ | ⟨x, m⟩
    · exact ((List.cons.inj hcons).1).symm
    · rw [List.cons_append] at hcons
      have hx := (List.cons.inj hcons).1
      have hlt := hl e (by rw [hm, hx]; simp) heconv
      exact absurd hlt (UInt64.not_lt.mpr hge)

/-- Two orders of a map give the bitmap one place exactly when their first
largest regions begin at one address. -/
theorem bitmapBase_eq_iff {ds ds' : List EfiMemoryDescriptor} (hperm : ds'.Perm ds) :
    bitmapBase ds' = bitmapBase ds ↔ SamePlace ds ds' := by
  rcases bitmapBase_cases ds with ⟨hzero, hbase⟩ | ⟨d, hd, hbase⟩
  · have hnone : ∀ e, ¬ FirstLargest ds' e := fun e he =>
      absurd (hzero e (hperm.mem_iff.mp he.mem) he.1) (UInt64.ne_of_lt he.2.1).symm
    rcases bitmapBase_cases ds' with ⟨_, hbase'⟩ | ⟨d', hd', _⟩
    · rw [hbase, hbase']
      exact ⟨fun _ _ e _ he => absurd he (hnone e), fun _ => rfl⟩
    · exact absurd hd' (hnone d')
  · rcases bitmapBase_cases ds' with ⟨hzero, _⟩ | ⟨d', hd', hbase'⟩
    · exact absurd (hzero d (hperm.mem_iff.mpr hd.mem) hd.1) (UInt64.ne_of_lt hd.2.1).symm
    · rw [hbase, hbase']
      constructor
      · intro heq e e' he he'
        rw [he.unique hd, he'.unique hd', heq]
      · exact fun h => (h d d' hd hd').symm

/-- With sizes of 64 bits, the region that has the most pages is the one the
search finds, in every order. -/
theorem UniqueLargest.samePlace {ds ds' : List EfiMemoryDescriptor} (h : UniqueLargest ds)
    (hfit : SizesFit ds) (hperm : ds'.Perm ds) : SamePlace ds ds' := by
  obtain ⟨m, l, r, hds, hconv, hmax⟩ := h
  have hm : m ∈ ds := by
    rw [hds]
    exact List.mem_append_right l List.mem_cons_self
  have hsize : ∀ e ∈ ds, e.Conventional → e.byteSize.toNat = e.numPages.toNat * 4096 := by
    intro e he heconv
    have hlt := hfit e he heconv
    rw [EfiMemoryDescriptor.byteSize, UInt64.toNat_mul]
    simp only [UInt64.reduceToNat]
    omega
  have hfound : ∀ e ∈ ds, e.Conventional → m.byteSize ≤ e.byteSize → e = m := by
    intro e he heconv hle
    by_contra hne
    have hin : e ∈ l ++ r := by
      rw [hds, List.mem_append, List.mem_cons] at he
      rw [List.mem_append]
      rcases he with he | he | he
      · exact Or.inl he
      · exact absurd he hne
      · exact Or.inr he
    have hlt := UInt64.lt_iff_toNat_lt.mp (hmax e hin heconv)
    have hle' := UInt64.le_iff_toNat_le.mp hle
    rw [hsize m hm hconv, hsize e he heconv] at hle'
    omega
  intro d d' hd hd'
  rw [hfound d hd.mem hd.1 (hd.byteSize_le hm hconv),
    hfound d' (hperm.mem_iff.mp hd'.mem) hd'.1
      (hd'.byteSize_le (hperm.mem_iff.mpr hm) hconv)]

/-! ## What does not depend on the order -/

theorem totalSize_perm {ds ds' : List EfiMemoryDescriptor} (hperm : ds'.Perm ds) :
    totalSize ds' = totalSize ds :=
  (hperm.map _).sum_eq

theorem bitmapSize_perm {ds ds' : List EfiMemoryDescriptor} (hperm : ds'.Perm ds) :
    bitmapSize ds' = bitmapSize ds := by
  rw [bitmapSize, bitmapSize, totalSize_perm hperm]

namespace Machine

theorem reserveCover_perm {ds ds' : List EfiMemoryDescriptor} (hperm : ds'.Perm ds) (p : Nat) :
    ReserveCover ds' p ↔ ReserveCover ds p := by
  simp only [ReserveCover, hperm.mem_iff]

theorem lockCover_eq {ds ds' : List EfiMemoryDescriptor} (hbase : bitmapBase ds' = bitmapBase ds)
    (hsize : bitmapSize ds' = bitmapSize ds) (p : Nat) : LockCover ds' p ↔ LockCover ds p := by
  rw [LockCover, LockCover, hbase, hsize]

/-! ## The counters as numbers of pages -/

open Classical in
/-- The pages of `cov` that have a bit in the buffer. -/
noncomputable def bufferPages (ds : List EfiMemoryDescriptor) (cov : Nat → Prop) : Finset Nat :=
  (Finset.range (8 * (bitmapSize ds).toNat)).filter cov

open Classical in
/-- The pages of `cov` that have a bit in the byte after the buffer, clear in
`ram`. -/
noncomputable def strayPages (ram : ByteMemory) (ds : List EfiMemoryDescriptor)
    (cov : Nat → Prop) : Finset Nat :=
  (Finset.Ico (8 * (bitmapSize ds).toNat) (8 * (bitmapSize ds).toNat + 8)).filter fun p =>
    ClearStray ram ds p ∧ cov p

@[simp] theorem mem_bufferPages {ds : List EfiMemoryDescriptor} {cov : Nat → Prop} {p : Nat} :
    p ∈ bufferPages ds cov ↔ p < 8 * (bitmapSize ds).toNat ∧ cov p := by
  simp [bufferPages]

theorem strayPages_subset (ram : ByteMemory) (ds : List EfiMemoryDescriptor)
    (cov : Nat → Prop) : strayPages ram ds cov ⊆
      Finset.Ico (8 * (bitmapSize ds).toNat) (8 * (bitmapSize ds).toNat + 8) := by
  simp [strayPages]

@[simp] theorem mem_strayPages {ram : ByteMemory} {ds : List EfiMemoryDescriptor}
    {cov : Nat → Prop} {p : Nat} :
    p ∈ strayPages ram ds cov ↔ ClearStray ram ds p ∧ cov p := by
  classical
  rw [strayPages, Finset.mem_filter, Finset.mem_Ico]
  constructor
  · exact fun h => h.2
  · exact fun h => ⟨⟨h.1.1, h.1.2.1⟩, h⟩

/-- What gets counted in the cleared state: every covered page of the buffer,
and the covered pages behind it whose bit is clear. -/
theorem card_changed_cleared (ram : ByteMemory) (ds : List EfiMemoryDescriptor)
    (cov : Nat → Prop) :
    (changed (Finset.range (cleared ram ds).reach) true cov (cleared ram ds).marked).card =
      (bufferPages ds cov).card + (strayPages ram ds cov).card := by
  rw [card_changed_reach]
  congr 2
  · apply Finset.ext
    intro q
    rw [mem_changed, mem_bufferPages, ← bits_cleared ram, Finset.mem_range]
    refine and_congr_right fun hq => ?_
    rw [marked_cleared ram ds hq]
    simp
  · apply Finset.ext
    intro q
    rw [mem_changed, mem_strayPages, clearStray_iff, mem_strays]
    tauto

section Counters

variable {ram : ByteMemory} {mmap mmapSize z : UInt64} {s s' : Machine}

/-- The used memory: the pages that `lockPages` counts. -/
theorem usedMemory_eq (hboot : AtBoot ram mmap mmapSize z s)
    (h : readEFIMemoryMap mmap mmapSize z s = some s') :
    s'.memInfo.usedMemory = UInt64.ofNat
      ((bufferPages (mapOf ram mmap mmapSize z) (LockCover (mapOf ram mmap mmapSize z))).card +
        (strayPages ram (mapOf ram mmap mmapSize z)
          (LockCover (mapOf ram mmap mmapSize z))).card) * 4096 := by
  rw [(readEFIMemoryMap_stages hboot h).field_keep MemDesc.usedMemory_reserve,
    (locked_marks ram _).field_move MemDesc.usedMemory_lock, card_changed_cleared]
  simp only [cleared, zero_add]

/-- The reserved memory: the pages of the reserve pass that are not locked. -/
theorem reservedMemory_eq (hboot : AtBoot ram mmap mmapSize z s)
    (h : readEFIMemoryMap mmap mmapSize z s = some s') (cov : Nat → Prop)
    (hcov : ∀ q, PassCover mmap z (locked ram (mapOf ram mmap mmapSize z))
      (mmapSize / z).toNat q ↔ cov q) :
    s'.memInfo.reservedMemory = UInt64.ofNat
      ((bufferPages (mapOf ram mmap mmapSize z)
          (fun q => cov q ∧ ¬ LockCover (mapOf ram mmap mmapSize z) q)).card +
        (strayPages ram (mapOf ram mmap mmapSize z)
          (fun q => cov q ∧ ¬ LockCover (mapOf ram mmap mmapSize z) q)).card) * 4096 := by
  have hlock := locked_marks ram (mapOf ram mmap mmapSize z)
  have hpass := (readEFIMemoryMap_stages hboot h).congr fun q => (hcov q).symm
  have hmove : ∀ m : MemDesc, m.reserve.reservedMemory = m.reservedMemory + 4096 := fun _ => rfl
  rw [hpass.field_move hmove, hlock.field_keep MemDesc.reservedMemory_lock, hlock.reach_eq,
    changed_after hlock.update, card_changed_cleared]
  simp only [cleared, zero_add]

/-- The free memory is what the others leave of the size. -/
theorem freeMemory_eq (hboot : AtBoot ram mmap mmapSize z s)
    (h : readEFIMemoryMap mmap mmapSize z s = some s') :
    s'.memInfo.freeMemory =
      s'.memInfo.memSizeBytes - s'.memInfo.reservedMemory - s'.memInfo.usedMemory := by
  rw [← (counted_readEFIMemoryMap hboot h).total, MemDesc.total]
  ring

end Counters

/-! ## Two runs -/

/-- The two states have one bitmap, with the same bytes, and the same counters. -/
structure SameResult (s s' : Machine) : Prop where
  memBitMap : s'.memInfo.memBitMap = s.memInfo.memBitMap
  contents : ∀ a, InRange s.memInfo.memBitMap.buffer s.memInfo.memBitMap.size.toNat a →
    s'.ram.bytes a = s.ram.bytes a
  memSizeBytes : s'.memInfo.memSizeBytes = s.memInfo.memSizeBytes
  freeMemory : s'.memInfo.freeMemory = s.memInfo.freeMemory
  usedMemory : s'.memInfo.usedMemory = s.memInfo.usedMemory
  reservedMemory : s'.memInfo.reservedMemory = s.memInfo.reservedMemory

/-- The contents of a bitmap are its bits. -/
theorem contents_iff {s s' : Machine} (hbm : s'.memInfo.memBitMap = s.memInfo.memBitMap) :
    (∀ a, InRange s.memInfo.memBitMap.buffer s.memInfo.memBitMap.size.toNat a →
        s'.ram.bytes a = s.ram.bytes a) ↔
      ∀ p, p < s.bits → s'.marked p = s.marked p := by
  unfold bits marked
  rw [hbm]
  exact BitMap.bytes_iff_bits s.memInfo.memBitMap.size.toNat_lt.le

/-- Two numbers of pages that differ by less than the wrap of a counter. -/
theorem ofNat_mul_pages_inj {n k k' : Nat} (hk : k ≤ 8) (hk' : k' ≤ 8) :
    UInt64.ofNat (n + k) * 4096 = UInt64.ofNat (n + k') * 4096 ↔ k = k' := by
  constructor
  · intro heq
    have hnat := congrArg UInt64.toNat heq
    rw [UInt64.toNat_mul, UInt64.toNat_mul, UInt64.toNat_ofNat', UInt64.toNat_ofNat'] at hnat
    simp only [UInt64.reduceToNat] at hnat
    omega
  · intro heq
    rw [heq]

theorem card_strayPages_le (ram : ByteMemory) (ds : List EfiMemoryDescriptor)
    (cov : Nat → Prop) : (strayPages ram ds cov).card ≤ 8 := by
  refine le_trans (Finset.card_le_card (strayPages_subset ram ds cov)) ?_
  rw [Nat.card_Ico]
  omega

private theorem and_not_iff_of_or_iff {a b c : Prop} (h : a ∨ b ↔ a ∨ c) :
    (b ∧ ¬ a) ↔ (c ∧ ¬ a) := by
  by_cases ha : a
  · simp only [ha, not_true, and_false]
  · simpa only [ha, false_or, not_false_eq_true, and_true] using h

section TwoRuns

variable {ram ram' : ByteMemory} {mmap mmapSize z : UInt64} {s s' s₀ s₀' : Machine}
  {ds ds' : List EfiMemoryDescriptor} (cov cov' : Nat → Prop)
  (hboot : AtBoot ram mmap mmapSize z s) (hboot' : AtBoot ram' mmap mmapSize z s')
  (hread : readEFIMemoryMap mmap mmapSize z s = some s₀)
  (hread' : readEFIMemoryMap mmap mmapSize z s' = some s₀')
  (hds : mapOf ram mmap mmapSize z = ds) (hds' : mapOf ram' mmap mmapSize z = ds')
  (hperm : ds'.Perm ds) (hbase : bitmapBase ds' = bitmapBase ds)

include hboot hboot' hread hread' hds hds' hperm hbase

/-- The runs have the same bits when they lock or reserve the same pages. -/
private theorem marked_iff_of_cover
    (hcov : ∀ q, PassCover mmap z (locked ram ds) (mmapSize / z).toNat q ↔ cov q)
    (hcov' : ∀ q, PassCover mmap z (locked ram' ds') (mmapSize / z).toNat q ↔ cov' q) :
    (∀ p, p < s₀.bits → s₀'.marked p = s₀.marked p) ↔
      ∀ p, p < 8 * (bitmapSize ds).toNat →
        (LockCover ds p ∨ cov' p ↔ LockCover ds p ∨ cov p) := by
  have hsize := bitmapSize_perm hperm
  have hbits := bits_of_readEFIMemoryMap hboot hread
  have hbits' := bits_of_readEFIMemoryMap hboot' hread'
  rw [hds] at hbits
  rw [hds'] at hbits'
  rw [hbits]
  refine forall₂_congr fun p hp => ?_
  rw [Bool.eq_iff_iff, marked_readEFIMemoryMap hboot hread (by rw [hbits]; exact hp),
    marked_readEFIMemoryMap hboot' hread' (by rw [hbits', hsize]; exact hp), BootCover,
    BootCover, hds, hds', hcov, hcov', lockCover_eq hbase hsize]

/-- The runs have the same used memory when their lock passes count the same
number of pages behind the buffer. -/
private theorem usedMemory_iff_of_cover :
    s₀'.memInfo.usedMemory = s₀.memInfo.usedMemory ↔
      (strayPages ram' ds' (LockCover ds')).card = (strayPages ram ds (LockCover ds)).card := by
  have hsize := bitmapSize_perm hperm
  have hused := usedMemory_eq hboot hread
  have hused' := usedMemory_eq hboot' hread'
  rw [hds] at hused
  rw [hds'] at hused'
  have hlocked : bufferPages ds' (LockCover ds') = bufferPages ds (LockCover ds) := by
    apply Finset.ext
    intro p
    rw [mem_bufferPages, mem_bufferPages, hsize, lockCover_eq hbase hsize]
  rw [hused, hused', hlocked]
  exact ofNat_mul_pages_inj (card_strayPages_le _ _ _) (card_strayPages_le _ _ _)

/-- Runs with the same bits have the same reserved memory when their reserve
passes count the same number of pages behind the buffer. -/
private theorem reservedMemory_iff_of_cover
    (hcov : ∀ q, PassCover mmap z (locked ram ds) (mmapSize / z).toNat q ↔ cov q)
    (hcov' : ∀ q, PassCover mmap z (locked ram' ds') (mmapSize / z).toNat q ↔ cov' q)
    (hsame : ∀ p, p < 8 * (bitmapSize ds).toNat →
      (LockCover ds p ∨ cov' p ↔ LockCover ds p ∨ cov p)) :
    s₀'.memInfo.reservedMemory = s₀.memInfo.reservedMemory ↔
      (strayPages ram' ds' (fun p => cov' p ∧ ¬ LockCover ds' p)).card =
        (strayPages ram ds (fun p => cov p ∧ ¬ LockCover ds p)).card := by
  have hsize := bitmapSize_perm hperm
  have hres := reservedMemory_eq hboot hread cov (by rw [hds]; exact hcov)
  have hres' := reservedMemory_eq hboot' hread' cov' (by rw [hds']; exact hcov')
  rw [hds] at hres
  rw [hds'] at hres'
  have hpages : bufferPages ds' (fun p => cov' p ∧ ¬ LockCover ds' p) =
      bufferPages ds (fun p => cov p ∧ ¬ LockCover ds p) := by
    apply Finset.ext
    intro p
    rw [mem_bufferPages, mem_bufferPages, hsize, lockCover_eq hbase hsize]
    exact and_congr_right fun hp => and_not_iff_of_or_iff (hsame p hp)
  rw [hres, hres', hpages]
  exact ofNat_mul_pages_inj (card_strayPages_le _ _ _) (card_strayPages_le _ _ _)

/-- The pages that the two runs lock or reserve, when the reserve passes visit
`cov` and `cov'`, decide whether the results are the same. -/
theorem sameResult_iff_of_cover
    (hcov : ∀ q, PassCover mmap z (locked ram ds) (mmapSize / z).toNat q ↔ cov q)
    (hcov' : ∀ q, PassCover mmap z (locked ram' ds') (mmapSize / z).toNat q ↔ cov' q) :
    SameResult s₀ s₀' ↔
      (∀ p, p < 8 * (bitmapSize ds).toNat →
        (LockCover ds p ∨ cov' p ↔ LockCover ds p ∨ cov p)) ∧
      (strayPages ram' ds' (LockCover ds')).card = (strayPages ram ds (LockCover ds)).card ∧
      (strayPages ram' ds' (fun p => cov' p ∧ ¬ LockCover ds' p)).card =
        (strayPages ram ds (fun p => cov p ∧ ¬ LockCover ds p)).card := by
  have hsize := bitmapSize_perm hperm
  have hbm : s₀'.memInfo.memBitMap = s₀.memInfo.memBitMap := by
    rw [memBitMap_of_readEFIMemoryMap hboot hread, memBitMap_of_readEFIMemoryMap hboot' hread',
      hds, hds', hbase, hsize]
  have hmem : s₀'.memInfo.memSizeBytes = s₀.memInfo.memSizeBytes := by
    rw [memSizeBytes_of_readEFIMemoryMap hboot hread,
      memSizeBytes_of_readEFIMemoryMap hboot' hread', hds, hds', totalSize_perm hperm]
  have hmarks :=
    marked_iff_of_cover cov cov' hboot hboot' hread hread' hds hds' hperm hbase hcov hcov'
  have hused := usedMemory_iff_of_cover hboot hboot' hread hread' hds hds' hperm hbase
  have hreserved :=
    reservedMemory_iff_of_cover cov cov' hboot hboot' hread hread' hds hds' hperm hbase hcov hcov'
  constructor
  · intro h
    have hsame := hmarks.mp ((contents_iff hbm).mp h.contents)
    exact ⟨hsame, hused.mp h.usedMemory, (hreserved hsame).mp h.reservedMemory⟩
  · intro h
    obtain ⟨hsame, hl, hr⟩ := h
    have hres := (hreserved hsame).mpr hr
    have huse := hused.mpr hl
    refine ⟨hbm, (contents_iff hbm).mpr (hmarks.mpr hsame), hmem, ?_, huse, hres⟩
    rw [freeMemory_eq hboot hread, freeMemory_eq hboot' hread', hmem, hres, huse]

end TwoRuns

/-- What the types of the two first descriptors must not do when the map begins
right behind the buffer: reserve different pages of the buffer, or make the
passes count different numbers of the pages whose bits lie in that type. -/
structure SameStray (ram ram' : ByteMemory) (ds ds' : List EfiMemoryDescriptor) : Prop where
  buffer : ∀ p, p < 8 * (bitmapSize ds).toNat →
    (LockCover ds p ∨ ReserveCover (strayed ds') p ↔
      LockCover ds p ∨ ReserveCover (strayed ds) p)
  locked : (strayPages ram' ds' (LockCover ds')).card = (strayPages ram ds (LockCover ds)).card
  reserved : (strayPages ram' ds'
      (fun p => ReserveCover (strayed ds') p ∧ ¬ LockCover ds' p)).card =
    (strayPages ram ds (fun p => ReserveCover (strayed ds) p ∧ ¬ LockCover ds p)).card

/-- The byte after the buffer, when it is not in the array, is the same in both
memories. -/
theorem strayPages_congr {ram ram' : ByteMemory} {mmap mmapSize : UInt64}
    {ds ds' : List EfiMemoryDescriptor} {cov cov' : Nat → Prop}
    (hagree : ∀ a, ¬ InRange mmap mmapSize.toNat a → ram'.bytes a = ram.bytes a)
    (hapart : ArrayApart mmap mmapSize ds) (hbase : bitmapBase ds' = bitmapBase ds)
    (hsize : bitmapSize ds' = bitmapSize ds) (hcov : ∀ p, cov' p ↔ cov p) :
    strayPages ram' ds' cov' = strayPages ram ds cov := by
  have hbyte : ram'.bytes (bitmapBase ds + bitmapSize ds) =
      ram.bytes (bitmapBase ds + bitmapSize ds) := by
    refine hagree _ fun hin => hapart _ hin ?_
    obtain ⟨k, _, hk, heq⟩ := exists_offset_of_inRange hin
    rw [← UInt64.ofNat_toNat (x := bitmapSize ds)]
    exact (inRange_add_ofNat (bitmapSize ds).toNat_lt).mpr (by simp)
  apply Finset.ext
  intro p
  rw [mem_strayPages, mem_strayPages, ClearStray, ClearStray, hbase, hsize, hbyte, hcov]

section Places

variable {ram ram' : ByteMemory} {mmap mmapSize z : UInt64} {s s' s₀ s₀' : Machine}
  {ds ds' : List EfiMemoryDescriptor} (hboot : AtBoot ram mmap mmapSize z s)
  (hboot' : AtBoot ram' mmap mmapSize z s')
  (hread : readEFIMemoryMap mmap mmapSize z s = some s₀)
  (hread' : readEFIMemoryMap mmap mmapSize z s' = some s₀')
  (hds : mapOf ram mmap mmapSize z = ds) (hds' : mapOf ram' mmap mmapSize z = ds')

include hboot hboot' hread hread' hds hds'

/-- The same bitmap lies at the same place. -/
private theorem bitmapBase_of_sameResult (h : SameResult s₀ s₀') :
    bitmapBase ds' = bitmapBase ds := by
  have hbm := congrArg BitMap.buffer h.memBitMap
  rw [memBitMap_of_readEFIMemoryMap hboot hread, memBitMap_of_readEFIMemoryMap hboot' hread',
    hds, hds'] at hbm
  exact hbm

variable (hperm : ds'.Perm ds) (hbase : bitmapBase ds' = bitmapBase ds)
  (hstride : EfiMemoryDescriptor.size ≤ z.toNat)

include hperm hbase hstride

/-- With the map right behind the buffer the types of the first descriptors decide. -/
private theorem sameResult_iff_of_adjacent (htypes : ∀ d ∈ ds, d.type ≤ 15)
    (hapart : StorageApart mmap mmapSize ds) (heq : mmap = bitmapBase ds + bitmapSize ds) :
    SameResult s₀ s₀' ↔ SameStray ram ram' ds ds' := by
  have hsize := bitmapSize_perm hperm
  have htypes' : ∀ d ∈ ds', d.type ≤ 15 := fun d hd => htypes d (hperm.mem_iff.mp hd)
  have hapart' : StorageApart mmap mmapSize ds' := by
    rw [StorageApart, hbase, hsize]
    exact hapart
  have hmain := fun cov cov' =>
    sameResult_iff_of_cover cov cov' hboot hboot' hread hread' hds hds' hperm hbase
  subst hds hds'
  rw [hmain _ _ (passCover_of_adjacent htypes hstride hapart heq)
    (passCover_of_adjacent htypes' hstride hapart' (by rw [hbase, hsize]; exact heq))]
  constructor
  · intro ⟨hbuf, hlock, hres⟩
    exact ⟨hbuf, hlock, hres⟩
  · intro hstray
    exact ⟨hstray.buffer, hstray.locked, hstray.reserved⟩

/-- With the map apart from the buffer the results are the same. -/
private theorem sameResult_of_arrayApart
    (hagree : ∀ a, ¬ InRange mmap mmapSize.toNat a → ram'.bytes a = ram.bytes a)
    (harray : ArrayApart mmap mmapSize ds) : SameResult s₀ s₀' := by
  have hsize := bitmapSize_perm hperm
  have hlock := lockCover_eq hbase hsize
  have harray' : ArrayApart mmap mmapSize ds' := by
    rw [ArrayApart, hbase, hsize]
    exact harray
  have hmain := fun cov cov' =>
    sameResult_iff_of_cover cov cov' hboot hboot' hread hread' hds hds' hperm hbase
  subst hds hds'
  rw [hmain _ _ (passCover_of_arrayApart hstride harray)
    (passCover_of_arrayApart hstride harray')]
  refine ⟨?_, ?_, ?_⟩
  · exact fun p _ => or_congr_right (reserveCover_perm hperm p)
  · rw [strayPages_congr hagree harray hbase hsize hlock]
  · rw [strayPages_congr hagree harray hbase hsize fun p =>
      and_congr (reserveCover_perm hperm p) (not_congr (hlock p))]

end Places

/-- A descriptor is stored in its own bytes. -/
theorem bytes_writeDesc_of_not_inRange (d : EfiMemoryDescriptor) (ram : ByteMemory)
    {desc a : UInt64} (ha : ¬ InRange desc EfiMemoryDescriptor.size a) :
    (d.write ram desc).bytes a = ram.bytes a := by
  have hfield : ∀ (off len : Nat), off + len ≤ EfiMemoryDescriptor.size →
      ¬ InRange (desc + UInt64.ofNat off) len a :=
    fun off len hle h => ha (inRange_of_offset hle (by decide) h)
  have htype : ¬ InRange desc 4 a := fun h => ha (inRange_mono h (by decide))
  rw [EfiMemoryDescriptor.write, show (24 : UInt64) = UInt64.ofNat 24 from rfl,
    bytes_write64_of_not_inRange _ _ (hfield 24 8 (by decide)),
    show (8 : UInt64) = UInt64.ofNat 8 from rfl,
    bytes_write64_of_not_inRange _ _ (hfield 8 8 (by decide)),
    bytes_writeLE_of_not_inRange _ _ (by decide) htype]

/-- A map is stored in the bytes of its array. -/
theorem bytes_storeMap_of_not_inRange (ram : ByteMemory) {mmap z a : UInt64}
    {ds : List EfiMemoryDescriptor} (hz : EfiMemoryDescriptor.size ≤ z.toNat)
    (hlen : ds.length * z.toNat ≤ 2 ^ 64) (ha : ¬ InRange mmap (ds.length * z.toNat) a) :
    (storeMap ram mmap z ds).bytes a = ram.bytes a := by
  induction ds generalizing mmap with
  | nil => rfl
  | cons d ds ih =>
    rw [List.length_cons, Nat.succ_mul] at hlen ha
    have hfirst : ¬ InRange mmap EfiMemoryDescriptor.size a := fun h =>
      ha (inRange_mono h (by omega))
    have hrest : ¬ InRange (mmap + z) (ds.length * z.toNat) a := by
      intro h
      rw [← UInt64.ofNat_toNat (x := z)] at h
      exact ha (inRange_of_offset (by simp; omega) hlen h)
    rw [storeMap, bytes_writeDesc_of_not_inRange d _ hfirst, ih (by omega) hrest]

/-- Two first calls of `readEFIMemoryMap`, on a map with one largest region and
on a permutation of its descriptors: both return, and they leave the same
bitmap and the same counters if and only if the order does not change which
region the 64-bit sizes make the largest, and, where the map begins right
behind the buffer, the types of the two first descriptors are as `SameStray`
says. -/
theorem sameResult_iff {ram ram' : ByteMemory} {mmap mmapSize mmapDescSize : UInt64}
    {s s' : Machine} (hboot : AtBoot ram mmap mmapSize mmapDescSize s)
    (hboot' : AtBoot ram' mmap mmapSize mmapDescSize s')
    (hagree : ∀ a, ¬ InRange mmap mmapSize.toNat a → ram'.bytes a = ram.bytes a)
    (hperm : (mapOf ram' mmap mmapSize mmapDescSize).Perm (mapOf ram mmap mmapSize mmapDescSize))
    (hstride : EfiMemoryDescriptor.size ≤ mmapDescSize.toNat)
    (htypes : ∀ d ∈ mapOf ram mmap mmapSize mmapDescSize, d.type ≤ 15)
    (hlargest : UniqueLargest (mapOf ram mmap mmapSize mmapDescSize))
    (hapart : StorageApart mmap mmapSize (mapOf ram mmap mmapSize mmapDescSize)) :
    ∃ s₀ s₀', readEFIMemoryMap mmap mmapSize mmapDescSize s = some s₀ ∧
      readEFIMemoryMap mmap mmapSize mmapDescSize s' = some s₀' ∧
      (SameResult s₀ s₀' ↔
        (SizesFit (mapOf ram mmap mmapSize mmapDescSize) ∨
          SamePlace (mapOf ram mmap mmapSize mmapDescSize)
            (mapOf ram' mmap mmapSize mmapDescSize)) ∧
        (mmap = bitmapBase (mapOf ram mmap mmapSize mmapDescSize) +
            bitmapSize (mapOf ram mmap mmapSize mmapDescSize) →
          SameStray ram ram' (mapOf ram mmap mmapSize mmapDescSize)
            (mapOf ram' mmap mmapSize mmapDescSize))) := by
  generalize hds : mapOf ram mmap mmapSize mmapDescSize = ds at *
  generalize hds' : mapOf ram' mmap mmapSize mmapDescSize = ds' at *
  have htypes' : ∀ d ∈ ds', d.type ≤ 15 := fun d hd => htypes d (hperm.mem_iff.mp hd)
  have hz := ne_zero_of_size_le hstride
  obtain ⟨s₀, hread, _⟩ := reservePass_marks mmap (mmapSize / mmapDescSize) mmapDescSize
    (locked ram ds)
  obtain ⟨s₀', hread', _⟩ := reservePass_marks mmap (mmapSize / mmapDescSize) mmapDescSize
    (locked ram' ds')
  rw [← hds, ← readEFIMemoryMap_eq hboot hz (by rw [hds]; exact htypes)] at hread
  rw [← hds', ← readEFIMemoryMap_eq hboot' hz (by rw [hds']; exact htypes')] at hread'
  refine ⟨s₀, s₀', hread, hread', ?_⟩
  have hplace : SizesFit ds ∨ SamePlace ds ds' ↔ SamePlace ds ds' :=
    or_iff_right_of_imp fun hfit => hlargest.samePlace hfit hperm
  rw [hplace]
  by_cases hbase : bitmapBase ds' = bitmapBase ds
  · have hsame : SamePlace ds ds' := (bitmapBase_eq_iff hperm).mp hbase
    by_cases heq : mmap = bitmapBase ds + bitmapSize ds
    · rw [sameResult_iff_of_adjacent hboot hboot' hread hread' hds hds' hperm hbase hstride htypes
        hapart heq]
      exact ⟨fun hstray => ⟨hsame, fun _ => hstray⟩, fun h => h.2 heq⟩
    · have hresult := sameResult_of_arrayApart hboot hboot' hread hread' hds hds' hperm hbase
        hstride hagree (hapart.arrayApart heq)
      exact iff_of_true hresult ⟨hsame, fun h => absurd h heq⟩
  · have hdiff : ¬ SamePlace ds ds' := fun h => hbase ((bitmapBase_eq_iff hperm).mpr h)
    refine ⟨fun h => absurd ?_ hbase, fun h => absurd h.1 hdiff⟩
    exact bitmapBase_of_sameResult hboot hboot' hread hread' hds hds' h

/-- The map of the example with its two descriptors exchanged. -/
def exchangedRam : ByteMemory := storeMap ⟨fun _ => 0⟩ 0x40008 48 adjacentMap.reverse

/-- The conventional region in front gets reserved when it is the one with ten
pages, since its type is the byte in which the page of the bitmap has its bit.
With the other one in front none of the ten pages does. -/
theorem not_sameResult_of_adjacent :
    (∀ a, ¬ InRange 0x40008 (96 : UInt64).toNat a → exchangedRam.bytes a = adjacentRam.bytes a) ∧
      (mapOf exchangedRam 0x40008 96 48).Perm (mapOf adjacentRam 0x40008 96 48) ∧
      (∀ d ∈ mapOf adjacentRam 0x40008 96 48, d.type ≤ 15) ∧
      UniqueLargest (mapOf adjacentRam 0x40008 96 48) ∧
      StorageApart 0x40008 96 (mapOf adjacentRam 0x40008 96 48) ∧
      ∃ s₀ s₀', readEFIMemoryMap 0x40008 96 48 (boot adjacentRam) = some s₀ ∧
        readEFIMemoryMap 0x40008 96 48 (boot exchangedRam) = some s₀' ∧
        ¬ SameResult s₀ s₀' := by
  have hmap : mapOf exchangedRam 0x40008 96 48 = adjacentMap.reverse := by decide +kernel
  rw [hmap, mapOf_adjacentRam]
  refine ⟨?_, List.reverse_perm _, by decide, ?_, storageApart_adjacentRam, ?_⟩
  · intro a ha
    rw [exchangedRam, adjacentRam, bytes_storeMap_of_not_inRange _ (by decide) (by decide) ha,
      bytes_storeMap_of_not_inRange _ (by decide) (by decide) ha]
  · exact ⟨⟨7, 0x40000, 46⟩, [⟨7, 0, 10⟩], [], rfl, rfl, by decide⟩
  · have heval : ((readEFIMemoryMap 0x40008 96 48 (boot adjacentRam)).map fun s =>
        (s.bits, s.marked 0)) = some (64, true) := by decide +kernel
    have heval' : ((readEFIMemoryMap 0x40008 96 48 (boot exchangedRam)).map fun s =>
        s.marked 0) = some false := by decide +kernel
    obtain ⟨s₀, hread, hpair⟩ := Option.map_eq_some_iff.mp heval
    obtain ⟨s₀', hread', hmark'⟩ := Option.map_eq_some_iff.mp heval'
    obtain ⟨hbits, hmark⟩ := Prod.mk.inj hpair
    refine ⟨s₀, s₀', hread, hread', fun h => ?_⟩
    have hsame := (contents_iff h.memBitMap).mp h.contents 0 (by rw [hbits]; decide)
    rw [hmark, hmark'] at hsame
    cases hsame

/-- Two orders of a map at 1 MiB: the map is not right behind the bitmap, and the results
are the same. -/
theorem sameResult_sample :
    ∃ s₀ s₀', readEFIMemoryMap 0x100000 96 48
        (boot (sampleRam [⟨7, 0, 8⟩, ⟨2, 0x8000, 8⟩])) = some s₀ ∧
      readEFIMemoryMap 0x100000 96 48
        (boot (sampleRam [⟨2, 0x8000, 8⟩, ⟨7, 0, 8⟩])) = some s₀' ∧
      SizesFit [⟨7, 0, 8⟩, ⟨2, 0x8000, 8⟩] ∧
      0x100000 ≠ bitmapBase [⟨7, 0, 8⟩, ⟨2, 0x8000, 8⟩] +
        bitmapSize [⟨7, 0, 8⟩, ⟨2, 0x8000, 8⟩] ∧
      SameResult s₀ s₀' := by
  have hmap : mapOf (sampleRam [⟨7, 0, 8⟩, ⟨2, 0x8000, 8⟩]) 0x100000 96 48 =
      [⟨7, 0, 8⟩, ⟨2, 0x8000, 8⟩] := by decide +kernel
  have hmap' : mapOf (sampleRam [⟨2, 0x8000, 8⟩, ⟨7, 0, 8⟩]) 0x100000 96 48 =
      [⟨2, 0x8000, 8⟩, ⟨7, 0, 8⟩] := by decide +kernel
  have hfit : SizesFit [⟨7, 0, 8⟩, ⟨2, 0x8000, 8⟩] := by
    intro d hd _
    rcases List.mem_pair.mp hd with rfl | rfl
    · decide
    · decide
  have hbehind : 0x100000 ≠ bitmapBase [⟨7, 0, 8⟩, ⟨2, 0x8000, 8⟩] +
      bitmapSize [⟨7, 0, 8⟩, ⟨2, 0x8000, 8⟩] := by decide +kernel
  have hiff := @sameResult_iff (sampleRam [⟨7, 0, 8⟩, ⟨2, 0x8000, 8⟩])
    (sampleRam [⟨2, 0x8000, 8⟩, ⟨7, 0, 8⟩]) 0x100000 96 48 _ _ AtBoot.initial AtBoot.initial
    fun a ha => by
      unfold sampleRam
      rw [bytes_storeMap_of_not_inRange _ (by decide) (by decide) ha,
        bytes_storeMap_of_not_inRange _ (by decide) (by decide) ha]
  rw [hmap, hmap'] at hiff
  obtain ⟨s₀, s₀', hread, hread', hsame⟩ := hiff (List.Perm.swap _ _ _) (by decide) (by decide)
    ⟨⟨7, 0, 8⟩, [], [⟨2, 0x8000, 8⟩], rfl, rfl, by decide⟩
    (disjoint_of_toNat_le (by decide +kernel) (by decide)).symm
  exact ⟨s₀, s₀', hread, hread', hfit, hbehind,
    hsame.mpr ⟨Or.inl hfit, fun heq => absurd heq hbehind⟩⟩

end Machine

end BbnOS
