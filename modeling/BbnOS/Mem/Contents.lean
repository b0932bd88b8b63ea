import BbnOS.Mem.Accounting

/-!
# The bitmap that `readEFIMemoryMap` builds

`ExactBitmap` is the intended result: the set bits of the buffer are the pages
of the bitmap and the pages of the regions that get reserved.

The map may begin right behind the buffer, since the bitmap does not own the
byte there.  But `lockPages` may set bits of that byte, and it is the low byte
of the type in the first descriptor.  `strayMask` are the bits that it sets.
All other descriptors are out of reach, so `exactBitmap_iff` only has to ask
what the changed type does to the pages of the first region.
-/

namespace BbnOS

open ByteBits ByteMemory

namespace Machine

/-- The set bits of the buffer are the pages of the bitmap and the pages of
the reserved regions, and the storage of the bitmap is marked. -/
structure ExactBitmap (ds : List EfiMemoryDescriptor) (s : Machine) : Prop where
  marked_iff : ∀ p, p < s.bits → (s.marked p = true ↔ LockCover ds p ∨ ReserveCover ds p)
  storage : ∀ a, InRange (bitmapBase ds) (bitmapSize ds).toNat a → pageOf a < s.bits →
    s.marked (pageOf a) = true

/-! ## The byte after the buffer -/

/-- The bits that `lockPages` sets in the byte after the buffer when it locks
the pages of the bitmap. -/
def strayMask (ds : List EfiMemoryDescriptor) : UInt8 :=
  maskWhere (fun j => decide (LockCover ds (8 * (bitmapSize ds).toNat + j))) 8

/-- The byte after the buffer when the pages of the bitmap are locked. -/
theorem bytes_locked_stray (ram : ByteMemory) (ds : List EfiMemoryDescriptor) :
    (locked ram ds).ram.bytes (bitmapBase ds + bitmapSize ds) =
      ram.bytes (bitmapBase ds + bitmapSize ds) ||| strayMask ds := by
  have hbit : ∀ ram' : ByteMemory, ∀ j, j < 8 →
      highBit (ram'.bytes (bitmapBase ds + bitmapSize ds)) j =
        BitMap.bit { size := bitmapSize ds, buffer := bitmapBase ds } ram'
          (8 * (bitmapSize ds).toNat + j) := by
    intro ram' j hj
    rw [BitMap.bit, show (8 * (bitmapSize ds).toNat + j) / 8 = (bitmapSize ds).toNat by omega,
      show (8 * (bitmapSize ds).toNat + j) % 8 = j by omega, UInt64.ofNat_toNat]
  have hout : ¬ InRange (bitmapBase ds) (bitmapSize ds).toNat (bitmapBase ds + bitmapSize ds) := by
    rw [← UInt64.ofNat_toNat (x := bitmapSize ds), inRange_add_ofNat (bitmapSize ds).toNat_lt,
      UInt64.ofNat_toNat]
    exact Nat.lt_irrefl _
  have hkept : (cleared ram ds).ram.bytes (bitmapBase ds + bitmapSize ds) =
      ram.bytes (bitmapBase ds + bitmapSize ds) := bytes_fill_of_not_inRange ram 0 hout
  have hmarks := locked_marks ram ds
  refine eq_of_highBit fun j hj => ?_
  have hreach : 8 * (bitmapSize ds).toNat + j < (cleared ram ds).reach := by
    rw [reach_cleared]
    omega
  have hlocked : (locked ram ds).marked (8 * (bitmapSize ds).toNat + j) =
      highBit ((locked ram ds).ram.bytes (bitmapBase ds + bitmapSize ds)) j := by
    rw [hbit _ j hj, marked, hmarks.memBitMap]
    rfl
  have hcleared : (cleared ram ds).marked (8 * (bitmapSize ds).toNat + j) =
      highBit (ram.bytes (bitmapBase ds + bitmapSize ds)) j := by
    rw [← hkept, hbit _ j hj]
    rfl
  rw [highBit_or, strayMask, highBit_maskWhere _ (Nat.le_refl 8) hj, decide_eq_true hj,
    Bool.true_and, ← hlocked, ← hcleared]
  by_cases hcov : LockCover ds (8 * (bitmapSize ds).toNat + j)
  · rw [hmarks.marked_of_covered hreach hcov, decide_eq_true hcov, Bool.or_true]
  · rw [hmarks.marked_of_not_covered hreach hcov, decide_eq_false hcov, Bool.or_false]

/-! ## The map as the reserve pass reads it -/

/-- The descriptor with the stray bits set in its type. -/
def withStray (mask : UInt8) (d : EfiMemoryDescriptor) : EfiMemoryDescriptor :=
  { d with type := d.type ||| mask.toUInt32 }

/-- The map with the stray bits set in its first descriptor. -/
def strayed (ds : List EfiMemoryDescriptor) : List EfiMemoryDescriptor :=
  ds.modifyHead (withStray (strayMask ds))

/-- The storage of the bitmap does not overlap the descriptor array. -/
def StorageApart (mmap mmapSize : UInt64) (ds : List EfiMemoryDescriptor) : Prop :=
  Disjoint mmap mmapSize.toNat (bitmapBase ds) (bitmapSize ds).toNat

section Placement

variable {ram : ByteMemory} {mmap mmapSize z : UInt64} {ds : List EfiMemoryDescriptor}

/-- Unless the array begins right behind the buffer, the bitmap functions do
not reach it. -/
theorem StorageApart.arrayApart (h : StorageApart mmap mmapSize ds)
    (hne : mmap ≠ bitmapBase ds + bitmapSize ds) : ArrayApart mmap mmapSize ds := by
  intro a ha hin
  have hout := h a ha
  obtain ⟨k, hk, hk64, rfl⟩ := exists_offset_of_inRange hin
  rw [inRange_add_ofNat hk64] at hout
  have hksize : k = (bitmapSize ds).toNat := by omega
  subst hksize
  rw [UInt64.ofNat_toNat] at ha
  -- the address before this one is in the buffer, so it is not in the array
  obtain ⟨i, hi, hi64, heq⟩ := exists_offset_of_inRange ha
  rcases Nat.eq_zero_or_pos i with rfl | hpos
  · exact hne (by rw [heq, show UInt64.ofNat 0 = 0 from rfl, add_zero])
  · have hsize : 0 < (bitmapSize ds).toNat := by
      rw [bitmapSize_toNat]
      omega
    have hprev : mmap + UInt64.ofNat (i - 1) =
        bitmapBase ds + UInt64.ofNat ((bitmapSize ds).toNat - 1) := by
      have hi' : UInt64.ofNat i = UInt64.ofNat (i - 1) + 1 := by
        rw [show (1 : UInt64) = UInt64.ofNat 1 from rfl, ← UInt64.ofNat_add,
          Nat.sub_add_cancel hpos]
      have hs' : bitmapSize ds = UInt64.ofNat ((bitmapSize ds).toNat - 1) + 1 := by
        rw [show (1 : UInt64) = UInt64.ofNat 1 from rfl, ← UInt64.ofNat_add,
          Nat.sub_add_cancel hsize, UInt64.ofNat_toNat]
      rw [hi', ← add_assoc] at heq
      exact add_right_cancel (heq.symm.trans (by rw [add_assoc, ← hs']))
    refine h _ ((inRange_add_ofNat (by omega)).mpr (show i - 1 < mmapSize.toNat by omega)) ?_
    rw [hprev, inRange_add_ofNat (Nat.lt_of_le_of_lt (Nat.sub_le _ _) (bitmapSize ds).toNat_lt)]
    omega

/-- Behind its first byte, the array is out of reach of the bitmap functions. -/
theorem StorageApart.not_touched (h : StorageApart mmap mmapSize ds)
    (heq : mmap = bitmapBase ds + bitmapSize ds) {k : Nat} (hpos : 0 < k)
    (hk : k < mmapSize.toNat) :
    ¬ InRange (bitmapBase ds) ((bitmapSize ds).toNat + 1) (mmap + UInt64.ofNat k) := by
  have hk64 : k < 2 ^ 64 := Nat.lt_trans hk mmapSize.toNat_lt
  intro hin
  have hout := h _ ((inRange_add_ofNat hk64).mpr hk)
  obtain ⟨l, hl, hl64, hadd⟩ := exists_offset_of_inRange hin
  rw [hadd, inRange_add_ofNat hl64] at hout
  have hlsize : l = (bitmapSize ds).toNat := by omega
  rw [hlsize, UInt64.ofNat_toNat, ← heq] at hadd
  have hzero : mmap + UInt64.ofNat k = mmap + UInt64.ofNat 0 := by
    rw [hadd, show UInt64.ofNat 0 = 0 from rfl, add_zero]
  have := add_ofNat_injective mmap hk64 (by omega) hzero
  omega

/-- A descriptor behind the first one reads the same in all memories that agree
outside the reach of the bitmap functions. -/
theorem StorageApart.read_eq (h : StorageApart mmap mmapSize ds)
    (heq : mmap = bitmapBase ds + bitmapSize ds) (hz : EfiMemoryDescriptor.size ≤ z.toNat)
    {i : Nat} (hpos : 0 < i) (hi : i < (mmapSize / z).toNat) {t u : ByteMemory}
    (ht : ∀ a, ¬ InRange (bitmapBase ds) ((bitmapSize ds).toNat + 1) a →
      t.bytes a = u.bytes a) :
    EfiMemoryDescriptor.read t (descAt mmap z i) =
      EfiMemoryDescriptor.read u (descAt mmap z i) := by
  refine read_congr fun a ha => ht a ?_
  obtain ⟨k, hlo, hk, rfl⟩ := inRange_array_of_desc hz hi ha
  have hsize : 0 < i * z.toNat := Nat.mul_pos hpos (Nat.lt_of_lt_of_le (by decide) hz)
  exact h.not_touched heq (Nat.lt_of_lt_of_le hsize hlo) hk

/-- The first descriptor, as the reserve pass reads it. -/
theorem StorageApart.read_first (h : StorageApart mmap mmapSize ds)
    (heq : mmap = bitmapBase ds + bitmapSize ds)
    (hsize : EfiMemoryDescriptor.size ≤ mmapSize.toNat)
    (htype : (EfiMemoryDescriptor.read ram mmap).type ≤ 15) :
    EfiMemoryDescriptor.read (locked ram ds).ram mmap =
      withStray (strayMask ds) (EfiMemoryDescriptor.read ram mmap) := by
  have hkeep : ∀ (off len : Nat), 0 < off → off + len ≤ EfiMemoryDescriptor.size →
      ∀ a, InRange (mmap + UInt64.ofNat off) len a →
        (locked ram ds).ram.bytes a = ram.bytes a := by
    intro off len hoff hle a ha
    obtain ⟨k, hk, _, rfl⟩ := exists_offset_of_inRange ha
    rw [add_ofNat_add_ofNat]
    exact bytes_locked ram ds (h.not_touched heq (by omega) (by omega))
  have hlow := bytes_locked_stray ram ds
  rw [← heq] at hlow
  have hread := read32_of_low_byte hlow (hkeep 1 3 (by decide) (by decide))
    (show ram.read32 mmap < 256 from UInt32.lt_of_le_of_lt htype (by decide))
  have hphys := read64_congr (hkeep 8 8 (by decide) (by decide))
  have hnum := read64_congr (hkeep 24 8 (by decide) (by decide))
  unfold EfiMemoryDescriptor.read withStray
  rw [hread, show (8 : UInt64) = UInt64.ofNat 8 from rfl, hphys,
    show (24 : UInt64) = UInt64.ofNat 24 from rfl, hnum]

/-- The map as the reserve pass finds it, when the array begins right behind
the buffer. -/
theorem StorageApart.descriptors_locked
    (h : StorageApart mmap mmapSize (mapOf ram mmap mmapSize z))
    (heq : mmap = bitmapBase (mapOf ram mmap mmapSize z) + bitmapSize (mapOf ram mmap mmapSize z))
    (hz : EfiMemoryDescriptor.size ≤ z.toNat)
    (htypes : ∀ d ∈ mapOf ram mmap mmapSize z, d.type ≤ 15) :
    descriptors (locked ram (mapOf ram mmap mmapSize z)).ram mmap z (mmapSize / z).toNat =
      strayed (mapOf ram mmap mmapSize z) := by
  have hmap : mapOf ram mmap mmapSize z = descriptors ram mmap z (mmapSize / z).toNat := rfl
  rcases hn : (mmapSize / z).toNat with _ | n
  · rw [strayed, hmap, hn]
    rfl
  · have hrest : ∀ i, i < n →
        EfiMemoryDescriptor.read (locked ram (mapOf ram mmap mmapSize z)).ram
            (descAt mmap z (i + 1)) =
          EfiMemoryDescriptor.read ram (descAt mmap z (i + 1)) := fun i hi =>
      h.read_eq heq hz (Nat.succ_pos i) (by omega) fun a ha => bytes_locked ram _ ha
    have hfirst : descAt mmap z 0 = mmap := by simp [descAt]
    have hsize : EfiMemoryDescriptor.size ≤ mmapSize.toNat := by
      rw [UInt64.toNat_div] at hn
      have hone : 1 ≤ mmapSize.toNat / z.toNat := by omega
      exact hz.trans (Nat.div_pos_iff.mp hone).2
    have htype : (EfiMemoryDescriptor.read ram mmap).type ≤ 15 := by
      refine htypes _ (mem_descriptors.mpr ⟨0, by omega, ?_⟩)
      rw [hfirst]
    have hread := h.read_first heq hsize htype
    have hcons : ∀ t : ByteMemory, descriptors t mmap z (n + 1) =
        EfiMemoryDescriptor.read t mmap ::
          (List.range n).map fun i => EfiMemoryDescriptor.read t (descAt mmap z (i + 1)) := by
      intro t
      rw [descriptors, List.range_succ_eq_map, List.map_cons, hfirst, List.map_map]
      rfl
    have hlist : strayed (mapOf ram mmap mmapSize z) =
        withStray (strayMask (mapOf ram mmap mmapSize z)) (EfiMemoryDescriptor.read ram mmap) ::
          (List.range n).map fun i => EfiMemoryDescriptor.read ram (descAt mmap z (i + 1)) := by
      have hmap' : mapOf ram mmap mmapSize z = _ := (hmap.trans (by rw [hn])).trans (hcons ram)
      rw [strayed]
      nth_rewrite 2 [hmap']
      rfl
    rw [hlist, hcons, hread]
    have htail : ((List.range n).map fun i =>
          EfiMemoryDescriptor.read (locked ram (mapOf ram mmap mmapSize z)).ram
            (descAt mmap z (i + 1))) =
        (List.range n).map fun i => EfiMemoryDescriptor.read ram (descAt mmap z (i + 1)) :=
      List.map_congr_left fun i hi => hrest i (List.mem_range.mp hi)
    rw [htail]

end Placement

/-- The pages that the reserve pass visits when the array begins right behind
the buffer. -/
theorem passCover_of_adjacent {ram : ByteMemory} {mmap mmapSize z : UInt64}
    (htypes : ∀ d ∈ mapOf ram mmap mmapSize z, d.type ≤ 15)
    (hz : EfiMemoryDescriptor.size ≤ z.toNat)
    (hapart : StorageApart mmap mmapSize (mapOf ram mmap mmapSize z))
    (heq : mmap = bitmapBase (mapOf ram mmap mmapSize z) + bitmapSize (mapOf ram mmap mmapSize z))
    (q : Nat) :
    PassCover mmap z (locked ram (mapOf ram mmap mmapSize z)) (mmapSize / z).toNat q ↔
      ReserveCover (strayed (mapOf ram mmap mmapSize z)) q := by
  rw [passCover_of_stable, hapart.descriptors_locked heq hz htypes]
  intro i hpos hi t ht
  refine hapart.read_eq heq hz hpos hi fun a ha => ht a ?_
  rw [(locked_marks ram _).memBitMap]
  exact ha

/-- The bit of a page when the array begins right behind the buffer. -/
theorem marked_of_adjacent {ram : ByteMemory} {mmap mmapSize z : UInt64} {s s' : Machine}
    (hboot : AtBoot ram mmap mmapSize z s)
    (hread : readEFIMemoryMap mmap mmapSize z s = some s')
    (hz : EfiMemoryDescriptor.size ≤ z.toNat)
    (hapart : StorageApart mmap mmapSize (mapOf ram mmap mmapSize z))
    (heq : mmap = bitmapBase (mapOf ram mmap mmapSize z) + bitmapSize (mapOf ram mmap mmapSize z))
    {p : Nat} (hp : p < s'.bits) :
    s'.marked p = true ↔ LockCover (mapOf ram mmap mmapSize z) p ∨
      ReserveCover (strayed (mapOf ram mmap mmapSize z)) p := by
  obtain ⟨_, htypes⟩ := readEFIMemoryMap_some hboot hread
  rw [marked_readEFIMemoryMap hboot hread hp, BootCover,
    passCover_of_adjacent htypes hz hapart heq]

/-! ## The storage of the bitmap -/

/-- All regions start at a page. -/
def PageAligned (ds : List EfiMemoryDescriptor) : Prop :=
  ∀ d ∈ ds, d.physAddr.toNat % 4096 = 0

/-- The bitmap starts at a page when all regions do. -/
theorem bitmapBase_mod {ds : List EfiMemoryDescriptor} (h : PageAligned ds) :
    (bitmapBase ds).toNat % 4096 = 0 := by
  have hfold : ∀ seg : UInt64 × UInt64, seg.1.toNat % 4096 = 0 →
      (ds.foldl (fun seg d => largerMemSeg d seg) seg).1.toNat % 4096 = 0 := by
    induction ds with
    | nil => exact fun seg hseg => hseg
    | cons d ds ih =>
      intro seg hseg
      have hstep : (largerMemSeg d seg).1.toNat % 4096 = 0 := by
        unfold largerMemSeg
        split
        · split
          · exact h d List.mem_cons_self
          · exact hseg
        · exact hseg
      exact ih (fun d' hd' => h d' (List.mem_cons_of_mem d hd')) _ hstep
  exact hfold (NULL, 0) rfl

/-- The pages of the bitmap hold all bytes of its storage. -/
theorem lockCover_of_storage {ds : List EfiMemoryDescriptor} (h : PageAligned ds) {a : UInt64}
    (ha : InRange (bitmapBase ds) (bitmapSize ds).toNat a) : LockCover ds (pageOf a) := by
  have hbase := bitmapBase_mod h
  have hlt := (bitmapBase ds).toNat_lt
  have hsize := (bitmapSize ds).toNat_lt
  obtain ⟨k, hk, _, rfl⟩ := exists_offset_of_inRange ha
  refine ⟨k / 4096, ?_, ?_⟩
  · rw [UInt64.toNat_add, UInt64.toNat_div]
    simp only [UInt64.reduceToNat]
    omega
  · rw [pageOf_offset, pageOf_eq, pageOf_eq, toNat_add_ofNat]
    omega

/-! ## The exact bitmap -/

/-- The reserved pages of a map are those of its first region and of the others. -/
theorem reserveCover_cons {d : EfiMemoryDescriptor} {rest : List EfiMemoryDescriptor} {p : Nat} :
    ReserveCover (d :: rest) p ↔
      (d.isReserved = true ∧ d.HasPage p) ∨ ReserveCover rest p := by
  simp only [ReserveCover, List.mem_cons, or_and_right, exists_or, exists_eq_left]

/-- A changed type in the first descriptor does not show if and only if it
reserves the same, or all the pages of the region are covered anyhow. -/
theorem cover_withStray_iff {mask : UInt8} {d : EfiMemoryDescriptor}
    {rest : List EfiMemoryDescriptor} {cov : Nat → Prop} {n : Nat} :
    (∀ p, p < n → (cov p ∨ ReserveCover (withStray mask d :: rest) p ↔
        cov p ∨ ReserveCover (d :: rest) p)) ↔
      (withStray mask d).isReserved = d.isReserved ∨
        ∀ p, p < n → d.HasPage p → cov p ∨ ReserveCover rest p := by
  have hpage : ∀ p, (withStray mask d).HasPage p ↔ d.HasPage p := fun p => Iff.rfl
  constructor
  · intro h
    by_contra hno
    simp only [not_or, not_forall] at hno
    obtain ⟨hne, p, hp, hin, hcov, hrest⟩ := hno
    have hp' := h p hp
    simp only [reserveCover_cons, hpage, hin, hcov, hrest, and_true, or_false, false_or] at hp'
    exact hne (Bool.eq_iff_iff.mpr hp')
  · rintro (heq | hall) p hp
    · rw [reserveCover_cons, reserveCover_cons, heq, hpage]
    · rw [reserveCover_cons, reserveCover_cons, hpage]
      by_cases hin : d.HasPage p
      · rcases hall p hp hin with hcov | hrest
        · simp only [hcov, true_or]
        · simp only [hrest, or_true]
      · simp only [hin, and_false, false_or]

/-- A bitmap is exact when its bits are: the bits of its storage are among them. -/
theorem exactBitmap_iff_marked {s : Machine} {ds : List EfiMemoryDescriptor} (h : PageAligned ds) :
    s.ExactBitmap ds ↔
      ∀ p, p < s.bits → (s.marked p = true ↔ LockCover ds p ∨ ReserveCover ds p) := by
  refine ⟨fun hexact => hexact.marked_iff, fun hmarked => ⟨hmarked, fun a ha hp => ?_⟩⟩
  exact (hmarked _ hp).mpr (Or.inl (lockCover_of_storage h ha))

/-- The bits when the array begins right behind the buffer. -/
theorem marked_iff_of_adjacent {s : Machine} {d : EfiMemoryDescriptor}
    {rest : List EfiMemoryDescriptor} (hbits : s.bits = 8 * (bitmapSize (d :: rest)).toNat)
    (hmarked : ∀ p, p < s.bits → (s.marked p = true ↔
      LockCover (d :: rest) p ∨ ReserveCover (strayed (d :: rest)) p)) :
    (∀ p, p < s.bits → (s.marked p = true ↔
        LockCover (d :: rest) p ∨ ReserveCover (d :: rest) p)) ↔
      (withStray (strayMask (d :: rest)) d).isReserved = d.isReserved ∨
        ∀ p, p < 8 * (bitmapSize (d :: rest)).toNat → d.HasPage p →
          LockCover (d :: rest) p ∨ ReserveCover rest p := by
  have hseen : strayed (d :: rest) = withStray (strayMask (d :: rest)) d :: rest := rfl
  rw [hseen] at hmarked
  rw [← cover_withStray_iff, ← hbits]
  exact forall₂_congr fun p hp => by rw [hmarked p hp]

/-- `readEFIMemoryMap` returns, and it builds the intended bitmap unless the
array begins right behind the buffer and the stray bits turn the first region
from one that is not reserved into one that is, or the other way round, with a
page in the buffer that nothing else covers. -/
theorem exactBitmap_iff {ram : ByteMemory} {mmap mmapSize mmapDescSize : UInt64} {s : Machine}
    (hboot : AtBoot ram mmap mmapSize mmapDescSize s)
    (hstride : EfiMemoryDescriptor.size ≤ mmapDescSize.toNat)
    (htypes : ∀ d ∈ mapOf ram mmap mmapSize mmapDescSize, d.type ≤ 15)
    (haligned : PageAligned (mapOf ram mmap mmapSize mmapDescSize))
    (hapart : StorageApart mmap mmapSize (mapOf ram mmap mmapSize mmapDescSize)) :
    ∃ s₀, readEFIMemoryMap mmap mmapSize mmapDescSize s = some s₀ ∧
      (s₀.ExactBitmap (mapOf ram mmap mmapSize mmapDescSize) ↔
        ∀ d rest, mapOf ram mmap mmapSize mmapDescSize = d :: rest →
          mmap = bitmapBase (d :: rest) + bitmapSize (d :: rest) →
          (withStray (strayMask (d :: rest)) d).isReserved = d.isReserved ∨
            ∀ p, p < 8 * (bitmapSize (d :: rest)).toNat → d.HasPage p →
              LockCover (d :: rest) p ∨ ReserveCover rest p) := by
  obtain ⟨s₀, hpass, _⟩ := reservePass_marks mmap (mmapSize / mmapDescSize) mmapDescSize
    (locked ram (mapOf ram mmap mmapSize mmapDescSize))
  rw [← readEFIMemoryMap_eq hboot (ne_zero_of_size_le hstride) htypes] at hpass
  refine ⟨s₀, hpass, ?_⟩
  have hbits := bits_of_readEFIMemoryMap hboot hpass
  rw [exactBitmap_iff_marked haligned]
  by_cases heq : mmap = bitmapBase (mapOf ram mmap mmapSize mmapDescSize) +
      bitmapSize (mapOf ram mmap mmapSize mmapDescSize)
  · have hmarked : ∀ p, p < s₀.bits → (s₀.marked p = true ↔
        LockCover (mapOf ram mmap mmapSize mmapDescSize) p ∨
          ReserveCover (strayed (mapOf ram mmap mmapSize mmapDescSize)) p) :=
      fun p hp => marked_of_adjacent hboot hpass hstride hapart heq hp
    rcases hmap : mapOf ram mmap mmapSize mmapDescSize with _ | ⟨d, rest⟩
    · rw [hmap] at hmarked
      refine ⟨fun _ d rest h => ?_, fun _ => hmarked⟩
      cases h
    · rw [hmap] at hmarked hbits heq
      rw [marked_iff_of_adjacent hbits hmarked]
      constructor
      · intro h d' rest' hcons _
        obtain ⟨rfl, rfl⟩ := List.cons.inj hcons
        exact h
      · exact fun h => h d rest rfl heq
  · have hmarked : ∀ p, p < s₀.bits → (s₀.marked p = true ↔
        LockCover (mapOf ram mmap mmapSize mmapDescSize) p ∨
          ReserveCover (mapOf ram mmap mmapSize mmapDescSize) p) := by
      intro p hp
      rw [marked_readEFIMemoryMap hboot hpass hp, BootCover,
        passCover_of_arrayApart hstride (hapart.arrayApart heq)]
    refine ⟨fun _ d rest hmap h => ?_, fun _ => hmarked⟩
    rw [hmap] at heq
    exact absurd h heq

/-- Ten pages of conventional memory and the region of the bitmap. -/
def adjacentMap : List EfiMemoryDescriptor := [⟨7, 0, 10⟩, ⟨7, 0x40000, 46⟩]

/-- A memory in which that map begins right behind the buffer. -/
def adjacentRam : ByteMemory := storeMap ⟨fun _ => 0⟩ 0x40008 48 adjacentMap

theorem mapOf_adjacentRam : mapOf adjacentRam 0x40008 96 48 = adjacentMap := by decide +kernel

theorem storageApart_adjacentRam : StorageApart 0x40008 96 adjacentMap :=
  (disjoint_of_toNat_le (by decide +kernel) (by decide +kernel)).symm

/-- Locking the page of the bitmap makes the first type `0x87`, and the reserve
pass reserves a page of conventional memory. -/
theorem not_exactBitmap_of_adjacent :
    StorageApart 0x40008 96 (mapOf adjacentRam 0x40008 96 48) ∧
      ∃ s₀, readEFIMemoryMap 0x40008 96 48 (boot adjacentRam) = some s₀ ∧
        ¬ s₀.ExactBitmap (mapOf adjacentRam 0x40008 96 48) := by
  have heval : ((readEFIMemoryMap 0x40008 96 48 (boot adjacentRam)).map fun s =>
      (s.bits, s.marked 0)) = some (64, true) := by decide +kernel
  obtain ⟨s₀, hread, hpair⟩ := Option.map_eq_some_iff.mp heval
  obtain ⟨hbits, hmark⟩ := Prod.mk.inj hpair
  rw [mapOf_adjacentRam]
  refine ⟨storageApart_adjacentRam, s₀, hread, fun h => ?_⟩
  have hcov := (h.marked_iff 0 (by rw [hbits]; decide)).mp hmark
  rcases hcov with hlock | ⟨d, hd, hres, _⟩
  · exact absurd hlock (by decide +kernel)
  · have hnone : ∀ d ∈ adjacentMap, d.isReserved = false := by decide
    exact absurd (hres.symm.trans (hnone d hd)) (by decide)

/-- A map whose descriptors are not reached by the bitmap functions gets the intended
bitmap. -/
theorem exactBitmap_sample :
    ∃ s₀, readEFIMemoryMap 0x100000 96 48
        (boot (sampleRam [⟨7, 0, 8⟩, ⟨2, 0x8000, 8⟩])) = some s₀ ∧
      0x100000 ≠ bitmapBase [⟨7, 0, 8⟩, ⟨2, 0x8000, 8⟩] +
        bitmapSize [⟨7, 0, 8⟩, ⟨2, 0x8000, 8⟩] ∧
      s₀.ExactBitmap [⟨7, 0, 8⟩, ⟨2, 0x8000, 8⟩] := by
  have hmap : mapOf (sampleRam [⟨7, 0, 8⟩, ⟨2, 0x8000, 8⟩]) 0x100000 96 48 =
      [⟨7, 0, 8⟩, ⟨2, 0x8000, 8⟩] := by decide +kernel
  have hbehind : 0x100000 ≠ bitmapBase [⟨7, 0, 8⟩, ⟨2, 0x8000, 8⟩] +
      bitmapSize [⟨7, 0, 8⟩, ⟨2, 0x8000, 8⟩] := by decide +kernel
  have hiff := @exactBitmap_iff (sampleRam [⟨7, 0, 8⟩, ⟨2, 0x8000, 8⟩]) 0x100000 96 48 _
    AtBoot.initial (by decide)
  rw [hmap] at hiff
  obtain ⟨s₀, hread, hexact⟩ := hiff (by decide) (by rw [PageAligned]; decide)
    (disjoint_of_toNat_le (by decide +kernel) (by decide)).symm
  refine ⟨s₀, hread, hbehind, hexact.mpr fun d rest hcons hplace => ?_⟩
  rw [← hcons] at hplace
  exact absurd hplace hbehind

end Machine

end BbnOS
