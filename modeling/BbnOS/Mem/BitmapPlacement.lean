import BbnOS.Mem.Coverage
import BbnOS.Mem.MapOrder

/-!
# Where the bitmap lies

`readEFIMemoryMap` takes the size of the bitmap from the sum of all regions,
memory-mapped I/O included, and its place from the largest conventional region
alone.  It computes the size of that region, but does not compare it with the
size of the bitmap, and `PGinitBitMap` never answers the `NULL` that its comment
announces.

`bitmapInside_iff` says when the bitmap lies in one conventional region: when
some conventional region has room for it.  Otherwise `PGinitBitMap` clears
bytes past the end of the largest one.
-/

namespace BbnOS

open ByteMemory EfiMemoryType Machine

namespace EfiMemoryDescriptor

/-- `a` is an address of the region. -/
def HasByte (d : EfiMemoryDescriptor) (a : UInt64) : Prop :=
  InRange d.physAddr (4096 * d.numPages.toNat) a

/-- The bytes of an aligned region lie on its pages. -/
theorem HasByte.hasPage {d : EfiMemoryDescriptor} {a : UInt64} (h : d.HasByte a)
    (haligned : d.physAddr.toNat % 4096 = 0) : d.HasPage (pageOf a) := by
  obtain ⟨k, hk, _, rfl⟩ := exists_offset_of_inRange h
  have hlt := d.physAddr.toNat_lt
  refine ⟨k / 4096, by omega, ?_⟩
  rw [pageOf_offset, pageOf_eq, pageOf_eq, toNat_add_ofNat]
  omega

/-- A region of at least `2 ^ 52` pages goes round the address space. -/
theorem hasByte_of_le {d : EfiMemoryDescriptor} (h : 2 ^ 52 ≤ d.numPages.toNat) (a : UInt64) :
    d.HasByte a := by
  have hlt := (a - d.physAddr).toNat_lt
  unfold HasByte InRange
  omega

theorem byteSize_toNat_le (d : EfiMemoryDescriptor) :
    d.byteSize.toNat ≤ 4096 * d.numPages.toNat := by
  rw [byteSize, UInt64.toNat_mul, Nat.mul_comm]
  exact Nat.mod_le _ _

/-- The 64-bit size is the size, unless the region goes round the address
space. -/
theorem byteSize_toNat {d : EfiMemoryDescriptor} (h : d.numPages.toNat < 2 ^ 52) :
    d.byteSize.toNat = 4096 * d.numPages.toNat := by
  rw [byteSize, UInt64.toNat_mul]
  simp only [UInt64.reduceToNat]
  omega

end EfiMemoryDescriptor

/-- The buffer of the bitmap, which `PGinitBitMap` clears, lies in one
conventional region of the map. -/
def BitmapInside (ds : List EfiMemoryDescriptor) (bm : BitMap) : Prop :=
  ∃ d ∈ ds, d.Conventional ∧ ∀ a, InRange bm.buffer bm.size.toNat a → d.HasByte a

/-- Some conventional region has at least as many bytes as the bitmap, which has
a bit for every page of the summed regions and goes up to the next byte. -/
def HasRoom (ds : List EfiMemoryDescriptor) : Prop :=
  ∃ d ∈ ds, d.Conventional ∧ pageCount ds % 2 ^ 52 / 8 + 1 ≤ 4096 * d.numPages.toNat

instance (ds : List EfiMemoryDescriptor) : Decidable (HasRoom ds) :=
  inferInstanceAs (Decidable (∃ d ∈ ds, _))

variable {ds : List EfiMemoryDescriptor}

theorem bitmapSize_eq_pageCount (ds : List EfiMemoryDescriptor) :
    (bitmapSize ds).toNat = pageCount ds % 2 ^ 52 / 8 + 1 := by
  rw [← mapPages_eq_pageCount_mod, mapPages_eq, bitmapSize_toNat, Nat.div_div_eq_div_mul]

/-- An address in two regions of a map is in one region named twice. -/
theorem eq_of_hasByte (haligned : PageAligned ds) (hdisj : PairwiseDisjoint ds)
    {d e : EfiMemoryDescriptor} (hd : d ∈ ds) (he : e ∈ ds) {a : UInt64}
    (hda : d.HasByte a) (hea : e.HasByte a) : d = e := by
  by_contra hne
  have : Std.Symm fun d d' : EfiMemoryDescriptor => ∀ p, d.HasPage p → ¬ d'.HasPage p :=
    ⟨fun _ _ h p hp' hp => h p hp hp'⟩
  have hapart := List.Pairwise.forall hdisj hd he hne
  exact hapart _ (hda.hasPage (haligned d hd)) (hea.hasPage (haligned e he))

/-- The first largest region starts with a byte of its own. -/
theorem FirstLargest.hasByte {d : EfiMemoryDescriptor} (h : FirstLargest ds d) :
    d.HasByte d.physAddr := by
  have hpos := UInt64.lt_iff_toNat_lt.mp h.2.1
  have hle := d.byteSize_toNat_le
  rw [UInt64.toNat_zero] at hpos
  unfold EfiMemoryDescriptor.HasByte InRange
  rw [sub_self, UInt64.toNat_zero]
  omega

/-- A buffer at the start of a region lies in it when it is no larger. -/
theorem inside_iff_le (d : EfiMemoryDescriptor) {size : UInt64} (hsize : 0 < size.toNat) :
    (∀ a, InRange d.physAddr size.toNat a → d.HasByte a) ↔
      size.toNat ≤ 4096 * d.numPages.toNat := by
  constructor
  · intro hall
    have hlt := size.toNat_lt
    have hlast := hall (d.physAddr + UInt64.ofNat (size.toNat - 1))
      ((inRange_add_ofNat (by omega)).mpr (by omega))
    have := (inRange_add_ofNat (by omega)).mp hlast
    omega
  · exact fun hle a ha => inRange_mono ha hle

/-- The bitmap lies in one conventional region if and only if one has room for
it. -/
theorem inside_iff_hasRoom (haligned : PageAligned ds) (hdisj : PairwiseDisjoint ds)
    (hconv : ∃ d ∈ ds, d.Conventional ∧ d.numPages ≠ 0) :
    BitmapInside ds { size := bitmapSize ds, buffer := bitmapBase ds } ↔ HasRoom ds := by
  have hsize := bitmapSize_eq_pageCount ds
  unfold BitmapInside HasRoom
  rw [← hsize]
  rcases bitmapBase_cases ds with ⟨hzero, _⟩ | ⟨f, hf, hbase⟩
  · -- only a region that goes round the address space has pages and the size 0
    obtain ⟨e, he, heconv, hpages⟩ := hconv
    have hlarge : 2 ^ 52 ≤ e.numPages.toNat := by
      by_contra hsmall
      have hbytes := EfiMemoryDescriptor.byteSize_toNat (Nat.not_le.mp hsmall)
      rw [hzero e he heconv, UInt64.toNat_zero] at hbytes
      exact hpages (UInt64.toNat_inj.mp (by rw [UInt64.toNat_zero]; omega))
    refine iff_of_true ⟨e, he, heconv, fun a _ => EfiMemoryDescriptor.hasByte_of_le hlarge a⟩
      ⟨e, he, heconv, by omega⟩
  · simp only [hbase]
    have hpos : 0 < (bitmapSize ds).toNat := by omega
    constructor
    · rintro ⟨d, hd, hdconv, hall⟩
      have hstart : d.HasByte f.physAddr := by
        refine hall _ ?_
        rw [InRange, sub_self, UInt64.toNat_zero]
        exact hpos
      obtain rfl := eq_of_hasByte haligned hdisj hd hf.mem hstart hf.hasByte
      exact ⟨d, hd, hdconv, (inside_iff_le d hpos).mp hall⟩
    · rintro ⟨d, hd, hdconv, hle⟩
      by_cases hsmall : d.numPages.toNat < 2 ^ 52
      · have hmax := UInt64.le_iff_toNat_le.mp (hf.byteSize_le hd hdconv)
        rw [EfiMemoryDescriptor.byteSize_toNat hsmall] at hmax
        have hbytes := f.byteSize_toNat_le
        exact ⟨f, hf.mem, hf.1, (inside_iff_le f hpos).mpr (by omega)⟩
      · exact ⟨d, hd, hdconv,
          fun a _ => EfiMemoryDescriptor.hasByte_of_le (Nat.not_lt.mp hsmall) a⟩

namespace Machine

/-- A bitmap that lies in a conventional region is cleared without a store to
any other memory. -/
theorem bytes_pgInitBitMap_of_inside {bm : BitMap} (h : BitmapInside ds bm) (s : Machine)
    {a : UInt64} (ha : ∀ d ∈ ds, d.Conventional → ¬ d.HasByte a) :
    (pgInitBitMap bm.size bm.buffer s).ram.bytes a = s.ram.bytes a := by
  obtain ⟨d, hd, hconv, hall⟩ := h
  rw [pgInitBitMap, clearLoop_eq_fill _ _ bm.size.toNat_lt.le]
  exact bytes_fill_of_not_inRange s.ram 0 fun hin => ha d hd hconv (hall a hin)

/-- `readEFIMemoryMap` returns, with the bitmap at its place. -/
theorem exists_memBitMap {ram : ByteMemory} {mmap mmapSize z : UInt64} {s : Machine}
    (hboot : AtBoot ram mmap mmapSize z s) (hz : z ≠ 0)
    (htypes : ∀ d ∈ mapOf ram mmap mmapSize z, d.type ≤ 15) :
    ∃ s', readEFIMemoryMap mmap mmapSize z s = some s' ∧
      s'.memInfo.memBitMap =
        { size := bitmapSize (mapOf ram mmap mmapSize z)
          buffer := bitmapBase (mapOf ram mmap mmapSize z) } := by
  obtain ⟨s', hread, _⟩ := reservePass_marks mmap (mmapSize / z) z
    (locked ram (mapOf ram mmap mmapSize z))
  rw [← readEFIMemoryMap_eq hboot hz htypes] at hread
  exact ⟨s', hread, memBitMap_of_readEFIMemoryMap hboot hread⟩

/-- `readEFIMemoryMap` returns, and the bitmap that it leaves lies in one
conventional region of the map if and only if some conventional region has room
for it. -/
theorem bitmapInside_iff {ram : ByteMemory} {mmap mmapSize mmapDescSize : UInt64} {s : Machine}
    (hboot : AtBoot ram mmap mmapSize mmapDescSize s) (hstride : mmapDescSize ≠ 0)
    (htypes : ∀ d ∈ mapOf ram mmap mmapSize mmapDescSize, d.type ≤ 15)
    (haligned : PageAligned (mapOf ram mmap mmapSize mmapDescSize))
    (hdisj : PairwiseDisjoint (mapOf ram mmap mmapSize mmapDescSize))
    (hconv : ∃ d ∈ mapOf ram mmap mmapSize mmapDescSize, d.Conventional ∧ d.numPages ≠ 0) :
    ∃ s', readEFIMemoryMap mmap mmapSize mmapDescSize s = some s' ∧
      (BitmapInside (mapOf ram mmap mmapSize mmapDescSize) s'.memInfo.memBitMap ↔
        HasRoom (mapOf ram mmap mmapSize mmapDescSize)) := by
  obtain ⟨s', hread, hbm⟩ := exists_memBitMap hboot hstride htypes
  refine ⟨s', hread, ?_⟩
  rw [hbm]
  exact inside_iff_hasRoom haligned hdisj hconv

/-- One page of conventional memory, the page of a loader after it, and an I/O
window of 128 MiB: the bitmap has 4097 bytes. -/
def windowMap : List EfiMemoryDescriptor :=
  [⟨7, 0x1000, 1⟩, ⟨2, 0x2000, 1⟩, ⟨11, 0x80000000, 0x8000⟩]

theorem mapOf_windowMap : mapOf (sampleRam windowMap) 0x100000 144 48 = windowMap := by
  decide +kernel

theorem pageAligned_windowMap : PageAligned windowMap := by
  unfold PageAligned
  decide

/-- The regions of `windowMap` are 1, 1 and 32768 pages at pages 1, 2 and
`0x80000`. -/
theorem pairwiseDisjoint_windowMap : PairwiseDisjoint windowMap := by
  have hconv : ∀ p, EfiMemoryDescriptor.HasPage ⟨7, 0x1000, 1⟩ p → p = 1 := by
    intro p hp
    have := (covers_iff_of_le p (by decide)).mp hp
    rw [show pageOf 0x1000 = 1 from by decide, show (1 : UInt64).toNat = 1 from rfl] at this
    omega
  have hloader : ∀ p, EfiMemoryDescriptor.HasPage ⟨2, 0x2000, 1⟩ p → p = 2 := by
    intro p hp
    have := (covers_iff_of_le p (by decide)).mp hp
    rw [show pageOf 0x2000 = 2 from by decide, show (1 : UInt64).toNat = 1 from rfl] at this
    omega
  have hio : ∀ p, EfiMemoryDescriptor.HasPage ⟨11, 0x80000000, 0x8000⟩ p → 0x80000 ≤ p := by
    intro p hp
    have := ((covers_iff_of_le p (by decide)).mp hp).1
    rw [show pageOf 0x80000000 = 0x80000 from by decide] at this
    exact this
  rw [windowMap, PairwiseDisjoint, List.pairwise_cons, List.pairwise_pair]
  refine ⟨?_, fun p hp hp' => ?_⟩
  · intro d hd p hp hp'
    rw [hconv p hp] at hp'
    rcases List.mem_pair.mp hd with rfl | rfl
    · exact absurd (hloader 1 hp') (by omega)
    · exact absurd (hio 1 hp') (by omega)
  · have := hio p hp'
    rw [hloader p hp] at this
    omega

/-- The last byte of that bitmap lies on the page of the loader. -/
theorem not_bitmapInside_of_window :
    mapOf (sampleRam windowMap) 0x100000 144 48 = windowMap ∧
      (∀ d ∈ windowMap, d.type ≤ 15) ∧ PageAligned windowMap ∧ PairwiseDisjoint windowMap ∧
      (∃ d ∈ windowMap, d.Conventional ∧ d.numPages ≠ 0) ∧
      ∃ s', readEFIMemoryMap 0x100000 144 48 (boot (sampleRam windowMap)) = some s' ∧
        ¬ BitmapInside windowMap s'.memInfo.memBitMap := by
  have htypes : ∀ d ∈ windowMap, d.type ≤ 15 := by decide
  have hconv : ∃ d ∈ windowMap, d.Conventional ∧ d.numPages ≠ 0 :=
    ⟨⟨7, 0x1000, 1⟩, List.mem_cons_self, rfl, by decide⟩
  obtain ⟨s', hread, hbm⟩ := @exists_memBitMap (sampleRam windowMap) 0x100000 144 48 _
    AtBoot.initial (by decide) (by rw [mapOf_windowMap]; exact htypes)
  refine ⟨mapOf_windowMap, htypes, pageAligned_windowMap, pairwiseDisjoint_windowMap, hconv, s',
    hread, ?_⟩
  rw [hbm, mapOf_windowMap,
    inside_iff_hasRoom pageAligned_windowMap pairwiseDisjoint_windowMap hconv]
  decide

/-- The map without the window has room, and the bitmap is in it. -/
theorem bitmapInside_sample :
    ∃ s', readEFIMemoryMap 0x100000 48 48 (boot (sampleRam [⟨7, 0x200000, 16⟩])) = some s' ∧
      HasRoom [⟨7, 0x200000, 16⟩] ∧
      BitmapInside [⟨7, 0x200000, 16⟩] s'.memInfo.memBitMap := by
  have hmap : mapOf (sampleRam [⟨7, 0x200000, 16⟩]) 0x100000 48 48 = [⟨7, 0x200000, 16⟩] := by
    decide +kernel
  have hroom : HasRoom [⟨7, 0x200000, 16⟩] := by decide
  have hiff := @bitmapInside_iff (sampleRam [⟨7, 0x200000, 16⟩]) 0x100000 48 48 _
    AtBoot.initial (by decide)
  rw [hmap] at hiff
  obtain ⟨s', hread, hinside⟩ := hiff (by decide) (by unfold PageAligned; decide)
    (List.pairwise_singleton _ _) ⟨⟨7, 0x200000, 16⟩, List.mem_singleton_self _, rfl, by decide⟩
  exact ⟨s', hread, hroom, hinside.mpr hroom⟩

end Machine

end BbnOS
