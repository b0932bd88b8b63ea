import BbnOS.Lib.InitialSegment
import BbnOS.Mem.Exhaustion

/-!
# Which maps the summed size covers

`readEFIMemoryMap` sizes the bitmap, and `kmain` maps memory, up to the sum of
the region sizes, as if this sum were the highest address.  `coversMap_iff`
says when it is enough: the regions must leave no hole below any of their
pages.  Every hole below a region makes the sum fall short of the region's
end.

The proof counts pages: the sum of the sizes is the number of pages of all
regions together (`card_pagesOf`), and a finite set of page numbers lies below
its own cardinality exactly when it has no holes (`isLowerSet_iff_lt_card`).
-/

namespace BbnOS

open InitialSegment

namespace EfiMemoryDescriptor

/-- The pages of a region. -/
def pages (d : EfiMemoryDescriptor) : Finset Nat :=
  (Finset.range d.numPages.toNat).image fun i => (pageOf d.physAddr + i) % 2 ^ 52

@[simp] theorem mem_pages {d : EfiMemoryDescriptor} {p : Nat} : p ∈ d.pages ↔ d.HasPage p := by
  rw [HasPage, covers_iff, pages, Finset.mem_image]
  simp only [Finset.mem_range]

/-- A region that does not go round the address space has as many pages as it
says. -/
theorem card_pages {d : EfiMemoryDescriptor} (h : d.numPages.toNat ≤ 2 ^ 52) :
    d.pages.card = d.numPages.toNat := by
  rw [pages, Finset.card_image_of_injOn, Finset.card_range]
  intro i hi j hj hij
  rw [Finset.mem_coe, Finset.mem_range] at hi hj
  simp only at hij
  omega

/-- A region of at least `2 ^ 52` pages has every page. -/
theorem hasPage_of_le {d : EfiMemoryDescriptor} (h : 2 ^ 52 ≤ d.numPages.toNat) {p : Nat}
    (hp : p < 2 ^ 52) : d.HasPage p := by
  have hbase := pageOf_lt d.physAddr
  rw [HasPage, covers_iff]
  exact ⟨(p + (2 ^ 52 - pageOf d.physAddr)) % 2 ^ 52, by omega, by omega⟩

end EfiMemoryDescriptor

/-- The pages of the regions of a map. -/
def pagesOf (ds : List EfiMemoryDescriptor) : Finset Nat :=
  ds.foldr (fun d ps => d.pages ∪ ps) ∅

/-- The sum of the page counts of a map, without wrap. -/
def pageCount (ds : List EfiMemoryDescriptor) : Nat :=
  (ds.map fun d => d.numPages.toNat).sum

/-- No page belongs to two regions of the map. -/
def PairwiseDisjoint (ds : List EfiMemoryDescriptor) : Prop :=
  ds.Pairwise fun d d' => ∀ p, d.HasPage p → ¬ d'.HasPage p

theorem mem_pagesOf {ds : List EfiMemoryDescriptor} {p : Nat} :
    p ∈ pagesOf ds ↔ ∃ d ∈ ds, d.HasPage p := by
  induction ds with
  | nil => simp [pagesOf]
  | cons d ds ih =>
    rw [pagesOf] at ih
    rw [pagesOf, List.foldr_cons, Finset.mem_union, ih, EfiMemoryDescriptor.mem_pages]
    simp only [List.mem_cons, exists_eq_or_imp]

/-- The regions of a map have as many pages as the sum of their page counts. -/
theorem card_pagesOf {ds : List EfiMemoryDescriptor} (hdisj : PairwiseDisjoint ds)
    (hsmall : ∀ d ∈ ds, d.numPages.toNat ≤ 2 ^ 52) : (pagesOf ds).card = pageCount ds := by
  induction ds with
  | nil => rfl
  | cons d ds ih =>
    obtain ⟨hd, hds⟩ := List.pairwise_cons.mp hdisj
    have hrest := ih hds fun d' hd' => hsmall d' (List.mem_cons_of_mem d hd')
    have hsep : Disjoint d.pages (pagesOf ds) := by
      rw [Finset.disjoint_left]
      intro p hp hp'
      obtain ⟨d', hd', hp'⟩ := mem_pagesOf.mp hp'
      exact hd d' hd' p (EfiMemoryDescriptor.mem_pages.mp hp) hp'
    rw [pagesOf] at hrest hsep
    rw [pagesOf, List.foldr_cons, Finset.card_union_of_disjoint hsep, hrest,
      EfiMemoryDescriptor.card_pages (hsmall d List.mem_cons_self), pageCount, pageCount,
      List.map_cons, List.sum_cons]

theorem pagesOf_subset (ds : List EfiMemoryDescriptor) : pagesOf ds ⊆ Finset.range (2 ^ 52) := by
  intro p hp
  obtain ⟨d, _, hp⟩ := mem_pagesOf.mp hp
  exact Finset.mem_range.mpr hp.lt

/-- The summed size of a map is its page count, modulo the address space. -/
theorem mapPages_eq_pageCount_mod (ds : List EfiMemoryDescriptor) :
    Machine.mapPages ds = pageCount ds % 2 ^ 52 := by
  have hsum : (totalSize ds).toNat = 4096 * pageCount ds % 2 ^ 64 := by
    induction ds with
    | nil => rfl
    | cons d ds ih =>
      rw [totalSize] at ih
      rw [totalSize, List.map_cons, List.sum_cons, UInt64.toNat_add, UInt64.toNat_mul, ih,
        pageCount, pageCount, List.map_cons, List.sum_cons]
      simp only [UInt64.reduceToNat]
      omega
  rw [Machine.mapPages_eq, hsum]
  omega

theorem mapPages_lt_pages (ds : List EfiMemoryDescriptor) : Machine.mapPages ds < 2 ^ 52 := by
  rw [mapPages_eq_pageCount_mod]
  exact Nat.mod_lt _ (by decide)

/-- The summed size counts the pages of the map, unless the map fills the
address space. -/
theorem pagesOf_cases {ds : List EfiMemoryDescriptor} (hdisj : PairwiseDisjoint ds) :
    Machine.mapPages ds = (pagesOf ds).card ∨ pagesOf ds = Finset.range (2 ^ 52) := by
  by_cases hsmall : ∀ d ∈ ds, d.numPages.toNat ≤ 2 ^ 52
  · have hcard := card_pagesOf hdisj hsmall
    have hle := Finset.card_le_card (pagesOf_subset ds)
    rw [Finset.card_range] at hle
    rcases Nat.lt_or_eq_of_le hle with hlt | hfull
    · rw [mapPages_eq_pageCount_mod, ← hcard, Nat.mod_eq_of_lt hlt]
      exact Or.inl rfl
    · refine Or.inr (Finset.eq_of_subset_of_card_le (pagesOf_subset ds) ?_)
      rw [Finset.card_range, hfull]
  · -- a region that goes round the address space has every page
    simp only [not_forall, Nat.not_le] at hsmall
    obtain ⟨d, hd, hlarge⟩ := hsmall
    refine Or.inr (Finset.Subset.antisymm (pagesOf_subset ds) fun p hp => ?_)
    rw [Finset.mem_range] at hp
    exact mem_pagesOf.mpr ⟨d, hd, EfiMemoryDescriptor.hasPage_of_le hlarge.le hp⟩

/-- The pages of a map lie below its summed size if and only if they leave no
hole, and do not fill the address space. -/
theorem lt_mapPages_iff {ds : List EfiMemoryDescriptor} (hdisj : PairwiseDisjoint ds) :
    (∀ p ∈ pagesOf ds, p < Machine.mapPages ds) ↔
      IsLowerSet {p | p ∈ pagesOf ds} ∧ ∃ p, p < 2 ^ 52 ∧ p ∉ pagesOf ds := by
  have hmap := mapPages_lt_pages ds
  rcases pagesOf_cases hdisj with hcard | hall
  · rw [isLowerSet_iff_lt_card, ← hcard]
    refine ⟨fun h => ⟨h, Machine.mapPages ds, hmap, fun hin => ?_⟩, fun h => h.1⟩
    exact Nat.lt_irrefl _ (h _ hin)
  · constructor
    · intro h
      have hlast := h (2 ^ 52 - 1) (by rw [hall]; exact Finset.mem_range.mpr (by omega))
      omega
    · rintro ⟨_, p, hp, hout⟩
      rw [hall] at hout
      exact absurd (Finset.mem_range.mpr hp) hout

namespace Machine

/-- Every page of the map has a bit in the buffer, and lies below what
`getMemSize` answers. -/
def CoversMap (mmap mmapSize mmapDescSize : UInt64) (ds : List EfiMemoryDescriptor)
    (s : Machine) : Prop :=
  ∀ d ∈ ds, ∀ p, d.HasPage p → p < s.bits ∧
    ∃ memSize s', getMemSize mmap (mmapSize / mmapDescSize) mmapDescSize s = some (memSize, s') ∧
      4096 * p + 4096 ≤ memSize.toNat

/-- The map is covered when its pages lie below its summed size. -/
theorem coversMap_iff_lt {ram : ByteMemory} {mmap mmapSize z : UInt64} {s s₀ : Machine}
    (hboot : AtBoot ram mmap mmapSize z s)
    (hread : readEFIMemoryMap mmap mmapSize z s = some s₀)
    (hdisj : PairwiseDisjoint (mapOf ram mmap mmapSize z)) :
    s₀.CoversMap mmap mmapSize z (mapOf ram mmap mmapSize z) ↔
      ∀ p ∈ pagesOf (mapOf ram mmap mmapSize z), p < mapPages (mapOf ram mmap mmapSize z) := by
  have hbits := bits_of_readEFIMemoryMap hboot hread
  have hsize := memSizeBytes_of_readEFIMemoryMap hboot hread
  obtain ⟨hlt, hexcess⟩ := mapPages_lt (mapOf ram mmap mmapSize z)
  have hpages := mapPages_eq (mapOf ram mmap mmapSize z)
  have hmod := totalSize_mod (mapOf ram mmap mmapSize z)
  have hget : 0 < mapPages (mapOf ram mmap mmapSize z) →
      getMemSize mmap (mmapSize / z) z s₀ = some (totalSize (mapOf ram mmap mmapSize z), s₀) := by
    intro hpos
    have hne : s₀.memInfo.memSizeBytes > 0 := by
      rw [hsize, gt_iff_lt, UInt64.lt_iff_toNat_lt, UInt64.toNat_zero]
      omega
    rw [getMemSize, if_pos hne, hsize]
  constructor
  · intro h p hp
    rcases Nat.eq_zero_or_pos (mapPages (mapOf ram mmap mmapSize z)) with hzero | hpos
    · -- a map with pages whose sum is zero fills the address space
      rcases pagesOf_cases hdisj with hcard | hall
      · rw [hzero] at hcard
        exact absurd (Finset.card_eq_zero.mp hcard.symm ▸ hp) (Finset.notMem_empty p)
      · have hlast : 2 ^ 52 - 1 ∈ pagesOf (mapOf ram mmap mmapSize z) := by
          rw [hall]
          exact Finset.mem_range.mpr (by omega)
        obtain ⟨d, hd, hp'⟩ := mem_pagesOf.mp hlast
        have hin := (h d hd _ hp').1
        omega
    · obtain ⟨d, hd, hp⟩ := mem_pagesOf.mp hp
      obtain ⟨_, memSize, s', heq, hle⟩ := h d hd p hp
      rw [hget hpos] at heq
      obtain ⟨rfl, _⟩ := Prod.mk.inj (Option.some.inj heq)
      omega
  · intro h d hd p hp
    have hlt' := h p (mem_pagesOf.mpr ⟨d, hd, hp⟩)
    refine ⟨by omega, _, _, hget (by omega), by omega⟩

/-- `readEFIMemoryMap` returns, and the summed size covers the map if and only
if the regions leave no hole below any of their pages and some page of the
address space belongs to no region. -/
theorem coversMap_iff {ram : ByteMemory} {mmap mmapSize mmapDescSize : UInt64} {s : Machine}
    (hboot : AtBoot ram mmap mmapSize mmapDescSize s) (hstride : mmapDescSize ≠ 0)
    (htypes : ∀ d ∈ mapOf ram mmap mmapSize mmapDescSize, d.type ≤ 15)
    (hdisj : PairwiseDisjoint (mapOf ram mmap mmapSize mmapDescSize)) :
    ∃ s₀, readEFIMemoryMap mmap mmapSize mmapDescSize s = some s₀ ∧
      (s₀.CoversMap mmap mmapSize mmapDescSize (mapOf ram mmap mmapSize mmapDescSize) ↔
        IsLowerSet {p | ∃ d ∈ mapOf ram mmap mmapSize mmapDescSize, d.HasPage p} ∧
        ∃ p, p < 2 ^ 52 ∧ ∀ d ∈ mapOf ram mmap mmapSize mmapDescSize, ¬ d.HasPage p) := by
  obtain ⟨s₀, hpass, _⟩ := reservePass_marks mmap (mmapSize / mmapDescSize) mmapDescSize
    (locked ram (mapOf ram mmap mmapSize mmapDescSize))
  rw [← readEFIMemoryMap_eq hboot hstride htypes] at hpass
  refine ⟨s₀, hpass, ?_⟩
  rw [coversMap_iff_lt hboot hpass hdisj, lt_mapPages_iff hdisj]
  simp only [mem_pagesOf, not_exists, not_and]

/-- Two regions of one page each, the second one at 4 GiB: the bitmap has a bit
for the first eight pages only. -/
theorem not_coversMap_of_hole :
    ∃ s₀, readEFIMemoryMap 0x100000 96 48
        (boot (sampleRam [⟨7, 0, 1⟩, ⟨7, 0x100000000, 1⟩])) = some s₀ ∧
      mapOf (sampleRam [⟨7, 0, 1⟩, ⟨7, 0x100000000, 1⟩]) 0x100000 96 48 =
        [⟨7, 0, 1⟩, ⟨7, 0x100000000, 1⟩] ∧
      ¬ s₀.CoversMap 0x100000 96 48 [⟨7, 0, 1⟩, ⟨7, 0x100000000, 1⟩] := by
  have heval : ((readEFIMemoryMap 0x100000 96 48
      (boot (sampleRam [⟨7, 0, 1⟩, ⟨7, 0x100000000, 1⟩]))).map fun s => s.bits) = some 8 := by
    decide +kernel
  obtain ⟨s₀, hread, hbits⟩ := Option.map_eq_some_iff.mp heval
  refine ⟨s₀, hread, by decide +kernel, fun h => ?_⟩
  have hin := (h ⟨7, 0x100000000, 1⟩ (by simp) 0x100000 ⟨0, by decide, by decide⟩).1
  rw [hbits] at hin
  exact absurd hin (by decide)

theorem exists_hasPage_sample (p : Nat) :
    (∃ d ∈ ([⟨7, 0, 8⟩, ⟨2, 0x8000, 8⟩] : List EfiMemoryDescriptor), d.HasPage p) ↔ p < 16 := by
  have hlow : Covers 0 (8 : UInt64).toNat p ↔ _ := covers_iff_of_le p (by decide)
  have hhigh : Covers 0x8000 (8 : UInt64).toNat p ↔ _ := covers_iff_of_le p (by decide)
  rw [show pageOf 0 = 0 from rfl, show (8 : UInt64).toNat = 8 from rfl] at hlow
  rw [show pageOf 0x8000 = 8 from by decide, show (8 : UInt64).toNat = 8 from rfl] at hhigh
  simp only [List.mem_cons, List.not_mem_nil, or_false, exists_eq_or_imp, exists_eq_left,
    EfiMemoryDescriptor.HasPage]
  rw [show (8 : UInt64).toNat = 8 from rfl, hlow, hhigh]
  omega

/-- Two regions that follow one another from address 0 leave no hole, and are covered. -/
theorem coversMap_sample :
    ∃ s₀, readEFIMemoryMap 0x100000 96 48
        (boot (sampleRam [⟨7, 0, 8⟩, ⟨2, 0x8000, 8⟩])) = some s₀ ∧
      IsLowerSet {p | ∃ d ∈ ([⟨7, 0, 8⟩, ⟨2, 0x8000, 8⟩] : List EfiMemoryDescriptor),
        d.HasPage p} ∧
      s₀.CoversMap 0x100000 96 48 [⟨7, 0, 8⟩, ⟨2, 0x8000, 8⟩] := by
  have hmap : mapOf (sampleRam [⟨7, 0, 8⟩, ⟨2, 0x8000, 8⟩]) 0x100000 96 48 =
      [⟨7, 0, 8⟩, ⟨2, 0x8000, 8⟩] := by decide +kernel
  have hlower : IsLowerSet {p | ∃ d ∈ ([⟨7, 0, 8⟩, ⟨2, 0x8000, 8⟩] : List EfiMemoryDescriptor),
      d.HasPage p} := by
    intro p q hle hp
    rw [Set.mem_ofPred_eq, exists_hasPage_sample] at hp ⊢
    omega
  have hiff := @coversMap_iff (sampleRam [⟨7, 0, 8⟩, ⟨2, 0x8000, 8⟩]) 0x100000 96 48 _
    AtBoot.initial (by decide) (by rw [hmap]; decide)
  rw [hmap] at hiff
  obtain ⟨s₀, hread, hcovers⟩ := hiff (by
    refine List.pairwise_pair.mpr fun p hp hp' => ?_
    have hlow := ((covers_iff_of_le p (by decide)).mp hp).2
    have hhigh := ((covers_iff_of_le p (by decide)).mp hp').1
    rw [show pageOf 0 + (8 : UInt64).toNat = 8 from by decide] at hlow
    rw [show pageOf 0x8000 = 8 from by decide] at hhigh
    omega)
  refine ⟨s₀, hread, hlower, hcovers.mpr ⟨hlower, 16, by decide, fun d hd hp => ?_⟩⟩
  exact absurd ((exists_hasPage_sample 16).mp ⟨d, hd, hp⟩) (Nat.lt_irrefl 16)

end Machine

end BbnOS
