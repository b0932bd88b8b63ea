import BbnOS.Mem.MapOrder
import BbnOS.Paging.Identity
import BbnOS.Paging.Supply

/-!
# The start of the UEFI kernel

`kmain` from its entry to the load of `cr3`, with the frames of its page tables
taken from its own allocator: the memory map gives the bitmap, the bitmap the
frames, and the frames the address space.

`kmain_starts` needs one thing of the memory: that as many of the lowest clear pages
as the PML4 and the tables take are conventional memory outside the framebuffer
(`Stocked`).  A clear bit alone does not say so, since holes and devices have clear
bits as well.  The address space is then the identity, and its tables are in pages
that nobody owned.  `address_space_exact` says which addresses it has.
-/

namespace BbnOS

open ByteMemory RadixTable

namespace Machine

/-! ## The memory before the paging -/

section Boot

variable {ram : ByteMemory} {info : BootInfo} {kernelStart kernelEnd : UInt64} {s : Machine}

/-- The map that the loader hands over. -/
def bootMap (ram : ByteMemory) (info : BootInfo) : List EfiMemoryDescriptor :=
  mapOf ram info.mmap info.mmapSize info.mmapDescSize

/-- The bitmap for that map. -/
def bootBitMap (ram : ByteMemory) (info : BootInfo) : BitMap where
  size := bitmapSize (bootMap ram info)
  buffer := bitmapBase (bootMap ram info)

/-- The pages that `kmain` locks for the kernel. -/
def KernelCover (kernelStart kernelEnd : UInt64) (p : Nat) : Prop :=
  Covers kernelStart ((kernelEnd - kernelStart) / 4096 + 1).toNat p

/-- The pages that `kmain` locks for the framebuffer. -/
def FbCover (info : BootInfo) (p : Nat) : Prop :=
  Covers info.baseAddress ((info.bufferSize + 0x1000) / 0x1000 + 1).toNat p

instance (info : BootInfo) : DecidablePred (FbCover info) :=
  fun _ => inferInstanceAs (Decidable (Covers _ _ _))

/-- The set-up of the memory, in two steps: the memory map is read, and the kernel is
locked. -/
theorem setUpMemory_stages (h : setUpMemory info kernelStart kernelEnd (boot ram) = some s) :
    ∃ t u, AtBoot ram info.mmap info.mmapSize info.mmapDescSize t ∧
      readEFIMemoryMap info.mmap info.mmapSize info.mmapDescSize t = some u ∧
      Marks true MemDesc.lock (KernelCover kernelStart kernelEnd) u s := by
  rw [setUpMemory, Option.bind_eq_bind, Option.bind_eq_some_iff] at h
  obtain ⟨⟨memSize, t⟩, ht, h⟩ := h
  rw [Option.bind_eq_bind, Option.bind_eq_some_iff] at h
  obtain ⟨u, hu, h⟩ := h
  have hboot : AtBoot ram info.mmap info.mmapSize info.mmapDescSize t := by
    rw [totalMem] at ht
    split at ht
    · cases ht
    · exact AtBoot.sized ht
  refine ⟨t, u, hboot, hu, ?_⟩
  rw [← Option.some.inj h]
  exact lockPages_marks kernelStart ((kernelEnd - kernelStart) / 4096 + 1) u

/-- What the set-up of the memory leaves. -/
structure MemoryReady (ram : ByteMemory) (info : BootInfo) (kernelStart kernelEnd : UInt64)
    (s : Machine) : Prop where
  narrow : s.Narrow
  memBitMap : s.memInfo.memBitMap = bootBitMap ram info
  memSizeBytes : s.memInfo.memSizeBytes = totalSize (bootMap ram info)
  marked : ∀ p, p < s.bits → (s.marked p = true ↔
    BootCover ram info.mmap info.mmapSize info.mmapDescSize p ∨
      KernelCover kernelStart kernelEnd p)
  bitmap : s.BitmapTaken
  bytes : ∀ a, ¬ (bootBitMap ram info).touched a → s.ram.bytes a = ram.bytes a

/-- The pages that `readEFIMemoryMap` locks hold every byte that the bitmap functions
may touch. -/
theorem lockCover_of_touched {ds : List EfiMemoryDescriptor} (h : PageAligned ds) {a : UInt64}
    (ha : InRange (bitmapBase ds) ((bitmapSize ds).toNat + 1) a) : LockCover ds (pageOf a) := by
  have hbase := bitmapBase_mod h
  have hlt := (bitmapBase ds).toNat_lt
  have hsize := bitmapSize_toNat ds
  have htotal := (totalSize ds).toNat_lt
  obtain ⟨k, hk, _, rfl⟩ := exists_offset_of_inRange ha
  refine ⟨k / 4096, ?_, ?_⟩
  · rw [UInt64.toNat_add, UInt64.toNat_div]
    simp only [UInt64.reduceToNat]
    omega
  · rw [pageOf_offset, pageOf_eq, pageOf_eq, toNat_add_ofNat]
    omega

theorem memoryReady (h : setUpMemory info kernelStart kernelEnd (boot ram) = some s)
    (hmap : PageAligned (bootMap ram info)) :
    MemoryReady ram info kernelStart kernelEnd s := by
  obtain ⟨t, u, hboot, hread, hkernel⟩ := setUpMemory_stages h
  have hbitmap := memBitMap_of_readEFIMemoryMap hboot hread
  have hmarked : ∀ p, p < s.bits → (s.marked p = true ↔
      BootCover ram info.mmap info.mmapSize info.mmapDescSize p ∨
        KernelCover kernelStart kernelEnd p) := by
    intro p hp
    rw [hkernel.bits_eq] at hp
    rw [hkernel.marked_iff hp, marked_readEFIMemoryMap hboot hread hp]
    by_cases hc : KernelCover kernelStart kernelEnd p
    · exact iff_of_true (Or.inl ⟨hc, rfl⟩) (Or.inr hc)
    · simp only [hc, false_and, not_false_eq_true, true_and, false_or, or_false]
  constructor
  case narrow => exact (narrow_of_readEFIMemoryMap hboot hread).of_eq hkernel.memBitMap
  case memBitMap => exact hkernel.memBitMap.trans hbitmap
  case memSizeBytes =>
    exact (hkernel.field_keep MemDesc.memSizeBytes_lock).trans
      (memSizeBytes_of_readEFIMemoryMap hboot hread)
  case marked => exact hmarked
  case bitmap =>
    intro a ha hbits
    rw [hkernel.memBitMap, hbitmap] at ha
    exact (hmarked _ hbits).mpr (Or.inl (Or.inl (lockCover_of_touched hmap ha)))
  case bytes =>
    intro a ha
    have hstages := readEFIMemoryMap_stages hboot hread
    have hlocked : (locked ram (bootMap ram info)).memInfo.memBitMap = bootBitMap ram info :=
      (locked_marks ram (bootMap ram info)).memBitMap
    rw [hkernel.bytes a (by rw [hbitmap]; exact ha),
      hstages.bytes a (by rw [← bootMap, hlocked]; exact ha)]
    exact bytes_locked ram (bootMap ram info) ha

end Boot

/-! ## The pages for the tables -/

section Pages

variable (ram : ByteMemory) (info : BootInfo)

/-- The page is one of a region of conventional memory. -/
def ConventionalPage (p : Nat) : Prop :=
  ∃ d ∈ bootMap ram info, d.Conventional ∧ d.HasPage p

instance (p : Nat) : Decidable (ConventionalPage ram info p) :=
  inferInstanceAs (Decidable (∃ d ∈ bootMap ram info, _))

/-- The clear pages below `top`. -/
def clearBelow (top : Nat) (s : Machine) : Finset Nat :=
  (Finset.range top).filter fun p => s.marked p = false

/-- There are `n` clear pages below `top`, and the clear pages there are conventional
memory outside the framebuffer. -/
structure Stocked (top n : Nat) (s : Machine) : Prop where
  top_le : top ≤ s.bits
  enough : n ≤ (clearBelow top s).card
  conventional : ∀ p ∈ clearBelow top s, ConventionalPage ram info p ∧ ¬ FbCover info p

instance (top n : Nat) (s : Machine) : Decidable (Stocked ram info top n s) :=
  decidable_of_iff (top ≤ s.bits ∧ n ≤ (clearBelow top s).card ∧
      ∀ p ∈ clearBelow top s, ConventionalPage ram info p ∧ ¬ FbCover info p)
    ⟨fun h => ⟨h.1, h.2.1, h.2.2⟩, fun h => ⟨h.top_le, h.enough, h.conventional⟩⟩

variable {ram info} {top n : Nat} {s : Machine}

/-- `Stocked`, read off an evaluation of the set-up. -/
theorem exists_stocked {kernelStart kernelEnd : UInt64}
    (h : (setUpMemory info kernelStart kernelEnd (boot ram)).map
      (fun s => decide (Stocked ram info top n s)) = some true) :
    ∃ s, setUpMemory info kernelStart kernelEnd (boot ram) = some s ∧
      Stocked ram info top n s := by
  obtain ⟨s, hmemory, hstocked⟩ := Option.map_eq_some_iff.mp h
  exact ⟨s, hmemory, of_decide_eq_true hstocked⟩

@[simp] theorem mem_clearBelow {p : Nat} :
    p ∈ clearBelow top s ↔ p < top ∧ s.marked p = false := by
  rw [clearBelow, Finset.mem_filter, Finset.mem_range]

theorem Stocked.mono {m : Nat} (h : Stocked ram info top n s) (hle : m ≤ n) :
    Stocked ram info top m s :=
  ⟨h.top_le, hle.trans h.enough, h.conventional⟩

/-- The pages that are there for the tables. -/
theorem Stocked.le_card_spare (h : Stocked ram info top n s) :
    n ≤ (spare (FbCover info) s).card := by
  refine h.enough.trans (Finset.card_le_card fun p hp => ?_)
  obtain ⟨hlt, hclear⟩ := mem_clearBelow.mp hp
  exact Finset.mem_filter.mpr ⟨Finset.mem_range.mpr (Nat.lt_of_lt_of_le hlt h.top_le), hclear,
    (h.conventional p hp).2⟩

/-- The search finds a page below `top` when there is a clear one. -/
theorem firstClear_lt (hn : s.Narrow) {q : Nat} (hq : q ∈ clearBelow top s) {p : Nat}
    (hp : s.firstClear = some p) : p < top := by
  obtain ⟨hlt, hclear⟩ := mem_clearBelow.mp hq
  by_contra hge
  have hbelow := ((firstClear_eq_some hn).mp hp).2.2 q (by omega)
  rw [hclear] at hbelow
  cases hbelow

end Pages

/-! ## The PML4 -/

section Root

variable {F : Nat → Prop} [DecidablePred F] {T : Finset (List (Fin 512))} {s : Machine}

/-- The PML4 is a free page, and apart from it and the bitmap the memory stays. -/
structure RootReady (s : Machine) : Prop where
  aligned : s.makePml4.1.toNat % 4096 = 0
  below : pageOf s.makePml4.1 < s.bits
  free : s.marked (pageOf s.makePml4.1) = false
  marked : ∀ q, q < s.bits → (s.makePml4.2.marked q = true ↔
    q = pageOf s.makePml4.1 ∨ s.marked q = true)
  memBitMap : s.makePml4.2.memInfo.memBitMap = s.memInfo.memBitMap
  bytes : ∀ a, ¬ s.memInfo.memBitMap.touched a → ¬ InRange s.makePml4.1 4096 a →
    s.makePml4.2.ram.bytes a = s.ram.bytes a

theorem rootReady (hn : s.Narrow) (hb : s.BitmapTaken) {p : Nat} (hp : s.firstClear = some p) :
    RootReady s := by
  obtain ⟨hlt, hclear, hpage, _⟩ := requestPage_found hn hp
  have hgrows := requestPage_grows s
  have haligned : s.makePml4.1.toNat % 4096 = 0 := requestPage_aligned s
  have hdisjoint := requestPage_disjoint hn hb hp
  constructor
  case aligned => exact haligned
  case below => exact lt_of_eq_of_lt hpage hlt
  case free => exact (congrArg s.marked hpage).trans hclear
  case marked =>
    intro q hq
    have hq' : q < s.requestPage.2.bits := by
      rw [hgrows.bits_eq]
      exact hq
    have hfill : s.makePml4.2.marked q = s.requestPage.2.marked q := by
      refine marked_congr (s := s.requestPage.2) hq' fun a ha => ?_
      rw [hgrows.memBitMap] at ha
      exact bytes_fill_of_not_inRange _ _ fun hin => hdisjoint a hin ha
    rw [hfill, marked_requestPage_iff hn hp hq, show pageOf s.makePml4.1 = p from hpage]
  case memBitMap => exact hgrows.memBitMap
  case bytes =>
    intro a ha hout
    exact (bytes_fill_of_not_inRange _ _ hout).trans (bytes_requestPage ha)

/-- With the PML4 the building of the tables of `T` can start. -/
theorem tracking_start (hn : s.Narrow) (hb : s.BitmapTaken) (hT : ∀ q ∈ T, q ≠ [])
    (henough : T.card + 1 ≤ (spare F s).card) :
    RootReady s ∧ Tracking s.makePml4.1 F T s.makePml4.2 s.makePml4.2 := by
  obtain ⟨q, hq⟩ := Finset.card_pos.mp (show 0 < (spare F s).card by omega)
  obtain ⟨hrange, hqclear, _⟩ := Finset.mem_filter.mp hq
  obtain ⟨p, hp⟩ : ∃ p, s.firstClear = some p := by
    rcases hfirst : s.firstClear with _ | p
    · have hall := (firstClear_eq_none hn).mp hfirst q (Finset.mem_range.mp hrange)
      rw [hqclear] at hall
      cases hall
    · exact ⟨p, rfl⟩
  have hroot := rootReady hn hb hp
  have hbits : s.makePml4.2.bits = s.bits := by
    rw [bits, hroot.memBitMap]
    rfl
  have hnil : framesSince s.makePml4.2.requested.length s.makePml4.2 = [] := List.drop_length
  have hempty := next_of_zeroed (s := s.makePml4.2) hroot.aligned fun a ha => bytes_makePml4 ha
  have hmarked : ∀ q, q < s.makePml4.2.bits → (s.makePml4.2.marked q = true ↔
      q = pageOf s.makePml4.1 ∨ s.marked q = true) := fun q hq =>
    hroot.marked q (by rw [← hbits]; exact hq)
  refine ⟨hroot, ?_, fun _ _ hmark => Or.inl hmark⟩
  constructor
  case grows => exact Grows.refl _
  case tables =>
    exact (built_of_zeroed hroot.aligned fun a ha => bytes_makePml4 ha).tables
  case fresh =>
    rw [hnil]
    refine ⟨List.nodup_singleton _, fun f hf => ?_⟩
    rw [List.mem_singleton.mp hf, hroot.memBitMap]
    exact hb.disjoint hroot.aligned hroot.below hroot.free
  case bitmap =>
    intro a ha hlt
    rw [hroot.memBitMap] at ha
    exact (hmarked _ hlt).mpr (Or.inr (hb a ha (by rw [← hbits]; exact hlt)))
  case taken =>
    intro f hf
    rw [hnil] at hf
    have hbelow : pageOf s.makePml4.1 < s.makePml4.2.bits := by
      rw [hbits]
      exact hroot.below
    rw [List.mem_singleton.mp hf]
    exact ⟨hroot.aligned, hbelow, (hmarked _ hbelow).mpr (Or.inl rfl)⟩
  case kept => exact fun _ _ hmark => hmark
  case free =>
    rw [hnil]
    exact fun f hf => absurd hf List.not_mem_nil
  case lowest =>
    rw [hnil]
    exact fun f hf => absurd hf List.not_mem_nil
  case reached =>
    intro q hne _ hsome
    rw [table_of_empty hempty hne] at hsome
    cases hsome
  case count =>
    have hnone : builtPaths s.makePml4.1 T s.makePml4.2 = ∅ := by
      refine Finset.filter_eq_empty_iff.mpr fun q hq hsome => ?_
      rw [table_of_empty hempty (hT q hq)] at hsome
      cases hsome
    rw [hnil, hnone]
    rfl
  case enough =>
    have hsub : spare F s ⊆ insert (pageOf s.makePml4.1) (spare F s.makePml4.2) := by
      intro r hr
      obtain ⟨hrrange, hrclear, hrF⟩ := Finset.mem_filter.mp hr
      by_cases heq : r = pageOf s.makePml4.1
      · exact Finset.mem_insert.mpr (Or.inl heq)
      · refine Finset.mem_insert_of_mem (Finset.mem_filter.mpr ⟨?_, ?_, hrF⟩)
        · rw [hbits]
          exact hrrange
        · refine Bool.eq_false_iff.mpr fun hmark => ?_
          rcases (hroot.marked r (Finset.mem_range.mp hrrange)).mp hmark with h | h
          · exact heq h
          · rw [hrclear] at h
            cases h
    have hcard := (Finset.card_le_card hsub).trans (Finset.card_insert_le _ _)
    rw [hnil, List.length_nil]
    omega
  case bytes => exact fun _ _ _ => rfl

end Root

/-! ## The whole start -/

section Start

variable {ram : ByteMemory} {info : BootInfo} {kernelStart kernelEnd memSize : UInt64}
  {s : Machine}

theorem ne_nil_of_mem_tablePaths {maps : List (UInt64 × UInt64)} {q : List (Fin 512)}
    (h : q ∈ tablePaths maps) : q ≠ [] ∧ q.length ≤ 3 := by
  have hlen : q.length = 1 ∨ q.length = 2 ∨ q.length = 3 := by
    rw [tablePaths, Finset.mem_union, Finset.mem_union] at h
    exact h.imp (length_of_mem_levelPaths (by omega))
      (Or.imp (length_of_mem_levelPaths (by omega)) (length_of_mem_levelPaths (by omega)))
  refine ⟨fun hnil => ?_, by omega⟩
  rw [hnil, List.length_nil] at hlen
  omega

theorem tablePaths_mono {maps maps' : List (UInt64 × UInt64)} (h : maps ⊆ maps') :
    tablePaths maps ⊆ tablePaths maps' := by
  have hlevel : ∀ k, levelPaths k maps ⊆ levelPaths k maps' := by
    intro k q hq
    obtain ⟨vp, hvp, hpath⟩ := mem_levelPaths.mp hq
    exact mem_levelPaths.mpr ⟨vp, h hvp, hpath⟩
  exact Finset.union_subset_union (hlevel 1) (Finset.union_subset_union (hlevel 2) (hlevel 3))

/-- After the calls every path of theirs leads to a table. -/
theorem Built.builtPaths_eq {pml4 : UInt64} {base : Nat} {maps : List (UInt64 × UInt64)}
    (h : Built pml4 base maps s) (haligned : pml4.toNat % 4096 = 0) :
    builtPaths pml4 (tablePaths maps) s = tablePaths maps := by
  have hprefix : ∀ vp ∈ maps, ∀ k,
      (table next (ent s.ram) (frameOf pml4) ((pathOf vp.1).take k)).isSome = true := by
    intro vp hvp k
    obtain ⟨vp', hlast⟩ := lastMap_isSome hvp rfl
    have hwalk := h.walk vp.1
    rw [hlast] at hwalk
    obtain ⟨e, he, _⟩ := hwalk
    rw [translate_eq_leaf _ haligned, leaf, Option.bind_eq_some_iff] at he
    obtain ⟨f, hf, _⟩ := he
    rw [← List.take_append_drop k (pathOf vp.1), table_append, Option.bind_eq_some_iff] at hf
    obtain ⟨g, hg, _⟩ := hf
    rw [hg]
    rfl
  refine Finset.filter_true_of_mem fun q hq => ?_
  rw [tablePaths, Finset.mem_union, Finset.mem_union] at hq
  rcases hq with hq | hq | hq
  all_goals
    obtain ⟨vp, hvp, rfl⟩ := mem_levelPaths.mp hq
    exact hprefix vp hvp _

/-- The frames of `kmain`: the PML4 and the tables. -/
def kmainFrames (s₀ s : Machine) : List UInt64 := framesSince s₀.requested.length s

/-- What `kmain` leaves when it loads `cr3`.  What it stores to its own variables, to its
stack and to the framebuffer is apart from the memory here. -/
structure KernelStarted (ram : ByteMemory) (info : BootInfo) (kernelStart kernelEnd : UInt64)
    (s₀ : Machine) (cr3 : UInt64) (s : Machine) : Prop where
  mapped : ∀ a, a < totalSize (bootMap ram info) ∨
    InRange info.baseAddress info.bufferSize.toNat a → physAddr s.ram cr3 a = some a
  identity : ∀ a b, physAddr s.ram cr3 a = some b → b.toNat = a.toNat % 2 ^ 48
  root : (kmainFrames s₀ s).head? = some cr3
  nodup : (kmainFrames s₀ s).Nodup
  count : (kmainFrames s₀ s).length =
    tablesNeeded (memMaps (totalSize (bootMap ram info)) ++ fbMaps info) + 1
  frames : ∀ f ∈ kmainFrames s₀ s, f.toNat % 4096 = 0 ∧ pageOf f < s.bits ∧
    s₀.marked (pageOf f) = false ∧ s.marked (pageOf f) = true
  conventional : ∀ f ∈ kmainFrames s₀ s,
    ConventionalPage ram info (pageOf f) ∧ ¬ FbCover info (pageOf f)
  apart : ∀ f ∈ kmainFrames s₀ s,
    ¬ BootCover ram info.mmap info.mmapSize info.mmapDescSize (pageOf f) ∧
      ¬ KernelCover kernelStart kernelEnd (pageOf f)
  kept : ∀ p, p < s.bits → s₀.marked p = true ∨ FbCover info p → s.marked p = true

/-- The size of the memory is known by now. -/
theorem totalMem_makePml4 (h : setUpMemory info kernelStart kernelEnd (boot ram) = some s)
    (hpos : 0 < s.memInfo.memSizeBytes) :
    totalMem info s.makePml4.2 = some (s.memInfo.memSizeBytes, s.makePml4.2) := by
  have hsize : s.makePml4.2.memInfo.memSizeBytes = s.memInfo.memSizeBytes :=
    (requestPage_grows s).memSizeBytes
  rw [setUpMemory, Option.bind_eq_bind, Option.bind_eq_some_iff] at h
  obtain ⟨⟨_, t⟩, ht, _⟩ := h
  unfold totalMem at ht ⊢
  split at ht
  · cases ht
  · rename_i hz
    rw [if_neg hz, getMemSize, if_pos (by rw [hsize]; exact hpos), hsize]

/-- The two loops and the lock between them, on the frames of the allocator. -/
theorem tracking_identityMapped {T : Finset (List (Fin 512))}
    (h : Tracking s.makePml4.1 (FbCover info) T s.makePml4.2 s.makePml4.2)
    (hn : s.makePml4.2.Narrow) (hT : ∀ q ∈ T, q.length ≤ 3)
    (hmaps : tablePaths (memMaps memSize ++ fbMaps info) ⊆ T) :
    Tracking s.makePml4.1 (FbCover info) T s.makePml4.2
      (identityMapped info memSize s.makePml4.1 s.makePml4.2) := by
  have haligned := makePml4_aligned s
  have hmem : tablePaths (memMaps memSize) ⊆ T :=
    (tablePaths_mono (List.subset_append_left _ _)).trans hmaps
  have hfb : tablePaths (fbMaps info) ⊆ T :=
    (tablePaths_mono (List.subset_append_right _ _)).trans hmaps
  have h₁ := Tracking.mapAll { pml4 := s.makePml4.1 } h hn haligned hT hmem
  have h₂ := h₁.lock hT (lockPages_marks info.baseAddress
    ((info.bufferSize + 0x1000) / 0x1000 + 1) _) fun _ hcov => hcov
  exact Tracking.mapAll { pml4 := s.makePml4.1 } h₂ hn haligned hT hfb

/-- The tables of the two loops map the memory and the framebuffer to themselves, and
no address to another one. -/
theorem Built.physAddr_loops {cr3 : UInt64} {base : Nat}
    (h : Built cr3 base (memMaps memSize ++ fbMaps info) s) (hmem : memSize.toNat ≤ 2 ^ 48)
    (hfb : FbBelow info) :
    (∀ a, a < memSize ∨ InRange info.baseAddress info.bufferSize.toNat a →
      physAddr s.ram cr3 a = some a) ∧
    ∀ a b, physAddr s.ram cr3 a = some b → b.toNat = a.toNat % 2 ^ 48 := by
  have hidentity : Identity (memMaps memSize ++ fbMaps info) := by
    intro vp hvp
    rcases List.mem_append.mp hvp with hvp | hvp
    · exact identity_memMaps hmem vp hvp
    · exact identity_fbMaps hfb vp hvp
  refine ⟨?_, fun a b hb => physAddr_of_identity hidentity (h.walk a) hb⟩
  rintro a (ha | ha)
  · obtain ⟨vp, hvp, hkey⟩ := exists_mem_memMaps hmem ha
    have hlt := UInt64.lt_iff_toNat_lt.mp ha
    exact physAddr_eq_self hidentity (h.walk a) (by omega) (List.mem_append_left _ hvp) hkey
  · obtain ⟨vp, hvp, hkey⟩ := exists_mem_fbMaps hfb ha
    have hlt := (hfb.toNat_bounds ha).2
    unfold FbBelow at hfb
    exact physAddr_eq_self hidentity (h.walk a) (by omega) (List.mem_append_right _ hvp) hkey

/-- The addresses that the two loops map, by whole pages: those of a memory of this size
that begins at 0, and those of the framebuffer with its slack page. -/
def InSpace (info : BootInfo) (memSize a : UInt64) : Prop :=
  4096 * pageKey a < memSize.toNat ∨
    pageOf info.baseAddress ≤ pageKey a ∧
      4096 * (pageKey a - pageOf info.baseAddress) < info.bufferSize.toNat + 4096

instance (info : BootInfo) (memSize : UInt64) : DecidablePred (InSpace info memSize) :=
  fun _ => inferInstanceAs (Decidable (_ ∨ _))

theorem exists_mem_loops_iff (hmem : memSize.toNat ≤ 2 ^ 48) (hfb : FbBelow info) (a : UInt64) :
    (∃ vp ∈ memMaps memSize ++ fbMaps info, pageKey vp.1 = pageKey a) ↔
      InSpace info memSize a := by
  rw [InSpace, ← exists_mem_memMaps_iff hmem, ← exists_mem_fbMaps_iff hfb]
  constructor
  · rintro ⟨vp, hvp, hkey⟩
    exact (List.mem_append.mp hvp).imp (fun h => ⟨vp, h, hkey⟩) fun h => ⟨vp, h, hkey⟩
  · rintro (⟨vp, hvp, hkey⟩ | ⟨vp, hvp, hkey⟩)
    · exact ⟨vp, List.mem_append_left _ hvp, hkey⟩
    · exact ⟨vp, List.mem_append_right _ hvp, hkey⟩

/-- The tables of the two loops map these addresses and no other one. -/
theorem Built.physAddr_eq {cr3 : UInt64} {base : Nat}
    (h : Built cr3 base (memMaps memSize ++ fbMaps info) s) (hmem : memSize.toNat ≤ 2 ^ 48)
    (hfb : FbBelow info) (a : UInt64) :
    physAddr s.ram cr3 a =
      if InSpace info memSize a then some (UInt64.ofNat (a.toNat % 2 ^ 48)) else none := by
  have hidentity := (h.physAddr_loops hmem hfb).2 a
  have hwalk := h.walk a
  split_ifs with hin
  · obtain ⟨vp, hvp, hkey⟩ := (exists_mem_loops_iff hmem hfb a).mpr hin
    obtain ⟨vp', hlast⟩ := lastMap_isSome hvp hkey
    rw [hlast] at hwalk
    obtain ⟨e, he, _⟩ := hwalk
    have hb : physAddr s.ram cr3 a = some (e.target + a % 4096) := by
      rw [physAddr, he]
      rfl
    rw [hb, ← hidentity _ hb, UInt64.ofNat_toNat]
  · have hlast : lastMap (memMaps memSize ++ fbMaps info) a = none := by
      rw [← Option.not_isSome_iff_eq_none, Option.isSome_iff_exists]
      rintro ⟨vp, hvp⟩
      obtain ⟨hmemvp, hkey⟩ := lastMap_some hvp
      exact hin ((exists_mem_loops_iff hmem hfb a).mp ⟨vp, hmemvp, hkey⟩)
    rw [hlast] at hwalk
    rw [physAddr, show translate s.ram cr3 a = none from hwalk]
    rfl

/-- The run of `kmain` to the load of `cr3`, with what its loops keep. -/
structure KmainRuns (ram : ByteMemory) (info : BootInfo) (kernelStart kernelEnd : UInt64)
    (s₀ s : Machine) : Prop where
  run : ∀ fuel, 2 ^ 36 < fuel →
    kmain fuel info kernelStart kernelEnd (boot ram) = some (s₀.makePml4.1, s)
  root : RootReady s₀
  tracking : Tracking s₀.makePml4.1 (FbCover info)
    (tablePaths (memMaps (totalSize (bootMap ram info)) ++ fbMaps info)) s₀.makePml4.2 s
  built : Built s₀.makePml4.1 s₀.makePml4.2.requested.length
    (memMaps (totalSize (bootMap ram info)) ++ fbMaps info) s
  locked : ∀ p, p < s.bits → FbCover info p → s.marked p = true

section Runs

variable {s₀ : Machine}

theorem kmain_runs (hmemory : setUpMemory info kernelStart kernelEnd (boot ram) = some s₀)
    (hready : MemoryReady ram info kernelStart kernelEnd s₀)
    (hpos : 0 < totalSize (bootMap ram info))
    (hmem : (totalSize (bootMap ram info)).toNat ≤ 2 ^ 48) (hfb : FbBelow info)
    (henough : tablesNeeded (memMaps (totalSize (bootMap ram info)) ++ fbMaps info) + 1 ≤
      (spare (FbCover info) s₀).card) :
    ∃ s, KmainRuns ram info kernelStart kernelEnd s₀ s := by
  -- the memory size that the loops ask for
  have hsize : totalMem info s₀.makePml4.2 =
      some (totalSize (bootMap ram info), s₀.makePml4.2) := by
    have h := totalMem_makePml4 hmemory (by rw [hready.memSizeBytes]; exact hpos)
    rw [hready.memSizeBytes] at h
    exact h
  -- the frames
  obtain ⟨hroot, hstart⟩ := tracking_start hready.narrow hready.bitmap
    (fun q hq => (ne_nil_of_mem_tablePaths hq).1) (by rw [card_tablePaths]; exact henough)
  have htracking := tracking_identityMapped hstart (hready.narrow.of_eq hroot.memBitMap)
    (fun q hq => (ne_nil_of_mem_tablePaths hq).2) (Finset.Subset.refl _)
  -- the tables
  obtain ⟨hbuilt, hlocked⟩ := identityMapped_built hsize (by
    rw [framesSince_eq_cons (requested_makePml4 s₀) htracking.grows.requested]
    exact htracking.fresh)
  refine ⟨_, fun fuel hfuel => ?_, hroot, htracking, hbuilt, hlocked⟩
  rw [kmain, hmemory]
  exact setUpPaging_eq hsize hmem hfb hfuel

namespace KmainRuns

variable (h : KmainRuns ram info kernelStart kernelEnd s₀ s)

include h

theorem frames_eq : kmainFrames s₀ s =
    s₀.makePml4.1 :: framesSince s₀.makePml4.2.requested.length s :=
  framesSince_eq_cons (requested_makePml4 s₀) h.tracking.grows.requested

theorem bits_makePml4 : s₀.makePml4.2.bits = s₀.bits := by
  rw [bits, h.root.memBitMap]
  rfl

theorem bits_eq : s.bits = s₀.bits := h.tracking.grows.bits_eq.trans h.bits_makePml4

theorem count : (kmainFrames s₀ s).length =
    tablesNeeded (memMaps (totalSize (bootMap ram info)) ++ fbMaps info) + 1 := by
  rw [h.frames_eq, List.length_cons, h.tracking.count,
    h.built.builtPaths_eq (makePml4_aligned s₀), card_tablePaths]

/-- The frames are pages that were clear and are marked. -/
theorem taken {f : UInt64} (hf : f ∈ kmainFrames s₀ s) :
    f.toNat % 4096 = 0 ∧ pageOf f < s.bits ∧ s₀.marked (pageOf f) = false ∧
      s.marked (pageOf f) = true := by
  rw [h.frames_eq] at hf
  obtain ⟨hfaligned, hfbits, hfmarked⟩ := h.tracking.taken f hf
  refine ⟨hfaligned, hfbits, ?_, hfmarked⟩
  rcases List.mem_cons.mp hf with heq | hmemf
  · rw [heq]
    exact h.root.free
  · have hclear := h.tracking.free f hmemf
    refine Bool.eq_false_iff.mpr fun hmark => ?_
    rw [(h.root.marked _ (by rw [← h.bits_eq]; exact hfbits)).mpr (Or.inr hmark)] at hclear
    cases hclear

theorem kept {p : Nat} (hp : p < s.bits) (hmark : s₀.marked p = true) : s.marked p = true :=
  h.tracking.kept p hp ((h.root.marked p (by rw [← h.bits_eq]; exact hp)).mpr (Or.inr hmark))

/-- The clear pages below `top`, apart from that of the PML4. -/
theorem mem_erase_clearBelow {top n : Nat} (hstocked : Stocked ram info top n s₀) :
    ∀ q ∈ (clearBelow top s₀).erase (pageOf s₀.makePml4.1),
      q < s.bits ∧ s₀.makePml4.2.marked q = false ∧ ¬ FbCover info q := by
  intro q hq
  obtain ⟨hne, hq⟩ := Finset.mem_erase.mp hq
  obtain ⟨hlt, hclear⟩ := mem_clearBelow.mp hq
  have hbits : q < s₀.bits := Nat.lt_of_lt_of_le hlt hstocked.top_le
  refine ⟨by rw [h.bits_eq]; exact hbits, Bool.eq_false_iff.mpr fun hmark => ?_,
    (hstocked.conventional q hq).2⟩
  rcases (h.root.marked q hbits).mp hmark with heq | hold
  · exact hne heq
  · rw [hclear] at hold
    cases hold

/-- The frames are below `top`. -/
theorem below {top n : Nat} (hn : s₀.Narrow) (hstocked : Stocked ram info top n s₀)
    (hcount : (kmainFrames s₀ s).length ≤ n) {f : UInt64} (hf : f ∈ kmainFrames s₀ s) :
    pageOf f < top := by
  have hframes := h.frames_eq
  rw [hframes, List.length_cons] at hcount
  have hle := hcount.trans hstocked.enough
  rw [hframes] at hf
  rcases List.mem_cons.mp hf with rfl | hf
  · obtain ⟨q, hq⟩ := Finset.card_pos.mp (show 0 < (clearBelow top s₀).card by omega)
    obtain ⟨hlt, hclear⟩ := mem_clearBelow.mp hq
    rcases hfirst : s₀.firstClear with _ | p
    · have hall := (firstClear_eq_none hn).mp hfirst q (Nat.lt_of_lt_of_le hlt hstocked.top_le)
      rw [hclear] at hall
      cases hall
    · have hpage := (requestPage_found hn hfirst).2.2.1
      exact lt_of_eq_of_lt hpage (firstClear_lt hn hq hfirst)
  · have herase := Finset.pred_card_le_card_erase (s := clearBelow top s₀)
      (a := pageOf s₀.makePml4.1)
    refine h.tracking.below (h.mem_erase_clearBelow hstocked) (fun q hq => ?_) (by omega) hf
    exact (mem_clearBelow.mp (Finset.mem_of_mem_erase hq)).1

/-- The frames are conventional memory outside the framebuffer. -/
theorem conventional {top n : Nat} (hn : s₀.Narrow) (hstocked : Stocked ram info top n s₀)
    (hcount : (kmainFrames s₀ s).length ≤ n) {f : UInt64} (hf : f ∈ kmainFrames s₀ s) :
    ConventionalPage ram info (pageOf f) ∧ ¬ FbCover info (pageOf f) :=
  hstocked.conventional _
    (mem_clearBelow.mpr ⟨h.below hn hstocked hcount hf, (h.taken hf).2.2.1⟩)

variable (hready : MemoryReady ram info kernelStart kernelEnd s₀)

include hready

theorem memBitMap : s.memInfo.memBitMap = bootBitMap ram info :=
  (h.tracking.grows.memBitMap.trans h.root.memBitMap).trans hready.memBitMap

/-- The frames are pages that neither the map nor the kernel had taken. -/
theorem apart {f : UInt64} (hf : f ∈ kmainFrames s₀ s) :
    ¬ BootCover ram info.mmap info.mmapSize info.mmapDescSize (pageOf f) ∧
      ¬ KernelCover kernelStart kernelEnd (pageOf f) := by
  obtain ⟨_, hlt, hclear, _⟩ := h.taken hf
  rw [h.bits_eq] at hlt
  rw [← not_or, ← hready.marked _ hlt, hclear]
  exact Bool.false_ne_true

/-- Of the stores of the allocator and the builder, only those to the bitmap and the
frames change a byte. -/
theorem bytes {a : UInt64} (ha : ¬ (bootBitMap ram info).touched a)
    (hout : ∀ f ∈ kmainFrames s₀ s, ¬ InRange f 4096 a) : s.ram.bytes a = ram.bytes a := by
  rw [h.frames_eq] at hout
  calc s.ram.bytes a
      = s₀.makePml4.2.ram.bytes a :=
        h.tracking.bytes a (by rw [h.memBitMap hready]; exact ha) hout
    _ = s₀.ram.bytes a :=
        h.root.bytes a (by rw [hready.memBitMap]; exact ha) (hout _ List.mem_cons_self)
    _ = ram.bytes a := hready.bytes a ha

end KmainRuns

end Runs

/-- The start of the kernel.  The map of the loader describes some memory, with
regions that begin at pages, and of the pages that `setUpMemory` leaves clear the
lowest are conventional memory outside the framebuffer, as many as the PML4 and the
tables need.  Then `kmain` loads `cr3` with the identity on the memory and the
framebuffer; its frames are distinct pages of conventional memory that were clear and
are marked now, as many as needed. -/
theorem kmain_starts {s₀ : Machine} {top : Nat}
    (hmemory : setUpMemory info kernelStart kernelEnd (boot ram) = some s₀)
    (hmap : PageAligned (bootMap ram info))
    (hpos : 0 < totalSize (bootMap ram info))
    (hmem : (totalSize (bootMap ram info)).toNat ≤ 2 ^ 48) (hfb : FbBelow info)
    (hstocked : Stocked ram info top
      (tablesNeeded (memMaps (totalSize (bootMap ram info)) ++ fbMaps info) + 1) s₀) :
    ∃ cr3 s',
      (∀ fuel, 2 ^ 36 < fuel →
        kmain fuel info kernelStart kernelEnd (boot ram) = some (cr3, s')) ∧
      KernelStarted ram info kernelStart kernelEnd s₀ cr3 s' := by
  have hready := memoryReady hmemory hmap
  obtain ⟨s', hrun⟩ := kmain_runs hmemory hready hpos hmem hfb hstocked.le_card_spare
  obtain ⟨hmapped, hidentity⟩ := hrun.built.physAddr_loops hmem hfb
  refine ⟨s₀.makePml4.1, s', hrun.run, ?_⟩
  constructor
  case mapped => exact hmapped
  case identity => exact hidentity
  case root => rw [hrun.frames_eq, List.head?_cons]
  case nodup =>
    rw [hrun.frames_eq]
    exact hrun.tracking.fresh.nodup
  case count => exact hrun.count
  case frames => exact fun f hf => hrun.taken hf
  case conventional =>
    exact fun f hf => hrun.conventional hready.narrow hstocked hrun.count.le hf
  case apart => exact fun f hf => hrun.apart hready hf
  case kept =>
    rintro p hp (hmark | hcov)
    · exact hrun.kept hp hmark
    · exact hrun.locked p hp hcov

/-- A memory of 257 pages: page 0 is reserved, the kernel is in page 8, the bitmap goes to
page 9, and the map is in the last page. -/
def startRam : ByteMemory :=
  sampleRam [⟨0, 0, 1⟩, ⟨7, 0x1000, 7⟩, ⟨2, 0x8000, 1⟩, ⟨7, 0x9000, 247⟩, ⟨2, 0x100000, 1⟩]

/-- A framebuffer of one page, apart from the memory. -/
def startInfo : BootInfo where
  baseAddress := 0xe0000000
  bufferSize := 0x1000
  mmap := 0x100000
  mmapSize := 240
  mmapDescSize := 48

theorem tablesNeeded_startRam : tablesNeeded
    (memMaps (totalSize (bootMap startRam startInfo)) ++ fbMaps startInfo) = 5 := by
  decide +kernel

theorem setUpMemory_startRam : ∃ s₀,
    setUpMemory startInfo 0x8000 0x8010 (boot startRam) = some s₀ ∧
      Stocked startRam startInfo 8 7 s₀ :=
  exists_stocked (by decide +kernel)

/-- The kernel starts, and the PML4 is the first page behind the reserved one. -/
theorem kmain_starts_startRam : ∃ s₀ cr3 s',
    setUpMemory startInfo 0x8000 0x8010 (boot startRam) = some s₀ ∧
    kmain (2 ^ 36 + 1) startInfo 0x8000 0x8010 (boot startRam) = some (cr3, s') ∧
    KernelStarted startRam startInfo 0x8000 0x8010 s₀ cr3 s' := by
  have hsize : totalSize (bootMap startRam startInfo) = 0x101000 := by decide +kernel
  obtain ⟨s₀, hmemory, hstocked⟩ := setUpMemory_startRam
  obtain ⟨cr3, s', hrun, hstarted⟩ := kmain_starts hmemory (by unfold PageAligned; decide +kernel)
    (by rw [hsize]; decide) (by rw [hsize]; decide) (by decide)
    (hstocked.mono (by rw [tablesNeeded_startRam]; decide))
  exact ⟨s₀, cr3, s', hmemory, hrun _ (by decide), hstarted⟩

/-- The address space of the kernel, exactly.  Under the assumptions of the start `kmain`
loads `cr3` with tables that map the pages of `InSpace` to themselves and no other one.
A memory map adds up the sizes of its regions, so with a hole in front of the region of
the bitmap the bitmap may be out of reach from then on. -/
theorem address_space_exact {s₀ : Machine} {top : Nat}
    (hmemory : setUpMemory info kernelStart kernelEnd (boot ram) = some s₀)
    (hmap : PageAligned (bootMap ram info))
    (hpos : 0 < totalSize (bootMap ram info))
    (hmem : (totalSize (bootMap ram info)).toNat ≤ 2 ^ 48) (hfb : FbBelow info)
    (hstocked : Stocked ram info top
      (tablesNeeded (memMaps (totalSize (bootMap ram info)) ++ fbMaps info) + 1) s₀) :
    ∃ cr3 s',
      (∀ fuel, 2 ^ 36 < fuel →
        kmain fuel info kernelStart kernelEnd (boot ram) = some (cr3, s')) ∧
      s'.memInfo.memBitMap = bootBitMap ram info ∧
      ∀ a, physAddr s'.ram cr3 a = if InSpace info (totalSize (bootMap ram info)) a then
        some (UInt64.ofNat (a.toNat % 2 ^ 48)) else none := by
  have hready := memoryReady hmemory hmap
  obtain ⟨s', hrun⟩ := kmain_runs hmemory hready hpos hmem hfb hstocked.le_card_spare
  exact ⟨s₀.makePml4.1, s', hrun.run, hrun.memBitMap hready, hrun.built.physAddr_eq hmem hfb⟩

/-- The same memory, with a hole between the map and the largest conventional region,
which is at 2 MiB. -/
def holeRam : ByteMemory :=
  sampleRam [⟨0, 0, 1⟩, ⟨7, 0x1000, 7⟩, ⟨2, 0x8000, 1⟩, ⟨2, 0x100000, 1⟩, ⟨7, 0x200000, 247⟩]

/-- The regions have 257 pages together, so the bitmap at 2 MiB is not mapped. -/
theorem address_space_exact_holeRam : ∃ cr3 s',
    kmain (2 ^ 36 + 1) startInfo 0x8000 0x8010 (boot holeRam) = some (cr3, s') ∧
    s'.memInfo.memBitMap = { size := 33, buffer := 0x200000 } ∧
    physAddr s'.ram cr3 0x200000 = none ∧ physAddr s'.ram cr3 0x100fff = some 0x100fff := by
  have hsize : totalSize (bootMap holeRam startInfo) = 0x101000 := by decide +kernel
  have hbitmap : bootBitMap holeRam startInfo = { size := 33, buffer := 0x200000 } := by
    decide +kernel
  have hneeded : tablesNeeded (memMaps 0x101000 ++ fbMaps startInfo) = 5 := by decide +kernel
  obtain ⟨s₀, hmemory, hstocked⟩ : ∃ s₀,
      setUpMemory startInfo 0x8000 0x8010 (boot holeRam) = some s₀ ∧
        Stocked holeRam startInfo 8 6 s₀ := exists_stocked (by decide +kernel)
  obtain ⟨cr3, s', hrun, hbit, hspace⟩ := address_space_exact hmemory
    (by unfold PageAligned; decide +kernel) (by rw [hsize]; decide) (by rw [hsize]; decide)
    (by decide) (hstocked.mono (by rw [hsize, hneeded]))
  rw [hsize] at hspace
  refine ⟨cr3, s', hrun _ (by decide), hbit.trans hbitmap, ?_, ?_⟩
  · rw [hspace, if_neg (by decide)]
  · rw [hspace, if_pos (by decide)]
    rfl

end Start

end Machine

end BbnOS
