import BbnOS.Mem.Pool

/-!
# Which pages `requestPage` hands out

The allocator hands out every page that has a clear bit in the buffer.
`readEFIMemoryMap` sets the bits of its own bitmap and of the regions that it
reserves, and a page that it has marked is never handed out as long as callers
free only what they were given (`usable_of_returns`).

It does not mark the rest: the memory-mapped I/O regions, which the guard of
`_descReservePage` skips, and the pages that belong to no region.  The last
part has a map for each of the two, and one for a bitmap that overwrites the
map it is made from.
-/

namespace BbnOS

open ByteMemory

namespace Machine

/-- Every `freePages` call of the run is about pages that `requestPage` has
returned before. -/
def FreesReturned (s : Machine) (ops : List PageOp) : Prop :=
  ∀ before addr numPages, before ++ [.freePages addr numPages] <+: ops →
    ∀ p, Covers addr numPages.toNat p →
      ∃ earlier, earlier ++ [.requestPage] <+: before ∧ (s.calls earlier).Returns p

theorem FreesReturned.of_isPrefix {s : Machine} {ops ops' : List PageOp}
    (h : s.FreesReturned ops) (hpre : ops' <+: ops) : s.FreesReturned ops' :=
  fun before addr numPages hbefore => h before addr numPages (hbefore.trans hpre)

/-- A page that is marked from the start is never returned by a run that frees
returned pages only. -/
theorem FreesReturned.not_returns {s : Machine} (h : s.Narrow) {p : Nat} (hp : p < s.bits)
    (hmark : s.marked p = true) {ops : List PageOp} (hfrees : s.FreesReturned ops) :
    ¬ (s.calls ops).Returns p := by
  induction hlen : ops.length using Nat.strong_induction_on generalizing ops with
  | _ len ih =>
    intro hret
    obtain ⟨op, hop, addr, numPages, rfl, hcov⟩ := frees_of_returns h hp hmark hret
    obtain ⟨before, after, rfl⟩ := List.append_of_mem hop
    have hpre : before ++ [PageOp.freePages addr numPages] <+:
        before ++ .freePages addr numPages :: after := ⟨after, by simp⟩
    -- the page was returned before it was freed, by a shorter run
    obtain ⟨earlier, hearlier, hret'⟩ := hfrees before addr numPages hpre p hcov
    have hshort : earlier.length < len := by
      have := hearlier.length_le
      rw [List.length_append, List.length_singleton] at this
      rw [← hlen, List.length_append]
      omega
    have hpre' : earlier <+: before ++ .freePages addr numPages :: after :=
      ((List.prefix_append _ _).trans hearlier).trans (List.prefix_append _ _)
    exact ih _ hshort (hfrees.of_isPrefix hpre') rfl hret'

/-- After `readEFIMemoryMap`, whatever calls follow that free returned pages
only, a page that `requestPage` returns has a bit in the buffer, is no page of
the bitmap, and belongs to no region of a type other than conventional memory
and memory-mapped I/O. -/
theorem usable_of_returns {ram : ByteMemory} {mmap mmapSize mmapDescSize : UInt64} {s : Machine}
    (hboot : AtBoot ram mmap mmapSize mmapDescSize s)
    (hstride : EfiMemoryDescriptor.size ≤ mmapDescSize.toNat)
    (htypes : ∀ d ∈ mapOf ram mmap mmapSize mmapDescSize, d.type ≤ 15)
    (hapart : ArrayApart mmap mmapSize (mapOf ram mmap mmapSize mmapDescSize)) :
    ∃ s₀, readEFIMemoryMap mmap mmapSize mmapDescSize s = some s₀ ∧
      ∀ ops p, s₀.FreesReturned ops → (s₀.calls ops).Returns p →
        p < 8 * (bitmapSize (mapOf ram mmap mmapSize mmapDescSize)).toNat ∧
        ¬ LockCover (mapOf ram mmap mmapSize mmapDescSize) p ∧
        ∀ d ∈ mapOf ram mmap mmapSize mmapDescSize, d.HasPage p →
          d.type = EfiMemoryType.efiConventionalMemory.code ∨
          d.type = EfiMemoryType.efiMemoryMappedIO.code ∨
          d.type = EfiMemoryType.efiMemoryMappedIOPortSpace.code := by
  obtain ⟨s₀, hread, _⟩ := readEFIMemoryMap_spec hboot hstride htypes hapart
  refine ⟨s₀, hread, fun ops p hfrees hret => ?_⟩
  have hnarrow := narrow_of_readEFIMemoryMap hboot hread
  have hp : p < s₀.bits := by
    rw [← bits_calls hnarrow ops]
    exact ((firstClear_eq_some (narrow_calls hnarrow ops)).mp hret).1
  have hclear : ¬ s₀.marked p = true := fun hmark =>
    hfrees.not_returns hnarrow hp hmark hret
  rw [marked_readEFIMemoryMap hboot hread hp, BootCover,
    passCover_of_arrayApart hstride hapart, not_or] at hclear
  refine ⟨by rw [← bits_of_readEFIMemoryMap hboot hread]; exact hp, hclear.1, ?_⟩
  intro d hd hin
  by_contra htype
  refine hclear.2 ⟨d, hd, ?_, hin⟩
  simp only [not_or] at htype
  simp [EfiMemoryDescriptor.isReserved, htype]

/-- A memory with a map whose first descriptor, 64 pages of loader data, has its
page count at the place of the bitmap. -/
def overwrittenRam : ByteMemory :=
  storeMap ⟨fun _ => 0⟩ 0x3ffe8 48 [⟨2, 0, 64⟩, ⟨7, 0x40000, 8⟩]

/-- A page between two regions, a page of memory-mapped I/O, and a page of
loader data whose descriptor the bitmap has overwritten: `requestPage` returns
each of them. -/
theorem unusable_returned :
    (∃ s₀, readEFIMemoryMap 0x100000 96 48
        (boot (sampleRam [⟨7, 0, 1⟩, ⟨7, 0x2000, 1⟩])) = some s₀ ∧
      s₀.requestPage.1 = 0x1000 ∧
      ∀ d ∈ mapOf (sampleRam [⟨7, 0, 1⟩, ⟨7, 0x2000, 1⟩]) 0x100000 96 48, ¬ d.HasPage 1) ∧
    (∃ s₀, readEFIMemoryMap 0x100000 96 48
        (boot (sampleRam [⟨7, 0, 1⟩, ⟨11, 0x1000, 8⟩])) = some s₀ ∧
      s₀.requestPage.1 = 0x1000 ∧
      (∃ d ∈ mapOf (sampleRam [⟨7, 0, 1⟩, ⟨11, 0x1000, 8⟩]) 0x100000 96 48,
        d.HasPage 1 ∧ d.type = EfiMemoryType.efiMemoryMappedIO.code) ∧
      ∀ d ∈ mapOf (sampleRam [⟨7, 0, 1⟩, ⟨11, 0x1000, 8⟩]) 0x100000 96 48,
        d.HasPage 1 → d.type ≠ EfiMemoryType.efiConventionalMemory.code) ∧
    (∃ s₀, readEFIMemoryMap 0x3ffe8 96 48 (boot overwrittenRam) = some s₀ ∧
      (s₀.call .requestPage).requestPage.1 = 0x1000 ∧
      (∃ d ∈ mapOf overwrittenRam 0x3ffe8 96 48,
        d.HasPage 1 ∧ d.type = EfiMemoryType.efiLoaderData.code) ∧
      ∀ d ∈ mapOf overwrittenRam 0x3ffe8 96 48,
        d.HasPage 1 → d.type ≠ EfiMemoryType.efiConventionalMemory.code) := by
  have hgap : ((readEFIMemoryMap 0x100000 96 48
      (boot (sampleRam [⟨7, 0, 1⟩, ⟨7, 0x2000, 1⟩]))).map fun s => s.requestPage.1) =
      some 0x1000 := by decide +kernel
  have hio : ((readEFIMemoryMap 0x100000 96 48
      (boot (sampleRam [⟨7, 0, 1⟩, ⟨11, 0x1000, 8⟩]))).map fun s => s.requestPage.1) =
      some 0x1000 := by decide +kernel
  have hlost : ((readEFIMemoryMap 0x3ffe8 96 48 (boot overwrittenRam)).map fun s =>
      (s.call .requestPage).requestPage.1) = some 0x1000 := by decide +kernel
  obtain ⟨s₁, hread₁, hret₁⟩ := Option.map_eq_some_iff.mp hgap
  obtain ⟨s₂, hread₂, hret₂⟩ := Option.map_eq_some_iff.mp hio
  obtain ⟨s₃, hread₃, hret₃⟩ := Option.map_eq_some_iff.mp hlost
  exact ⟨⟨s₁, hread₁, hret₁, by decide +kernel⟩,
    ⟨s₂, hread₂, hret₂, by decide +kernel, by decide +kernel⟩,
    ⟨s₃, hread₃, hret₃, by decide +kernel, by decide +kernel⟩⟩

/-- The pages that a small map leaves for `requestPage`. -/
theorem usable_of_returns_sample :
    ∃ s₀, readEFIMemoryMap 0x100000 96 48
        (boot (sampleRam [⟨7, 0, 8⟩, ⟨2, 0x8000, 8⟩])) = some s₀ ∧
      ∀ ops p, s₀.FreesReturned ops → (s₀.calls ops).Returns p →
        p < 8 * (bitmapSize (mapOf (sampleRam [⟨7, 0, 8⟩, ⟨2, 0x8000, 8⟩]) 0x100000 96 48)).toNat ∧
        ¬ LockCover (mapOf (sampleRam [⟨7, 0, 8⟩, ⟨2, 0x8000, 8⟩]) 0x100000 96 48) p ∧
        ∀ d ∈ mapOf (sampleRam [⟨7, 0, 8⟩, ⟨2, 0x8000, 8⟩]) 0x100000 96 48, d.HasPage p →
          d.type = EfiMemoryType.efiConventionalMemory.code ∨
          d.type = EfiMemoryType.efiMemoryMappedIO.code ∨
          d.type = EfiMemoryType.efiMemoryMappedIOPortSpace.code := by
  have hmap : mapOf (sampleRam [⟨7, 0, 8⟩, ⟨2, 0x8000, 8⟩]) 0x100000 96 48 =
      [⟨7, 0, 8⟩, ⟨2, 0x8000, 8⟩] := by decide +kernel
  refine usable_of_returns AtBoot.initial (by decide) (by rw [hmap]; decide) ?_
  rw [hmap]
  exact (disjoint_of_toNat_le (by decide +kernel) (by decide)).symm

end Machine

end BbnOS
