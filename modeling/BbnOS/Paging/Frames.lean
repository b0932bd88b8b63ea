import BbnOS.Lib.RadixTable
import BbnOS.Paging.PageTable

/-!
# The memory as an array of tables

The page tables are the radix tables of `Lib.RadixTable`, with the pages of
the memory as frames: `ent` is the entry of every page and index, and `next`
follows a present entry.  Page tables start at a page boundary, so two of them
are the same or do not meet, and a store of one entry changes no other one
(`ent_write_of_ne`).

`translate_eq_leaf` says that the walk of the processor is the lookup of a
radix table of depth 3.
-/

namespace BbnOS

open ByteMemory RadixTable

/-! ## Page frames -/

/-- The address of a page frame. -/
def frameAddr (n : BitVec 52) : UInt64 := UInt64.ofBitVec (n.setWidth 64) <<< 12

/-- The page frame of an address. -/
def frameOf (a : UInt64) : BitVec 52 := (a >>> 12).toBitVec.setWidth 52

theorem frameAddr_toNat (n : BitVec 52) : (frameAddr n).toNat = n.toNat * 4096 := by
  have hn := n.isLt
  rw [frameAddr, UInt64.toNat_shiftLeft, UInt64.toNat_ofBitVec, BitVec.toNat_setWidth,
    Nat.shiftLeft_eq]
  simp only [UInt64.reduceToNat, Nat.reduceMod, Nat.reducePow] at hn ⊢
  omega

theorem frameOf_toNat (a : UInt64) : (frameOf a).toNat = a.toNat / 4096 := by
  have ha := a.toNat_lt
  rw [frameOf, BitVec.toNat_setWidth, UInt64.toNat_toBitVec, UInt64.toNat_shiftRight,
    Nat.shiftRight_eq_div_pow]
  simp only [UInt64.reduceToNat, Nat.reduceMod, Nat.reducePow] at ha ⊢
  omega

/-- A page-aligned address is the address of its frame. -/
theorem frameAddr_frameOf {a : UInt64} (ha : a.toNat % 4096 = 0) :
    frameAddr (frameOf a) = a := by
  rw [← UInt64.toNat_inj, frameAddr_toNat, frameOf_toNat]
  omega

/-- A frame is the frame of its address. -/
theorem frameOf_frameAddr (n : BitVec 52) : frameOf (frameAddr n) = n := by
  apply BitVec.eq_of_toNat_eq
  rw [frameOf_toNat, frameAddr_toNat, Nat.mul_div_cancel _ (by decide)]

/-- Different frames do not meet. -/
theorem frames_disjoint {n m : BitVec 52} (h : n ≠ m) :
    Disjoint (frameAddr n) 4096 (frameAddr m) 4096 := by
  have hn := n.isLt
  have hm := m.isLt
  have hne : n.toNat ≠ m.toNat := fun heq => h (BitVec.eq_of_toNat_eq heq)
  rcases Nat.lt_or_gt_of_ne hne with hlt | hlt
  · apply disjoint_of_toNat_le <;> rw [frameAddr_toNat]
    · rw [frameAddr_toNat]
      omega
    · omega
  · apply ByteMemory.Disjoint.symm
    apply disjoint_of_toNat_le <;> rw [frameAddr_toNat]
    · rw [frameAddr_toNat]
      omega
    · omega

/-! ## Entries -/

/-- The address of entry `i` of the table in a frame. -/
def slot (n : BitVec 52) (i : Fin 512) : UInt64 := entryAddr (frameAddr n) (UInt64.ofNat i)

/-- Entry `i` of the table in a frame. -/
def ent (ram : ByteMemory) (n : BitVec 52) (i : Fin 512) : PageDirEntry :=
  PageDirEntry.read ram (slot n i)

/-- The frame that a present entry refers to. -/
def next (e : PageDirEntry) : Option (BitVec 52) :=
  if e.present then some e.address else none

@[simp] theorem isSome_next (e : PageDirEntry) : (next e).isSome = e.present := by
  unfold next
  split <;> simp_all

theorem next_eq_none {e : PageDirEntry} : next e = none ↔ e.present = false := by
  rw [← isSome_next, Option.isSome_eq_false_iff, Option.isNone_iff_eq_none]

theorem target_eq (e : PageDirEntry) : e.target = frameAddr e.address := rfl

theorem slot_eq (n : BitVec 52) (i : Fin 512) :
    slot n i = frameAddr n + UInt64.ofNat (i * 8) := by
  rw [UInt64.ofNat_mul]
  rfl

/-- An entry lies in its frame. -/
theorem inRange_frame_of_entry {n : BitVec 52} {i : Fin 512} {a : UInt64}
    (h : InRange (slot n i) 8 a) : InRange (frameAddr n) 4096 a := by
  rw [slot_eq] at h
  exact inRange_of_offset (by omega) (by omega) h

/-- An entry depends on its frame only. -/
theorem ent_congr {ram ram' : ByteMemory} {n : BitVec 52}
    (h : ∀ a, InRange (frameAddr n) 4096 a → ram'.bytes a = ram.bytes a) (i : Fin 512) :
    ent ram' n i = ent ram n i := by
  rw [ent, ent, PageDirEntry.read, PageDirEntry.read,
    read64_congr fun a ha => h a (inRange_frame_of_entry ha)]

/-- Two entries are the same or do not meet. -/
theorem entries_disjoint {n m : BitVec 52} {i j : Fin 512} (h : ¬ (m = n ∧ j = i)) :
    Disjoint (slot n i) 8 (slot m j) 8 := by
  by_cases hnm : m = n
  · subst hnm
    have hij : (j : Nat) ≠ i := fun heq => h ⟨rfl, Fin.ext heq⟩
    rw [slot_eq, slot_eq]
    exact disjoint_of_offsets (N := 4096) (by omega) (by omega) (by omega) (by omega)
  · intro a ha ha'
    exact frames_disjoint (Ne.symm hnm) a (inRange_frame_of_entry ha) (inRange_frame_of_entry ha')

theorem ent_write_self (ram : ByteMemory) (n : BitVec 52) (i : Fin 512) (e : PageDirEntry) :
    ent (PageDirEntry.write ram (slot n i) e) n i = e := by
  rw [ent, PageDirEntry.read, PageDirEntry.write, read64_write64_self, PageDirEntry.ofWord_toWord]

/-- A store of one entry changes no other entry. -/
theorem ent_write_of_ne (ram : ByteMemory) {n m : BitVec 52} {i j : Fin 512} (e : PageDirEntry)
    (h : ¬ (m = n ∧ j = i)) :
    ent (PageDirEntry.write ram (slot n i) e) m j = ent ram m j := by
  rw [ent, ent, PageDirEntry.read, PageDirEntry.read, PageDirEntry.write,
    read64_write64_of_disjoint _ _ (entries_disjoint h)]

/-- A store of an entry changes its frame only. -/
theorem bytes_write_of_not_inRange (ram : ByteMemory) {n : BitVec 52} (i : Fin 512)
    (e : PageDirEntry) {a : UInt64} (ha : ¬ InRange (frameAddr n) 4096 a) :
    (PageDirEntry.write ram (slot n i) e).bytes a = ram.bytes a :=
  bytes_write64_of_not_inRange ram _ fun hin => ha (inRange_frame_of_entry hin)

/-- The entries of a cleared frame are not present. -/
theorem next_ent_fill (ram : ByteMemory) (n : BitVec 52) (i : Fin 512) :
    next (ent (ram.fill (frameAddr n) 4096 0) n i) = none := by
  rw [ent, PageDirEntry.read, read64_fill_zero _ fun a ha => inRange_frame_of_entry ha]
  rfl

/-- Clearing a frame changes no other frame. -/
theorem ent_fill_of_ne (ram : ByteMemory) {n m : BitVec 52} (h : m ≠ n) (i : Fin 512) :
    ent (ram.fill (frameAddr n) 4096 0) m i = ent ram m i :=
  ent_congr (fun _ ha => bytes_fill_of_not_inRange ram 0 fun ha' =>
    frames_disjoint h _ ha ha') i

/-! ## Indices -/

/-- The path of an address: its indices into the first three levels. -/
def pathOf (a : UInt64) : List (Fin 512) :=
  [indexBits a 39, indexBits a 30, indexBits a 21]

/-- The virtual page of an address, bits 47 to 12. -/
def pageKey (a : UInt64) : Nat := a.toNat / 4096 % 2 ^ 36

@[simp] theorem length_pathOf (a : UInt64) : (pathOf a).length = 3 := rfl

/-- Two addresses have the same four indices when they have the same virtual
page. -/
theorem pageKey_eq_iff {a b : UInt64} :
    pageKey a = pageKey b ↔ pathOf a = pathOf b ∧ indexBits a 12 = indexBits b 12 := by
  simp only [pathOf, indexBits, pageKey, List.cons.injEq, Fin.mk.injEq, and_true]
  omega

/-- `initPageMapIndexer` computes the four indices. -/
theorem initPageMapIndexer_eq (a : UInt64) :
    initPageMapIndexer a =
      { pdpI := UInt64.ofNat (indexBits a 39), pdI := UInt64.ofNat (indexBits a 30),
        ptI := UInt64.ofNat (indexBits a 21), pI := UInt64.ofNat (indexBits a 12) } := by
  have hmask : ∀ x : UInt64, ∀ lo, x.toNat = a.toNat / 2 ^ lo →
      x &&& 0x1ff = UInt64.ofNat (indexBits a lo) := by
    intro x lo hx
    rw [← UInt64.toNat_inj, UInt64.toNat_and, hx, ofNat_toNat_of_lt (by omega)]
    exact Nat.and_two_pow_sub_one_eq_mod _ 9
  have hshift : ∀ x : UInt64, (x >>> 12).toNat = x.toNat / 2 ^ 12 ∧
      (x >>> 9).toNat = x.toNat / 2 ^ 9 := by
    intro x
    rw [UInt64.toNat_shiftRight, UInt64.toNat_shiftRight, Nat.shiftRight_eq_div_pow,
      Nat.shiftRight_eq_div_pow]
    exact ⟨rfl, rfl⟩
  unfold initPageMapIndexer
  simp only [PageMapIndexer.mk.injEq]
  refine ⟨hmask _ 39 ?_, hmask _ 30 ?_, hmask _ 21 ?_, hmask _ 12 ?_⟩ <;>
    simp only [hshift, Nat.div_div_eq_div_mul] <;> rfl

/-! ## The walk -/

theorem presentEntry_frameAddr (ram : ByteMemory) (n : BitVec 52) (i : Fin 512) :
    presentEntry ram (frameAddr n) i =
      if (next (ent ram n i)).isSome then some (ent ram n i) else none := by
  rw [isSome_next]
  rfl

/-- The walk of the processor is the lookup of the radix table. -/
theorem translate_eq_leaf (ram : ByteMemory) {pml4 : UInt64} (h : pml4.toNat % 4096 = 0)
    (a : UInt64) :
    translate ram pml4 a = leaf next (ent ram) (frameOf pml4) (pathOf a) (indexBits a 12) := by
  have hlevel : ∀ (n : BitVec 52) (i : Fin 512) (k : UInt64 → Option PageDirEntry),
      (presentEntry ram (frameAddr n) i >>= fun e => k e.target) =
        (next (ent ram n i) >>= fun f => k (frameAddr f)) := by
    intro n i k
    rw [presentEntry_frameAddr, isSome_next, next]
    split <;> rfl
  have hroot : translate ram pml4 a = translate ram (frameAddr (frameOf pml4)) a := by
    rw [frameAddr_frameOf h]
  rw [hroot]
  calc translate ram (frameAddr (frameOf pml4)) a
      = (next (ent ram (frameOf pml4) (indexBits a 39)) >>= fun f =>
          next (ent ram f (indexBits a 30)) >>= fun f =>
          next (ent ram f (indexBits a 21)) >>= fun f =>
          presentEntry ram (frameAddr f) (indexBits a 12)) := by
        unfold translate
        rw [hlevel _ _ fun t => presentEntry ram t (indexBits a 30) >>= fun e =>
          presentEntry ram e.target (indexBits a 21) >>= fun e =>
          presentEntry ram e.target (indexBits a 12)]
        refine bind_congr fun f => ?_
        rw [hlevel _ _ fun t => presentEntry ram t (indexBits a 21) >>= fun e =>
          presentEntry ram e.target (indexBits a 12)]
        refine bind_congr fun f => ?_
        rw [hlevel _ _ fun t => presentEntry ram t (indexBits a 12)]
    _ = leaf next (ent ram) (frameOf pml4) (pathOf a) (indexBits a 12) := by
        simp only [leaf, table, pathOf, List.foldlM_cons, List.foldlM_nil, bind_pure,
          presentEntry_frameAddr]
        simp only [← Option.bind_eq_bind, bind_assoc]

end BbnOS
