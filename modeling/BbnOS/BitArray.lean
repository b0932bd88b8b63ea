import BbnOS.Bitmap
import BbnOS.Lib.Cells

/-!
# The bitmap as an array of bits

Eight indices share a byte of the bitmap, so a set reads and writes the bits
of seven neighbours too.  `independent_bits` says that it does not change
them: for the indices that pass the guard the two functions of `bitmap.c`
obey the law of independent cells.

`BitMap.ActsAsArray` collects what the allocator relies on, for one buffer
content, and `actsAsArray` proves it for every content and every size.
-/

namespace BbnOS

open ByteMemory Cells

/-- The memory after a list of `bitmapSetVal` calls, the head first. -/
def bitmapSetAll (ram : ByteMemory) (bm : BitMap) (writes : List (UInt64 × Bool)) : ByteMemory :=
  setAll (fun ram i v => (bitmapSetVal ram bm i v).2) ram writes

namespace BitMap

/-- The bitmap at `bm` with the contents of `ram` is an array of independent
bits, for the indices that its buffer holds. -/
structure ActsAsArray (bm : BitMap) (ram : ByteMemory) : Prop where
  set_succeeds : ∀ i v, i.toNat < bm.bits → (bitmapSetVal ram bm i v).1 = true
  get_set_self : ∀ i v, i.toNat < bm.bits → bitmapGetVal (bitmapSetVal ram bm i v).2 bm i = v
  get_set_ne : ∀ i j v, i.toNat < bm.bits → j.toNat < bm.bits → j ≠ i →
    bitmapGetVal (bitmapSetVal ram bm i v).2 bm j = bitmapGetVal ram bm j
  /-- After any run of sets a bit is the last one written to its index. -/
  get_setAll : ∀ writes, (∀ w ∈ writes, w.1.toNat < bm.bits) → ∀ i, i.toNat < bm.bits →
    bitmapGetVal (bitmapSetAll ram bm writes) bm i =
      (lastValue writes i).getD (bitmapGetVal ram bm i)
  /-- The memory itself, not only the bits, is the same for both orders. -/
  set_comm : ∀ i j v w, i.toNat < bm.bits → j.toNat < bm.bits → i ≠ j →
    (bitmapSetVal (bitmapSetVal ram bm i v).2 bm j w).2 =
      (bitmapSetVal (bitmapSetVal ram bm j w).2 bm i v).2

end BitMap

variable {bm : BitMap}

/-- The indices that pass the guard are independent cells. -/
theorem independent_bits (bm : BitMap) :
    Independent (fun i : UInt64 => i.toNat < bm.reach) (fun ram i => bitmapGetVal ram bm i)
      (fun ram i v => (bitmapSetVal ram bm i v).2) := by
  intro ram i v hi j hj
  have hbit := bit_bitmapSetVal ram v hi (Nat.lt_trans j.toNat_lt (by decide))
  simp only [bitmapGetVal_eq, hj, decide_true, Bool.true_and, hbit, UInt64.toNat_inj]

/-- A memory is determined by the bits that pass the guard and by the bytes
that the bitmap functions do not touch. -/
theorem memory_eq_of_bits {ram ram' : ByteMemory}
    (hbits : ∀ p, p < bm.reach → bm.bit ram p = bm.bit ram' p)
    (hrest : ∀ a, ¬ bm.touched a → ram.bytes a = ram'.bytes a) : ram = ram' := by
  ext a : 2
  by_cases ha : bm.touched a
  · exact (BitMap.bytes_iff_bits (Nat.succ_le_of_lt bm.size.toNat_lt)).mpr hbits a ha
  · exact hrest a ha

/-- Sets at different indices commute to the same memory. -/
theorem bitmapSetVal_comm (ram : ByteMemory) {i j : UInt64} (v w : Bool) (hij : i ≠ j)
    (hi : i.toNat < bm.reach) (hj : j.toNat < bm.reach) :
    (bitmapSetVal (bitmapSetVal ram bm i v).2 bm j w).2 =
      (bitmapSetVal (bitmapSetVal ram bm j w).2 bm i v).2 := by
  refine @memory_eq_of_bits bm _ _ ?_ ?_
  · intro p hp
    have hlt : p < 2 ^ 67 := Nat.lt_of_lt_of_le hp bm.reach_le
    rw [bit_bitmapSetVal _ _ hj hlt, bit_bitmapSetVal _ _ hi hlt, bit_bitmapSetVal _ _ hi hlt,
      bit_bitmapSetVal _ _ hj hlt]
    by_cases hpi : p = i.toNat
    · have hpj : p ≠ j.toNat := fun he => hij (UInt64.toNat_inj.mp (hpi.symm.trans he))
      rw [if_pos hpi, if_pos hpi, if_neg hpj]
    · rw [if_neg hpi, if_neg hpi]
  · intro a ha
    rw [bytes_bitmapSetVal_of_not_touched _ _ _ ha, bytes_bitmapSetVal_of_not_touched _ _ _ ha,
      bytes_bitmapSetVal_of_not_touched _ _ _ ha, bytes_bitmapSetVal_of_not_touched _ _ _ ha]

/-- A run of sets of pairwise different indices may be made in any order. -/
theorem bitmapSetAll_perm (ram : ByteMemory) {writes writes' : List (UInt64 × Bool)}
    (hperm : writes.Perm writes') (hindices : (writes.map Prod.fst).Nodup)
    (hin : ∀ w ∈ writes, w.1.toNat < bm.reach) :
    bitmapSetAll ram bm writes = bitmapSetAll ram bm writes' := by
  refine setAll_perm hperm hindices fun ram x hx y hy hxy => ?_
  exact bitmapSetVal_comm ram x.2 y.2 hxy (hin x hx) (hin y hy)

/-- Every bitmap is an array of independent bits, whatever its buffer holds. -/
theorem actsAsArray (bm : BitMap) (ram : ByteMemory) : bm.ActsAsArray ram := by
  have hcells := independent_bits bm
  have hreach : ∀ i : UInt64, i.toNat < bm.bits → i.toNat < bm.reach := fun i hi =>
    Nat.lt_of_lt_of_le hi bm.bits_le_reach
  constructor
  case set_succeeds =>
    intro i v hi
    exact bitmapSetVal_fst ram v (hreach i hi)
  case get_set_self =>
    intro i v hi
    have h := hcells ram i v (hreach i hi) i (hreach i hi)
    rwa [if_pos rfl] at h
  case get_set_ne =>
    intro i j v hi hj hji
    have h := hcells ram i v (hreach i hi) j (hreach j hj)
    rwa [if_neg hji] at h
  case get_setAll =>
    intro writes hwrites i hi
    exact hcells.get_setAll ram writes (fun w hw => hreach w.1 (hwrites w hw)) (hreach i hi)
  case set_comm =>
    intro i j v w hi hj hij
    exact bitmapSetVal_comm ram v w hij (hreach i hi) (hreach j hj)

end BbnOS
