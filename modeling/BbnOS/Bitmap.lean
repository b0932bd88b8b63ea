import BbnOS.Lib.ByteBits
import BbnOS.Lib.ByteMemory

/-!
# The kernel's bitmap

`lib/uefi/bitmap.c` packs one bit per page into a byte buffer, high bit first.
`bitmapGetVal` and `bitmapSetVal` are its two functions.

Both guard the access with `byte_index > bm->size`, so byte number `size`, one
past the buffer, is let through.  `BitMap.reach` is the number of indices that
pass the guard, `8 * (size + 1)`.

`BitMap.bit` is the packed array as a function of the index, without the
guard.  `bitmapGetVal_eq` and `bit_bitmapSetVal` describe the two functions
through it, and every later module reads the bitmap in this way.
-/

namespace BbnOS

open ByteMemory ByteBits

/-- `BitMap` of `bitmap.h`: the size in bytes and the address of the buffer. -/
structure BitMap where
  size : UInt64
  buffer : UInt64
  deriving DecidableEq

/-- `bitmapGetVal`. -/
def bitmapGetVal (ram : ByteMemory) (bm : BitMap) (index : UInt64) : Bool :=
  let byteIndex := index / 8
  if byteIndex > bm.size then false
  else
    let bitIndex := (index % 8).toUInt8
    -- the source makes the same test a second time here
    if byteIndex > bm.size then false
    else
      let mask := 0b10000000 >>> bitIndex
      ram.bytes (bm.buffer + byteIndex) &&& mask != 0

/-- `bitmapSetVal`: whether the index passed the guard, and the memory after
the two stores. -/
def bitmapSetVal (ram : ByteMemory) (bm : BitMap) (index : UInt64) (value : Bool) :
    Bool × ByteMemory :=
  let byteIndex := index / 8
  if byteIndex > bm.size then (false, ram)
  else
    let bitIndex := (index % 8).toUInt8
    let mask : UInt8 := 0b10000000 >>> bitIndex
    let a := bm.buffer + byteIndex
    let ram := ram.write8 a (ram.bytes a &&& ~~~mask)
    (true, if value then ram.write8 a (ram.bytes a ||| mask) else ram)

namespace BitMap

/-- The indices that pass the guard: those of the buffer and of the one byte
after it. -/
def reach (bm : BitMap) : Nat := 8 * (bm.size.toNat + 1)

/-- The number of bits the buffer holds. -/
def bits (bm : BitMap) : Nat := 8 * bm.size.toNat

/-- Bit `i` of the packed array that starts at the buffer. -/
def bit (bm : BitMap) (ram : ByteMemory) (i : Nat) : Bool :=
  highBit (ram.bytes (bm.buffer + UInt64.ofNat (i / 8))) (i % 8)

theorem bits_le_reach (bm : BitMap) : bm.bits ≤ bm.reach := by
  unfold bits reach
  omega

theorem reach_le (bm : BitMap) : bm.reach ≤ 2 ^ 67 := by
  have := bm.size.toNat_lt
  unfold reach
  omega

/-- The addresses that the two functions may touch. -/
def touched (bm : BitMap) (a : UInt64) : Prop :=
  InRange bm.buffer (bm.size.toNat + 1) a

/-- The first `n` bytes from the buffer on are their bits. -/
theorem bytes_iff_bits {bm : BitMap} {ram ram' : ByteMemory} {n : Nat} (hn : n ≤ 2 ^ 64) :
    (∀ a, InRange bm.buffer n a → ram'.bytes a = ram.bytes a) ↔
      ∀ p, p < 8 * n → bm.bit ram' p = bm.bit ram p := by
  constructor
  · intro h p hp
    rw [bit, bit, h _ ((inRange_add_ofNat (by omega)).mpr (by omega))]
  · intro h a ha
    obtain ⟨k, hk, _, rfl⟩ := exists_offset_of_inRange ha
    refine eq_of_highBit fun j hj => ?_
    have hbit := h (8 * k + j) (by omega)
    rw [bit, bit, show (8 * k + j) / 8 = k by omega, show (8 * k + j) % 8 = j by omega] at hbit
    exact hbit

/-- A bit depends on the bytes that the bitmap functions touch. -/
theorem bit_congr {bm : BitMap} {ram ram' : ByteMemory}
    (h : ∀ a, bm.touched a → ram'.bytes a = ram.bytes a) {i : Nat} (hi : i < bm.reach) :
    bm.bit ram' i = bm.bit ram i :=
  (bytes_iff_bits (Nat.succ_le_of_lt bm.size.toNat_lt)).mp h i hi

end BitMap

private theorem bitIndex_toNat (index : UInt64) :
    ((index % 8).toUInt8).toNat = index.toNat % 8 := by
  rw [UInt64.toNat_toUInt8, UInt64.toNat_mod]
  exact Nat.mod_eq_of_lt (Nat.lt_of_lt_of_le (Nat.mod_lt _ (by decide)) (by decide))

private theorem bitIndex_lt (index : UInt64) : ((index % 8).toUInt8).toNat < 8 := by
  rw [bitIndex_toNat]
  exact Nat.mod_lt _ (by decide)

private theorem byteIndex_eq (index : UInt64) :
    index / 8 = UInt64.ofNat (index.toNat / 8) := by
  rw [← UInt64.toNat_inj, UInt64.toNat_div,
    ofNat_toNat_of_lt (Nat.lt_of_le_of_lt (Nat.div_le_self _ _) index.toNat_lt)]
  rfl

private theorem guard_iff (bm : BitMap) (index : UInt64) :
    index / 8 > bm.size ↔ ¬ index.toNat < bm.reach := by
  rw [gt_iff_lt, UInt64.lt_iff_toNat_lt, UInt64.toNat_div, BitMap.reach]
  simp only [UInt64.reduceToNat]
  omega

/-- `bitmapGetVal` reads the bit, and answers `false` past the guard. -/
theorem bitmapGetVal_eq (ram : ByteMemory) (bm : BitMap) (index : UInt64) :
    bitmapGetVal ram bm index =
      (decide (index.toNat < bm.reach) && bm.bit ram index.toNat) := by
  unfold bitmapGetVal
  by_cases hguard : index / 8 > bm.size
  · have hout := (guard_iff bm index).mp hguard
    simp [hguard, hout]
  · have hin : index.toNat < bm.reach := by
      by_contra hout
      exact hguard ((guard_iff bm index).mpr hout)
    have hmask := and_highMask_ne_zero (ram.bytes (bm.buffer + index / 8)) (bitIndex_lt index)
    rw [bitIndex_toNat, byteIndex_eq] at hmask
    simp only [hguard, if_false, hin, decide_true, Bool.true_and, BitMap.bit]
    rw [Bool.eq_iff_iff, bne_iff_ne, byteIndex_eq]
    exact hmask

/-- Past the guard `bitmapSetVal` fails and changes nothing. -/
theorem bitmapSetVal_of_reach_le {bm : BitMap} {index : UInt64} (ram : ByteMemory)
    (value : Bool) (h : ¬ index.toNat < bm.reach) :
    bitmapSetVal ram bm index value = (false, ram) := by
  unfold bitmapSetVal
  simp only [(guard_iff bm index).mpr h, if_true]

/-- The one byte that `bitmapSetVal` stores. -/
private theorem bitmapSetVal_snd {bm : BitMap} {index : UInt64} (ram : ByteMemory)
    (value : Bool) (h : index.toNat < bm.reach) :
    bitmapSetVal ram bm index value =
      (true, ram.write8 (bm.buffer + UInt64.ofNat (index.toNat / 8))
        (if value then
          (ram.bytes (bm.buffer + UInt64.ofNat (index.toNat / 8)) &&&
            ~~~highMask (index % 8).toUInt8) ||| highMask (index % 8).toUInt8
        else
          ram.bytes (bm.buffer + UInt64.ofNat (index.toNat / 8)) &&&
            ~~~highMask (index % 8).toUInt8)) := by
  have hguard : ¬ index / 8 > bm.size := fun hg => (guard_iff bm index).mp hg h
  unfold bitmapSetVal
  simp only [hguard, if_false, ← byteIndex_eq]
  cases value
  · rfl
  · congr 1
    ext b : 2
    by_cases hb : b = bm.buffer + index / 8
    · subst hb
      simp only [if_true, bytes_write8_self]
      rfl
    · simp only [if_true, bytes_write8_of_ne _ _ hb]

theorem bitmapSetVal_fst {bm : BitMap} {index : UInt64} (ram : ByteMemory)
    (value : Bool) (h : index.toNat < bm.reach) :
    (bitmapSetVal ram bm index value).1 = true := by
  rw [bitmapSetVal_snd ram value h]

/-- `bitmapSetVal` changes the bit at its index and no other bit. -/
theorem bit_bitmapSetVal {bm : BitMap} {index : UInt64} (ram : ByteMemory)
    (value : Bool) (h : index.toNat < bm.reach) {j : Nat} (hj : j < 2 ^ 67) :
    bm.bit (bitmapSetVal ram bm index value).2 j =
      if j = index.toNat then value else bm.bit ram j := by
  rw [bitmapSetVal_snd ram value h]
  have hlt := index.toNat_lt
  by_cases hbyte : j / 8 = index.toNat / 8
  · rw [BitMap.bit, BitMap.bit, hbyte, bytes_write8_self]
    have hmod : j % 8 < 8 := Nat.mod_lt _ (by decide)
    have hiff : (j % 8 = index.toNat % 8) ↔ j = index.toNat := by omega
    cases value
    · rw [if_neg (by decide), highBit_clear _ (bitIndex_lt index) hmod, bitIndex_toNat]
      simp only [hiff]
    · rw [if_pos rfl, highBit_set _ (bitIndex_lt index) hmod,
        highBit_clear _ (bitIndex_lt index) hmod, bitIndex_toNat]
      simp only [hiff]
      split <;> rfl
  · have hne : j ≠ index.toNat := fun he => hbyte (by rw [he])
    have haddr : bm.buffer + UInt64.ofNat (j / 8) ≠
        bm.buffer + UInt64.ofNat (index.toNat / 8) := by
      intro he
      exact hbyte (add_ofNat_injective bm.buffer (by omega) (by omega) he)
    rw [BitMap.bit, BitMap.bit, bytes_write8_of_ne _ _ haddr, if_neg hne]

/-- `bitmapSetVal` stores to the buffer and to the one byte after it only. -/
theorem bytes_bitmapSetVal_of_not_touched {bm : BitMap} (ram : ByteMemory) (index : UInt64)
    (value : Bool) {a : UInt64} (ha : ¬ bm.touched a) :
    (bitmapSetVal ram bm index value).2.bytes a = ram.bytes a := by
  by_cases h : index.toNat < bm.reach
  · rw [bitmapSetVal_snd ram value h]
    refine bytes_write8_of_ne _ _ ?_
    intro heq
    subst heq
    apply ha
    have hlt := index.toNat_lt
    unfold BitMap.reach at h
    exact (inRange_add_ofNat (by omega)).mpr (by omega)
  · rw [bitmapSetVal_of_reach_le ram value h]

/-- `bitmapSetVal` stores to the byte of its index only. -/
theorem bytes_bitmapSetVal_of_ne {bm : BitMap} (ram : ByteMemory) (index : UInt64) (value : Bool)
    {a : UInt64} (ha : a ≠ bm.buffer + index / 8) :
    (bitmapSetVal ram bm index value).2.bytes a = ram.bytes a := by
  by_cases h : index.toNat < bm.reach
  · rw [bitmapSetVal_snd ram value h, ← byteIndex_eq]
    exact bytes_write8_of_ne _ _ ha
  · rw [bitmapSetVal_of_reach_le ram value h]

end BbnOS
