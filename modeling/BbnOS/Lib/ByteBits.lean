import Mathlib.Data.UInt
import Mathlib.Tactic.Common
import Mathlib.Tactic.IntervalCases

/-!
# The bits of a byte, high bit first

Bit `0` is the most significant bit of a byte and bit `7` the least
significant one.  `highMask k` is the byte whose only set bit is bit `k`.
The two updates of a packed bit array, `b &&& ~~~m` and `b ||| m`, are read
through `highBit`, and `eq_of_highBit` says that the eight bits determine the
byte.
-/

namespace ByteBits

/-- Bit `k` of a byte, counted from the most significant one. -/
def highBit (b : UInt8) (k : Nat) : Bool :=
  b.toBitVec.getLsbD (7 - k)

/-- The byte with bit `k` set, for `k < 8`. -/
def highMask (k : UInt8) : UInt8 :=
  0b10000000 >>> k

theorem highBit_highMask {k : UInt8} {j : Nat} (hk : k.toNat < 8) (hj : j < 8) :
    highBit (highMask k) j = decide (j = k.toNat) := by
  have hmod : k.toBitVec % 8 = k.toBitVec := by
    apply BitVec.eq_of_toNat_eq
    rw [BitVec.toNat_umod]
    exact Nat.mod_eq_of_lt hk
  rw [highBit, highMask, UInt8.toBitVec_shiftRight, hmod, BitVec.ushiftRight_eq',
    BitVec.getLsbD_ushiftRight, UInt8.toNat_toBitVec]
  generalize k.toNat = n at hk
  interval_cases n <;> interval_cases j <;> rfl

@[simp] theorem highBit_and (b m : UInt8) (j : Nat) :
    highBit (b &&& m) j = (highBit b j && highBit m j) := by
  simp [highBit]

@[simp] theorem highBit_or (b m : UInt8) (j : Nat) :
    highBit (b ||| m) j = (highBit b j || highBit m j) := by
  simp [highBit]

@[simp] theorem highBit_not (b : UInt8) (j : Nat) :
    highBit (~~~b) j = !highBit b j := by
  have hlt : 7 - j < 8 := by omega
  simp [highBit, hlt]

@[simp] theorem highBit_zero (j : Nat) : highBit 0 j = false := by
  simp [highBit]

/-- The eight bits determine the byte. -/
theorem eq_of_highBit {b c : UInt8} (h : ∀ j, j < 8 → highBit b j = highBit c j) :
    b = c := by
  apply UInt8.toBitVec_inj.mp
  apply BitVec.eq_of_getLsbD_eq
  intro i hi
  have hbit := h (7 - i) (by omega)
  rwa [highBit, highBit, show 7 - (7 - i) = i by omega] at hbit

/-- The mask test of one bit. -/
theorem and_highMask_ne_zero (b : UInt8) {k : UInt8} (hk : k.toNat < 8) :
    (b &&& highMask k ≠ 0) ↔ highBit b k.toNat = true := by
  constructor
  · intro hne
    by_contra hbit
    have hclear : highBit b k.toNat = false := Bool.eq_false_iff.mpr hbit
    apply hne
    apply eq_of_highBit
    intro j hj
    rw [highBit_and, highBit_highMask hk hj, highBit_zero]
    by_cases hjk : j = k.toNat
    · subst hjk
      simp [hclear]
    · simp [hjk]
  · intro hbit hzero
    have hj := congrArg (fun c => highBit c k.toNat) hzero
    simp [highBit_highMask hk hk, hbit] at hj

/-- Clearing the mask of one bit clears that bit only. -/
theorem highBit_clear (b : UInt8) {k : UInt8} {j : Nat} (hk : k.toNat < 8) (hj : j < 8) :
    highBit (b &&& ~~~highMask k) j = if j = k.toNat then false else highBit b j := by
  rw [highBit_and, highBit_not, highBit_highMask hk hj]
  by_cases hjk : j = k.toNat <;> simp [hjk]

/-- Setting the mask of one bit sets that bit only. -/
theorem highBit_set (b : UInt8) {k : UInt8} {j : Nat} (hk : k.toNat < 8) (hj : j < 8) :
    highBit (b ||| highMask k) j = if j = k.toNat then true else highBit b j := by
  rw [highBit_or, highBit_highMask hk hj]
  by_cases hjk : j = k.toNat <;> simp [hjk]

/-- The byte whose set bits, among the first `n`, are those that satisfy `P`. -/
def maskWhere (P : Nat → Bool) : Nat → UInt8
  | 0 => 0
  | n + 1 => if P n then maskWhere P n ||| highMask (UInt8.ofNat n) else maskWhere P n

theorem highBit_maskWhere (P : Nat → Bool) {n j : Nat} (hn : n ≤ 8) (hj : j < 8) :
    highBit (maskWhere P n) j = (decide (j < n) && P j) := by
  induction n with
  | zero => simp [maskWhere]
  | succ n ih =>
    have hmask : (UInt8.ofNat n).toNat = n :=
      UInt8.toNat_ofNat_of_lt' (Nat.lt_of_lt_of_le (Nat.lt_of_succ_le hn) (by decide))
    have hprev := ih (by omega)
    rw [maskWhere]
    split
    · rename_i hP
      rw [highBit_set _ (by omega) hj, hmask, hprev]
      by_cases hjn : j = n
      · simp [hjn, hP]
      · have hiff : j < n + 1 ↔ j < n := by omega
        simp [hjn, hiff]
    · rename_i hP
      rw [hprev]
      by_cases hjn : j = n
      · simp [hjn, hP]
      · have hiff : j < n + 1 ↔ j < n := by omega
        simp [hiff]

end ByteBits
