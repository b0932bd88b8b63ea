import Mathlib.Data.UInt
import Mathlib.Tactic.Common
import Mathlib.Tactic.Ring

/-!
# A flat 64-bit byte memory

`ByteMemory` is a byte for every 64-bit address.  Address arithmetic wraps, as
the arithmetic of the machine does, and a range of addresses may wrap too:
`InRange base n a` says that `a` is one of the `n` addresses from `base` up.

Words are little-endian.  `readLE` and `writeLE` take the width in bytes, and
`read32`, `read64` and `write64` are their instances.

The lemmas are the read-over-write laws: a word reads back what was written
(`readLE_writeLE`), a write or a fill keeps every byte outside its range
(`bytes_writeLE_of_not_inRange`, `bytes_fill_of_not_inRange`), and a read
depends on the bytes of its own range only (`readLE_congr`).

`store` and `ofBytes` are the block operations, on lists of bytes.
-/

/-- A byte for every 64-bit address. -/
@[ext]
structure ByteMemory where
  /-- The byte at an address. -/
  bytes : UInt64 → UInt8

namespace ByteMemory

/-! ## Ranges of addresses -/

/-- `a` is one of the `n` addresses from `base` up, modulo `2 ^ 64`. -/
def InRange (base : UInt64) (n : Nat) (a : UInt64) : Prop :=
  (a - base).toNat < n

instance (base : UInt64) (n : Nat) (a : UInt64) : Decidable (InRange base n a) :=
  inferInstanceAs (Decidable (_ < _))

/-- The addresses of two ranges are different. -/
def Disjoint (base : UInt64) (n : Nat) (base' : UInt64) (n' : Nat) : Prop :=
  ∀ a, InRange base n a → ¬ InRange base' n' a

theorem ofNat_toNat_of_lt {k : Nat} (hk : k < 2 ^ 64) :
    (UInt64.ofNat k).toNat = k :=
  UInt64.toNat_ofNat_of_lt' hk

theorem toNat_add_ofNat (a : UInt64) (k : Nat) :
    (a + UInt64.ofNat k).toNat = (a.toNat + k) % 2 ^ 64 := by
  simp [UInt64.toNat_add, UInt64.toNat_ofNat']

theorem add_ofNat_sub_toNat (base : UInt64) {k : Nat} (hk : k < 2 ^ 64) :
    (base + UInt64.ofNat k - base).toNat = k := by
  rw [add_sub_cancel_left, ofNat_toNat_of_lt hk]

theorem inRange_add_ofNat {base : UInt64} {n k : Nat} (hk : k < 2 ^ 64) :
    InRange base n (base + UInt64.ofNat k) ↔ k < n := by
  rw [InRange, add_ofNat_sub_toNat base hk]

/-- Every address of a range is an offset from its base. -/
theorem exists_offset_of_inRange {base a : UInt64} {n : Nat} (h : InRange base n a) :
    ∃ k, k < n ∧ k < 2 ^ 64 ∧ a = base + UInt64.ofNat k := by
  refine ⟨(a - base).toNat, h, (a - base).toNat_lt, ?_⟩
  rw [UInt64.ofNat_toNat, add_sub_cancel]

theorem inRange_mono {base a : UInt64} {n n' : Nat} (h : InRange base n a)
    (hle : n ≤ n') : InRange base n' a :=
  Nat.lt_of_lt_of_le h hle

theorem Disjoint.symm {base base' : UInt64} {n n' : Nat}
    (h : Disjoint base n base' n') : Disjoint base' n' base n :=
  fun a ha hb => h a hb ha

/-- A range that does not wrap. -/
theorem inRange_iff_of_toNat_le {base a : UInt64} {n : Nat} (hbase : base.toNat + n ≤ 2 ^ 64) :
    InRange base n a ↔ base.toNat ≤ a.toNat ∧ a.toNat < base.toNat + n := by
  have ha := a.toNat_lt
  rw [InRange, UInt64.toNat_sub]
  omega

/-- Two different offsets below `2 ^ 64` are two different addresses. -/
theorem add_ofNat_injective (base : UInt64) {i j : Nat} (hi : i < 2 ^ 64)
    (hj : j < 2 ^ 64) (h : base + UInt64.ofNat i = base + UInt64.ofNat j) : i = j := by
  have hsub := congrArg (fun a => (a - base).toNat) h
  simpa only [add_ofNat_sub_toNat base hi, add_ofNat_sub_toNat base hj] using hsub

theorem add_ofNat_add_ofNat (base : UInt64) (i j : Nat) :
    base + UInt64.ofNat i + UInt64.ofNat j = base + UInt64.ofNat (i + j) := by
  rw [add_assoc, ← UInt64.ofNat_add]

/-- A range inside a larger one, by offsets. -/
theorem inRange_of_offset {base a : UInt64} {i n N : Nat} (hin : i + n ≤ N)
    (hN : N ≤ 2 ^ 64) (h : InRange (base + UInt64.ofNat i) n a) : InRange base N a := by
  obtain ⟨k, hk, hk64, rfl⟩ := exists_offset_of_inRange h
  rw [add_ofNat_add_ofNat, inRange_add_ofNat (by omega)]
  omega

/-- Two ranges at separate offsets of one base do not meet. -/
theorem disjoint_of_offsets {base : UInt64} {i j n n' N : Nat} (hi : i + n ≤ N)
    (hj : j + n' ≤ N) (hN : N ≤ 2 ^ 64) (hsep : i + n ≤ j ∨ j + n' ≤ i) :
    Disjoint (base + UInt64.ofNat i) n (base + UInt64.ofNat j) n' := by
  intro a ha hb
  obtain ⟨k, hk, hk64, rfl⟩ := exists_offset_of_inRange ha
  obtain ⟨l, hl, hl64, hkl⟩ := exists_offset_of_inRange hb
  rw [add_ofNat_add_ofNat, add_ofNat_add_ofNat] at hkl
  have := add_ofNat_injective base (by omega) (by omega) hkl
  omega

/-- Two ranges that do not wrap, one below the other. -/
theorem disjoint_of_toNat_le {base base' : UInt64} {n n' : Nat}
    (hle : base.toNat + n ≤ base'.toNat) (hlt : base'.toNat + n' ≤ 2 ^ 64) :
    Disjoint base n base' n' := by
  intro a ha hb
  obtain ⟨k, hk, _, rfl⟩ := exists_offset_of_inRange ha
  obtain ⟨l, hl, _, hkl⟩ := exists_offset_of_inRange hb
  have heq := congrArg UInt64.toNat hkl
  rw [toNat_add_ofNat, toNat_add_ofNat] at heq
  omega

/-! ## Bytes -/

/-- Store one byte. -/
def write8 (m : ByteMemory) (a : UInt64) (v : UInt8) : ByteMemory :=
  ⟨fun b => if b = a then v else m.bytes b⟩

/-- Store `v` at the `n` addresses from `a` up. -/
def fill (m : ByteMemory) (a : UInt64) (n : Nat) (v : UInt8) : ByteMemory :=
  ⟨fun b => if InRange a n b then v else m.bytes b⟩

@[simp] theorem bytes_write8_self (m : ByteMemory) (a : UInt64) (v : UInt8) :
    (m.write8 a v).bytes a = v := by
  simp [write8]

theorem bytes_write8_of_ne (m : ByteMemory) {a b : UInt64} (v : UInt8) (h : b ≠ a) :
    (m.write8 a v).bytes b = m.bytes b := by
  simp [write8, h]

theorem bytes_fill_of_inRange (m : ByteMemory) {a b : UInt64} {n : Nat} (v : UInt8)
    (h : InRange a n b) : (m.fill a n v).bytes b = v := by
  simp [fill, h]

theorem bytes_fill_of_not_inRange (m : ByteMemory) {a b : UInt64} {n : Nat} (v : UInt8)
    (h : ¬ InRange a n b) : (m.fill a n v).bytes b = m.bytes b := by
  simp [fill, h]

/-- A fill is the loop that stores its bytes one after the other. -/
theorem fill_succ (m : ByteMemory) (a : UInt64) {n : Nat} (hn : n < 2 ^ 64) (v : UInt8) :
    m.fill a (n + 1) v = (m.fill a n v).write8 (a + UInt64.ofNat n) v := by
  ext b : 2
  by_cases hb : b = a + UInt64.ofNat n
  · subst hb
    rw [bytes_write8_self, bytes_fill_of_inRange]
    exact (inRange_add_ofNat hn).mpr (Nat.lt_succ_self n)
  · rw [bytes_write8_of_ne _ _ hb]
    by_cases hin : InRange a n b
    · rw [bytes_fill_of_inRange _ _ hin,
        bytes_fill_of_inRange _ _ (inRange_mono hin (Nat.le_succ n))]
    · rw [bytes_fill_of_not_inRange _ _ hin, bytes_fill_of_not_inRange]
      intro hin'
      obtain ⟨k, hk, _, rfl⟩ := exists_offset_of_inRange hin'
      rcases Nat.lt_succ_iff_lt_or_eq.mp hk with hlt | rfl
      · exact hin ((inRange_add_ofNat (Nat.lt_trans hlt hn)).mpr hlt)
      · exact hb rfl

@[simp] theorem fill_zero (m : ByteMemory) (a : UInt64) (v : UInt8) :
    m.fill a 0 v = m := by
  ext b : 2
  rw [bytes_fill_of_not_inRange]
  exact Nat.not_lt_zero _

/-! ## Little-endian words -/

/-- The `n`-byte little-endian number at `a`. -/
def readLE (m : ByteMemory) (a : UInt64) : Nat → Nat
  | 0 => 0
  | n + 1 => (m.bytes a).toNat + 256 * m.readLE (a + 1) n

/-- Store the low `n` bytes of `v` at `a`, little-endian. -/
def writeLE (m : ByteMemory) (a : UInt64) : Nat → Nat → ByteMemory
  | 0, _ => m
  | n + 1, v => (m.write8 a (UInt8.ofNat v)).writeLE (a + 1) n (v / 256)

/-- The 32-bit word at `a`. -/
def read32 (m : ByteMemory) (a : UInt64) : UInt32 :=
  UInt32.ofNat (m.readLE a 4)

/-- The 64-bit word at `a`. -/
def read64 (m : ByteMemory) (a : UInt64) : UInt64 :=
  UInt64.ofNat (m.readLE a 8)

/-- Store a 32-bit word. -/
def write32 (m : ByteMemory) (a : UInt64) (v : UInt32) : ByteMemory :=
  m.writeLE a 4 v.toNat

/-- Store a 64-bit word. -/
def write64 (m : ByteMemory) (a : UInt64) (v : UInt64) : ByteMemory :=
  m.writeLE a 8 v.toNat

private theorem add_one_add_ofNat (a : UInt64) (k : Nat) :
    a + 1 + UInt64.ofNat k = a + UInt64.ofNat (k + 1) := by
  rw [show (1 : UInt64) = UInt64.ofNat 1 from rfl, add_ofNat_add_ofNat, Nat.add_comm 1 k]

private theorem inRange_succ_of_add_one {a b : UInt64} {n : Nat} (hn : n < 2 ^ 64)
    (h : InRange (a + 1) n b) : InRange a (n + 1) b :=
  inRange_of_offset (i := 1) (by omega) (by omega) h

/-- A word read depends on the bytes of the word only. -/
theorem readLE_congr {m m' : ByteMemory} {a : UInt64} {n : Nat} (hn : n ≤ 2 ^ 64)
    (h : ∀ b, InRange a n b → m'.bytes b = m.bytes b) : m'.readLE a n = m.readLE a n := by
  induction n generalizing a with
  | zero => rfl
  | succ n ih =>
    have hhead : InRange a (n + 1) a := by
      simp [InRange]
    rw [readLE, readLE, h a hhead, ih (by omega)]
    intro b hb
    exact h b (inRange_succ_of_add_one (by omega) hb)

/-- A word store keeps every byte outside the word. -/
theorem bytes_writeLE_of_not_inRange (m : ByteMemory) {a b : UInt64} {n : Nat} (v : Nat)
    (hn : n ≤ 2 ^ 64) (h : ¬ InRange a n b) : (m.writeLE a n v).bytes b = m.bytes b := by
  induction n generalizing m a v with
  | zero => rfl
  | succ n ih =>
    have hne : b ≠ a := by
      intro heq
      subst heq
      exact h (by simp [InRange])
    rw [writeLE, ih _ _ (by omega), bytes_write8_of_ne _ _ hne]
    intro hb
    exact h (inRange_succ_of_add_one (by omega) hb)

/-- A word reads back what was stored, modulo its width. -/
theorem readLE_writeLE (m : ByteMemory) (a : UInt64) {n : Nat} (v : Nat)
    (hn : n ≤ 2 ^ 64) : (m.writeLE a n v).readLE a n = v % 256 ^ n := by
  induction n generalizing m a v with
  | zero => rw [readLE, Nat.pow_zero, Nat.mod_one]
  | succ n ih =>
    have hout : ¬ InRange (a + 1) n a := by
      intro hin
      obtain ⟨k, hk, _, heq⟩ := exists_offset_of_inRange hin
      rw [add_one_add_ofNat] at heq
      have hzero : a + UInt64.ofNat 0 = a + UInt64.ofNat (k + 1) := by
        rw [← heq]
        simp
      have := add_ofNat_injective a (by omega) (by omega) hzero
      omega
    rw [readLE, writeLE, ih _ _ _ (by omega),
      bytes_writeLE_of_not_inRange _ _ (by omega) hout, bytes_write8_self,
      Nat.pow_succ, Nat.mul_comm (256 ^ n), Nat.mod_mul]
    simp

theorem readLE_lt (m : ByteMemory) (a : UInt64) (n : Nat) : m.readLE a n < 256 ^ n := by
  induction n generalizing a with
  | zero => simp [readLE]
  | succ n ih =>
    have hb : (m.bytes a).toNat < 256 := (m.bytes a).toNat_lt
    have := ih (a + 1)
    rw [readLE, Nat.pow_succ]
    omega

theorem read32_congr {m m' : ByteMemory} {a : UInt64}
    (h : ∀ b, InRange a 4 b → m'.bytes b = m.bytes b) : m'.read32 a = m.read32 a := by
  rw [read32, read32, readLE_congr (by omega) h]

theorem read64_congr {m m' : ByteMemory} {a : UInt64}
    (h : ∀ b, InRange a 8 b → m'.bytes b = m.bytes b) : m'.read64 a = m.read64 a := by
  rw [read64, read64, readLE_congr (by omega) h]

/-- A small word after bits of its low byte got set. -/
theorem read32_of_low_byte {m m' : ByteMemory} {a : UInt64} {b : UInt8}
    (hlow : m'.bytes a = m.bytes a ||| b)
    (hrest : ∀ c, InRange (a + 1) 3 c → m'.bytes c = m.bytes c) (hsmall : m.read32 a < 256) :
    m'.read32 a = m.read32 a ||| b.toUInt32 := by
  have hbyte := (m.bytes a).toNat_lt
  have hhigh := m.readLE_lt (a + 1) 3
  have hsplit : m.readLE a 4 = (m.bytes a).toNat + 256 * m.readLE (a + 1) 3 := rfl
  have hword : (m.read32 a).toNat = m.readLE a 4 :=
    UInt32.toNat_ofNat_of_lt' (Nat.lt_of_lt_of_le (m.readLE_lt a 4) (by decide))
  rw [UInt32.lt_iff_toNat_lt, hword, hsplit] at hsmall
  have hzero : m.readLE (a + 1) 3 = 0 := by
    simp only [UInt32.reduceToNat] at hsmall
    omega
  have hread : ∀ m₀ : ByteMemory, m₀.readLE (a + 1) 3 = 0 →
      m₀.read32 a = (m₀.bytes a).toUInt32 := by
    intro m₀ h₀
    rw [read32, readLE, h₀, Nat.mul_zero, Nat.add_zero]
    exact UInt32.ofNat_uInt8ToNat _
  have hzero' : m'.readLE (a + 1) 3 = 0 := by
    rw [readLE_congr (by omega) hrest, hzero]
  rw [hread m' hzero', hread m hzero, hlow, UInt8.toUInt32_or]

@[simp] theorem read32_write32_self (m : ByteMemory) (a : UInt64) (v : UInt32) :
    (m.write32 a v).read32 a = v := by
  rw [read32, write32, readLE_writeLE _ _ _ (by omega),
    Nat.mod_eq_of_lt (Nat.lt_of_lt_of_le v.toNat_lt (by norm_num)), UInt32.ofNat_toNat]

theorem bytes_write32_of_not_inRange (m : ByteMemory) {a b : UInt64} (v : UInt32)
    (h : ¬ InRange a 4 b) : (m.write32 a v).bytes b = m.bytes b :=
  bytes_writeLE_of_not_inRange m _ (by omega) h

@[simp] theorem read64_write64_self (m : ByteMemory) (a v : UInt64) :
    (m.write64 a v).read64 a = v := by
  rw [read64, write64, readLE_writeLE _ _ _ (by omega),
    Nat.mod_eq_of_lt (Nat.lt_of_lt_of_le v.toNat_lt (by norm_num)), UInt64.ofNat_toNat]

theorem bytes_write64_of_not_inRange (m : ByteMemory) {a b : UInt64} (v : UInt64)
    (h : ¬ InRange a 8 b) : (m.write64 a v).bytes b = m.bytes b :=
  bytes_writeLE_of_not_inRange m _ (by omega) h

/-- A word store keeps every word that does not meet it. -/
theorem read64_write64_of_disjoint (m : ByteMemory) {a b : UInt64} (v : UInt64)
    (h : Disjoint a 8 b 8) : (m.write64 a v).read64 b = m.read64 b := by
  refine read64_congr fun c hc => ?_
  exact bytes_write64_of_not_inRange m v (fun hin => h c hin hc)

/-- A memory of zeros reads zero. -/
theorem readLE_zero (a : UInt64) (n : Nat) : (ByteMemory.mk fun _ => 0).readLE a n = 0 := by
  induction n generalizing a with
  | zero => rfl
  | succ n ih =>
    rw [readLE, ih]
    rfl

/-- A word inside a range that a fill cleared reads zero. -/
theorem read64_fill_zero (m : ByteMemory) {a b : UInt64} {n : Nat}
    (h : ∀ c, InRange b 8 c → InRange a n c) : (m.fill a n 0).read64 b = 0 := by
  have hzero : (m.fill a n 0).read64 b = (ByteMemory.mk fun _ => 0).read64 b := by
    refine read64_congr fun c hc => ?_
    rw [bytes_fill_of_inRange m 0 (h c hc)]
  rw [hzero, read64, readLE_zero]
  rfl

/-! ### Words of a 32-bit address space -/

theorem toNat_add_offset32 {a : UInt32} {k : Nat} (h : a.toNat + k < 2 ^ 32) :
    (a + UInt32.ofNat k).toNat = a.toNat + k := by
  rw [UInt32.toNat_add, UInt32.toNat_ofNat', Nat.add_mod_mod, Nat.mod_eq_of_lt h]

theorem add_offset32_add (a : UInt32) (i k : Nat) :
    a + UInt32.ofNat i + UInt32.ofNat k = a + UInt32.ofNat (i + k) := by
  rw [UInt32.add_assoc, ← UInt32.ofNat_add]

theorem bytes_write32_of_outside (m : ByteMemory) {a b : UInt64} (v : UInt32)
    (ha : a.toNat + 4 ≤ 2 ^ 64) (h : b.toNat < a.toNat ∨ a.toNat + 4 ≤ b.toNat) :
    (m.write32 a v).bytes b = m.bytes b := by
  refine m.bytes_write32_of_not_inRange v ?_
  rw [inRange_iff_of_toNat_le ha]
  omega

theorem read32_congr_of_outside {m m' : ByteMemory} {a : UInt64} (ha : a.toNat + 4 ≤ 2 ^ 64)
    (h : ∀ b : UInt64, a.toNat ≤ b.toNat → b.toNat < a.toNat + 4 → m'.bytes b = m.bytes b) :
    m'.read32 a = m.read32 a := by
  refine read32_congr fun b hb => ?_
  rw [inRange_iff_of_toNat_le ha] at hb
  exact h b hb.1 hb.2

/-- A word store keeps every word that does not meet it. -/
theorem read32_write32_of_outside (m : ByteMemory) {a b : UInt64} (v : UInt32)
    (ha : a.toNat + 4 ≤ 2 ^ 64) (hb : b.toNat + 4 ≤ 2 ^ 64)
    (h : b.toNat + 4 ≤ a.toNat ∨ a.toNat + 4 ≤ b.toNat) :
    (m.write32 a v).read32 b = m.read32 b := by
  refine read32_congr_of_outside hb fun c hlo hhi => ?_
  exact bytes_write32_of_outside m v ha (by omega)

/-! ## Blocks of bytes -/

/-- Store the bytes of a list from `a` up. -/
def store (m : ByteMemory) (a : UInt64) (l : List UInt8) : ByteMemory :=
  ⟨fun b => l.getD (b - a).toNat (m.bytes b)⟩

/-- The memory that holds a list from address 0 up, and zeros after it. -/
def ofBytes (l : List UInt8) : ByteMemory :=
  ⟨fun a => l.getD a.toNat 0⟩

@[simp] theorem store_nil (m : ByteMemory) (a : UInt64) : m.store a [] = m := by
  simp [store]

/-- A block store keeps every byte outside the block. -/
theorem bytes_store_of_not_inRange (m : ByteMemory) {a b : UInt64} {l : List UInt8}
    (h : ¬ InRange a l.length b) : (m.store a l).bytes b = m.bytes b := by
  have hle : l.length ≤ (b - a).toNat := Nat.le_of_not_lt h
  simp only [store, List.getD_eq_getElem?_getD, List.getElem?_eq_none hle, Option.getD_none]

/-- A block reads back byte by byte. -/
theorem bytes_store_add (m : ByteMemory) (a : UInt64) {l : List UInt8} {k : Nat}
    (hk : k < l.length) (hk64 : k < 2 ^ 64) :
    (m.store a l).bytes (a + UInt64.ofNat k) = l.getD k 0 := by
  simp only [store, add_ofNat_sub_toNat a hk64, List.getD_eq_getElem?_getD,
    List.getElem?_eq_getElem hk, Option.getD_some]

theorem bytes_ofBytes_ofNat (l : List UInt8) {k : Nat} (hk : k < 2 ^ 64) :
    (ofBytes l).bytes (UInt64.ofNat k) = l.getD k 0 := by
  rw [ofBytes]
  simp only [ofNat_toNat_of_lt hk]

/-- Two words with the same bytes, at any two addresses. -/
theorem readLE_congr_offset {m m' : ByteMemory} {a a' : UInt64} {n : Nat}
    (h : ∀ i, i < n → m'.bytes (a' + UInt64.ofNat i) = m.bytes (a + UInt64.ofNat i)) :
    m'.readLE a' n = m.readLE a n := by
  induction n generalizing a a' with
  | zero => rfl
  | succ n ih =>
    have hhead := h 0 (Nat.succ_pos n)
    rw [show UInt64.ofNat 0 = 0 from rfl, add_zero, add_zero] at hhead
    rw [readLE, readLE, hhead, ih]
    intro i hi
    rw [add_one_add_ofNat, add_one_add_ofNat]
    exact h (i + 1) (Nat.succ_lt_succ hi)

/-- A field of two records with the same bytes, at any two addresses. -/
theorem readLE_congr_field {m m' : ByteMemory} {a a' : UInt64} {size : Nat}
    (h : ∀ i, i < size → m'.bytes (a' + UInt64.ofNat i) = m.bytes (a + UInt64.ofNat i))
    {k n : Nat} (hkn : k + n ≤ size) :
    m'.readLE (a' + UInt64.ofNat k) n = m.readLE (a + UInt64.ofNat k) n := by
  apply readLE_congr_offset
  intro i hi
  rw [add_ofNat_add_ofNat, add_ofNat_add_ofNat]
  exact h (k + i) (by omega)

/-- `m'` is `m` but for the bytes from address `lo` up to `hi`. -/
def Within (lo hi : Nat) (m m' : ByteMemory) : Prop :=
  ∀ a : UInt64, a.toNat < lo ∨ hi ≤ a.toNat → m'.bytes a = m.bytes a

section Window

variable {m m' m'' : ByteMemory} {lo hi lo' hi' : Nat}

theorem Within.refl (lo hi : Nat) (m : ByteMemory) : Within lo hi m m := fun _ _ => rfl

theorem Within.trans (h : Within lo hi m m') (h' : Within lo hi m' m'') : Within lo hi m m'' :=
  fun a ha => (h' a ha).trans (h a ha)

theorem Within.mono (h : Within lo' hi' m m') (hlo : lo ≤ lo') (hhi : hi' ≤ hi) :
    Within lo hi m m' :=
  fun a ha => h a (by omega)

/-- A word outside the window. -/
theorem Within.read32 (h : Within lo hi m m') {a : UInt64} (ha : a.toNat + 4 ≤ 2 ^ 64)
    (hout : a.toNat + 4 ≤ lo ∨ hi ≤ a.toNat) : m'.read32 a = m.read32 a :=
  read32_congr_of_outside ha fun b _ _ => h b (by omega)

theorem within_store (m : ByteMemory) {a : UInt64} {l : List UInt8} (hlo : lo ≤ a.toNat)
    (hhi : a.toNat + l.length ≤ hi) (hwrap : hi ≤ 2 ^ 64) : Within lo hi m (m.store a l) := by
  intro b hb
  refine bytes_store_of_not_inRange m ?_
  rw [inRange_iff_of_toNat_le (by omega)]
  omega

end Window

end ByteMemory
