import BbnOS.Lib.WordStack

/-!
# Windows of a 32-bit byte memory

The window of `n` bytes from `p` up holds the addresses whose distance from `p`
is less than `n`, modulo `2 ^ 32`, so nothing has to be said about addresses that
wrap around.  `Keeps m m' p n` says that a memory changes in a window alone.

The rules move such facts to larger windows and through sequences
(`Keeps.within`, `Keeps.trans`), and read bytes and words outside the window
(`Keeps.byte`, `Keeps.load32`).  Addresses are given as `p + c` with literal
offsets, whose distances `decide` computes.  `Agrees` is the converse: the bytes
of a window are the same.
-/

namespace Windows

open WordStack

/-- `m'` is `m` but for the `n` bytes from `p` up. -/
def Keeps (m m' : Bytes) (p : UInt32) (n : Nat) : Prop :=
  ∀ a : UInt32, n ≤ (a - p).toNat → m' a = m a

variable {m m' m'' : Bytes} {p c d : UInt32} {n l : Nat}

theorem Keeps.refl (m : Bytes) (p : UInt32) (n : Nat) : Keeps m m p n := fun _ _ => rfl

theorem Keeps.trans (h : Keeps m m' p n) (h' : Keeps m' m'' p n) : Keeps m m'' p n :=
  fun a ha => (h' a ha).trans (h a ha)

/-- A window inside another one. -/
theorem Keeps.within (h : Keeps m m' (p + c) l) (hle : c.toNat + l ≤ n) : Keeps m m' p n := by
  intro a ha
  refine h a ?_
  rw [← sub_sub, UInt32.toNat_sub]
  have hlt := (a - p).toNat_lt
  omega

/-- The same, with both windows at offsets from `p`. -/
theorem Keeps.within_add (h : Keeps m m' (p + c) l) (hle : (c - d).toNat + l ≤ n) :
    Keeps m m' (p + d) n := by
  refine Keeps.within (c := c - d) ?_ hle
  rw [add_assoc, add_sub_cancel]
  exact h

/-- The same for a window at the start of the other one. -/
theorem Keeps.mono (h : Keeps m m' p l) (hle : l ≤ n) : Keeps m m' p n :=
  fun a ha => h a (Nat.le_trans hle ha)

theorem keeps_store8 (m : Bytes) (p : UInt32) (v : UInt8) : Keeps m (store8 m p v) p 1 := by
  intro a ha
  refine store8_of_ne m v fun heq => ?_
  rw [heq, sub_self] at ha
  exact absurd ha (by decide)

theorem keeps_store32 (m : Bytes) (p v : UInt32) : Keeps m (store32 m p v) p 4 := by
  have hbyte : ∀ (c : UInt32) (m : Bytes) (v : UInt8), c.toNat < 4 →
      Keeps m (store8 m (p + c) v) p 4 := fun c m v hc =>
    (keeps_store8 m (p + c) v).within (Nat.succ_le_of_lt hc)
  have hfirst := hbyte 0 m v.toUInt8 (by decide)
  rw [add_zero] at hfirst
  exact ((hfirst.trans (hbyte 1 _ _ (by decide))).trans (hbyte 2 _ _ (by decide))).trans
    (hbyte 3 _ _ (by decide))

/-- A byte outside the window. -/
theorem Keeps.byte (h : Keeps m m' (p + c) n) (hd : n ≤ (d - c).toNat) :
    m' (p + d) = m (p + d) := by
  refine h _ ?_
  rw [add_sub_add_left_eq_sub]
  exact hd

/-- A word outside the window. -/
theorem Keeps.load32 (h : Keeps m m' (p + c) n) (hd : n ≤ (d - c).toNat)
    (hwrap : (d - c).toNat + 4 ≤ 2 ^ 32) : load32 m' (p + d) = load32 m (p + d) := by
  have hbyte : ∀ i : UInt32, i.toNat < 4 → m' (p + d + i) = m (p + d + i) := by
    intro i hi
    rw [add_assoc]
    refine h.byte ?_
    rw [add_sub_right_comm, UInt32.toNat_add]
    omega
  have hfirst := hbyte 0 (by decide)
  rw [add_zero] at hfirst
  rw [WordStack.load32, WordStack.load32, hfirst, hbyte 1 (by decide), hbyte 2 (by decide),
    hbyte 3 (by decide)]

theorem Keeps.load16 (h : Keeps m m' (p + c) n) (hd : n ≤ (d - c).toNat)
    (hwrap : (d - c).toNat + 2 ≤ 2 ^ 32) : load16 m' (p + d) = load16 m (p + d) := by
  have hsecond : m' (p + d + 1) = m (p + d + 1) := by
    rw [add_assoc]
    refine h.byte ?_
    rw [add_sub_right_comm, UInt32.toNat_add, show (1 : UInt32).toNat = 1 from rfl]
    omega
  rw [WordStack.load16, WordStack.load16, h.byte hd, hsecond]

/-- A word that another word store leaves. -/
theorem load32_store32_add (v : UInt32) (hd : 4 ≤ (d - c).toNat)
    (hwrap : (d - c).toNat + 4 ≤ 2 ^ 32) :
    WordStack.load32 (store32 m (p + c) v) (p + d) = WordStack.load32 m (p + d) :=
  (keeps_store32 m (p + c) v).load32 hd hwrap

/-- The two memories have the same `n` bytes from `p` up. -/
def Agrees (m m' : Bytes) (p : UInt32) (n : Nat) : Prop :=
  ∀ k : UInt32, k.toNat < n → m' (p + k) = m (p + k)

theorem Agrees.trans (h : Agrees m m' p n) (h' : Agrees m' m'' p n) : Agrees m m'' p n :=
  fun k hk => (h' k hk).trans (h k hk)

/-- A change in a window that does not meet this one. -/
theorem Keeps.agrees {q : UInt32} (h : Keeps m m' q l)
    (hapart : ∀ k : UInt32, k.toNat < n → l ≤ (p + k - q).toNat) : Agrees m m' p n :=
  fun k hk => h _ (hapart k hk)

theorem Keeps.agrees_add (h : Keeps m m' (p + c) l) (hd : l ≤ (d - c).toNat)
    (hwrap : (d - c).toNat + n ≤ 2 ^ 32) : Agrees m m' (p + d) n := by
  refine h.agrees fun k hk => ?_
  rw [add_assoc, add_sub_add_left_eq_sub, add_sub_right_comm, UInt32.toNat_add]
  omega

/-- The distances between windows that do not wrap around and do not meet. -/
theorem le_distance {q : UInt32} (hp : p.toNat + n ≤ 2 ^ 32) (hq : q.toNat + l ≤ 2 ^ 32)
    (h : p.toNat + n ≤ q.toNat ∨ q.toNat + l ≤ p.toNat) (hc : c.toNat < n) :
    l ≤ (p + c - q).toNat := by
  have hlt := q.toNat_lt
  rw [UInt32.toNat_sub, UInt32.toNat_add, Nat.mod_eq_of_lt (show p.toNat + c.toNat < 2 ^ 32 by
    omega)]
  rcases h with hbelow | habove
  · rw [Nat.mod_eq_of_lt (by omega)]
    omega
  · rw [Nat.mod_eq_sub_mod (by omega), Nat.mod_eq_of_lt (by omega)]
    omega

/-- The distances between different slots of eight bytes. -/
theorem slot_distance {i j : UInt32} (hi : i.toNat < 2 ^ 29) (hj : j.toNat < 2 ^ 29)
    (hne : j ≠ i) : 8 ≤ (8 * j - 8 * i).toNat ∧ (8 * j - 8 * i).toNat + 8 ≤ 2 ^ 32 := by
  have hdiff : j.toNat ≠ i.toNat := fun h => hne (UInt32.toNat_inj.mp h)
  rw [UInt32.toNat_sub, UInt32.toNat_mul, UInt32.toNat_mul, show (8 : UInt32).toNat = 8 from rfl]
  omega

/-- A part of a window. -/
theorem Agrees.part (h : Agrees m m' p n) (hle : d.toNat + l ≤ n) (hn : n ≤ 2 ^ 32) :
    Agrees m m' (p + d) l := by
  intro k hk
  rw [add_assoc]
  refine h _ ?_
  rw [UInt32.toNat_add]
  omega

theorem Agrees.load32 (h : Agrees m m' p n) (hd : d.toNat + 4 ≤ n) (hn : n ≤ 2 ^ 32) :
    WordStack.load32 m' (p + d) = WordStack.load32 m (p + d) := by
  have hbyte : ∀ i : UInt32, i.toNat < 4 → m' (p + d + i) = m (p + d + i) := by
    intro i hi
    rw [add_assoc]
    refine h _ ?_
    rw [UInt32.toNat_add]
    omega
  have hfirst := hbyte 0 (by decide)
  rw [add_zero] at hfirst
  rw [WordStack.load32, WordStack.load32, hfirst, hbyte 1 (by decide), hbyte 2 (by decide),
    hbyte 3 (by decide)]

theorem Agrees.load16 (h : Agrees m m' p n) (hd : d.toNat + 2 ≤ n) (hn : n ≤ 2 ^ 32) :
    WordStack.load16 m' (p + d) = WordStack.load16 m (p + d) := by
  have hsecond : m' (p + d + 1) = m (p + d + 1) := by
    rw [add_assoc]
    refine h _ ?_
    rw [UInt32.toNat_add, show (1 : UInt32).toNat = 1 from rfl]
    omega
  rw [WordStack.load16, WordStack.load16, h d (by omega), hsecond]

end Windows
