import Mathlib.Data.UInt
import Mathlib.Tactic.Common
import Mathlib.Tactic.IntervalCases

/-!
# Stacks of words in a 32-bit byte memory

A byte for every 32-bit address, little-endian words, and a stack that grows
down.  `push` and `pop` are those of the machine; `pushAll` pushes the words of
a list, the first word first.

The lemmas take addresses as numbers, for ranges that do not wrap.  A store and
a push leave every byte outside their words alone (`store32_of_outside`,
`pushAll_of_outside`), a word reads back what was stored last
(`load32_store32`, `load32_pushAll`), and a word depends on its own bytes only
(`load32_congr`).
-/

namespace WordStack

/-- A byte for every 32-bit address. -/
abbrev Bytes := UInt32 → UInt8

/-! ## Words -/

/-- The 16-bit word at `a`. -/
def load16 (m : Bytes) (a : UInt32) : UInt16 :=
  (m a).toUInt16 ||| (m (a + 1)).toUInt16 <<< 8

/-- The 32-bit word at `a`. -/
def load32 (m : Bytes) (a : UInt32) : UInt32 :=
  (m a).toUInt32 ||| (m (a + 1)).toUInt32 <<< 8 ||| (m (a + 2)).toUInt32 <<< 16 |||
    (m (a + 3)).toUInt32 <<< 24

/-- Store one byte. -/
def store8 (m : Bytes) (a : UInt32) (v : UInt8) : Bytes :=
  fun b => if b = a then v else m b

/-- Store a 32-bit word. -/
def store32 (m : Bytes) (a v : UInt32) : Bytes :=
  store8 (store8 (store8 (store8 m a v.toUInt8) (a + 1) (v >>> 8).toUInt8)
    (a + 2) (v >>> 16).toUInt8) (a + 3) (v >>> 24).toUInt8

theorem toNat_add_of_lt {a : UInt32} {k : Nat} (h : a.toNat + k < 2 ^ 32) :
    (a + UInt32.ofNat k).toNat = a.toNat + k := by
  rw [UInt32.toNat_add, UInt32.toNat_ofNat', Nat.add_mod_mod, Nat.mod_eq_of_lt h]

theorem toNat_sub_of_le {a : UInt32} {k : Nat} (h : k ≤ a.toNat) :
    (a - UInt32.ofNat k).toNat = a.toNat - k := by
  have ha := a.toNat_lt
  rw [UInt32.toNat_sub, UInt32.toNat_ofNat']
  omega

theorem store8_of_ne (m : Bytes) {a b : UInt32} (v : UInt8) (h : b ≠ a) :
    store8 m a v b = m b := if_neg h

/-- Store the bytes of a list, each at its address. -/
def writeAll (m : Bytes) (ws : List (UInt32 × UInt8)) : Bytes :=
  ws.foldl (fun m w => store8 m w.1 w.2) m

theorem writeAll_of_ne (m : Bytes) {ws : List (UInt32 × UInt8)} {a : UInt32}
    (h : ∀ w ∈ ws, w.1 ≠ a) : writeAll m ws a = m a := by
  induction ws generalizing m with
  | nil => rfl
  | cons w ws ih =>
    have hrest := ih (store8 m w.1 w.2) fun v hv => h v (List.mem_cons_of_mem w hv)
    exact hrest.trans (store8_of_ne m w.2 (h w List.mem_cons_self).symm)

/-- A word store keeps every byte outside the word. -/
theorem store32_of_outside (m : Bytes) {a b : UInt32} (v : UInt32) (ha : a.toNat + 4 ≤ 2 ^ 32)
    (h : b.toNat < a.toNat ∨ a.toNat + 4 ≤ b.toNat) : store32 m a v b = m b := by
  have hne : ∀ k : UInt32, k.toNat < 4 → b ≠ a + k := by
    intro k hk heq
    have hnat := congrArg UInt32.toNat heq
    rw [UInt32.toNat_add] at hnat
    omega
  have h0 := hne 0 (by decide)
  rw [add_zero] at h0
  rw [store32, store8_of_ne _ _ (hne 3 (by decide)), store8_of_ne _ _ (hne 2 (by decide)),
    store8_of_ne _ _ (hne 1 (by decide)), store8_of_ne _ _ h0]

/-- A word depends on its own bytes only. -/
theorem load32_congr {m m' : Bytes} {a : UInt32} (ha : a.toNat + 4 ≤ 2 ^ 32)
    (h : ∀ b : UInt32, a.toNat ≤ b.toNat → b.toNat < a.toNat + 4 → m' b = m b) :
    load32 m' a = load32 m a := by
  have hbyte : ∀ k : UInt32, k.toNat < 4 → m' (a + k) = m (a + k) := by
    intro k hk
    have hnat := UInt32.toNat_add a k
    exact h _ (by omega) (by omega)
  have h0 := h a (Nat.le_refl _) (by omega)
  rw [load32, load32, h0, hbyte 1 (by decide), hbyte 2 (by decide), hbyte 3 (by decide)]

theorem load16_congr {m m' : Bytes} {a : UInt32} (ha : a.toNat + 2 ≤ 2 ^ 32)
    (h : ∀ b : UInt32, a.toNat ≤ b.toNat → b.toNat < a.toNat + 2 → m' b = m b) :
    load16 m' a = load16 m a := by
  have h0 := h a (Nat.le_refl _) (by omega)
  have hnat := UInt32.toNat_add a 1
  rw [show (1 : UInt32).toNat = 1 from rfl] at hnat
  rw [load16, load16, h0, h (a + 1) (by omega) (by omega)]

/-- The four bytes of a word make the word. -/
theorem word_pieces (v : UInt32) :
    v.toUInt8.toUInt32 ||| (v >>> 8).toUInt8.toUInt32 <<< 8 |||
      (v >>> 16).toUInt8.toUInt32 <<< 16 ||| (v >>> 24).toUInt8.toUInt32 <<< 24 = v := by
  refine UInt32.eq_of_toBitVec_eq (BitVec.eq_of_getElem_eq fun i hi => ?_)
  interval_cases i <;> simp [-UInt32.toUInt32_toUInt16, -UInt32.toUInt32_toUInt8]

@[simp] theorem load32_store32 (m : Bytes) (a v : UInt32) : load32 (store32 m a v) a = v := by
  have hne : ∀ i j : UInt32, i ≠ j → ¬ a + i = a + j := by
    intro i j hij heq
    exact hij (add_left_cancel heq)
  have hzero : ∀ j : UInt32, j ≠ 0 → ¬ a = a + j := by
    intro j hj heq
    exact hne 0 j (Ne.symm hj) ((add_zero a).trans heq)
  simp (disch := decide) only [load32, store32, store8, if_neg, if_pos, hne, hzero]
  exact word_pieces v

/-- A word store keeps every word that does not meet it. -/
theorem load32_store32_of_apart (m : Bytes) {a b : UInt32} (v : UInt32)
    (ha : a.toNat + 4 ≤ 2 ^ 32) (hb : b.toNat + 4 ≤ 2 ^ 32)
    (h : b.toNat + 4 ≤ a.toNat ∨ a.toNat + 4 ≤ b.toNat) :
    load32 (store32 m a v) b = load32 m b := by
  refine load32_congr hb fun c hlo hhi => ?_
  exact store32_of_outside m v ha (by omega)

/-! ## The stack -/

/-- A memory with the pointer to the top of a stack. -/
structure Stack where
  memory : Bytes
  esp : UInt32

namespace Stack

def push (s : Stack) (v : UInt32) : Stack where
  memory := store32 s.memory (s.esp - 4) v
  esp := s.esp - 4

/-- The word at the top. -/
def top (s : Stack) : UInt32 := load32 s.memory s.esp

/-- The stack without the word at the top. -/
def drop (s : Stack) : Stack := { s with esp := s.esp + 4 }

/-- Push the words of a list, the first word first. -/
def pushAll (s : Stack) (ws : List UInt32) : Stack := ws.foldl push s

theorem pushAll_cons (s : Stack) (w : UInt32) (ws : List UInt32) :
    s.pushAll (w :: ws) = (s.push w).pushAll ws := rfl

theorem push_eq_pushAll (s : Stack) (v : UInt32) : s.push v = s.pushAll [v] := rfl

theorem pushAll_pushAll (s : Stack) (ws vs : List UInt32) :
    (s.pushAll ws).pushAll vs = s.pushAll (ws ++ vs) := List.foldl_append.symm

theorem toNat_push {s : Stack} (v : UInt32) (h : 4 ≤ s.esp.toNat) :
    (s.push v).esp.toNat = s.esp.toNat - 4 := toNat_sub_of_le h

theorem toNat_pushAll {s : Stack} {ws : List UInt32} (h : 4 * ws.length ≤ s.esp.toNat) :
    (s.pushAll ws).esp.toNat = s.esp.toNat - 4 * ws.length := by
  induction ws generalizing s with
  | nil => rfl
  | cons w ws ih =>
    rw [List.length_cons] at h ⊢
    have hpush := toNat_push (s := s) w (by omega)
    rw [pushAll_cons, ih (by omega), hpush]
    omega

/-- Pushes keep every byte outside the words they write. -/
theorem pushAll_of_outside {s : Stack} {ws : List UInt32} {b : UInt32}
    (h : 4 * ws.length ≤ s.esp.toNat)
    (hb : b.toNat + 4 * ws.length < s.esp.toNat ∨ s.esp.toNat ≤ b.toNat) :
    (s.pushAll ws).memory b = s.memory b := by
  induction ws generalizing s with
  | nil => rfl
  | cons w ws ih =>
    rw [List.length_cons] at h hb
    have hesp := s.esp.toNat_lt
    have hpush := toNat_push (s := s) w (by omega)
    rw [pushAll_cons, ih (by omega) (by omega)]
    refine store32_of_outside _ _ ?_ ?_
    · rw [show (s.esp - 4).toNat = (s.push w).esp.toNat from rfl]
      omega
    · rw [show (s.esp - 4).toNat = (s.push w).esp.toNat from rfl]
      omega

/-- A pushed word reads back. -/
theorem load32_pushAll {s : Stack} {ws : List UInt32} {k : Nat} {w a : UInt32}
    (hk : ws[k]? = some w) (h : 4 * ws.length ≤ s.esp.toNat)
    (ha : a.toNat + 4 * (k + 1) = s.esp.toNat) : load32 (s.pushAll ws).memory a = w := by
  induction ws generalizing s k with
  | nil => simp at hk
  | cons v ws ih =>
    rw [List.length_cons] at h
    have hesp := s.esp.toNat_lt
    have hpush := toNat_push (s := s) v (by omega)
    rw [pushAll_cons]
    cases k with
    | zero =>
      have hw : v = w := Option.some.inj hk
      have hat : a = s.esp - 4 := by
        rw [← UInt32.toNat_inj, show (s.esp - 4).toNat = (s.push v).esp.toNat from rfl]
        omega
      have hkeep : load32 ((s.push v).pushAll ws).memory a = load32 (s.push v).memory a := by
        refine load32_congr (by omega) fun b hlo hhi => ?_
        exact pushAll_of_outside (by omega) (by omega)
      rw [hkeep, hat, ← hw]
      exact load32_store32 _ _ _
    | succ k =>
      rw [List.getElem?_cons_succ] at hk
      exact ih hk (by omega) (by omega)

end Stack

end WordStack
