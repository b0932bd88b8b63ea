import Mathlib.Tactic.Common

/-!
# Strings in arrays

The functions of `lib/uefi/string.c` on arrays of characters, as the formatted
print uses them.  An access outside the array has no meaning: it is `none`.

`strcpy` of the source does not end the copy with a zero.  All arrays of the
formatted print are filled with zeros at first, and stay zero behind their
string: `holding n t` is the array of `n` characters that holds the text `t` in
this way.
-/

namespace BbnOS

namespace Printf

/-- An array of characters. -/
abbrev Buffer := List UInt8

/-- `b[k] = c`. -/
def Buffer.write (b : Buffer) (k : Nat) (c : UInt8) : Option Buffer :=
  if k < b.length then some (b.set k c) else none

/-- `strlen`. -/
def strlen (b : Buffer) : Option Nat :=
  b.findIdx? (· == 0)

/-- The characters of `src` up to its zero, stored to `dst` from place `k` on. -/
def copyTo (k : Nat) : Buffer → Buffer → Option Buffer
  | [], _ => none
  | c :: src, dst => if c = 0 then some dst else (dst.write k c).bind (copyTo (k + 1) src)

/-- `strcpy`. -/
def strcpy (src dst : Buffer) : Option Buffer :=
  copyTo 0 src dst

/-- `strcat`. -/
def strcat (src dest : Buffer) : Option Buffer := do
  let destPtr ← strlen dest
  let dest ← copyTo destPtr src dest
  let srcPtr ← strlen src
  dest.write (destPtr + srcPtr) 0

/-- `while (n--) b[strlen(b)] = c;`. -/
def fill (c : UInt8) : Nat → Buffer → Option Buffer
  | 0, b => some b
  | n + 1, b => do
    let k ← strlen b
    let b ← b.write k c
    fill c n b

/-- The characters of a string constant. -/
def chars (l : List Char) : List UInt8 :=
  l.map Char.toUInt8

/-- The characters of an array up to its zero. -/
def textOf (b : Buffer) : Option (List UInt8) :=
  (strlen b).map b.take

/-- An array of `n` characters with a text, and zeros behind it. -/
def holding (n : Nat) (t : List UInt8) : Buffer :=
  t ++ List.replicate (n - t.length) 0

/-- A character stored behind a text. -/
theorem write_append (t : List UInt8) (c c' : UInt8) (rest : List UInt8) :
    Buffer.write (t ++ c :: rest) t.length c' = some (t ++ c' :: rest) := by
  have hlt : t.length < (t ++ c :: rest).length := by
    rw [List.length_append, List.length_cons]
    omega
  rw [Buffer.write, if_pos hlt, List.set_append_right _ _ (Nat.le_refl _), Nat.sub_self,
    List.set_cons_zero]

section Holding

variable {n k : Nat} {t u : List UInt8} {c : UInt8}

theorem length_holding (h : t.length ≤ n) : (holding n t).length = n := by
  rw [holding, List.length_append, List.length_replicate]
  omega

/-- A text that fills its array has no end. -/
theorem strlen_holding (ht : 0 ∉ t) (h : t.length ≤ n) :
    strlen (holding n t) = if t.length < n then some t.length else none := by
  have htext : t.findIdx? (· == 0) = none := by
    rw [List.findIdx?_eq_none_iff]
    intro x hx
    rw [beq_eq_false_iff_ne]
    intro heq
    exact ht (heq ▸ hx)
  rw [strlen, holding, List.findIdx?_append, htext, Option.none_or]
  by_cases hlt : t.length < n
  · obtain ⟨m, hm⟩ := Nat.exists_eq_add_of_lt hlt
    rw [if_pos hlt, show n - t.length = m + 1 by omega, List.replicate_succ]
    simp [List.findIdx?_cons]
  · rw [if_neg hlt, show n - t.length = 0 by omega, List.replicate_zero]
    rfl

theorem textOf_holding (ht : 0 ∉ t) (h : t.length ≤ n) :
    textOf (holding n t) = if t.length < n then some t else none := by
  rw [textOf, strlen_holding ht h]
  split
  · rw [Option.map_some, holding, List.take_left]
  · rfl

theorem write_holding (h : t.length < n) :
    (holding n t).write t.length c = some (holding n (t ++ [c])) := by
  obtain ⟨m, rfl⟩ := Nat.exists_eq_add_of_lt h
  rw [holding, holding, List.length_append, List.length_singleton,
    show t.length + m + 1 - t.length = m + 1 by omega,
    show t.length + m + 1 - (t.length + 1) = m by omega, List.replicate_succ, write_append,
    List.append_assoc, List.singleton_append]

/-- `fill` stores the character behind the text, as long as there is room. -/
theorem fill_holding (ht : 0 ∉ t) (hc : c ≠ 0) (h : t.length ≤ n) :
    fill c k (holding n t) =
      if t.length + k ≤ n then some (holding n (t ++ List.replicate k c)) else none := by
  induction k generalizing t with
  | zero =>
    rw [Nat.add_zero, if_pos h, List.replicate_zero, List.append_nil]
    rfl
  | succ k ih =>
    rw [fill, strlen_holding ht h]
    by_cases hlt : t.length < n
    · have ht' : 0 ∉ t ++ [c] := by
        rw [List.mem_append, List.mem_singleton, not_or]
        exact ⟨ht, hc.symm⟩
      have hlen : (t ++ [c]).length = t.length + 1 := List.length_append
      rw [if_pos hlt, Option.bind_eq_bind, Option.bind_some, write_holding hlt,
        Option.bind_eq_bind, Option.bind_some, ih ht' (by omega), hlen, List.append_assoc,
        List.singleton_append, ← List.replicate_succ, Nat.add_right_comm, Nat.add_assoc]
    · rw [if_neg hlt, if_neg (by omega)]
      rfl

/-- A copy lies over what the array held. -/
theorem copyTo_eq (hu : 0 ∉ u) (rest : List UInt8) {dst : Buffer} (h : k ≤ dst.length) :
    copyTo k (u ++ 0 :: rest) dst =
      if k + u.length ≤ dst.length then some (dst.take k ++ u ++ dst.drop (k + u.length))
      else none := by
  induction u generalizing k dst with
  | nil =>
    rw [List.nil_append, copyTo, if_pos rfl, List.length_nil, Nat.add_zero, if_pos h,
      List.append_nil, List.take_append_drop]
  | cons c u ih =>
    rw [List.mem_cons, not_or] at hu
    rw [List.cons_append, copyTo, if_neg (Ne.symm hu.1), Buffer.write]
    by_cases hk : k < dst.length
    · have hlen : (dst.set k c).length = dst.length := List.length_set
      rw [if_pos hk, Option.bind_some, ih hu.2 (by omega), hlen, List.length_cons,
        show k + 1 + u.length = k + (u.length + 1) by omega]
      have htake : (dst.set k c).take (k + 1) = dst.take k ++ [c] := by
        rw [List.take_succ_eq_append_getElem (by omega), List.getElem_set_self,
          List.take_set_of_le (Nat.le_refl k)]
      have hdrop : (dst.set k c).drop (k + (u.length + 1)) = dst.drop (k + (u.length + 1)) :=
        List.drop_set_of_lt (by omega)
      rw [htake, hdrop, List.append_assoc (dst.take k), List.singleton_append]
    · rw [if_neg hk, if_neg (by rw [List.length_cons]; omega)]
      rfl

/-- An array with room behind its text has a zero there. -/
theorem holding_eq_cons (h : t.length < n) :
    ∃ rest, holding n t = t ++ 0 :: rest ∧ rest.length + t.length + 1 = n := by
  obtain ⟨m, rfl⟩ := Nat.exists_eq_add_of_lt h
  refine ⟨List.replicate m 0, ?_, by rw [List.length_replicate]; omega⟩
  rw [holding, show t.length + m + 1 - t.length = m + 1 by omega, List.replicate_succ]

/-- What follows a text and the zeros behind it. -/
theorem holding_append (h : t.length + u.length ≤ n) :
    t ++ u ++ (holding n t).drop (t.length + u.length) = holding n (t ++ u) := by
  rw [holding, holding, List.drop_append, List.drop_eq_nil_of_le (Nat.le_add_right _ _),
    List.nil_append, List.drop_replicate, List.length_append]
  congr 2
  omega

/-- `strcat` needs room for both texts and a zero. -/
theorem strcat_holding {m : Nat} (ht : 0 ∉ t) (hu : 0 ∉ u) (hum : u.length < m)
    (htn : t.length ≤ n) :
    strcat (holding m u) (holding n t) =
      if t.length + u.length < n then some (holding n (t ++ u)) else none := by
  obtain ⟨rest, hrest, -⟩ := holding_eq_cons hum
  rw [strcat, strlen_holding ht htn]
  by_cases hlt : t.length < n
  · have htake : (holding n t).take t.length = t := List.take_left
    rw [if_pos hlt, Option.bind_eq_bind, Option.bind_some, hrest,
      copyTo_eq hu rest (by rw [length_holding htn]; exact htn), length_holding htn, htake]
    by_cases hle : t.length + u.length ≤ n
    · have hlen : (t ++ u).length = t.length + u.length := List.length_append
      rw [if_pos hle, Option.bind_eq_bind, Option.bind_some, holding_append hle, ← hrest,
        strlen_holding hu (Nat.le_of_lt hum), if_pos hum, Option.bind_some, ← hlen]
      by_cases hlt' : (t ++ u).length < n
      · obtain ⟨rest', hrest', -⟩ := holding_eq_cons hlt'
        rw [if_pos hlt', hrest', write_append]
      · rw [if_neg hlt', Buffer.write, length_holding (by omega), if_neg hlt']
    · rw [if_neg hle, if_neg (by omega)]
      rfl
  · rw [if_neg hlt, if_neg (by omega)]
    rfl

/-- `strcpy` over a shorter text. -/
theorem strcpy_holding {m : Nat} (hu : 0 ∉ u) (hum : u.length < m) (htu : t.length ≤ u.length)
    (hun : u.length ≤ n) : strcpy (holding m u) (holding n t) = some (holding n u) := by
  obtain ⟨rest, hrest, -⟩ := holding_eq_cons hum
  rw [strcpy, hrest, copyTo_eq hu rest (Nat.zero_le _), length_holding (by omega), Nat.zero_add,
    if_pos hun, List.take_zero, List.nil_append]
  congr 1
  rw [holding, holding, List.drop_append, List.drop_eq_nil_of_le htu, List.nil_append,
    List.drop_replicate]
  congr 2
  omega

end Holding

end Printf

end BbnOS
