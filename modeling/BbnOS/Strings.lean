import BbnOS.Printf.Buffer
import Mathlib.Data.UInt

/-!
# Strings of the two kernels

`strcpy` and `strcat` of `lib/uefi/string.c` and of `lib/legacy/string.c`, with their
indices of type `int`.  An index that overflows becomes negative, and an access outside
the array has no meaning: it is `none`.  Two arrays do not overlap.

`uefi_strcpy_eq` and `uefi_strcat_eq` reduce them to the functions of the formatted
print.  Only `strcat` of the UEFI kernel ends its string with a zero, so the other three
rely on the zero that their destination holds already: `copiesAndAppends_iff`.
-/

namespace BbnOS

namespace Strings

open Printf

/-! ## The code -/

/-- `b[i]`. -/
def get (b : Buffer) (i : Int32) : Option UInt8 :=
  if i < 0 then none else b[i.toNatClampNeg]?

/-- `b[i] = c`. -/
def put (b : Buffer) (i : Int32) (c : UInt8) : Option Buffer :=
  if i < 0 then none else b.write i.toNatClampNeg c

/-- The loop that copies up to the zero of `src`, and the index in `dest` after it.  As
`srcPtr` grows by one, it leaves the array when there are no rounds left. -/
def copyLoop (src : Buffer) : Nat → Int32 → Int32 → Buffer → Option (Buffer × Int32)
  | 0, _, _, _ => none
  | rounds + 1, destPtr, srcPtr, dest => do
    let c ← get src srcPtr
    if c = 0 then some (dest, destPtr)
    else
      let dest ← put dest destPtr c
      copyLoop src rounds (destPtr + 1) (srcPtr + 1) dest

/-- The loop that looks for the zero of `dest`. -/
def endLoop (dest : Buffer) : Nat → Int32 → Option Int32
  | 0, _ => none
  | rounds + 1, destPtr => do
    let c ← get dest destPtr
    if c = 0 then some destPtr else endLoop dest rounds (destPtr + 1)

namespace Uefi

/-- `strcpy` of `lib/uefi/string.c`. -/
def strcpy (src dst : Buffer) : Option Buffer := do
  let (dst, _) ← copyLoop src (src.length + 1) 0 0 dst
  some dst

/-- `strcat` of `lib/uefi/string.c`. -/
def strcat (src dest : Buffer) : Option Buffer := do
  let destPtr ← endLoop dest (dest.length + 1) 0
  let (dest, destPtr) ← copyLoop src (src.length + 1) destPtr 0 dest
  put dest destPtr 0

end Uefi

namespace Legacy

/-- `strcpy` of `lib/legacy/string.c`. -/
def strcpy (dst src : Buffer) : Option Buffer := do
  let (dst, _) ← copyLoop src (src.length + 1) 0 0 dst
  some dst

/-- `strcat` of `lib/legacy/string.c`, which stores no zero. -/
def strcat (dest src : Buffer) : Option Buffer := do
  let destPtr ← endLoop dest (dest.length + 1) 0
  let (dest, _) ← copyLoop src (src.length + 1) destPtr 0 dest
  some dest

end Legacy

/-- After the copy the destination reads as the source, and after the append as its old
string and the source. -/
structure CopiesAndAppends (src dst dest : Buffer) (u t : List UInt8) : Prop where
  uefi_strcpy : (Uefi.strcpy src dst).bind textOf = some u
  legacy_strcpy : (Legacy.strcpy dst src).bind textOf = some u
  uefi_strcat : (Uefi.strcat src dest).bind textOf = some (t ++ u)
  legacy_strcat : (Legacy.strcat dest src).bind textOf = some (t ++ u)

/-! ## Indices -/

section Index

variable {k : Nat} {b : Buffer}

/-- The first index that overflows is negative. -/
theorem ofNat_lt_zero_iff (hk : k ≤ 2 ^ 31) : Int32.ofNat k < 0 ↔ ¬ k < 2 ^ 31 := by
  rw [Int32.lt_iff_toInt_lt, Int32.toInt_zero]
  by_cases hlt : k < 2 ^ 31
  · rw [Int32.toInt_ofNat_of_lt hlt]
    omega
  · obtain rfl : k = 2 ^ 31 := by omega
    decide

theorem toNatClampNeg_ofNat (hk : k < 2 ^ 31) : (Int32.ofNat k).toNatClampNeg = k := by
  rw [Int32.toNatClampNeg, Int32.toInt_ofNat_of_lt hk, Int.toNat_natCast]

theorem get_ofNat (hk : k ≤ 2 ^ 31) :
    get b (Int32.ofNat k) = if k < 2 ^ 31 then b[k]? else none := by
  by_cases hlt : k < 2 ^ 31
  · rw [get, if_neg fun h => (ofNat_lt_zero_iff hk).mp h hlt, toNatClampNeg_ofNat hlt, if_pos hlt]
  · rw [get, if_pos ((ofNat_lt_zero_iff hk).mpr hlt), if_neg hlt]

theorem put_ofNat (hk : k ≤ 2 ^ 31) (c : UInt8) :
    put b (Int32.ofNat k) c = if k < 2 ^ 31 then b.write k c else none := by
  by_cases hlt : k < 2 ^ 31
  · rw [put, if_neg fun h => (ofNat_lt_zero_iff hk).mp h hlt, toNatClampNeg_ofNat hlt, if_pos hlt]
  · rw [put, if_pos ((ofNat_lt_zero_iff hk).mpr hlt), if_neg hlt]

theorem ofNat_add_one (k : Nat) : Int32.ofNat k + 1 = Int32.ofNat (k + 1) :=
  (Int32.ofNat_add k 1).symm

/-- A string that starts at place `k`, one place further. -/
theorem drop_succ_of_drop {c : UInt8} {l : List UInt8} (h : b.drop k = c :: l) :
    b[k]? = some c ∧ b.drop (k + 1) = l := by
  constructor
  · rw [← List.head?_drop, h, List.head?_cons]
  · rw [← List.drop_drop, h, List.drop_one, List.tail_cons]

end Index

/-! ## The loops -/

section Loops

variable {u rest : List UInt8} {rounds : Nat}

/-- One round of the loop over the destination. -/
theorem endLoop_round {dest : Buffer} {k : Nat} {c : UInt8} (hget : dest[k]? = some c)
    (hk : k ≤ 2 ^ 31) :
    endLoop dest (rounds + 1) (Int32.ofNat k) =
      if k < 2 ^ 31 then
        if c = 0 then some (Int32.ofNat k) else endLoop dest rounds (Int32.ofNat (k + 1))
      else none := by
  rw [endLoop, get_ofNat hk, hget]
  by_cases hlt : k < 2 ^ 31
  · rw [if_pos hlt, if_pos hlt, Option.bind_eq_bind, Option.bind_some, ofNat_add_one]
  · rw [if_neg hlt, if_neg hlt]
    rfl

/-- The loop of `strcat` stops at the zero, if an `int` reaches it. -/
theorem endLoop_eq {dest : Buffer} {k : Nat} (hdest : dest.drop k = u ++ 0 :: rest) (hu : 0 ∉ u)
    (hk : k ≤ 2 ^ 31) (hrounds : u.length < rounds) :
    endLoop dest rounds (Int32.ofNat k) =
      if k + u.length < 2 ^ 31 then some (Int32.ofNat (k + u.length)) else none := by
  induction u generalizing k rounds with
  | nil =>
    obtain ⟨rounds, rfl⟩ := Nat.exists_eq_add_one_of_ne_zero (Nat.ne_of_gt hrounds)
    rw [endLoop_round (drop_succ_of_drop hdest).1 hk, if_pos rfl]
    rfl
  | cons c u ih =>
    rw [List.mem_cons, not_or] at hu
    obtain ⟨rounds, rfl⟩ := Nat.exists_eq_add_one_of_ne_zero (Nat.ne_zero_of_lt hrounds)
    obtain ⟨hget, hrest⟩ := drop_succ_of_drop hdest
    rw [List.length_cons] at hrounds ⊢
    rw [endLoop_round hget hk, if_neg (Ne.symm hu.1)]
    by_cases hlt : k < 2 ^ 31
    · rw [if_pos hlt, ih hrest hu.2 (by omega) (by omega),
        show k + 1 + u.length = k + (u.length + 1) by omega]
    · rw [if_neg hlt, if_neg (by omega)]

/-- The round of the copy loop that stores a character. -/
theorem copyLoop_store {src : Buffer} {d k : Nat} {c : UInt8} (hget : src[k]? = some c)
    (hc : c ≠ 0) (hd : d ≤ 2 ^ 31) (hk : k ≤ 2 ^ 31) (dest : Buffer) :
    copyLoop src (rounds + 1) (Int32.ofNat d) (Int32.ofNat k) dest =
      if k < 2 ^ 31 ∧ d < 2 ^ 31 then
        (dest.write d c).bind
          (copyLoop src rounds (Int32.ofNat (d + 1)) (Int32.ofNat (k + 1)))
      else none := by
  rw [copyLoop, get_ofNat hk, hget]
  by_cases hlt : k < 2 ^ 31
  · rw [if_pos hlt, Option.bind_eq_bind, Option.bind_some, if_neg hc, put_ofNat hd, ofNat_add_one,
      ofNat_add_one]
    by_cases hdlt : d < 2 ^ 31
    · rw [if_pos hdlt, if_pos ⟨hlt, hdlt⟩]
      rfl
    · rw [if_neg hdlt, if_neg fun h => hdlt h.2]
      rfl
  · rw [if_neg hlt, if_neg fun h => hlt h.1]
    rfl

/-- The copy loop is a copy, if an `int` reaches both ends. -/
theorem copyLoop_eq {src : Buffer} {d k : Nat} (hsrc : src.drop k = u ++ 0 :: rest) (hu : 0 ∉ u)
    (hd : d ≤ 2 ^ 31) (hk : k ≤ 2 ^ 31) (hrounds : u.length < rounds) (dest : Buffer) :
    copyLoop src rounds (Int32.ofNat d) (Int32.ofNat k) dest =
      if k + u.length < 2 ^ 31 ∧ d + u.length ≤ 2 ^ 31 then
        (copyTo d (u ++ 0 :: rest) dest).map fun b => (b, Int32.ofNat (d + u.length))
      else none := by
  induction u generalizing d k rounds dest with
  | nil =>
    obtain ⟨rounds, rfl⟩ := Nat.exists_eq_add_one_of_ne_zero (Nat.ne_of_gt hrounds)
    rw [copyLoop, get_ofNat hk, (drop_succ_of_drop hsrc).1, List.length_nil, Nat.add_zero,
      Nat.add_zero, List.nil_append, copyTo, if_pos rfl]
    by_cases hlt : k < 2 ^ 31
    · rw [if_pos hlt, if_pos ⟨hlt, hd⟩]
      rfl
    · rw [if_neg hlt, if_neg fun h => hlt h.1]
      rfl
  | cons c u ih =>
    rw [List.mem_cons, not_or] at hu
    obtain ⟨rounds, rfl⟩ := Nat.exists_eq_add_one_of_ne_zero (Nat.ne_zero_of_lt hrounds)
    obtain ⟨hget, hrest⟩ := drop_succ_of_drop hsrc
    rw [List.length_cons] at hrounds ⊢
    rw [copyLoop_store hget (Ne.symm hu.1) hd hk, List.cons_append, copyTo,
      if_neg (Ne.symm hu.1)]
    by_cases hboth : k < 2 ^ 31 ∧ d < 2 ^ 31
    · rw [if_pos hboth]
      cases dest.write d c with
      | none =>
        rw [Option.bind_none, Option.bind_none, Option.map_none, ite_self]
      | some dest' =>
        rw [Option.bind_some, Option.bind_some,
          ih hrest hu.2 (by omega) (by omega) (by omega),
          show k + 1 + u.length = k + (u.length + 1) by omega,
          show d + 1 + u.length = d + (u.length + 1) by omega]
    · rw [if_neg hboth, if_neg (by omega)]

end Loops

/-! ## Texts -/

/-- An array reads as the text before its first zero. -/
theorem textOf_eq_some_iff {b : Buffer} {t : List UInt8} :
    textOf b = some t ↔ 0 ∉ t ∧ ∃ rest, b = t ++ 0 :: rest := by
  constructor
  · intro h
    obtain ⟨k, hk, rfl⟩ := Option.map_eq_some_iff.mp h
    obtain ⟨hlt, hzero, hbefore⟩ := List.findIdx?_eq_some_iff_getElem.mp hk
    refine ⟨?_, b.drop (k + 1), ?_⟩
    · intro hmem
      obtain ⟨j, hj, hget⟩ := List.mem_take_iff_getElem.mp hmem
      exact hbefore j (by omega) (by simp [hget])
    · rw [← beq_iff_eq.mp hzero, ← List.drop_eq_getElem_cons hlt, List.take_append_drop]
  · rintro ⟨ht, rest, rfl⟩
    have hnone : t.findIdx? (· == 0) = none := by
      rw [List.findIdx?_eq_none_iff]
      intro x hx
      rw [beq_eq_false_iff_ne]
      exact fun heq => ht (heq ▸ hx)
    have hlen : strlen (t ++ 0 :: rest) = some t.length := by
      rw [strlen, List.findIdx?_append, hnone]
      simp [List.findIdx?_cons]
    rw [textOf, hlen, Option.map_some, List.take_left]

theorem strlen_of_textOf {b : Buffer} {t : List UInt8} (h : textOf b = some t) :
    strlen b = some t.length := by
  obtain ⟨k, hk, rfl⟩ := Option.map_eq_some_iff.mp h
  obtain ⟨hlt, -⟩ := List.findIdx?_eq_some_iff_getElem.mp hk
  rw [hk, List.length_take, Nat.min_eq_left (Nat.le_of_lt hlt)]

/-- An array that begins with a text reads as this text when a zero follows. -/
theorem textOf_append_iff {t rest : List UInt8} (ht : 0 ∉ t) :
    textOf (t ++ rest) = some t ↔ rest[0]? = some 0 := by
  rw [textOf_eq_some_iff]
  constructor
  · rintro ⟨-, rest', h⟩
    rw [List.append_cancel_left h, List.getElem?_cons_zero]
  · intro h
    refine ⟨ht, rest.drop 1, ?_⟩
    obtain ⟨h0, hget⟩ := List.getElem?_eq_some_iff.mp h
    rw [← hget, ← List.drop_eq_getElem_cons h0, List.drop_zero]

/-! ## The functions -/

section Functions

variable {src dst dest : Buffer} {t u : List UInt8}

/-- The copy of a whole string. -/
theorem copyLoop_string (hsrc : textOf src = some u) {d : Nat} (hd : d ≤ 2 ^ 31)
    (dest : Buffer) :
    copyLoop src (src.length + 1) (Int32.ofNat d) 0 dest =
      if u.length < 2 ^ 31 ∧ d + u.length ≤ 2 ^ 31 then
        (copyTo d src dest).map fun b => (b, Int32.ofNat (d + u.length))
      else none := by
  obtain ⟨hu, rest, rfl⟩ := textOf_eq_some_iff.mp hsrc
  have hrounds : u.length < (u ++ 0 :: rest).length + 1 := by
    rw [List.length_append]
    omega
  have hall : (u ++ 0 :: rest).drop 0 = u ++ 0 :: rest := List.drop_zero
  have h := copyLoop_eq hall hu hd (Nat.zero_le _) hrounds dest
  rwa [Nat.zero_add] at h

/-- The end of the string in the destination. -/
theorem endLoop_string (hdest : textOf dest = some t) :
    endLoop dest (dest.length + 1) 0 =
      if t.length < 2 ^ 31 then some (Int32.ofNat t.length) else none := by
  obtain ⟨ht, rest, rfl⟩ := textOf_eq_some_iff.mp hdest
  have hrounds : t.length < (t ++ 0 :: rest).length + 1 := by
    rw [List.length_append]
    omega
  have hall : (t ++ 0 :: rest).drop 0 = t ++ 0 :: rest := List.drop_zero
  have h := endLoop_eq hall ht (Nat.zero_le _) hrounds
  rwa [Nat.zero_add] at h

/-- `strcpy` is the one of the formatted print, for a source whose length is an `int`. -/
theorem uefi_strcpy_eq (hsrc : textOf src = some u) (dst : Buffer) :
    Uefi.strcpy src dst = if u.length < 2 ^ 31 then Printf.strcpy src dst else none := by
  have hloop := copyLoop_string hsrc (Nat.zero_le _) dst
  rw [show Int32.ofNat 0 = 0 from rfl, Nat.zero_add] at hloop
  rw [Uefi.strcpy, hloop, Printf.strcpy]
  by_cases hlt : u.length < 2 ^ 31
  · rw [if_pos ⟨hlt, Nat.le_of_lt hlt⟩, if_pos hlt]
    cases copyTo 0 src dst <;> rfl
  · rw [if_neg fun h => hlt h.1, if_neg hlt]
    rfl

theorem legacy_strcpy_eq (src dst : Buffer) : Legacy.strcpy dst src = Uefi.strcpy src dst := rfl

theorem printf_strcat_eq (hsrc : textOf src = some u) (hdest : textOf dest = some t) :
    Printf.strcat src dest =
      (copyTo t.length src dest).bind fun b => b.write (t.length + u.length) 0 := by
  simp only [Printf.strcat, strlen_of_textOf hsrc, strlen_of_textOf hdest, Option.bind_eq_bind,
    Option.bind_some]

/-- `strcat` is the one of the formatted print, for a result whose length is an `int`. -/
theorem uefi_strcat_eq (hsrc : textOf src = some u) (hdest : textOf dest = some t) :
    Uefi.strcat src dest =
      if t.length + u.length < 2 ^ 31 then Printf.strcat src dest else none := by
  rw [Uefi.strcat, endLoop_string hdest, printf_strcat_eq hsrc hdest]
  by_cases ht : t.length < 2 ^ 31
  · rw [if_pos ht, Option.bind_eq_bind, Option.bind_some,
      copyLoop_string hsrc (Nat.le_of_lt ht)]
    by_cases hcopy : u.length < 2 ^ 31 ∧ t.length + u.length ≤ 2 ^ 31
    · rw [if_pos hcopy]
      cases copyTo t.length src dest with
      | none => exact (ite_self _).symm
      | some b => exact put_ofNat hcopy.2 0
    · rw [if_neg hcopy, if_neg (by omega)]
      rfl
  · rw [if_neg ht, if_neg (by omega)]
    rfl

/-- `strcat` of the legacy kernel stores the characters only. -/
theorem legacy_strcat_eq (hsrc : textOf src = some u) (hdest : textOf dest = some t)
    (hint : t.length + u.length < 2 ^ 31) :
    Legacy.strcat dest src = copyTo t.length src dest := by
  rw [Legacy.strcat, endLoop_string hdest, if_pos (by omega), Option.bind_eq_bind,
    Option.bind_some, copyLoop_string hsrc (by omega), if_pos (by omega)]
  cases copyTo t.length src dest <;> rfl

/-- What the copy of a string leaves, where there is room. -/
theorem copyTo_string (hsrc : textOf src = some u) {d : Nat} (hroom : d + u.length ≤ dest.length) :
    copyTo d src dest = some (dest.take d ++ u ++ dest.drop (d + u.length)) := by
  obtain ⟨hu, rest, rfl⟩ := textOf_eq_some_iff.mp hsrc
  rw [copyTo_eq hu rest (by omega), if_pos hroom]

theorem zero_notMem_append (hsrc : textOf src = some u) (hdest : textOf dest = some t) :
    0 ∉ t ++ u := by
  rw [List.mem_append, not_or]
  exact ⟨(textOf_eq_some_iff.mp hdest).1, (textOf_eq_some_iff.mp hsrc).1⟩

theorem take_length (hdest : textOf dest = some t) : dest.take t.length = t := by
  obtain ⟨-, rest, rfl⟩ := textOf_eq_some_iff.mp hdest
  exact List.take_left

/-! ## What the destination reads as -/

/-- A copied string ends where the destination held a zero. -/
theorem uefi_strcpy_iff (hsrc : textOf src = some u) (hroom : u.length < dst.length) :
    (Uefi.strcpy src dst).bind textOf = some u ↔
      u.length < 2 ^ 31 ∧ dst[u.length]? = some 0 := by
  have hu := (textOf_eq_some_iff.mp hsrc).1
  rw [uefi_strcpy_eq hsrc]
  by_cases hlt : u.length < 2 ^ 31
  · rw [if_pos hlt, Printf.strcpy, copyTo_string hsrc (by omega), Option.bind_some,
      List.take_zero, List.nil_append, textOf_append_iff hu, Nat.zero_add, List.getElem?_drop,
      Nat.add_zero]
    exact (and_iff_right hlt).symm
  · rw [if_neg hlt]
    exact iff_of_false (Option.some_ne_none u).symm fun h => hlt h.1

/-- `strcat` of the UEFI kernel stores the end of its string. -/
theorem uefi_strcat_iff (hsrc : textOf src = some u) (hdest : textOf dest = some t)
    (hroom : t.length + u.length < dest.length) :
    (Uefi.strcat src dest).bind textOf = some (t ++ u) ↔ t.length + u.length < 2 ^ 31 := by
  have hended : (Printf.strcat src dest).bind textOf = some (t ++ u) := by
    obtain ⟨c, rest, hdrop⟩ : ∃ c rest, dest.drop (t.length + u.length) = c :: rest :=
      ⟨_, _, List.drop_eq_getElem_cons hroom⟩
    rw [printf_strcat_eq hsrc hdest, copyTo_string hsrc (Nat.le_of_lt hroom), take_length hdest,
      Option.bind_some, hdrop, ← List.length_append, write_append, Option.bind_some,
      textOf_append_iff (zero_notMem_append hsrc hdest), List.getElem?_cons_zero]
  rw [uefi_strcat_eq hsrc hdest]
  by_cases hint : t.length + u.length < 2 ^ 31
  · rw [if_pos hint, hended]
    exact iff_of_true rfl hint
  · rw [if_neg hint]
    exact iff_of_false (Option.some_ne_none (t ++ u)).symm hint

/-- A string appended by the legacy kernel ends where the destination held a zero. -/
theorem legacy_strcat_iff (hsrc : textOf src = some u) (hdest : textOf dest = some t)
    (hroom : t.length + u.length < dest.length) (hint : t.length + u.length < 2 ^ 31) :
    (Legacy.strcat dest src).bind textOf = some (t ++ u) ↔
      dest[t.length + u.length]? = some 0 := by
  rw [legacy_strcat_eq hsrc hdest hint, copyTo_string hsrc (Nat.le_of_lt hroom),
    take_length hdest, Option.bind_some, textOf_append_iff (zero_notMem_append hsrc hdest),
    List.getElem?_drop, Nat.add_zero]

/-- The strings come out as intended exactly when they are short enough for an `int` and the
destination holds a zero where the end belongs. -/
theorem copiesAndAppends_iff (hsrc : textOf src = some u) (hdest : textOf dest = some t)
    (hdst : u.length < dst.length) (hroom : t.length + u.length < dest.length) :
    CopiesAndAppends src dst dest u t ↔
      t.length + u.length < 2 ^ 31 ∧ dst[u.length]? = some 0 ∧
        dest[t.length + u.length]? = some 0 := by
  constructor
  · intro h
    have hint := (uefi_strcat_iff hsrc hdest hroom).mp h.uefi_strcat
    exact ⟨hint, ((uefi_strcpy_iff hsrc hdst).mp h.uefi_strcpy).2,
      (legacy_strcat_iff hsrc hdest hroom hint).mp h.legacy_strcat⟩
  · rintro ⟨hint, hcopy, happend⟩
    have hstrcpy := (uefi_strcpy_iff hsrc hdst).mpr ⟨by omega, hcopy⟩
    exact
      { uefi_strcpy := hstrcpy
        legacy_strcpy := (legacy_strcpy_eq src dst).symm ▸ hstrcpy
        uefi_strcat := (uefi_strcat_iff hsrc hdest hroom).mpr hint
        legacy_strcat := (legacy_strcat_iff hsrc hdest hroom hint).mpr happend }

/-- A copy and an append over zeros. -/
theorem copiesAndAppends_zeros :
    CopiesAndAppends (chars ['a', 'b'] ++ [0]) [0, 0, 0] (chars ['x'] ++ [0, 0, 0])
      (chars ['a', 'b']) (chars ['x']) :=
  (copiesAndAppends_iff (by decide) (by decide) (by decide) (by decide)).mpr (by decide)

/-- Over other characters a copied string does not end. -/
theorem not_copiesAndAppends :
    ¬ ∀ (src dst dest : Buffer) (u t : List UInt8), textOf src = some u → textOf dest = some t →
      u.length < dst.length → t.length + u.length < dest.length →
        CopiesAndAppends src dst dest u t := by
  intro h
  have hcopied := (h (chars ['a', 'b'] ++ [0]) (chars ['x', 'y', 'z'] ++ [0])
    (chars ['x'] ++ [0, 0, 0]) (chars ['a', 'b']) (chars ['x']) (by decide) (by decide)
    (by decide) (by decide)).uefi_strcpy
  revert hcopied
  decide

end Functions

end Strings

end BbnOS
