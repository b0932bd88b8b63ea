import BbnOS.Printf.Numbers
import Mathlib.Data.List.DropRight

/-!
# Numbers in fields

`__int_str` pads a number after it has written the sign, so that the zeros of a
padded number stand before the sign, and those of a left-justified one behind the
digits.  `writesField_iff` says when the field is right: when it fits the arrays,
and there is no padding, or it consists of spaces, or of zeros on the left of a
number without a sign.
-/

namespace BbnOS

namespace Printf

/-- The number in a field: spaces around it do not count. -/
def readField (r : Nat) (t : List UInt8) : Option Int :=
  readInt r ((t.rdropWhile (· = ' '.toUInt8)).dropWhile (· = ' '.toUInt8))

/-- The digits of a number. -/
def digitsText (i : Int64) (base : Int32) : List UInt8 :=
  (numeral (radix base) i.toInt.natAbs).map (digitChar base)

/-- A sign and digits with padding around them: spaces on the right of a left-justified field,
and else spaces on the left or zeros between the sign and the digits. -/
def Padded (justify : Bool) (sign digits t : List UInt8) : Prop :=
  if justify then ∃ right, t = sign ++ digits ++ List.replicate right ' '.toUInt8
  else ∃ left zeros, t = List.replicate left ' '.toUInt8 ++
    (sign ++ (List.replicate zeros '0'.toUInt8 ++ digits))

/-- A field as it is meant: of the width or of the number's own length, with the padding where
it belongs, and the number in it. -/
structure IsField (i : Int64) (base : Int32) (plus space : Bool) (width : Int32)
    (justify : Bool) (t : List UInt8) : Prop where
  length : (t.length : Int) = max width.toInt (numberText i base plus space).length
  padded : Padded justify (signText i plus space) (digitsText i base) t
  value : readField (radix base) t = some i.toInt

/-- `__int_str` on a buffer of zeros stores inside its arrays, and leaves the field there. -/
def WritesField (i : Int64) (base : Int32) (plus space : Bool) (width : Int32)
    (justify zeroPad : Bool) : Prop :=
  ∃ b t, intStr i (List.replicate 256 0) base plus space width justify zeroPad = some b ∧
    textOf b = some t ∧ IsField i base plus space width justify t

section Fields

variable {base : Int32} {i : Int64} {plus space : Bool}

theorem dropWhile_replicate_append {α : Type*} {p : α → Bool} {c : α} (hc : p c = true) (n : Nat)
    (l : List α) : (List.replicate n c ++ l).dropWhile p = l.dropWhile p := by
  induction n with
  | zero => rfl
  | succ n ih => rw [List.replicate_succ, List.cons_append, List.dropWhile_cons_of_pos hc, ih]

theorem rdropWhile_append_replicate {α : Type*} {p : α → Bool} {c : α} (hc : p c = true) (n : Nat)
    (l : List α) : (l ++ List.replicate n c).rdropWhile p = l.rdropWhile p := by
  rw [List.rdropWhile, List.reverse_append, List.reverse_replicate,
    dropWhile_replicate_append hc, ← List.rdropWhile]

theorem IsBase.zeros_lt (h : IsBase base) (zeros n : Nat) :
    ∀ d ∈ List.replicate zeros 0 ++ numeral (radix base) n, d < radix base := by
  intro d hd
  rcases List.mem_append.mp hd with hd | hd
  · rw [List.eq_of_mem_replicate hd]
    exact Nat.lt_of_lt_of_le Nat.zero_lt_two h.two_le_radix
  · exact numeral_lt h.two_le_radix n d hd

/-- Zeros in front of the digits belong to them. -/
theorem IsBase.readNat_zeros (h : IsBase base) (zeros n : Nat) :
    readNat (radix base)
      ((List.replicate zeros 0 ++ numeral (radix base) n).map (digitChar base)) = some n := by
  rw [h.readNat_digits (h.zeros_lt zeros n)
    (List.append_ne_nil_of_right_ne_nil _ (numeral_ne_nil h.two_le_radix n)),
    List.reverse_append, List.reverse_replicate, Nat.ofDigits_append_replicate_zero,
    ofDigits_numeral]

/-- Digits begin and end with no space. -/
theorem IsBase.dropWhile_digits (h : IsBase base) {ds : List Nat} (hds : ∀ d ∈ ds, d < radix base) :
    (ds.map (digitChar base)).dropWhile (· = ' '.toUInt8) = ds.map (digitChar base) := by
  cases ds with
  | nil => rfl
  | cons d ds =>
    obtain ⟨-, -, hspace⟩ := h.digitChar_ne_sign (hds d List.mem_cons_self)
    rw [List.map_cons, List.dropWhile_cons_of_neg (by rw [decide_eq_true_eq]; exact hspace)]

theorem IsBase.rdropWhile_digits (h : IsBase base) (front : List UInt8) {ds : List Nat}
    (hds : ∀ d ∈ ds, d < radix base) (hne : ds ≠ []) :
    (front ++ ds.map (digitChar base)).rdropWhile (· = ' '.toUInt8) =
      front ++ ds.map (digitChar base) := by
  obtain ⟨ds, d, rfl⟩ : ∃ l x, ds = l ++ [x] :=
    ⟨ds.dropLast, ds.getLast hne, (List.dropLast_append_getLast hne).symm⟩
  obtain ⟨-, -, hspace⟩ := h.digitChar_ne_sign (hds d (List.mem_append_right _ List.mem_cons_self))
  rw [List.map_append, List.map_singleton, ← List.append_assoc,
    List.rdropWhile_concat_neg _ _ _ (by rw [decide_eq_true_eq]; exact hspace)]

/-- The number of a field with zeros behind the sign. -/
theorem IsBase.readField_eq (h : IsBase base) (i : Int64) (plus space : Bool)
    (left zeros right : Nat) :
    readField (radix base) (List.replicate left ' '.toUInt8 ++
      (signText i plus space ++ (List.replicate zeros '0'.toUInt8 ++ digitsText i base)) ++
        List.replicate right ' '.toUInt8) = some i.toInt := by
  have hzero : digitChar base 0 = '0'.toUInt8 := rfl
  have hdigits : List.replicate zeros '0'.toUInt8 ++ digitsText i base =
      (List.replicate zeros 0 ++ numeral (radix base) i.toInt.natAbs).map (digitChar base) := by
    rw [List.map_append, List.map_replicate, hzero, digitsText]
  have hread := h.readNat_zeros zeros i.toInt.natAbs
  have hlt : ∀ d ∈ List.replicate zeros 0 ++ numeral (radix base) i.toInt.natAbs,
      d < radix base := h.zeros_lt zeros _
  have hne : List.replicate zeros 0 ++ numeral (radix base) i.toInt.natAbs ≠ [] :=
    List.append_ne_nil_of_right_ne_nil _ (numeral_ne_nil h.two_le_radix _)
  rw [hdigits]
  generalize List.replicate zeros 0 ++ numeral (radix base) i.toInt.natAbs = ds at hread hlt hne
  have hunsigned : readInt (radix base) (ds.map (digitChar base)) =
      some (i.toInt.natAbs : Int) := by
    rw [h.readInt_digits hlt, hread]
    rfl
  rw [readField, rdropWhile_append_replicate (by decide), ← List.append_assoc,
    h.rdropWhile_digits _ hlt hne, List.append_assoc, dropWhile_replicate_append (by decide),
    signText]
  by_cases hneg : i < 0
  · rw [if_pos hneg, List.singleton_append, List.dropWhile_cons_of_neg (by decide), readInt,
      if_pos rfl, hread, Option.map_some, natAbs_of_neg hneg]
  · rw [if_neg hneg, ← natAbs_of_nonneg hneg]
    cases plus with
    | true =>
      rw [if_pos rfl, List.singleton_append, List.dropWhile_cons_of_neg (by decide), readInt,
        if_neg (by decide), if_pos rfl, hread]
      rfl
    | false =>
      cases space with
      | true =>
        rw [if_neg Bool.false_ne_true, if_pos rfl, List.singleton_append,
          List.dropWhile_cons_of_pos (by decide), h.dropWhile_digits hlt, hunsigned]
      | false =>
        rw [if_neg Bool.false_ne_true, if_neg Bool.false_ne_true, List.nil_append,
          h.dropWhile_digits hlt, hunsigned]

/-! ## When the field is right -/

/-- The padding of a field that fits. -/
theorem paddingOf_of_fits {len : Nat} {width : Int32} (hlo : -2 ^ 31 + (len : Int) ≤ width.toInt)
    (hhi : width.toInt ≤ 255) (hlen : len ≤ 22) :
    (len + paddingOf width len : Int) = max width.toInt len := by
  have hlen32 : (Int32.ofNat len).toInt = len := Int32.toInt_ofNat_of_lt (by omega)
  have hsub := Int32.toInt_sub width (Int32.ofNat len)
  rw [hlen32, Int.bmod_eq_of_le (by omega) (by omega)] at hsub
  rw [paddingOf_eq, hsub]
  omega

section Padding

variable {width : Int32} {justify zeroPad : Bool} {t : List UInt8}

/-- The number is read back from a field with its padding in place. -/
theorem IsField.of_padded (h : IsBase base)
    (hlength : (t.length : Int) = max width.toInt (numberText i base plus space).length)
    (hpadded : Padded justify (signText i plus space) (digitsText i base) t) :
    IsField i base plus space width justify t := by
  refine ⟨hlength, hpadded, ?_⟩
  cases justify with
  | true =>
    obtain ⟨right, rfl⟩ := hpadded
    exact h.readField_eq i plus space 0 0 right
  | false =>
    obtain ⟨left, zeros, rfl⟩ := hpadded
    have hread := h.readField_eq i plus space left zeros 0
    rw [List.replicate_zero, List.append_nil] at hread
    exact hread

/-- Padding on the right consists of spaces. -/
theorem padded_right_iff (sign digits : List UInt8) (k : Nat) (zeroPad : Bool) :
    Padded true sign digits (sign ++ digits ++ List.replicate k (padChar zeroPad)) ↔
      k = 0 ∨ zeroPad = false := by
  constructor
  · rintro ⟨right, heq⟩
    have hpad := List.append_cancel_left heq
    cases k with
    | zero => exact Or.inl rfl
    | succ k =>
      have hmem : padChar zeroPad ∈ List.replicate right ' '.toUInt8 := by
        rw [← hpad]
        exact List.mem_cons_self
      have hspace := List.eq_of_mem_replicate hmem
      cases zeroPad with
      | true => exact absurd hspace (by decide)
      | false => exact Or.inr rfl
  · rintro (rfl | rfl)
    · exact ⟨0, rfl⟩
    · exact ⟨k, rfl⟩

/-- Padding on the left consists of spaces, or there is no sign behind it. -/
theorem padded_left_iff {sign : List UInt8} (hsign : sign.head? ≠ some '0'.toUInt8)
    (digits : List UInt8) (k : Nat) (zeroPad : Bool) :
    Padded false sign digits (List.replicate k (padChar zeroPad) ++ (sign ++ digits)) ↔
      k = 0 ∨ zeroPad = false ∨ sign = [] := by
  constructor
  · rintro ⟨left, zeros, heq⟩
    cases k with
    | zero => exact Or.inl rfl
    | succ k =>
      cases zeroPad with
      | false => exact Or.inr (Or.inl rfl)
      | true =>
        -- the field begins with a zero
        have hhead := congrArg List.head? heq
        rw [List.replicate_succ, List.cons_append, List.head?_cons] at hhead
        cases left with
        | succ left => exact absurd (Option.some.inj hhead) (by decide)
        | zero =>
          cases sign with
          | nil => exact Or.inr (Or.inr rfl)
          | cons c sign => exact absurd hhead.symm hsign
  · rintro (rfl | rfl | rfl)
    · exact ⟨0, 0, rfl⟩
    · exact ⟨k, 0, rfl⟩
    · cases zeroPad with
      | true => exact ⟨0, k, rfl⟩
      | false => exact ⟨k, 0, rfl⟩

/-- No sign is a zero. -/
theorem head?_signText_ne (i : Int64) (plus space : Bool) :
    (signText i plus space).head? ≠ some '0'.toUInt8 := by
  unfold signText
  repeat' split
  all_goals decide

/-- The padding is in place unless it consists of zeros behind the digits or before a
sign. -/
theorem padded_fieldText_iff (i : Int64) (base : Int32) (plus space : Bool) (width : Int32)
    (justify zeroPad : Bool) :
    Padded justify (signText i plus space) (digitsText i base)
        (fieldText (numberText i base plus space) width justify zeroPad) ↔
      paddingOf width (numberText i base plus space).length = 0 ∨ zeroPad = false ∨
        (justify = false ∧ signText i plus space = []) := by
  cases justify with
  | true =>
    rw [fieldText, if_pos rfl]
    refine (padded_right_iff _ _ _ zeroPad).trans (or_congr_right ?_)
    exact ⟨Or.inl, fun h => h.resolve_right fun h => absurd h.1.symm Bool.false_ne_true⟩
  | false =>
    rw [fieldText, if_neg Bool.false_ne_true]
    refine (padded_left_iff (head?_signText_ne i plus space) _ _ zeroPad).trans ?_
    exact or_congr_right (or_congr_right ⟨fun h => ⟨rfl, h⟩, And.right⟩)

end Padding

/-- `__int_str` writes a field as it is meant if and only if its width is at most 255, and not
so far below zero that the subtraction of the length wraps, and there is no padding, or it
consists of spaces, or of zeros on the left of a number without a sign. -/
theorem writesField_iff (hbase : IsBase base) (hi : i ≠ Int64.minValue) (plus space : Bool)
    (width : Int32) (justify zeroPad : Bool) :
    WritesField i base plus space width justify zeroPad ↔
      (-2 ^ 31 + ((numberText i base plus space).length : Int) ≤ width.toInt ∧
        width.toInt ≤ 255) ∧
      (width.toInt ≤ (numberText i base plus space).length ∨ zeroPad = false ∨
        (justify = false ∧ signText i plus space = [])) := by
  have hlen := length_numberText_le hbase hi plus space
  have htext : (∃ b t,
      intStr i (List.replicate 256 0) base plus space width justify zeroPad = some b ∧
      textOf b = some t ∧ IsField i base plus space width justify t) ↔
      ∃ t, (intStr i (holding 256 []) base plus space width justify zeroPad).bind textOf = some t ∧
        IsField i base plus space width justify t := by
    simp only [Option.bind_eq_some_iff]
    constructor
    · rintro ⟨b, t, hb, ht, hfield⟩
      exact ⟨t, ⟨b, hb, ht⟩, hfield⟩
    · rintro ⟨t, ⟨b, hb, ht⟩, hfield⟩
      exact ⟨b, t, hb, ht, hfield⟩
  rw [WritesField, htext, textOf_intStr hbase, ← paddingOf_fits_iff hlen]
  by_cases hfits : (numberText i base plus space).length +
      paddingOf width (numberText i base plus space).length < 256
  · obtain ⟨hlo, hhi⟩ := (paddingOf_fits_iff hlen width).mp hfits
    have hpad := paddingOf_of_fits hlo hhi hlen
    have hnone : paddingOf width (numberText i base plus space).length = 0 ↔
        width.toInt ≤ (numberText i base plus space).length := by
      omega
    have hlength : ((fieldText (numberText i base plus space) width justify zeroPad).length : Int) =
        max width.toInt (numberText i base plus space).length := by
      rw [length_fieldText, Int.natCast_add, hpad]
    rw [if_pos ⟨hi, hfits⟩, ← hnone, ← padded_fieldText_iff]
    constructor
    · rintro ⟨t, ht, hfield⟩
      obtain rfl := Option.some.inj ht
      exact ⟨hfits, hfield.padded⟩
    · rintro ⟨-, hpadded⟩
      exact ⟨_, rfl, .of_padded hbase hlength hpadded⟩
  · rw [if_neg fun h => hfits h.2]
    exact iff_of_false (fun ⟨t, ht, _⟩ => nomatch ht) fun h => hfits h.1

/-- `%-6d` with -42. -/
theorem writesField_minus : WritesField (-42) 10 false false 6 true false :=
  (writesField_iff (Or.inr (Or.inl rfl)) (by decide) false false 6 true false).mpr
    ⟨by decide +kernel, Or.inr (Or.inl rfl)⟩

/-- `%04d` with -5 comes out as `00-5`. -/
theorem not_writesField_zeros :
    ¬ WritesField (-5) 10 false false 4 false true ∧
      (intStr (-5) (List.replicate 256 0) 10 false false 4 false true).bind textOf =
        some (chars ['0', '0', '-', '5']) := by
  have htext : (intStr (-5) (List.replicate 256 0) 10 false false 4 false true).bind textOf =
      some (chars ['0', '0', '-', '5']) := by
    decide +kernel
  refine ⟨?_, htext⟩
  rintro ⟨b, t, hb, ht, hfield⟩
  rw [hb, Option.bind_some, ht] at htext
  have hvalue := hfield.value
  rw [Option.some.inj htext] at hvalue
  exact absurd hvalue (by decide +kernel)

end Fields

end Printf

end BbnOS
