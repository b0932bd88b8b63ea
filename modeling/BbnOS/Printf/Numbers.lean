import BbnOS.Printf.Directives

/-!
# Reading printed numbers

`readNat` and `readInt` read digits back, so that they say which number a text
denotes.  `vprintf` passes every 64-bit argument to `__int_str` as an `intmax_t`.
`printsValue_iff` says for which arguments the number that comes out is the
argument: the unsigned conversions print those from `2 ^ 63` on with a minus sign,
and no conversion prints `2 ^ 63` itself, whose remainders are no places of the
digit table.
-/

namespace BbnOS

namespace Printf

/-! ## Reading -/

/-- The value of the character of a digit. -/
def digitValue (c : UInt8) : Option Nat :=
  if '0'.toUInt8 ≤ c ∧ c ≤ '9'.toUInt8 then some (c.toNat - 48)
  else if 'A'.toUInt8 ≤ c ∧ c ≤ 'F'.toUInt8 then some (c.toNat - 55)
  else if 'a'.toUInt8 ≤ c ∧ c ≤ 'f'.toUInt8 then some (c.toNat - 87)
  else none

/-- The value of the character of a digit of the base `r`. -/
def digitOf (r : Nat) (c : UInt8) : Option Nat :=
  (digitValue c).filter (· < r)

/-- The number that digits denote.  A text with anything else, a sign say, is none. -/
def readNat (r : Nat) (t : List UInt8) : Option Nat :=
  if t = [] then none else (t.mapM (digitOf r)).map fun ds => Nat.ofDigits r ds.reverse

/-- The number that digits behind a sign or without one denote. -/
def readInt (r : Nat) : List UInt8 → Option Int
  | [] => none
  | c :: t =>
    if c = '-'.toUInt8 then (readNat r t).map fun n : Nat => -(n : Int)
    else if c = '+'.toUInt8 then (readNat r t).map Int.ofNat
    else (readNat r (c :: t)).map Int.ofNat

section Read

variable {base : Int32} {r : Nat}

theorem mapM_map_some {α β : Type*} {f : α → β} {g : β → Option α} {l : List α}
    (h : ∀ x ∈ l, g (f x) = some x) : (l.map f).mapM g = some l := by
  induction l with
  | nil => rfl
  | cons x l ih =>
    rw [List.map_cons, List.mapM_cons, h x List.mem_cons_self,
      ih fun y hy => h y (List.mem_cons_of_mem _ hy)]
    rfl

theorem ofDigits_numeral (n : Nat) : Nat.ofDigits r (numeral r n).reverse = n := by
  rw [numeral]
  split
  · rename_i hn
    rw [hn, List.reverse_singleton, Nat.ofDigits_singleton]
  · rw [List.reverse_reverse, Nat.ofDigits_digits]

theorem numeral_ne_nil (hr : 2 ≤ r) (n : Nat) : numeral r n ≠ [] := by
  rw [numeral_eq hr]
  exact List.append_ne_nil_of_right_ne_nil _ (List.cons_ne_nil _ _)

theorem IsBase.digitOf_digitChar (h : IsBase base) {d : Nat} (hd : d < radix base) :
    digitOf (radix base) (digitChar base d) = some d := by
  rcases h with rfl | rfl | rfl | rfl <;> revert d <;> decide

/-- Digits are read back. -/
theorem IsBase.readNat_digits (h : IsBase base) {ds : List Nat} (hds : ∀ d ∈ ds, d < radix base)
    (hne : ds ≠ []) :
    readNat (radix base) (ds.map (digitChar base)) =
      some (Nat.ofDigits (radix base) ds.reverse) := by
  have hmap := mapM_map_some (f := digitChar base) (g := digitOf (radix base))
    fun d hd => h.digitOf_digitChar (hds d hd)
  rw [readNat, if_neg fun hnil => hne (List.map_eq_nil_iff.mp hnil), hmap, Option.map_some]

theorem IsBase.readNat_numeral (h : IsBase base) (n : Nat) :
    readNat (radix base) ((numeral (radix base) n).map (digitChar base)) = some n := by
  rw [h.readNat_digits (numeral_lt h.two_le_radix n) (numeral_ne_nil h.two_le_radix n),
    ofDigits_numeral]

/-- A digit is no sign. -/
theorem IsBase.digitChar_ne_sign (h : IsBase base) {d : Nat} (hd : d < radix base) :
    digitChar base d ≠ '-'.toUInt8 ∧ digitChar base d ≠ '+'.toUInt8 ∧
      digitChar base d ≠ ' '.toUInt8 := by
  rcases h with rfl | rfl | rfl | rfl <;> revert d <;> decide

/-- Digits without a sign are read as they are. -/
theorem IsBase.readInt_digits (h : IsBase base) {ds : List Nat} (hds : ∀ d ∈ ds, d < radix base) :
    readInt (radix base) (ds.map (digitChar base)) =
      (readNat (radix base) (ds.map (digitChar base))).map Int.ofNat := by
  cases ds with
  | nil => rfl
  | cons d ds =>
    obtain ⟨hminus, hplus, -⟩ := h.digitChar_ne_sign (hds d List.mem_cons_self)
    rw [List.map_cons, readInt, if_neg hminus, if_neg hplus]

theorem natAbs_of_nonneg {i : Int64} (h : ¬ i < 0) : (i.toInt.natAbs : Int) = i.toInt := by
  rw [Int64.lt_iff_toInt_lt, Int64.toInt_zero] at h
  exact Int.natAbs_of_nonneg (not_lt.mp h)

theorem natAbs_of_neg {i : Int64} (h : i < 0) : -(i.toInt.natAbs : Int) = i.toInt := by
  rw [Int64.lt_iff_toInt_lt, Int64.toInt_zero] at h
  omega

/-- The sign and the digits of a number are read back. -/
theorem IsBase.readInt_numberText (h : IsBase base) (i : Int64) (plus : Bool) :
    readInt (radix base) (numberText i base plus false) = some i.toInt := by
  rw [numberText, signText]
  by_cases hneg : i < 0
  · rw [if_pos hneg, List.singleton_append, readInt, if_pos rfl, h.readNat_numeral,
      Option.map_some, natAbs_of_neg hneg]
  · rw [if_neg hneg]
    cases plus with
    | true =>
      rw [if_pos rfl, List.singleton_append, readInt, if_neg (by decide), if_pos rfl,
        h.readNat_numeral, Option.map_some]
      exact congrArg some (natAbs_of_nonneg hneg)
    | false =>
      rw [if_neg Bool.false_ne_true, if_neg Bool.false_ne_true, List.nil_append,
        h.readInt_digits (numeral_lt h.two_le_radix _), h.readNat_numeral, Option.map_some]
      exact congrArg some (natAbs_of_nonneg hneg)

/-- A number with a minus sign is no digits. -/
theorem IsBase.readNat_numberText (h : IsBase base) (i : Int64) :
    readNat (radix base) (numberText i base false false) =
      if i < 0 then none else some i.toInt.natAbs := by
  rw [numberText, signText]
  by_cases hneg : i < 0
  · have hminus : digitOf (radix base) '-'.toUInt8 = none := rfl
    rw [if_pos hneg, if_pos hneg, List.singleton_append, readNat, if_neg (List.cons_ne_nil _ _),
      List.mapM_cons, hminus]
    rfl
  · rw [if_neg hneg, if_neg hneg, if_neg Bool.false_ne_true, if_neg Bool.false_ne_true,
      List.nil_append, h.readNat_numeral]

end Read

/-! ## The places of the table -/

/-- The places of `digit` that the second loop of `__int_str` reads. -/
def tableReads (base : Int64) : Nat → Int64 → List Int64
  | 0, _ => []
  | fuel + 1, i => i % base :: if i / base = 0 then [] else tableReads base fuel (i / base)

/-- What the loops of `__int_str` start from. -/
def magnitude (i : Int64) : Int64 := if i < 0 then -i else i

/-- The places of the table that the loop reads are those of `tableReads`: on two tables that
agree there it does the same. -/
theorem writeDigits_congr {base : Int64} {digit digit' : Buffer} {fuel : Nat} {i : Int64}
    (h : ∀ k ∈ tableReads base fuel i, digitAt digit k = digitAt digit' k) (p : Nat) (b : Buffer) :
    writeDigits digit base fuel i p b = writeDigits digit' base fuel i p b := by
  induction fuel generalizing i p b with
  | zero => rfl
  | succ fuel ih =>
    cases p with
    | zero => rfl
    | succ p =>
      rw [writeDigits, writeDigits, h _ List.mem_cons_self]
      by_cases hzero : i / base = 0
      · simp only [if_pos hzero]
      · have hrest : ∀ k ∈ tableReads base fuel (i / base),
            digitAt digit k = digitAt digit' k := by
          intro k hk
          refine h k (List.mem_cons_of_mem _ ?_)
          rw [if_neg hzero]
          exact hk
        simp only [if_neg hzero, ih hrest]

/-- The places of the table that a number which is not negative reads are digits. -/
theorem tableReads_lt {base i : Int64} {r n : Nat} (hr : 2 ≤ r) (hb : base.toInt = r)
    (hi : i.toInt = n) (fuel : Nat) :
    ∀ k ∈ tableReads base fuel i, 0 ≤ k.toInt ∧ k.toInt < r := by
  induction fuel generalizing i n with
  | zero => exact fun k hk => absurd hk List.not_mem_nil
  | succ fuel ih =>
    intro k hk
    rcases List.mem_cons.mp hk with rfl | hk
    · have hlt : n % r < r := Nat.mod_lt _ (by omega)
      rw [toInt_mod_nat hi hb]
      exact ⟨Int.natCast_nonneg _, Int.ofNat_lt.mpr hlt⟩
    · split at hk
      · exact absurd hk List.not_mem_nil
      · exact ih (toInt_div_nat hi hb) k hk

theorem toInt_magnitude {i : Int64} (hi : i ≠ Int64.minValue) :
    (magnitude i).toInt = (i.toInt.natAbs : Int) := by
  rw [magnitude]
  by_cases hneg : i < 0
  · have hlt := natAbs_lt hi
    rw [if_pos hneg]
    rw [Int64.lt_iff_toInt_lt, Int64.toInt_zero] at hneg
    rw [Int64.toInt_neg, Int.bmod_eq_of_le (by omega) (by omega)]
    omega
  · rw [if_neg hneg, natAbs_of_nonneg hneg]

/-! ## Conversions of 64-bit integers -/

theorem digits_nil_ne (l : List (Fin 10)) : Amount.digits [] ≠ .digits (0 :: l) := by
  intro h
  cases h

/-- No flags, no width and no precision. -/
def noOptions : Options := widthOnly [] digits_nil_ne

/-- The conversions that take 64 bits: a length and a specifier, or `%p`. -/
inductive Wide where
  | integer (length : Length) (hlength : length ∈ [.l, .q, .j, .z, .t])
      (specifier : IntegerSpecifier)
  | pointer

namespace Wide

theorem ne_L {length : Length} (h : length ∈ [Length.l, .q, .j, .z, .t]) : length ≠ .L := by
  rintro rfl
  exact absurd h (by decide)

def directive : Wide → Directive
  | integer length hlength specifier => .integer noOptions length (ne_L hlength) specifier
  | pointer => .plain noOptions .p

/-- It prints a number that may be negative. -/
def signed : Wide → Bool
  | integer _ _ .d | integer _ _ .i => true
  | integer _ _ _ | pointer => false

/-- The `base` that `vprintf` passes to `__int_str`. -/
def base : Wide → Int32
  | integer _ _ .o => 8
  | integer _ _ .x => 17
  | integer _ _ .X | pointer => 16
  | integer _ _ _ => 10

/-- The base in which it prints. -/
def radix : Wide → Nat
  | integer _ _ .o => 8
  | integer _ _ .x | integer _ _ .X | pointer => 16
  | integer _ _ _ => 10

/-- The number that its argument is. -/
def value (w : Wide) (a : UInt64) : Int :=
  if w.signed then a.toInt64.toInt else a.toNat

/-- The number that a printed text denotes.  One without a sign is digits only. -/
def read (w : Wide) (t : List UInt8) : Option Int :=
  if w.signed then readInt w.radix t else (readNat w.radix t).map Int.ofNat

/-- The arguments that `__int_str` prints: all but the least number with a sign, and those
below `2 ^ 63` without one. -/
def InRange (w : Wide) (a : UInt64) : Prop :=
  if w.signed then a.toNat ≠ 2 ^ 63 else a.toNat < 2 ^ 63

end Wide

/-- `vprintf` with the format `w` takes one argument and prints the number that it is,
and all the places of the digit table that it reads are digits of the base. -/
structure PrintsValue (format : Int → UInt8) (args : Arguments) (w : Wide) : Prop where
  prints : ∃ fuel s, vprintf format args fuel = some s ∧ s.list = 1 ∧
    w.read s.displayed = some (w.value (args.slot 0))
  inTable : ∀ k ∈ tableReads (divisor w.base) 64 (magnitude (args.slot 0).toInt64),
    0 ≤ k.toInt ∧ k.toInt < w.radix

section Wide

variable {format : Int → UInt8} {args : Arguments} {w : Wide}

namespace Wide

theorem isBase (w : Wide) : IsBase w.base := by
  cases w with
  | integer _ _ specifier => cases specifier <;> simp [IsBase, base]
  | pointer => simp [IsBase, base]

theorem radix_base (w : Wide) : Printf.radix w.base = w.radix := by
  cases w with
  | integer _ _ specifier => cases specifier <;> rfl
  | pointer => rfl

theorem text_directive (w : Wide) : w.directive.text.length < 2 ^ 31 := by
  cases w with
  | integer length hlength specifier =>
    have hlong : ∀ length : Length, length.text.length ≤ 2 := by
      intro length
      cases length <;> decide
    have hbound := hlong length
    simp only [directive, Directive.text, List.length_cons, List.length_append]
    have hopts : noOptions.text.length = 0 := rfl
    rw [hopts, List.length_nil]
    omega
  | pointer => exact Nat.lt_of_le_of_lt (Nat.le_refl 2) (by decide)

/-- A wide conversion passes its 64 bits to `__int_str`. -/
theorem calls (w : Wide) (args : Arguments) (n : Nat) :
    w.directive.used = 1 ∧ ∃ v, v.plusSign = false ∧ v.spaceNoSign = false ∧ v.lengthSpec = 0 ∧
      (w.directive.ArgumentFits args n ↔ FieldFits (some (args.slot n).toInt64) w.base v) ∧
      w.directive.printed args n = integerField (some (args.slot n).toInt64) w.base v := by
  cases w with
  | pointer => exact ⟨rfl, noOptions.conversion args n .nul, rfl, rfl, rfl, Iff.rfl, rfl⟩
  | integer length hlength specifier =>
    have hH : length ≠ .H := by
      rintro rfl
      exact absurd hlength (by decide)
    have hargs : unsignedArg length (args.slot n) = some (args.slot n).toInt64 ∧
        signedArg length (args.slot n) = some (args.slot n).toInt64 := by
      cases length <;> first | exact ⟨rfl, rfl⟩ | exact absurd hlength (by decide)
    refine ⟨if_neg hH, noOptions.conversion args n length, rfl, rfl, rfl, ?_⟩
    cases specifier with
    | d | i =>
      rw [← hargs.2]
      exact ⟨forall_prop_of_true hH, if_neg hH⟩
    | u | o | x | X =>
      rw [← hargs.1]
      exact ⟨forall_prop_of_true hH, if_neg hH⟩

end Wide

theorem paddingOf_zero {len : Nat} (h : len ≤ 22) : paddingOf 0 len = 0 := by
  have hlen : (Int32.ofNat len).toInt = len := Int32.toInt_ofNat_of_lt (by omega)
  rw [paddingOf_eq, Int32.toInt_sub, hlen, Int32.toInt_zero,
    Int.bmod_eq_of_le (by omega) (by omega)]
  omega

/-- A field without a width is the number, which fits unless it is the least one. -/
theorem integerField_of_width_zero {base : Int32} (hbase : IsBase base) {v : Conversion}
    (hplus : v.plusSign = false) (hspace : v.spaceNoSign = false) (hwidth : v.lengthSpec = 0)
    (i : Int64) :
    (FieldFits (some i) base v ↔ i ≠ Int64.minValue) ∧
      (i ≠ Int64.minValue → integerField (some i) base v = numberText i base false false) := by
  have hzero : (0 : Int32).toInt = 0 := rfl
  refine ⟨⟨fun h => (h i rfl).1, fun hi j hj => ?_⟩, fun hi => ?_⟩
  · obtain rfl := Option.some.inj hj
    have hlen := length_numberText_le hbase hi v.plusSign v.spaceNoSign
    rw [hwidth, hzero]
    exact ⟨hi, by omega, by omega⟩
  · have hlen := length_numberText_le hbase hi false false
    rw [integerField, hplus, hspace, hwidth, fieldText, paddingOf_zero hlen, List.replicate_zero,
      List.append_nil, List.nil_append, ite_self]

/-- What a wide conversion prints, and when it does. -/
theorem printed_wide (w : Wide) (args : Arguments) (n : Nat) :
    (w.directive.ArgumentFits args n ↔ (args.slot n).toInt64 ≠ Int64.minValue) ∧
      ((args.slot n).toInt64 ≠ Int64.minValue →
        w.directive.printed args n = numberText (args.slot n).toInt64 w.base false false) := by
  obtain ⟨-, v, hplus, hspace, hwidth, hfits, hprinted⟩ := w.calls args n
  obtain ⟨hfield, htext⟩ :=
    integerField_of_width_zero w.isBase hplus hspace hwidth (args.slot n).toInt64
  exact ⟨hfits.trans hfield, fun hi => hprinted.trans (htext hi)⟩

/-- An argument as an `intmax_t`. -/
theorem toInt_toInt64 (a : UInt64) :
    a.toInt64.toInt = if a.toNat < 2 ^ 63 then (a.toNat : Int) else a.toNat - 2 ^ 64 := by
  have hcond : a.toInt64.toInt = _ := BitVec.toInt_eq_toNat_cond a.toBitVec
  have hnat : a.toBitVec.toNat = a.toNat := rfl
  rw [hcond, hnat]
  by_cases hlt : a.toNat < 2 ^ 63
  · rw [if_pos hlt, if_pos (by omega)]
  · rw [if_neg hlt, if_neg (by omega)]
    rfl

theorem toInt64_ne_minValue_iff (a : UInt64) :
    a.toInt64 ≠ Int64.minValue ↔ a.toNat ≠ 2 ^ 63 := by
  have hbound := a.toNat_lt
  have hmin : Int64.minValue.toInt = -2 ^ 63 := rfl
  rw [Ne, ← Int64.toInt_inj, toInt_toInt64, hmin]
  split <;> omega

/-- An argument that does not fit 63 bits is negative for `__int_str`. -/
theorem toInt64_neg_iff (a : UInt64) : a.toInt64 < 0 ↔ ¬ a.toNat < 2 ^ 63 := by
  have hbound := a.toNat_lt
  rw [Int64.lt_iff_toInt_lt, Int64.toInt_zero, toInt_toInt64]
  split <;> omega

/-- What is read in the printed text of a wide conversion is its argument, if that is meant
with a sign or fits 63 bits. -/
theorem read_numberText (w : Wide) (a : UInt64) :
    w.read (numberText a.toInt64 w.base false false) = some (w.value a) ↔
      (w.signed = true ∨ a.toNat < 2 ^ 63) := by
  rw [Wide.read, Wide.value]
  cases hsigned : w.signed with
  | true =>
    rw [if_pos rfl, if_pos rfl, ← w.radix_base, w.isBase.readInt_numberText]
    exact iff_of_true rfl (Or.inl rfl)
  | false =>
    rw [if_neg Bool.false_ne_true, if_neg Bool.false_ne_true, ← w.radix_base,
      w.isBase.readNat_numberText]
    by_cases hlt : a.toNat < 2 ^ 63
    · have hnat : a.toInt64.toInt.natAbs = a.toNat := by
        rw [toInt_toInt64, if_pos hlt, Int.natAbs_natCast]
      rw [if_neg fun h => (toInt64_neg_iff a).mp h hlt, Option.map_some, hnat]
      exact iff_of_true rfl (Or.inr hlt)
    · rw [if_pos ((toInt64_neg_iff a).mpr hlt)]
      exact iff_of_false (fun h => nomatch h) (fun h => h.elim (fun h => nomatch h) hlt)

theorem Wide.inRange_iff (w : Wide) (a : UInt64) :
    w.InRange a ↔ a.toNat ≠ 2 ^ 63 ∧ (w.signed = true ∨ a.toNat < 2 ^ 63) := by
  rw [Wide.InRange]
  cases w.signed with
  | true => exact ⟨fun h => ⟨h, Or.inl rfl⟩, fun h => h.1⟩
  | false =>
    refine ⟨fun h => ⟨Nat.ne_of_lt h, Or.inr h⟩, fun h => h.2.resolve_left Bool.false_ne_true⟩

/-- A wide conversion prints its argument if and only if that is below `2 ^ 63`, or, with a
sign, is not the least number. -/
theorem printsValue_iff (hl : IsString format w.directive.text) :
    PrintsValue format args w ↔ w.InRange (args.slot 0) := by
  have htext : text [w.directive] = w.directive.text := List.append_nil _
  rw [← htext] at hl
  have hlen : (text [w.directive]).length < 2 ^ 31 := by
    rw [htext]
    exact w.text_directive
  obtain ⟨hused, -⟩ := w.calls args 0
  obtain ⟨hfits, hprinted⟩ := printed_wide w args 0
  have hread := read_numberText w (args.slot 0)
  rw [Wide.inRange_iff, ← toInt64_ne_minValue_iff]
  constructor
  · rintro ⟨⟨fuel, s, hs, -, hvalue⟩, -⟩
    obtain ⟨⟨hargument, -⟩, -, hdisplayed⟩ := vprintf_text hl hlen hs
    have hi := hfits.mp hargument
    rw [hdisplayed, printed, printed, List.append_nil, hprinted hi] at hvalue
    exact ⟨hi, hread.mp hvalue⟩
  · rintro ⟨hi, hsigned⟩
    obtain ⟨fuel, s, hs⟩ := vprintf_returns hl hlen ⟨hfits.mpr hi, trivial⟩
    obtain ⟨-, hlist, hdisplayed⟩ := vprintf_text hl hlen hs
    rw [printed, printed, List.append_nil, hprinted hi] at hdisplayed
    refine ⟨⟨fuel, s, hs, ?_, ?_⟩, ?_⟩
    · rw [hlist, used, List.map_cons, List.map_nil, List.sum_cons, List.sum_nil, hused,
        Nat.add_zero]
    · rw [hdisplayed]
      exact hread.mpr hsigned
    · rw [← w.radix_base]
      exact tableReads_lt w.isBase.two_le_radix w.isBase.toInt_divisor (toInt_magnitude hi) 64

/-- One argument. -/
def argument (a : UInt64) : Arguments where
  slot _ := a
  string _ := []

/-- `%lx`. -/
def Wide.lx : Wide := .integer .l (by decide) .x

/-- `%lu`. -/
def Wide.lu : Wide := .integer .l (by decide) .u

/-- An address of the kernel, printed by `%lx`. -/
theorem printsValue_lx :
    PrintsValue (memoryOf (Wide.lx.directive.text ++ [0])) (argument 0x7fffffff80000000) Wide.lx :=
  (printsValue_iff (isString_memoryOf (by decide) [])).mpr (by rw [Wide.InRange]; decide)

/-- The largest `uint64_t` comes out of `%lu` as `-1`. -/
theorem not_printsValue_lu :
    IsString (memoryOf (Wide.lu.directive.text ++ [0])) Wide.lu.directive.text ∧
      ¬ PrintsValue (memoryOf (Wide.lu.directive.text ++ [0])) (argument 0xffffffffffffffff)
        Wide.lu ∧
      (vprintf (memoryOf (Wide.lu.directive.text ++ [0])) (argument 0xffffffffffffffff) 8).map
        State.displayed = some (chars ['-', '1']) := by
  have hl : IsString (memoryOf (Wide.lu.directive.text ++ [0])) Wide.lu.directive.text :=
    isString_memoryOf (by decide) []
  refine ⟨hl, ?_, by decide +kernel⟩
  rintro ⟨⟨fuel, s, hs, -, hvalue⟩, -⟩
  have htext : text [Wide.lu.directive] = Wide.lu.directive.text := List.append_nil _
  rw [← htext] at hl
  obtain ⟨-, -, hdisplayed⟩ := vprintf_text hl (by decide) hs
  rw [hdisplayed] at hvalue
  exact absurd hvalue (by decide +kernel)

end Wide

end Printf

end BbnOS
