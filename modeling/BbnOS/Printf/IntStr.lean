import BbnOS.Printf.Buffer
import Mathlib.Data.Nat.Digits.Lemmas
import Mathlib.Data.UInt

/-!
# Printing integers

`__int_str` of `printf.c`: the sign and the digits of a number, in a field of
some width.  The buffer of the caller has 256 characters, and so has the scratch
array for the padding.

The magnitude is written in two loops, one that counts the digits and one that
stores them from the last to the first.  `number_eq` and `intStr_eq` say what
they write; `numeral` is the positional notation they are compared with.
-/

namespace BbnOS

namespace Printf

/-! ## The function -/

/-- The table `digit` of `__int_str`. -/
def digitTable (base : Int32) : Option Buffer := do
  let digit ← strcpy (chars ['0', '1', '2', '3', '4', '5', '6', '7', '8', '9'] ++ [0])
    (List.replicate 32 0)
  if base = 16 then strcat (chars ['A', 'B', 'C', 'D', 'E', 'F'] ++ [0]) digit
  else if base = 17 then strcat (chars ['a', 'b', 'c', 'd', 'e', 'f'] ++ [0]) digit
  else some digit

/-- The base as a divisor. -/
def divisor (base : Int32) : Int64 :=
  if base = 17 then 16 else base.toInt64

/-- The first loop of `__int_str`: the number of its rounds, of which there are at
most 64 in a base from 2 on. -/
def countDigits (base : Int64) : Nat → Int64 → Option Nat
  | 0, _ => none
  | fuel + 1, shifter =>
    if shifter / base = 0 then some 1
    else (countDigits base fuel (shifter / base)).map (· + 1)

/-- `digit[k]`. -/
def digitAt (digit : Buffer) (k : Int64) : Option UInt8 :=
  if k < 0 then none else digit[k.toNatClampNeg]?

/-- The second loop: the digits of `i`, stored to the places before `p`. -/
def writeDigits (digit : Buffer) (base : Int64) : Nat → Int64 → Nat → Buffer → Option Buffer
  | 0, _, _, _ => none
  | _ + 1, _, 0, _ => none
  | fuel + 1, i, p + 1, b => do
    let c ← digitAt digit (i % base)
    let b ← b.write p c
    if i / base = 0 then some b else writeDigits digit base fuel (i / base) p b

/-- The part of `__int_str` that writes the number. -/
def number (i : Int64) (b : Buffer) (base : Int32) (plusSignIfNeeded spaceSignIfNeeded : Bool) :
    Option Buffer := do
  let digit ← digitTable base
  let (p, i, b) ←
    if i < 0 then (b.write 0 '-'.toUInt8).map fun b => (1, -i, b)
    else if plusSignIfNeeded then (b.write 0 '+'.toUInt8).map fun b => (1, i, b)
    else if spaceSignIfNeeded then (b.write 0 ' '.toUInt8).map fun b => (1, i, b)
    else some (0, i, b)
  let n ← countDigits (divisor base) 64 i
  let b ← b.write (p + n) 0
  writeDigits digit (divisor base) 64 i (p + n) b

/-- How much `__int_str` pads. -/
def paddingOf (paddingNo : Int32) (len : Nat) : Nat :=
  let padding := paddingNo - Int32.ofNat len
  (if padding < 0 then 0 else padding).toNatClampNeg

/-- The character with which `__int_str` pads. -/
def padChar (zeroPad : Bool) : UInt8 :=
  if zeroPad then '0'.toUInt8 else ' '.toUInt8

/-- The part of `__int_str` that pads the number to its width. -/
def padNumber (paddingNo : Int32) (justify zeroPad : Bool) (b : Buffer) : Option Buffer := do
  let len ← strlen b
  let padding := paddingOf paddingNo len
  if justify then fill (padChar zeroPad) padding b
  else
    let a ← fill (padChar zeroPad) padding (List.replicate 256 0)
    let a ← strcat b a
    strcpy a b

/-- `__int_str`. -/
def intStr (i : Int64) (b : Buffer) (base : Int32) (plusSignIfNeeded spaceSignIfNeeded : Bool)
    (paddingNo : Int32) (justify zeroPad : Bool) : Option Buffer := do
  let b ← number i b base plusSignIfNeeded spaceSignIfNeeded
  padNumber paddingNo justify zeroPad b

/-! ## Positional notation -/

/-- The digits of a number, the most significant one first. -/
def numeral (base n : Nat) : List Nat :=
  if n = 0 then [0] else (Nat.digits base n).reverse

theorem numeral_eq {base : Nat} (hbase : 2 ≤ base) (n : Nat) :
    numeral base n = (if n / base = 0 then [] else numeral base (n / base)) ++ [n % base] := by
  by_cases hn : n = 0
  · subst hn
    rw [numeral, if_pos rfl, Nat.zero_div, if_pos rfl, Nat.zero_mod, List.nil_append]
  · rw [numeral, if_neg hn, Nat.digits_def' hbase (Nat.pos_of_ne_zero hn), List.reverse_cons]
    congr 1
    by_cases hq : n / base = 0
    · rw [hq, if_pos rfl, Nat.digits_zero, List.reverse_nil]
    · rw [if_neg hq, numeral, if_neg hq]

theorem numeral_lt {base : Nat} (hbase : 2 ≤ base) (n : Nat) : ∀ d ∈ numeral base n, d < base := by
  intro d hd
  unfold numeral at hd
  split at hd
  · rw [List.mem_singleton] at hd
    omega
  · exact Nat.digits_lt_base hbase (List.mem_reverse.mp hd)

/-- A number below `base ^ k` has at most `k` digits. -/
theorem length_numeral_le {base n k : Nat} (hbase : 2 ≤ base) (hk : 0 < k) (h : n < base ^ k) :
    (numeral base n).length ≤ k := by
  unfold numeral
  split
  · exact hk
  · rw [List.length_reverse]
    exact (Nat.digits_length_le_iff hbase n).mpr h

/-! ## What is written -/

/-- The bases that the conversions ask for. -/
def IsBase (base : Int32) : Prop := base = 8 ∨ base = 10 ∨ base = 16 ∨ base = 17

/-- The base of the notation: 17 stands for 16 with small letters. -/
def radix (base : Int32) : Nat := if base = 17 then 16 else base.toInt.toNat

/-- The character of a digit. -/
def digitChar (base : Int32) (d : Nat) : UInt8 :=
  UInt8.ofNat (if d < 10 then 48 + d else if base = 17 then 87 + d else 55 + d)

/-- The sign that `__int_str` writes. -/
def signText (i : Int64) (plusSignIfNeeded spaceSignIfNeeded : Bool) : List UInt8 :=
  if i < 0 then ['-'.toUInt8]
  else if plusSignIfNeeded then ['+'.toUInt8]
  else if spaceSignIfNeeded then [' '.toUInt8]
  else []

/-- The number without padding. -/
def numberText (i : Int64) (base : Int32) (plusSignIfNeeded spaceSignIfNeeded : Bool) :
    List UInt8 :=
  signText i plusSignIfNeeded spaceSignIfNeeded ++
    (numeral (radix base) i.toInt.natAbs).map (digitChar base)

section Number

variable {base : Int32} {i : Int64} {n r : Nat}

theorem IsBase.two_le_radix (h : IsBase base) : 2 ≤ radix base := by
  rcases h with rfl | rfl | rfl | rfl <;> decide

theorem IsBase.toInt_divisor (h : IsBase base) : (divisor base).toInt = radix base := by
  rcases h with rfl | rfl | rfl | rfl <;> decide

/-- The table has the characters of all digits of the base. -/
theorem IsBase.digitTable_eq (h : IsBase base) :
    ∃ digit, digitTable base = some digit ∧ ∀ d, d < radix base →
      digit[d]? = some (digitChar base d) := by
  rcases h with rfl | rfl | rfl | rfl
  · exact ⟨_, rfl, by decide⟩
  · exact ⟨_, rfl, by decide⟩
  · exact ⟨_, rfl, by decide⟩
  · exact ⟨_, rfl, by decide⟩

theorem IsBase.digitChar_ne_zero (h : IsBase base) {d : Nat} (hd : d < radix base) :
    digitChar base d ≠ 0 := by
  rcases h with rfl | rfl | rfl | rfl <;> revert d <;> decide

/-- Division of numbers that are not negative. -/
theorem toInt_div_nat {b : Int64} (hi : i.toInt = n) (hb : b.toInt = r) :
    (i / b).toInt = ((n / r : Nat) : Int) := by
  have hne : b ≠ -1 := by
    rintro rfl
    have : (-1 : Int64).toInt = -1 := by decide
    omega
  rw [Int64.toInt_div_of_ne_right i b hne, hi, hb, Int.ofNat_tdiv]

theorem toInt_mod_nat {b : Int64} (hi : i.toInt = n) (hb : b.toInt = r) :
    (i % b).toInt = ((n % r : Nat) : Int) := by
  rw [Int64.toInt_mod, hi, hb, Int.ofNat_tmod]

/-- The test of both loops. -/
theorem eq_zero_iff_of_toInt (hi : i.toInt = n) : i = 0 ↔ n = 0 := by
  rw [← Int64.toInt_inj, hi]
  exact Int.natCast_eq_zero

/-- The place of the table for a number that is not negative. -/
theorem digitAt_of_toInt {digit : Buffer} (hi : i.toInt = n) : digitAt digit i = digit[n]? := by
  have hneg : ¬ i < 0 := by
    rw [Int64.lt_iff_toInt_lt, hi, Int64.toInt_zero]
    omega
  rw [digitAt, if_neg hneg, Int64.toNatClampNeg, hi, Int.toNat_natCast]

theorem countDigits_eq {b : Int64} (hr : 2 ≤ r) (hb : b.toInt = r) {fuel : Nat}
    (hi : i.toInt = n) (hfuel : (numeral r n).length ≤ fuel) :
    countDigits b fuel i = some (numeral r n).length := by
  induction fuel generalizing i n with
  | zero =>
    rw [numeral_eq hr, List.length_append] at hfuel
    exact absurd hfuel (by simp)
  | succ fuel ih =>
    have hq := toInt_div_nat hi hb
    have hlen := congrArg List.length (numeral_eq hr n)
    rw [List.length_append, List.length_singleton] at hlen
    rw [countDigits]
    by_cases hzero : n / r = 0
    · rw [if_pos ((eq_zero_iff_of_toInt hq).mpr hzero), hlen, if_pos hzero]
      rfl
    · rw [if_neg hzero] at hlen
      rw [if_neg fun h => hzero ((eq_zero_iff_of_toInt hq).mp h), ih hq (by omega), hlen]
      rfl

/-- The second loop stores the digits in the place that the first one has counted
out. -/
theorem writeDigits_eq {b : Int64} {digit : Buffer} {char : Nat → UInt8} (hr : 2 ≤ r)
    (hb : b.toInt = r) (hdigit : ∀ d, d < r → digit[d]? = some (char d)) {fuel : Nat}
    (hi : i.toInt = n) (hfuel : (numeral r n).length ≤ fuel) (front : List UInt8)
    {room : List UInt8} (hroom : room.length = (numeral r n).length) (rest : List UInt8) :
    writeDigits digit b fuel i (front.length + room.length) (front ++ room ++ rest) =
      some (front ++ (numeral r n).map char ++ rest) := by
  induction fuel generalizing i n room rest with
  | zero =>
    rw [numeral_eq hr, List.length_append] at hfuel
    exact absurd hfuel (by simp)
  | succ fuel ih =>
    have hq := toInt_div_nat hi hb
    have hlen := congrArg List.length (numeral_eq hr n)
    rw [List.length_append, List.length_singleton] at hlen
    -- the room ends with the place of the last digit
    have hne : room ≠ [] := by
      rintro rfl
      rw [List.length_nil] at hroom
      omega
    obtain ⟨room, x, rfl⟩ : ∃ l x, room = l ++ [x] :=
      ⟨room.dropLast, room.getLast hne, (List.dropLast_append_getLast hne).symm⟩
    rw [List.length_append, List.length_singleton] at hroom
    have hlast : digitAt digit (i % b) = some (char (n % r)) := by
      rw [digitAt_of_toInt (toInt_mod_nat hi hb)]
      exact hdigit _ (Nat.mod_lt _ (by omega))
    have hwrite : Buffer.write (front ++ (room ++ [x]) ++ rest) (front.length + room.length)
        (char (n % r)) = some (front ++ room ++ char (n % r) :: rest) := by
      rw [← List.append_assoc front, List.append_assoc, List.singleton_append,
        ← List.length_append, write_append]
    rw [List.length_append, List.length_singleton, ← Nat.add_assoc, writeDigits, hlast,
      Option.bind_eq_bind, Option.bind_some, hwrite, Option.bind_eq_bind, Option.bind_some]
    by_cases hzero : n / r = 0
    · rw [if_pos hzero, List.length_nil] at hlen
      have hnil : room = [] := List.eq_nil_of_length_eq_zero (by omega)
      rw [if_pos ((eq_zero_iff_of_toInt hq).mpr hzero), numeral_eq hr, if_pos hzero, hnil]
      simp
    · rw [if_neg hzero] at hlen
      rw [if_neg fun h => hzero ((eq_zero_iff_of_toInt hq).mp h), ih hq (by omega) (by omega)]
      conv_rhs => rw [numeral_eq hr, if_neg hzero]
      simp

/-- Every character of the number is one of a text. -/
theorem zero_notMem_numberText (hbase : IsBase base) (i : Int64) (plus space : Bool) :
    0 ∉ numberText i base plus space := by
  rw [numberText, List.mem_append, not_or]
  constructor
  · unfold signText
    repeat' split
    all_goals decide
  · rw [List.mem_map]
    rintro ⟨d, hd, hzero⟩
    exact hbase.digitChar_ne_zero (numeral_lt hbase.two_le_radix _ d hd) hzero

theorem natAbs_lt (hi : i ≠ Int64.minValue) : i.toInt.natAbs < 2 ^ 63 := by
  have hlo := Int64.le_toInt i
  have hhi := Int64.toInt_lt i
  have hne : i.toInt ≠ -2 ^ 63 := by
    intro heq
    exact hi (Int64.toInt_inj.mp heq)
  omega

/-- A number has at most 22 characters. -/
theorem length_numberText_le (hbase : IsBase base) (hi : i ≠ Int64.minValue) (plus space : Bool) :
    (numberText i base plus space).length ≤ 22 := by
  have hsign : (signText i plus space).length ≤ 1 := by
    unfold signText
    repeat' split
    all_goals decide
  have hdigits : (numeral (radix base) i.toInt.natAbs).length ≤ 21 := by
    refine length_numeral_le hbase.two_le_radix (by decide) ?_
    have hlt := natAbs_lt hi
    have hpow : 8 ^ 21 ≤ radix base ^ 21 := by
      refine Nat.pow_le_pow_left ?_ 21
      rcases hbase with rfl | rfl | rfl | rfl <;> decide
    omega
  rw [numberText, List.length_append, List.length_map]
  omega

/-- The digits of a magnitude, behind the sign. -/
theorem digits_eq {digit : Buffer} (hbase : IsBase base)
    (hdigit : ∀ d, d < radix base → digit[d]? = some (digitChar base d)) (hi : i.toInt = n)
    {sign : List UInt8} (hlen : sign.length + (numeral (radix base) n).length ≤ 22) :
    (do
      let k ← countDigits (divisor base) 64 i
      let b ← (holding 256 sign).write (sign.length + k) 0
      writeDigits digit (divisor base) 64 i (sign.length + k) b) =
      some (holding 256 (sign ++ (numeral (radix base) n).map (digitChar base))) := by
  have hr := hbase.two_le_radix
  have hb := hbase.toInt_divisor
  let k := (numeral (radix base) n).length
  have hsplit : holding 256 sign =
      sign ++ List.replicate k 0 ++ List.replicate (256 - sign.length - k) 0 := by
    rw [holding, List.append_assoc, List.replicate_append_replicate]
    congr 2
    omega
  have hzero : Buffer.write (sign ++ List.replicate k 0 ++ List.replicate (256 - sign.length - k) 0)
      (sign.length + k) 0 =
        some (sign ++ List.replicate k 0 ++ List.replicate (256 - sign.length - k) 0) := by
    have hlong : sign.length + k < (holding 256 sign).length := by
      rw [length_holding (by omega)]
      omega
    rw [← hsplit, Buffer.write, if_pos hlong, holding,
      List.set_append_right _ _ (Nat.le_add_right _ _), List.set_replicate_self]
  rw [countDigits_eq hr hb hi (by omega), Option.bind_eq_bind, Option.bind_some, hsplit, hzero,
    Option.bind_eq_bind, Option.bind_some]
  have hfuel : (numeral (radix base) n).length ≤ 64 := by omega
  have hroom : (List.replicate k (0 : UInt8)).length = (numeral (radix base) n).length :=
    List.length_replicate
  have hwrite := writeDigits_eq hr hb hdigit hi hfuel sign hroom
    (List.replicate (256 - sign.length - k) 0)
  rw [List.length_replicate] at hwrite
  rw [hwrite, holding, List.length_append, List.length_map]
  congr 3
  omega

/-- The sign is written, and what comes after it has to write a number that is not
negative. -/
theorem sign_eq (hi : i ≠ Int64.minValue) (plus space : Bool) :
    ∃ m : Int64, m.toInt = (i.toInt.natAbs : Int) ∧
      ∀ next : Nat × Int64 × Buffer → Option Buffer,
        (if i < 0 then (((holding 256 []).write 0 '-'.toUInt8).map fun b => (1, -i, b)).bind next
          else if plus then
            (((holding 256 []).write 0 '+'.toUInt8).map fun b => (1, i, b)).bind next
          else if space then
            (((holding 256 []).write 0 ' '.toUInt8).map fun b => (1, i, b)).bind next
          else (some (0, i, holding 256 [])).bind next) =
        next ((signText i plus space).length, m, holding 256 (signText i plus space)) := by
  have hwrite : ∀ c, (holding 256 []).write 0 c = some (holding 256 [c]) :=
    fun c => write_holding (t := []) (by decide)
  unfold signText
  by_cases hneg : i < 0
  · refine ⟨-i, ?_, fun next => ?_⟩
    · have hlt := natAbs_lt hi
      rw [Int64.lt_iff_toInt_lt, Int64.toInt_zero] at hneg
      rw [Int64.toInt_neg, Int.bmod_eq_of_le (by omega) (by omega)]
      omega
    · rw [if_pos hneg, if_pos hneg, hwrite]
      rfl
  · refine ⟨i, ?_, fun next => ?_⟩
    · rw [Int64.lt_iff_toInt_lt, Int64.toInt_zero] at hneg
      omega
    · rw [if_neg hneg, if_neg hneg, hwrite, hwrite]
      cases plus <;> cases space <;> rfl

/-- The number is written whole, unless it is the least one. -/
theorem number_eq (hbase : IsBase base) (hi : i ≠ Int64.minValue) (plus space : Bool) :
    number i (holding 256 []) base plus space =
      some (holding 256 (numberText i base plus space)) := by
  obtain ⟨digit, htable, hdigit⟩ := hbase.digitTable_eq
  obtain ⟨m, hm, hsign⟩ := sign_eq hi plus space
  have hlen := length_numberText_le hbase hi plus space
  rw [numberText, List.length_append, List.length_map] at hlen
  rw [number, htable, Option.bind_eq_bind, Option.bind_some, numberText]
  exact (hsign _).trans (digits_eq hbase hdigit hm hlen)

/-- The least number cannot be negated, and its first negative remainder is no place
of the table. -/
theorem number_minValue (hbase : IsBase base) (plus space : Bool) :
    number Int64.minValue (holding 256 []) base plus space = none := by
  rcases hbase with rfl | rfl | rfl | rfl <;> revert plus space <;> decide +kernel

/-! ## Padding -/

/-- A number in its field. -/
def fieldText (t : List UInt8) (paddingNo : Int32) (justify zeroPad : Bool) : List UInt8 :=
  if justify then t ++ List.replicate (paddingOf paddingNo t.length) (padChar zeroPad)
  else List.replicate (paddingOf paddingNo t.length) (padChar zeroPad) ++ t

theorem padChar_ne_zero (zeroPad : Bool) : padChar zeroPad ≠ 0 := by
  cases zeroPad <;> decide

theorem zero_notMem_pad (k : Nat) (zeroPad : Bool) :
    0 ∉ List.replicate k (padChar zeroPad) :=
  fun hmem => padChar_ne_zero zeroPad (List.mem_replicate.mp hmem).2.symm

theorem length_fieldText (t : List UInt8) (paddingNo : Int32) (justify zeroPad : Bool) :
    (fieldText t paddingNo justify zeroPad).length =
      t.length + paddingOf paddingNo t.length := by
  unfold fieldText
  split
  · rw [List.length_append, List.length_replicate]
  · rw [List.length_append, List.length_replicate, Nat.add_comm]

theorem zero_notMem_fieldText {t : List UInt8} (ht : 0 ∉ t) (paddingNo : Int32)
    (justify zeroPad : Bool) : 0 ∉ fieldText t paddingNo justify zeroPad := by
  unfold fieldText
  split
  · rw [List.mem_append, not_or]
    exact ⟨ht, zero_notMem_pad _ zeroPad⟩
  · rw [List.mem_append, not_or]
    exact ⟨zero_notMem_pad _ zeroPad, ht⟩

/-- The field is written when it fits both arrays.  On the left of its field, the
number may fill the array of the caller, and then has no end. -/
theorem padNumber_eq {t : List UInt8} (ht : 0 ∉ t) (hlen : t.length < 256) (paddingNo : Int32)
    (justify zeroPad : Bool) :
    padNumber paddingNo justify zeroPad (holding 256 t) =
      if t.length + paddingOf paddingNo t.length < (if justify then 257 else 256) then
        some (holding 256 (fieldText t paddingNo justify zeroPad))
      else none := by
  have hc := padChar_ne_zero zeroPad
  rw [padNumber, strlen_holding ht hlen.le, if_pos hlen, Option.bind_eq_bind, Option.bind_some]
  cases justify with
  | true =>
    rw [if_pos rfl, if_pos rfl, fill_holding ht hc hlen.le]
    by_cases hle : t.length + paddingOf paddingNo t.length ≤ 256
    · rw [if_pos hle, if_pos (Nat.lt_succ_of_le hle), fieldText, if_pos rfl]
    · rw [if_neg hle, if_neg (fun h => hle (Nat.le_of_lt_succ h))]
  | false =>
    have hempty : List.replicate 256 (0 : UInt8) = holding 256 [] := rfl
    rw [if_neg Bool.false_ne_true, if_neg Bool.false_ne_true, hempty,
      fill_holding (List.not_mem_nil) hc (Nat.zero_le _), List.length_nil, Nat.zero_add,
      List.nil_append]
    by_cases hle : paddingOf paddingNo t.length ≤ 256
    · have hfield : List.replicate (paddingOf paddingNo t.length) (padChar zeroPad) ++ t =
          fieldText t paddingNo false zeroPad := rfl
      have hpad := zero_notMem_pad (paddingOf paddingNo t.length) zeroPad
      rw [if_pos hle, Option.bind_eq_bind, Option.bind_some,
        strcat_holding hpad ht hlen (by rw [List.length_replicate]; exact hle),
        List.length_replicate, Nat.add_comm, hfield]
      by_cases hlt : t.length + paddingOf paddingNo t.length < 256
      · rw [if_pos hlt, Option.bind_some]
        have hlong := length_fieldText t paddingNo false zeroPad
        exact strcpy_holding (zero_notMem_fieldText ht paddingNo false zeroPad) (by omega)
          (by omega) (by omega)
      · rw [if_neg hlt]
        rfl
    · rw [if_neg hle, if_neg (by omega)]
      rfl

theorem paddingOf_eq (paddingNo : Int32) (len : Nat) :
    paddingOf paddingNo len = (paddingNo - Int32.ofNat len).toInt.toNat := by
  rw [paddingOf]
  by_cases hneg : paddingNo - Int32.ofNat len < 0
  · rw [if_pos hneg]
    rw [Int32.lt_iff_toInt_lt, Int32.toInt_zero] at hneg
    exact (Int.toNat_eq_zero.mpr hneg.le).symm
  · rw [if_neg hneg]
    rfl

/-- The width of a field that fits: at most 255, and not so far below zero that the
subtraction of the length wraps. -/
theorem paddingOf_fits_iff {len : Nat} (hlen : len ≤ 22) (paddingNo : Int32) :
    len + paddingOf paddingNo len < 256 ↔
      -2 ^ 31 + (len : Int) ≤ paddingNo.toInt ∧ paddingNo.toInt ≤ 255 := by
  have hlo := Int32.le_toInt paddingNo
  have hhi := Int32.toInt_lt paddingNo
  have hlen32 : (Int32.ofNat len).toInt = len := Int32.toInt_ofNat_of_lt (by omega)
  have hsub := Int32.toInt_sub paddingNo (Int32.ofNat len)
  rw [hlen32] at hsub
  rw [paddingOf_eq]
  by_cases hwrap : -2 ^ 31 + (len : Int) ≤ paddingNo.toInt
  · rw [Int.bmod_eq_of_le (by omega) (by omega)] at hsub
    omega
  · rw [← Int.add_bmod_right, Int.bmod_eq_of_le (by omega) (by omega)] at hsub
    omega

/-- What `__int_str` leaves in a buffer of zeros, as a string. -/
theorem textOf_intStr (hbase : IsBase base) (i : Int64) (plus space : Bool) (paddingNo : Int32)
    (justify zeroPad : Bool) :
    (intStr i (holding 256 []) base plus space paddingNo justify zeroPad).bind textOf =
      if i ≠ Int64.minValue ∧ (numberText i base plus space).length +
          paddingOf paddingNo (numberText i base plus space).length < 256 then
        some (fieldText (numberText i base plus space) paddingNo justify zeroPad)
      else none := by
  by_cases hi : i = Int64.minValue
  · rw [hi, if_neg (fun h => h.1 rfl), intStr, number_minValue hbase]
    rfl
  · have ht := zero_notMem_numberText hbase i plus space
    have hlen := length_numberText_le hbase hi plus space
    have hfield := zero_notMem_fieldText ht paddingNo justify zeroPad
    have hlong := length_fieldText (numberText i base plus space) paddingNo justify zeroPad
    rw [intStr, number_eq hbase hi, Option.bind_eq_bind, Option.bind_some,
      padNumber_eq ht (by omega)]
    by_cases hfits : (numberText i base plus space).length +
        paddingOf paddingNo (numberText i base plus space).length < 256
    · have hroom : (256 : Nat) ≤ if justify then 257 else 256 := by
        cases justify <;> decide
      rw [if_pos (Nat.lt_of_lt_of_le hfits hroom), if_pos ⟨hi, hfits⟩, Option.bind_some,
        textOf_holding hfield (by omega), if_pos (by omega)]
    · rw [if_neg (fun h : i ≠ Int64.minValue ∧ _ => hfits h.2)]
      by_cases hfull : (numberText i base plus space).length +
          paddingOf paddingNo (numberText i base plus space).length <
            if justify then 257 else 256
      · have hroom : (if justify then 257 else 256) ≤ 257 := by
          cases justify <;> decide
        rw [if_pos hfull, Option.bind_some, textOf_holding hfield (by omega), if_neg (by omega)]
      · rw [if_neg hfull]
        rfl

end Number

end Printf

end BbnOS
