import BbnOS.Printf.Numbers

/-!
# The number printers of the legacy console

`fb_print_hex` and `fb_print_dec` of `lib/legacy/fb.c`, which the exception screen uses.
A printer gives its characters to `fb_print` one at a time.  The warning that it is
deprecated goes to `printf`, which prints at a cursor of its own and is no part of the
number.

`hexText_eq` and `decText_eq` say what the two show.  The decimal printer reduces numbers
from ten million on, although its stack has room for all digits of an `int`:
`printsNumber_iff` says which numbers come out.
-/

namespace BbnOS

namespace Legacy

namespace NumberPrinters

open Printf

/-! ## The code -/

/-- What the printers call: `printf`, and `fb_print` or `print`. -/
inductive Call where
  | printf (text : String)
  | print (text : List UInt8)
  deriving DecidableEq

/-- `a[0]` for a digit of the loop.  Any other value would print what `a` held before. -/
def nibbleChar (rst : UInt8) : Option UInt8 :=
  if rst < 10 then some (rst + '0'.toUInt8)
  else if rst ≥ 10 ∧ rst ≤ 15 then some (rst - 10 + 'A'.toUInt8)
  else none

/-- `a[0]` for the last digit. -/
def lastChar (rst : UInt8) : UInt8 :=
  if rst ≥ 10 then rst + 'a'.toUInt8 - 0xA else rst + '0'.toUInt8

/-- The loop of `fb_print_hex`, whose variable `i` is four times the number of rounds left. -/
def hexLoop (tmp : UInt32) : Nat → Bool → Option (List Call)
  | 0, _ => some []
  | k + 1, flag => do
    let rst := ((tmp >>> UInt32.ofNat (4 * (k + 1))) &&& 0xF).toUInt8
    if rst = 0 ∧ flag then hexLoop tmp k flag
    else
      let c ← nibbleChar rst
      let rest ← hexLoop tmp k false
      some (.print [c] :: rest)

/-- `fb_print_hex`. -/
def fbPrintHex (num : UInt32) : Option (List Call) := do
  let rounds ← hexLoop num 7 true
  let rst := (num &&& 0xF).toUInt8
  some ([.printf "WARNING: fb_print_hex() is deprecated.\n", .print ['0'.toUInt8, 'x'.toUInt8]] ++
    rounds ++ [.print [lastChar rst]])

/-- The loop that fills `stack`, of which `room` elements are free.  The last element
pushed is the head, and the loop fails when it leaves the array. -/
def pushDigits : Nat → Int32 → List Int8 → Option (List Int8)
  | room, num, stack =>
    if num = 0 then some stack
    else
      match room with
      | 0 => none
      | room + 1 => pushDigits room (num / 10) ((num % 10).toInt8 :: stack)

/-- `fb_print_dec`.  The negation of the least number is that number again. -/
def fbPrintDec (num : Int32) : Option (List Call) := do
  let warning := Call.printf "WARNING: fb_print_dec() is deprecated.\n"
  let num := if num ≥ 10000000 then num % 10000000 else num
  let sign := if num < 0 then [Call.print ['-'.toUInt8]] else []
  let num := if num < 0 then -num else num
  if num = 0 then some (warning :: sign ++ [.print ['0'.toUInt8]])
  else
    let stack ← pushDigits 10 num []
    some (warning :: sign ++ stack.map fun d => .print [d.toUInt8 + '0'.toUInt8])

/-! ## The numbers shown -/

def Call.text : Call → List UInt8
  | .printf _ => []
  | .print t => t

/-- The characters that go to `fb_print`. -/
def shown (calls : List Call) : List UInt8 := calls.flatMap Call.text

/-- The decimal representation: a minus sign for a negative number, and the digits without
leading zeros. -/
def decimal (num : Int32) : List UInt8 := numberText num.toInt64 10 false false

/-- Hexadecimal digits, large or small, that denote `n` and do not start with a zero if
there are more than one. -/
structure IsHex (t : List UInt8) (n : Nat) : Prop where
  reads : readNat 16 t = some n
  noLeadingZero : t.head? = some '0'.toUInt8 → t.length = 1

/-- Both printers end, within their arrays, and show the number. -/
structure PrintsNumber (num : Int32) : Prop where
  dec : ∃ calls, fbPrintDec num = some calls ∧ shown calls = decimal num
  hex : ∃ calls t, fbPrintHex num.toUInt32 = some calls ∧
    shown calls = '0'.toUInt8 :: 'x'.toUInt8 :: t ∧ IsHex t num.toUInt32.toNat

/-! ## Hexadecimal -/

/-- The digits of `n / 16`, the `k` low ones, with leading zeros. -/
def nibbles (n : Nat) : Nat → List Nat
  | 0 => []
  | k + 1 => n / 16 ^ (k + 1) % 16 :: nibbles n k

theorem length_nibbles (n k : Nat) : (nibbles n k).length = k := by
  induction k with
  | zero => rfl
  | succ k ih => rw [nibbles, List.length_cons, ih]

theorem nibbles_lt (n k : Nat) : ∀ d ∈ nibbles n k, d < 16 := by
  induction k with
  | zero => exact fun d hd => absurd hd List.not_mem_nil
  | succ k ih =>
    intro d hd
    rcases List.mem_cons.mp hd with rfl | hd
    · exact Nat.mod_lt _ (by decide)
    · exact ih d hd

theorem ofDigits_nibbles (n k : Nat) :
    Nat.ofDigits 16 (nibbles n k).reverse = n / 16 % 16 ^ k := by
  induction k with
  | zero => rw [nibbles, List.reverse_nil, Nat.ofDigits_nil, Nat.pow_zero, Nat.mod_one]
  | succ k ih =>
    rw [nibbles, List.reverse_cons, Nat.ofDigits_append, List.length_reverse, length_nibbles, ih,
      Nat.ofDigits_singleton, Nat.mod_pow_succ, Nat.div_div_eq_div_mul, Nat.pow_succ']

/-- Leading zeros do not count. -/
theorem ofDigits_dropWhile_zero (r : Nat) (l m : List Nat) :
    Nat.ofDigits r (l.dropWhile (· = 0) ++ m).reverse = Nat.ofDigits r (l ++ m).reverse := by
  induction l with
  | nil => rfl
  | cons d l ih =>
    by_cases hd : d = 0
    · rw [List.dropWhile_cons_of_pos (by simpa using hd), ih, List.cons_append, List.reverse_cons,
        Nat.ofDigits_append, hd, Nat.ofDigits_singleton, Nat.mul_zero, Nat.add_zero]
    · rw [List.dropWhile_cons_of_neg (by simpa using hd)]

/-- The digits that `fb_print_hex` shows: the last one always. -/
def hexDigits (n : Nat) : List Nat :=
  (nibbles n 7).dropWhile (· = 0) ++ [n % 16]

theorem ofDigits_hexDigits {n : Nat} (hn : n < 2 ^ 32) :
    Nat.ofDigits 16 (hexDigits n).reverse = n := by
  rw [hexDigits, ofDigits_dropWhile_zero, List.reverse_append, Nat.ofDigits_append,
    List.reverse_singleton, Nat.ofDigits_singleton, ofDigits_nibbles]
  norm_num
  omega

theorem nibble_eq (tmp : UInt32) {k : Nat} (hk : k < 8) :
    ((tmp >>> UInt32.ofNat (4 * k)) &&& 0xF).toUInt8 =
      UInt8.ofNat (tmp.toNat / 16 ^ k % 16) := by
  have hshift : (UInt32.ofNat (4 * k)).toNat % 32 = 4 * k := by
    rw [UInt32.toNat_ofNat']
    omega
  have hmask : tmp.toNat / 16 ^ k &&& 15 = tmp.toNat / 16 ^ k % 16 :=
    Nat.and_two_pow_sub_one_eq_mod _ 4
  rw [← UInt8.toNat_inj, UInt32.toNat_toUInt8, UInt32.toNat_and, UInt32.toNat_shiftRight, hshift,
    Nat.shiftRight_eq_div_pow, Nat.pow_mul, UInt8.toNat_ofNat']
  exact congrArg (· % 2 ^ 8) hmask

theorem nibbleChar_eq {d : Nat} (hd : d < 16) :
    nibbleChar (UInt8.ofNat d) = some (digitChar 16 d) := by
  revert d
  decide

theorem lastChar_eq {d : Nat} (hd : d < 16) : lastChar (UInt8.ofNat d) = digitChar 17 d := by
  revert d
  decide

/-- The loop shows the digits from the first one on that is not zero. -/
theorem hexLoop_eq (tmp : UInt32) {k : Nat} (hk : k < 8) (flag : Bool) :
    hexLoop tmp k flag = some (((if flag then (nibbles tmp.toNat k).dropWhile (· = 0)
      else nibbles tmp.toNat k)).map fun d => .print [digitChar 16 d]) := by
  induction k generalizing flag with
  | zero => cases flag <;> rfl
  | succ k ih =>
    have hd : tmp.toNat / 16 ^ (k + 1) % 16 < 16 := Nat.mod_lt _ (by decide)
    simp only [hexLoop, nibbles, nibble_eq tmp hk, ih (by omega : k < 8)]
    generalize tmp.toNat / 16 ^ (k + 1) % 16 = d at hd ⊢
    have hzero : UInt8.ofNat d = 0 ↔ d = 0 := by
      revert d
      decide
    simp only [hzero, nibbleChar_eq hd]
    by_cases hskip : d = 0 ∧ flag = true
    · obtain ⟨rfl, rfl⟩ := hskip
      simp
    · rw [if_neg hskip]
      cases flag with
      | false => rfl
      | true =>
        have hne : d ≠ 0 := fun he => hskip ⟨he, rfl⟩
        simp [hne]

/-- The characters of a number: large letters, but a small one at the end. -/
def hexText (n : Nat) : List UInt8 :=
  ((nibbles n 7).dropWhile (· = 0)).map (digitChar 16) ++ [digitChar 17 (n % 16)]

theorem shown_printf (text : String) (calls : List Call) :
    shown (.printf text :: calls) = shown calls := rfl

theorem shown_append (c c' : List Call) : shown (c ++ c') = shown c ++ shown c' :=
  List.flatMap_append

theorem shown_map_print (f : Nat → UInt8) (l : List Nat) :
    shown (l.map fun d => .print [f d]) = l.map f := by
  induction l with
  | nil => rfl
  | cons d l ih =>
    rw [List.map_cons, shown, List.flatMap_cons]
    exact congrArg (f d :: ·) ih

/-- `fb_print_hex` ends, and shows its marker and the digits. -/
theorem fbPrintHex_eq (num : UInt32) :
    ∃ calls, fbPrintHex num = some calls ∧
      shown calls = '0'.toUInt8 :: 'x'.toUInt8 :: hexText num.toNat := by
  have hloop := hexLoop_eq num (by decide : 7 < 8) true
  have hlast : (num &&& 0xF).toUInt8 = UInt8.ofNat (num.toNat % 16) := by
    have h := nibble_eq num (by decide : 0 < 8)
    rwa [show num >>> UInt32.ofNat (4 * 0) = num from UInt32.shiftRight_zero, Nat.pow_zero,
      Nat.div_one] at h
  rw [if_pos rfl] at hloop
  simp only [fbPrintHex, hloop, hlast, lastChar_eq (Nat.mod_lt num.toNat (by decide : 0 < 16))]
  refine ⟨_, rfl, ?_⟩
  rw [shown_append, shown_append, shown_map_print]
  rfl

theorem mem_dropWhile_nibbles {n k d : Nat} (h : d ∈ (nibbles n k).dropWhile (· = 0)) : d < 16 :=
  nibbles_lt n k d ((List.dropWhile_sublist _).mem h)

theorem digitChar_ne_zero {d : Nat} (hd : d < 16) (hne : d ≠ 0) :
    digitChar 16 d ≠ '0'.toUInt8 := by
  revert d
  decide

/-- The digits of `fb_print_hex` read back, and only a single one may be zero. -/
theorem isHex_hexText {n : Nat} (hn : n < 2 ^ 32) : IsHex (hexText n) n := by
  have hlast : n % 16 < 16 := Nat.mod_lt _ (by decide)
  have hlarge : IsBase 16 := .inr (.inr (.inl rfl))
  have hsmall : IsBase 17 := .inr (.inr (.inr rfl))
  constructor
  case reads =>
    have hfirst := mapM_map_some (f := digitChar 16) (g := digitOf 16)
      fun d (hd : d ∈ (nibbles n 7).dropWhile (· = 0)) =>
        hlarge.digitOf_digitChar (mem_dropWhile_nibbles hd)
    have hdigit : digitOf 16 (digitChar 17 (n % 16)) = some (n % 16) :=
      hsmall.digitOf_digitChar hlast
    have hdigits : (hexText n).mapM (digitOf 16) = some (hexDigits n) := by
      rw [hexText, List.mapM_append, hfirst, List.mapM_cons, hdigit]
      rfl
    rw [readNat, if_neg (by simp [hexText]), hdigits, Option.map_some, ofDigits_hexDigits hn]
  case noLeadingZero =>
    intro hhead
    have hfirst := List.head?_dropWhile_not (fun d : Nat => d = 0) (nibbles n 7)
    rw [hexText] at hhead ⊢
    cases hdrop : (nibbles n 7).dropWhile (· = 0) with
    | nil => rfl
    | cons d l =>
      have hd : d < 16 := mem_dropWhile_nibbles (hdrop ▸ List.mem_cons_self)
      rw [hdrop] at hfirst hhead
      have hne : d ≠ 0 := by simpa using hfirst
      have hchar : digitChar 16 d = '0'.toUInt8 := by simpa using hhead
      exact absurd hchar (digitChar_ne_zero hd hne)

/-! ## Decimal -/

theorem toInt8_digit {d : Nat} (hd : d < 10) : (Int32.ofNat d).toInt8 = Int8.ofNat d := by
  revert d
  decide

theorem stackChar_eq {d : Nat} (hd : d < 10) :
    (Int8.ofNat d).toUInt8 + '0'.toUInt8 = digitChar 10 d := by
  revert d
  decide

section Decimal

variable {n : Nat} {num : Int32}

theorem eq_zero_iff (hnum : num.toInt = n) : num = 0 ↔ n = 0 := by
  rw [← Int32.toInt_inj, hnum]
  exact Int.natCast_eq_zero

/-- The digits go to the stack, the most significant one last. -/
theorem pushDigits_eq {room : Nat} (hnum : num.toInt = n) (hroom : n < 10 ^ room)
    (stack : List Int8) :
    pushDigits room num stack = some ((Nat.digits 10 n).reverse.map Int8.ofNat ++ stack) := by
  induction room generalizing n num stack with
  | zero =>
    have hn : n = 0 := Nat.lt_one_iff.mp hroom
    rw [pushDigits, if_pos ((eq_zero_iff hnum).mpr hn), hn]
    rfl
  | succ room ih =>
    rw [pushDigits]
    by_cases hn : n = 0
    · rw [if_pos ((eq_zero_iff hnum).mpr hn), hn]
      rfl
    · have hdiv : (num / 10).toInt = ((n / 10 : Nat) : Int) := by
        rw [Int32.toInt_div_of_ne_right num 10 (by decide), hnum]
        rfl
      have hlt : n % 10 < 10 := Nat.mod_lt _ (by decide)
      have hmod : num % 10 = Int32.ofNat (n % 10) := by
        rw [← Int32.toInt_inj, Int32.toInt_mod, hnum, Int32.toInt_ofNat_of_lt (by omega)]
        rfl
      have hroom' : n / 10 < 10 ^ room := by
        rw [Nat.pow_succ] at hroom
        exact Nat.div_lt_of_lt_mul (Nat.mul_comm 10 _ ▸ hroom)
      rw [if_neg fun h => hn ((eq_zero_iff hnum).mp h)]
      simp only [ih hdiv hroom', hmod, toInt8_digit hlt]
      rw [Nat.digits_def' (by decide) (Nat.pos_of_ne_zero hn), List.reverse_cons, List.map_append,
        List.append_assoc]
      rfl

theorem shown_stack (hn : n ≠ 0) :
    shown (((Nat.digits 10 n).reverse.map Int8.ofNat).map fun d =>
      .print [d.toUInt8 + '0'.toUInt8]) = (numeral 10 n).map (digitChar 10) := by
  rw [numeral, if_neg hn, List.map_map]
  have h := shown_map_print (fun d => (Int8.ofNat d).toUInt8 + '0'.toUInt8)
    (Nat.digits 10 n).reverse
  refine h.trans (List.map_congr_left fun d hd => ?_)
  exact stackChar_eq (Nat.digits_lt_base (by decide) (List.mem_reverse.mp hd))

end Decimal

theorem decimal_eq (num : Int32) :
    decimal num = (if num < 0 then ['-'.toUInt8] else []) ++
      (numeral 10 num.toInt.natAbs).map (digitChar 10) := by
  have hneg : num.toInt64 < 0 ↔ num < 0 := by
    rw [Int64.lt_iff_toInt_lt, Int32.toInt_toInt64, Int32.lt_iff_toInt_lt]
    rfl
  simp only [decimal, numberText, signText, hneg, Bool.false_eq_true, if_false,
    Int32.toInt_toInt64]
  rfl

/-- The number that `fb_print_dec` shows. -/
def reduced (num : Int32) : Int32 := if num ≥ 10000000 then num % 10000000 else num

theorem toInt_magnitude32 {num : Int32} (hmin : num ≠ Int32.minValue) :
    (if num < 0 then -num else num).toInt = (num.toInt.natAbs : Int) := by
  have hmin' : num.toInt ≠ -2 ^ 31 := fun he => hmin (Int32.toInt_inj.mp he)
  have hle := num.le_toInt
  have hlt := num.toInt_lt
  split <;> rename_i hneg <;> rw [Int32.lt_iff_toInt_lt, Int32.toInt_zero] at hneg
  · rw [Int32.toInt_neg, Int.bmod_eq_of_le (by omega) (by omega)]
    omega
  · omega

theorem fbPrintDec_eq {num : Int32} (hmin : reduced num ≠ Int32.minValue) :
    ∃ calls, fbPrintDec num = some calls ∧ shown calls = decimal (reduced num) := by
  have hm := toInt_magnitude32 hmin
  have hlt : (reduced num).toInt.natAbs < 10 ^ 10 := by
    have hle := (reduced num).le_toInt
    have hlt := (reduced num).toInt_lt
    omega
  have hsign : shown (if reduced num < 0 then [Call.print ['-'.toUInt8]] else []) =
      if reduced num < 0 then ['-'.toUInt8] else [] := by
    split <;> rfl
  rw [decimal_eq]
  simp only [fbPrintDec]
  rw [← reduced]
  by_cases hzero : (if reduced num < 0 then -reduced num else reduced num) = 0
  · have hn := (eq_zero_iff hm).mp hzero
    rw [if_pos hzero, hn]
    refine ⟨_, rfl, ?_⟩
    rw [List.cons_append, shown_printf, shown_append, hsign]
    rfl
  · have hn : (reduced num).toInt.natAbs ≠ 0 := fun h => hzero ((eq_zero_iff hm).mpr h)
    rw [if_neg hzero, pushDigits_eq hm hlt, List.append_nil]
    refine ⟨_, rfl, ?_⟩
    rw [List.cons_append, shown_printf, shown_append, hsign, shown_stack hn]

/-! ## Which numbers come out -/

/-- The calls for the least number, whose remainders are negative. -/
theorem fbPrintDec_minValue :
    fbPrintDec Int32.minValue = some
      (.printf "WARNING: fb_print_dec() is deprecated.\n" ::
        (chars ['-', '.', '/', ',', ')', ',', '(', '-', '*', ',', '(']).map
          fun c => .print [c]) := by
  decide +kernel

theorem lt_iff_toInt (num : Int32) : num < 10000000 ↔ num.toInt < 10000000 :=
  Int32.lt_iff_toInt_lt

theorem reduced_of_lt {num : Int32} (h : num < 10000000) : reduced num = num := by
  refine if_neg fun hge => ?_
  exact absurd (Int32.le_iff_toInt_le.mp hge) (not_le.mpr (Int32.lt_iff_toInt_lt.mp h))

/-- A number from ten million on loses its digits beyond the seventh. -/
theorem toInt_reduced {num : Int32} (h : ¬ num < 10000000) :
    (reduced num).toInt = num.toInt % 10000000 := by
  have hge : 10000000 ≤ num.toInt := not_lt.mp fun hlt => h ((lt_iff_toInt num).mpr hlt)
  have hten : (10000000 : Int32).toInt = 10000000 := rfl
  rw [reduced, if_pos (Int32.not_lt.mp h), Int32.toInt_mod, hten,
    Int.tmod_eq_emod_of_nonneg (by omega)]

theorem reduced_ne_minValue {num : Int32} (hmin : num ≠ Int32.minValue) :
    reduced num ≠ Int32.minValue := by
  by_cases h : num < 10000000
  · rwa [reduced_of_lt h]
  · intro he
    have hneg : (reduced num).toInt = -2 ^ 31 := congrArg Int32.toInt he
    rw [toInt_reduced h] at hneg
    omega

/-- `fb_print_dec` never leaves its stack. -/
theorem fbPrintDec_isSome (num : Int32) : (fbPrintDec num).isSome := by
  by_cases hmin : num = Int32.minValue
  · rw [hmin, fbPrintDec_minValue]
    rfl
  · obtain ⟨calls, hcalls, -⟩ := fbPrintDec_eq (reduced_ne_minValue hmin)
    rw [hcalls]
    rfl

theorem readInt_decimal (num : Int32) : readInt 10 (decimal num) = some num.toInt := by
  have hten : IsBase 10 := .inr (.inl rfl)
  have h := hten.readInt_numberText num.toInt64 false
  rwa [Int32.toInt_toInt64] at h

/-- Both printers show the number exactly when it is below ten million and not the least
one. -/
theorem printsNumber_iff (num : Int32) :
    PrintsNumber num ↔ num < 10000000 ∧ num ≠ Int32.minValue := by
  constructor
  · rintro ⟨⟨calls, hcalls, hshown⟩, -⟩
    have hread := readInt_decimal num
    rw [← hshown] at hread
    have hmin : num ≠ Int32.minValue := by
      rintro rfl
      rw [fbPrintDec_minValue, Option.some.injEq] at hcalls
      subst hcalls
      revert hread
      decide +kernel
    refine ⟨?_, hmin⟩
    by_contra hge
    obtain ⟨calls', hcalls', hshown'⟩ := fbPrintDec_eq (reduced_ne_minValue hmin)
    rw [hcalls, Option.some.injEq] at hcalls'
    rw [hcalls', hshown', readInt_decimal, Option.some.injEq, toInt_reduced hge] at hread
    rw [lt_iff_toInt] at hge
    omega
  · rintro ⟨hlt, hmin⟩
    constructor
    case dec =>
      have h := fbPrintDec_eq (reduced_ne_minValue hmin)
      rwa [reduced_of_lt hlt] at h
    case hex =>
      obtain ⟨calls, hcalls, hshown⟩ := fbPrintHex_eq num.toUInt32
      exact ⟨calls, _, hcalls, hshown, isHex_hexText num.toUInt32.toNat_lt⟩

/-- Ten million comes out as zero. -/
theorem not_printsNumber_tenMillion : ¬ PrintsNumber 10000000 := by
  rintro ⟨⟨calls, hcalls, hshown⟩, -⟩
  have hzero : fbPrintDec 10000000 = some
      [.printf "WARNING: fb_print_dec() is deprecated.\n", .print ['0'.toUInt8]] := by decide
  rw [hzero, Option.some.injEq] at hcalls
  have hread := readInt_decimal 10000000
  rw [← hshown, ← hcalls] at hread
  revert hread
  decide

end NumberPrinters

end Legacy

end BbnOS
