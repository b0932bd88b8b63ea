import BbnOS.Printf.FormatReads
import Mathlib.Data.Nat.Digits.Lemmas
import Mathlib.Logic.Relation

/-!
# Formats made of directives

A format as the C standard describes it is a list of directives: characters that
are printed as they are, `%%`, and conversions with their flags, width, precision,
length and specifier.  `text` writes such a list down, and `output` and `taken` say
what `vprintf` should print for it and how many arguments it should take.

`vprintf` scans every conversion but those with the length `hh`: it does not step
over the second `h` and takes it for the specifier.  And it prints nothing for
`%%`.  `prints_iff` says that these are the formats on which it goes wrong, apart
from arguments that do not fit.
-/

namespace BbnOS

namespace Printf

open Loop

/-! ## Directives -/

/-- The flags. -/
inductive Flag where
  | minus | plus | alt | space | zero
  deriving DecidableEq

/-- The character of a flag. -/
def Flag.char : Flag → UInt8
  | minus => '-'.toUInt8
  | plus => '+'.toUInt8
  | alt => '#'.toUInt8
  | space => ' '.toUInt8
  | zero => '0'.toUInt8

/-- What a flag asks for. -/
def Flag.apply (v : Conversion) : Flag → Conversion
  | minus => { v with leftJustify := true }
  | plus => { v with plusSign := true }
  | alt => { v with altForm := true }
  | space => { v with spaceNoSign := true }
  | zero => { v with zeroPad := true }

/-- The character of a decimal digit. -/
def decimalChar (d : Fin 10) : UInt8 := UInt8.ofNat (48 + d.val)

/-- A width or a precision: digits, or the next argument. -/
inductive Amount where
  | digits (l : List (Fin 10))
  | star

namespace Amount

def text : Amount → List UInt8
  | digits l => l.map decimalChar
  | star => ['*'.toUInt8]

/-- The number of arguments that it takes. -/
def taken : Amount → Nat
  | digits _ => 0
  | star => 1

/-- Its value, with `n` arguments taken before.  Numbers are those of an `int`. -/
def value (args : Arguments) (n : Nat) : Amount → Int32
  | digits l => Int32.ofNat (Nat.ofDigits 10 (l.reverse.map Fin.val))
  | star => args.int n

end Amount

/-- What stands between the `%` and the length.  No digits are no width, and a zero in
front of the width is a flag. -/
structure Options where
  flags : List Flag
  width : Amount
  precision : Option Amount
  noZero : ∀ l, width ≠ .digits (0 :: l)

namespace Options

def text (o : Options) : List UInt8 :=
  o.flags.map Flag.char ++ o.width.text ++
    match o.precision with
    | none => []
    | some p => '.'.toUInt8 :: p.text

/-- The number of arguments that the stars take. -/
def taken (o : Options) : Nat :=
  o.width.taken +
    match o.precision with
    | none => 0
    | some p => p.taken

/-- The conversion that the options ask for. -/
def conversion (args : Arguments) (n : Nat) (length : Length) (o : Options) : Conversion :=
  { o.flags.foldl Flag.apply Conversion.initial with
    lengthSpec := o.width.value args n
    precSpec :=
      match o.precision with
      | none => 6
      | some p => p.value args (n + o.width.taken)
    length := length }

end Options

/-- The characters of a length. -/
def Length.text : Length → List UInt8
  | nul => []
  | H => chars ['h', 'h']
  | h => chars ['h']
  | l => chars ['l']
  | q => chars ['l', 'l']
  | j => chars ['j']
  | z => chars ['z']
  | t => chars ['t']
  | L => chars ['L']

/-- The specifiers of integers. -/
inductive IntegerSpecifier where
  | d | i | u | o | x | X
  deriving DecidableEq

def IntegerSpecifier.char : IntegerSpecifier → UInt8
  | d => 'd'.toUInt8
  | i => 'i'.toUInt8
  | u => 'u'.toUInt8
  | o => 'o'.toUInt8
  | x => 'x'.toUInt8
  | X => 'X'.toUInt8

/-- The specifiers that come without a length. -/
inductive PlainSpecifier where
  | c | s | p
  deriving DecidableEq

def PlainSpecifier.char : PlainSpecifier → UInt8
  | c => 'c'.toUInt8
  | s => 's'.toUInt8
  | p => 'p'.toUInt8

/-- One directive of a format. -/
inductive Directive where
  | literal (c : UInt8) (hzero : c ≠ 0) (hpercent : c ≠ '%'.toUInt8)
  | percent
  | integer (o : Options) (length : Length) (hlength : length ≠ .L)
      (specifier : IntegerSpecifier)
  | plain (o : Options) (specifier : PlainSpecifier)

/-- The field of an integer, if an argument is taken for it. -/
def integerField (integer : Option Int64) (base : Int32) (v : Conversion) : List UInt8 :=
  match integer with
  | none => []
  | some i =>
    fieldText (numberText i base v.plusSign v.spaceNoSign) v.lengthSpec v.leftJustify v.zeroPad

/-- What the conversion `c` prints for argument `n`. -/
def shown (args : Arguments) (v : Conversion) (c : UInt8) (n : Nat) : List UInt8 :=
  match kindOf c with
  | .unsigned base altPrefix =>
    (if v.altForm then chars altPrefix else []) ++
      integerField (unsignedArg v.length (args.slot n)) base v
  | .pointer => integerField (unsignedArg .z (args.slot n)) 16 v
  | .signed => integerField (signedArg v.length (args.slot n)) 10 v
  | .char => if v.length = .l then wcharError else [(args.slot n).toUInt8]
  | .string => args.string (args.slot n)
  | .store | .float | .other => []

namespace Directive

def text : Directive → List UInt8
  | literal c _ _ => [c]
  | percent => ['%'.toUInt8, '%'.toUInt8]
  | integer o length _ specifier => '%'.toUInt8 :: (o.text ++ length.text ++ [specifier.char])
  | plain o specifier => '%'.toUInt8 :: (o.text ++ [specifier.char])

/-- The number of arguments that it takes: one for each star, and one for the
conversion. -/
def taken : Directive → Nat
  | literal _ _ _ | percent => 0
  | integer o _ _ _ | plain o _ => o.taken + 1

/-- What is printed for it, with `n` arguments taken before. -/
def output (args : Arguments) (n : Nat) : Directive → List UInt8
  | literal c _ _ => [c]
  | percent => ['%'.toUInt8]
  | integer o length _ specifier =>
    shown args (o.conversion args n length) specifier.char (n + o.taken)
  | plain o specifier => shown args (o.conversion args n .nul) specifier.char (n + o.taken)

/-- The directive has no length `hh`, is no `%%`, and its argument fits. -/
def Good (args : Arguments) (n : Nat) : Directive → Prop
  | literal _ _ _ => True
  | percent => False
  | integer o length _ specifier =>
    length ≠ .H ∧ Fits args (o.conversion args n length) specifier.char (n + o.taken)
  | plain o specifier => Fits args (o.conversion args n .nul) specifier.char (n + o.taken)

end Directive

/-! ## Formats -/

/-- The characters of a format. -/
def text (ds : List Directive) : List UInt8 :=
  ds.flatMap Directive.text

/-- The number of arguments that a format takes. -/
def taken (ds : List Directive) : Nat :=
  (ds.map Directive.taken).sum

/-- What is printed for a format. -/
def output (args : Arguments) : Nat → List Directive → List UInt8
  | _, [] => []
  | n, d :: ds => d.output args n ++ output args (n + d.taken) ds

/-- Every directive of the format is `Good`. -/
def Good (args : Arguments) : Nat → List Directive → Prop
  | _, [] => True
  | n, d :: ds => d.Good args n ∧ Good args (n + d.taken) ds

/-- A round of the loop of `vprintf`, which returns with enough fuel. -/
def Round (format : Int → UInt8) (args : Arguments) (s t : State) : Prop :=
  s.char format ≠ 0 ∧ ∃ bound, ∀ fuel, bound < fuel → round format args fuel s.look = some t

/-- `vprintf` prints the format: it returns, with the output and the arguments of the
directives, and behind each of them it goes on with the next. -/
structure Prints (format : Int → UInt8) (args : Arguments) (ds : List Directive) : Prop where
  returns : ∃ fuel s, vprintf format args fuel = some s ∧
    s.displayed = output args 0 ds ∧ s.list = taken ds
  resumes : ∀ before, before <+: ds →
    ∃ s, Relation.ReflTransGen (Round format args) State.initial s ∧
      s.i.toInt = (text before).length ∧ s.displayed = output args 0 before ∧
      s.list = taken before

section Scan

variable {args : Arguments} {l rest : List UInt8} {c : UInt8}

theorem skipText_cons_of_none {step : UInt8 → Conversion → Option Conversion} {v : Conversion}
    (h : step c v = none) : skipText step (c :: l) v = (c :: l, v) := by
  rw [skipText, h]

theorem skipText_cons_of_some {step : UInt8 → Conversion → Option Conversion}
    {v v' : Conversion} (h : step c v = some v') :
    skipText step (c :: l) v = skipText step l v' := by
  rw [skipText, h]

theorem flag_char (f : Flag) (v : Conversion) : flag f.char v = some (f.apply v) := by
  cases f <;> rfl

theorem skipText_flags (flags : List Flag) (l : List UInt8) (v : Conversion) :
    skipText flag (flags.map Flag.char ++ l) v = skipText flag l (flags.foldl Flag.apply v) := by
  induction flags generalizing v with
  | nil => rfl
  | cons f flags ih =>
    rw [List.map_cons, List.cons_append, skipText_cons_of_some (flag_char f v), ih,
      List.foldl_cons]

theorem isdigit_digit (d : Fin 10) : isdigit (decimalChar d) = true := by
  revert d
  decide

theorem appendDigit_digit (n : Int32) (d : Fin 10) :
    appendDigit n (decimalChar d) = n * 10 + Int32.ofNat d := by
  have hdigit : ∀ d : Fin 10,
      (decimalChar d).toUInt32.toInt32 - 48 = Int32.ofNat d := by
    decide
  rw [appendDigit, hdigit d]

theorem foldl_digits (ds : List (Fin 10)) :
    ds.foldl (fun n d => appendDigit n (decimalChar d)) 0 =
      Int32.ofNat (Nat.ofDigits 10 (ds.reverse.map Fin.val)) := by
  induction ds using List.reverseRecOn with
  | nil => rfl
  | append_singleton ds d ih =>
    rw [List.foldl_append, List.foldl_cons, List.foldl_nil, ih, appendDigit_digit,
      List.reverse_append, List.reverse_singleton, List.singleton_append, List.map_cons,
      Nat.ofDigits_cons, Int32.ofNat_add, Int32.ofNat_mul, Int32.add_comm, Int32.mul_comm]
    rfl

/-- A loop over digits, which reads the value of a number. -/
theorem skipText_digits {step : UInt8 → Conversion → Option Conversion}
    (get : Conversion → Int32) {set : Int32 → Conversion → Conversion}
    (hstep : ∀ c v, step c v = if isdigit c then some (set (appendDigit (get v) c) v) else none)
    (hget : ∀ n v, get (set n v) = n) (hset : ∀ m n v, set m (set n v) = set m v)
    (hsame : ∀ v, set (get v) v = v) (ds : List (Fin 10)) {v : Conversion}
    (hc : isdigit c = false) :
    skipText step (ds.map decimalChar ++ c :: l) v =
      (c :: l,
        set (ds.foldl (fun n d => appendDigit n (decimalChar d)) (get v)) v) := by
  induction ds generalizing v with
  | nil =>
    rw [List.map_nil, List.nil_append, skipText_cons_of_none (by rw [hstep, hc]; rfl),
      List.foldl_nil, hsame]
  | cons d ds ih =>
    have hd : step (decimalChar d) v =
        some (set (appendDigit (get v) (decimalChar d)) v) := by
      rw [hstep, isdigit_digit, if_pos rfl]
    rw [List.map_cons, List.cons_append, skipText_cons_of_some hd, ih, hget, hset,
      List.foldl_cons]

/-- A width or a precision in front of a character that does not belong to it. -/
theorem place_amount (step : UInt8 → Conversion → Option Conversion)
    (get : Conversion → Int32) (set : Int32 → Conversion → Conversion)
    (hstep : ∀ c v, step c v = if isdigit c then some (set (appendDigit (get v) c) v) else none)
    (hget : ∀ n v, get (set n v) = n) (hset : ∀ m n v, set m (set n v) = set m v)
    (hsame : ∀ v, set (get v) v = v) (a : Amount) {n : Nat} {v : Conversion} (hzero : get v = 0)
    (hc : isdigit c = false) (hstar : c ≠ '*'.toUInt8) :
    (Place.skip step ⟨a.text ++ c :: l, n, v⟩).star args set =
      ⟨c :: l, n + a.taken, set (a.value args n) v⟩ := by
  cases a with
  | digits ds =>
    simp only [Place.skip, Amount.text, skipText_digits get hstep hget hset hsame ds hc, hzero,
      foldl_digits]
    simp only [Place.star, if_neg hstar]
    rfl
  | star =>
    have hnone : step '*'.toUInt8 v = none := by
      rw [hstep]
      rfl
    simp only [Place.skip, Amount.text, List.singleton_append, skipText_cons_of_none hnone]
    rfl

theorem foldl_apply (flags : List Flag) (v : Conversion) :
    (flags.foldl Flag.apply v).lengthSpec = v.lengthSpec ∧
      (flags.foldl Flag.apply v).precSpec = v.precSpec ∧
      (flags.foldl Flag.apply v).length = v.length := by
  induction flags generalizing v with
  | nil => exact ⟨rfl, rfl, rfl⟩
  | cons f flags ih =>
    obtain ⟨hwidth, hprec, hlength⟩ := ih (f.apply v)
    rw [List.foldl_cons, hwidth, hprec, hlength]
    cases f <;> exact ⟨rfl, rfl, rfl⟩

/-- The flags end before the width. -/
theorem skipText_width {w : Amount} (hw : ∀ l, w ≠ .digits (0 :: l)) {v : Conversion}
    (hc : flag c v = none) :
    skipText flag (w.text ++ c :: l) v = (w.text ++ c :: l, v) := by
  cases w with
  | star => exact skipText_cons_of_none rfl
  | digits ds =>
    cases ds with
    | nil => exact skipText_cons_of_none hc
    | cons d ds =>
      have hd : d ≠ 0 := by
        rintro rfl
        exact hw ds rfl
      refine skipText_cons_of_none ?_
      have hflag : ∀ d : Fin 10, d ≠ 0 → ∀ v, flag (decimalChar d) v = none := by
        intro d hd v
        have hne : decimalChar d ≠ '-'.toUInt8 ∧ decimalChar d ≠ '+'.toUInt8 ∧
            decimalChar d ≠ '#'.toUInt8 ∧ decimalChar d ≠ ' '.toUInt8 ∧
            decimalChar d ≠ '0'.toUInt8 := by
          revert d
          decide
        simp only [flag, hne, if_false]
      exact hflag d hd v

/-- The characters from `A` on are no flags, no digits, no star and no dot. -/
theorem flag_eq_none (hc : 65 ≤ c.toNat) (v : Conversion) : flag c v = none := by
  have hne : ∀ d : UInt8, d.toNat < 65 → c ≠ d := by
    rintro d hd rfl
    omega
  simp only [flag, hne '-'.toUInt8 (by decide), hne '+'.toUInt8 (by decide),
    hne '#'.toUInt8 (by decide), hne ' '.toUInt8 (by decide), hne '0'.toUInt8 (by decide),
    if_false]

theorem isdigit_eq_false (hc : 65 ≤ c.toNat) : isdigit c = false := by
  have hlt : ¬ c ≤ '9'.toUInt8 := by
    have hnine : '9'.toUInt8.toNat = 57 := rfl
    rw [UInt8.le_iff_toNat_le]
    omega
  rw [isdigit, decide_eq_false hlt, Bool.and_false]

theorem setPrec_setWidth {v : Conversion} (hlength : v.length = .nul) (m k : Int32) :
    setPrec m (setWidth k v) = { v with lengthSpec := k, precSpec := m, length := .nul } := by
  rw [← hlength]
  rfl

/-- The options are scanned as they are meant. -/
theorem place_options (o : Options) (n : Nat) (hc : 65 ≤ c.toNat) :
    ((((⟨o.text ++ c :: l, n, Conversion.initial⟩ : Place).skip flag).skip widthDigit).star args
      setWidth).precision args = ⟨c :: l, n + o.taken, o.conversion args n .nul⟩ := by
  have hne : ∀ d : UInt8, d.toNat < 65 → c ≠ d := by
    rintro d hd rfl
    omega
  obtain ⟨hwidth, hprec, hlength⟩ := foldl_apply o.flags Conversion.initial
  have hstage : ∀ e t, (∀ v, flag e v = none) → isdigit e = false → e ≠ '*'.toUInt8 →
      (((⟨o.flags.map Flag.char ++ o.width.text ++ e :: t, n, Conversion.initial⟩ :
        Place).skip flag).skip widthDigit).star args setWidth =
        ⟨e :: t, n + o.width.taken,
          setWidth (o.width.value args n) (o.flags.foldl Flag.apply Conversion.initial)⟩ := by
    intro e t hflag hdigit hstar
    have hskip : (⟨o.flags.map Flag.char ++ o.width.text ++ e :: t, n, Conversion.initial⟩ :
        Place).skip flag =
        ⟨o.width.text ++ e :: t, n, o.flags.foldl Flag.apply Conversion.initial⟩ := by
      rw [Place.skip, List.append_assoc, skipText_flags, skipText_width o.noZero (hflag _)]
    rw [hskip]
    exact place_amount widthDigit Conversion.lengthSpec setWidth (fun _ _ => rfl)
      (fun _ _ => rfl) (fun _ _ _ => rfl) (fun _ => rfl) o.width hwidth hdigit hstar
  cases hp : o.precision with
  | none =>
    have htext : o.text ++ c :: l = o.flags.map Flag.char ++ o.width.text ++ c :: l := by
      rw [Options.text, hp, List.append_nil]
    rw [htext, hstage c l (flag_eq_none hc) (isdigit_eq_false hc) (hne _ (by decide)),
      Place.precision]
    dsimp only
    rw [if_neg (hne _ (by decide)), Options.taken, Options.conversion, hp]
    exact congrArg (Place.mk _ _) (setPrec_setWidth hlength _ _)
  | some p =>
    have htext : o.text ++ c :: l =
        o.flags.map Flag.char ++ o.width.text ++ '.'.toUInt8 :: (p.text ++ c :: l) := by
      rw [Options.text, hp, List.append_assoc, List.cons_append]
    rw [htext, hstage '.'.toUInt8 _ (fun v => rfl) rfl (by decide), Place.precision]
    dsimp only
    have hwide : (setWidth (o.width.value args n)
        (o.flags.foldl Flag.apply Conversion.initial)).precSpec = 0 := hprec
    rw [if_pos rfl, place_amount precDigit Conversion.precSpec setPrec (fun _ _ => rfl)
      (fun _ _ => rfl) (fun _ _ _ => rfl) (fun _ => rfl) p hwide (isdigit_eq_false hc)
      (hne _ (by decide)), Options.taken, Options.conversion, hp, Nat.add_assoc]
    exact congrArg (Place.mk _ _) (setPrec_setWidth hlength _ _)

/-- The length is stepped over, all but the second `h` of `hh`. -/
theorem place_length {length : Length} (hlength : length ≠ .L) (hc : lengthOf c = none) (n : Nat)
    {v : Conversion} (hv : v.length = .nul) :
    Place.lengthModifier ⟨length.text ++ c :: l, n, v⟩ =
      ⟨if length = .H then 'h'.toUInt8 :: c :: l else c :: l, n, { v with length := length }⟩ := by
  have hh : c ≠ 'h'.toUInt8 := by
    rintro rfl
    cases hc
  have hl : c ≠ 'l'.toUInt8 := by
    rintro rfl
    cases hc
  have hlonger : ∀ length, Place.longer length ⟨c :: l, n, v⟩ =
      ⟨c :: l, n, { v with length := length }⟩ := by
    intro length
    simp only [Place.longer, if_neg hh, if_neg hl]
  cases length with
  | nul =>
    have hsame : { v with length := Length.nul } = v := by
      rw [← hv]
    rw [hsame]
    simp only [Length.text, List.nil_append, Place.lengthModifier, hc, reduceCtorEq, if_false]
  | H | q => rfl
  | h | l | j | z | t => exact hlonger _
  | L => exact absurd rfl hlength

theorem exists_letter (length : Length) (hc : 65 ≤ c.toNat) :
    ∃ e t, length.text ++ c :: l = e :: t ∧ 65 ≤ e.toNat := by
  cases length with
  | nul => exact ⟨c, l, rfl, hc⟩
  | H | h | l | q | j | z | t | L => exact ⟨_, _, rfl, by decide⟩

variable (args l) in
/-- A conversion is scanned as it is meant, but for the second `h` of `hh`. -/
theorem scanText_conversion (o : Options) (n : Nat) {length : Length} (hlength : length ≠ .L)
    (hc : 65 ≤ c.toNat) (hnone : lengthOf c = none) :
    scanText args n (o.text ++ length.text ++ c :: l) =
      ⟨if length = .H then 'h'.toUInt8 :: c :: l else c :: l, n + o.taken,
        o.conversion args n length⟩ := by
  obtain ⟨e, t, htext, he⟩ := @exists_letter l c length hc
  rw [scanText, List.append_assoc, htext, place_options o n he, ← htext]
  exact place_length hlength hnone _ rfl

end Scan

/-! ## Rounds -/

section Rounds

variable {format : Int → UInt8} {args : Arguments} {v : Conversion} {c : UInt8} {s s' t : State}
  {l rest : List UInt8} {n : Nat}

theorem displayed_printInteger {integer : Option Int64} {base : Int32} (hbase : IsBase base)
    (h : printInteger integer base v s = some s') :
    s'.displayed = s.displayed ++ integerField integer base v := by
  cases integer with
  | none =>
    cases h
    exact (List.append_nil _).symm
  | some i =>
    rw [printInteger_some hbase] at h
    split at h
    · cases h
      rfl
    · cases h

/-- What a conversion that returns has printed. -/
theorem displayed_convert (h : convert args v c s = some s') :
    s'.displayed = s.displayed ++ shown args v c s.list := by
  unfold convert at h
  unfold shown
  cases hkind : kindOf c with
  | unsigned base altPrefix =>
    rw [hkind] at h
    have hprint := displayed_printInteger (isBase_of_kindOf hkind) h
    dsimp only
    cases halt : v.altForm with
    | true =>
      rw [halt, if_pos rfl] at hprint
      rw [hprint, if_pos rfl, ← List.append_assoc]
      rfl
    | false =>
      rw [halt, if_neg Bool.false_ne_true] at hprint
      rw [hprint, if_neg Bool.false_ne_true, List.nil_append]
  | pointer =>
    rw [hkind] at h
    exact displayed_printInteger (Or.inr (Or.inr (Or.inl rfl))) h
  | signed =>
    rw [hkind] at h
    exact displayed_printInteger (Or.inr (Or.inl rfl)) h
  | char =>
    rw [hkind] at h
    dsimp only at h ⊢
    by_cases hlength : v.length = .l
    · rw [if_pos hlength] at h ⊢
      cases h
      rfl
    · rw [if_neg hlength] at h ⊢
      cases h
      rfl
  | string =>
    rw [hkind] at h
    dsimp only [State.displayString] at h
    split at h
    · cases h
      rfl
    · cases h
  | store =>
    rw [hkind] at h
    cases hlength : v.length <;> rw [hlength] at h <;> cases h <;>
      exact (List.append_nil _).symm
  | float =>
    rw [hkind] at h
    cases h
  | other =>
    rw [hkind] at h
    cases h
    exact (List.append_nil _).symm

/-! ### More fuel -/

theorem skipWhile_mono {step : UInt8 → Conversion → Option Conversion} {fuel fuel' : Nat}
    (hle : fuel ≤ fuel') {x x' : State × Conversion} (h : skipWhile format step fuel x = some x') :
    skipWhile format step fuel' x = some x' :=
  whileFuel_mono hle h

theorem precision_mono {fuel fuel' : Nat} (hle : fuel ≤ fuel') {x x' : State × Conversion}
    (h : precision format args fuel x = some x') : precision format args fuel' x = some x' := by
  unfold precision at h ⊢
  split at h
  · rename_i hdot
    obtain ⟨y, hy, rfl⟩ := Option.map_eq_some_iff.mp h
    rw [if_pos hdot, skipWhile_mono hle hy, Option.map_some]
  · rename_i hdot
    rw [if_neg hdot]
    exact h

theorem scan_mono {fuel fuel' : Nat} (hle : fuel ≤ fuel') {x : State × Conversion}
    (h : scan format args fuel s = some x) : scan format args fuel' s = some x := by
  obtain ⟨x₁, h₁, h⟩ := Option.bind_eq_some_iff.mp h
  obtain ⟨x₂, h₂, h⟩ := Option.bind_eq_some_iff.mp h
  obtain ⟨x₃, h₃, h⟩ := Option.bind_eq_some_iff.mp h
  rw [scan, skipWhile_mono hle h₁, Option.bind_eq_bind, Option.bind_some, skipWhile_mono hle h₂,
    Option.bind_some, precision_mono hle h₃]
  exact h

theorem round_mono {fuel fuel' : Nat} (hle : fuel ≤ fuel')
    (h : round format args fuel s = some t) : round format args fuel' s = some t := by
  unfold round at h ⊢
  split at h
  · rename_i hpercent
    obtain ⟨x, hx, h⟩ := Option.bind_eq_some_iff.mp h
    rw [if_pos hpercent, scan_mono hle hx]
    exact h
  · rename_i hpercent
    rw [if_neg hpercent]
    exact h

theorem Round.unique (h : Round format args s t) (h' : Round format args s s') : t = s' := by
  obtain ⟨-, bound, hround⟩ := h
  obtain ⟨-, bound', hround'⟩ := h'
  have heq := hround (max bound bound' + 1) (Nat.lt_succ_of_le (Nat.le_max_left _ _))
  rw [hround' _ (Nat.lt_succ_of_le (Nat.le_max_right _ _))] at heq
  exact (Option.some.inj heq).symm

/-! ### Rounds and the loop -/

/-- A loop that returns has gone from round to round to a zero. -/
theorem reaches_of_returns {inner outer : Nat}
    (h : vprintfFrom format args inner outer s = some s') :
    ∃ t, Relation.ReflTransGen (Round format args) s t ∧ t.char format = 0 ∧ s' = t.look := by
  induction outer generalizing s with
  | zero => cases h
  | succ outer ih =>
    rw [vprintfFrom_succ] at h
    by_cases hzero : s.char format = 0
    · rw [if_pos hzero] at h
      cases h
      exact ⟨s, .refl, hzero, rfl⟩
    · rw [if_neg hzero, Option.bind_eq_some_iff] at h
      obtain ⟨u, hu, hrest⟩ := h
      obtain ⟨t, hreach, ht, heq⟩ := ih hrest
      have hround : Round format args s u :=
        ⟨hzero, inner, fun fuel hlt => round_mono (Nat.le_of_lt hlt) hu⟩
      exact ⟨t, .head hround hreach, ht, heq⟩

/-- Rounds that end at a zero are a loop that returns. -/
theorem returns_of_reaches (h : Relation.ReflTransGen (Round format args) s t)
    (ht : t.char format = 0) :
    ∃ bound, ∀ inner outer, bound < inner → bound < outer →
      vprintfFrom format args inner outer s = some t.look := by
  induction h using Relation.ReflTransGen.head_induction_on with
  | refl =>
    refine ⟨0, fun inner outer _ houter => ?_⟩
    obtain ⟨outer, rfl⟩ := Nat.exists_eq_succ_of_ne_zero (Nat.ne_of_gt houter)
    rw [vprintfFrom_succ, if_pos ht]
  | head hround _ ih =>
    obtain ⟨hne, bound, hround⟩ := hround
    obtain ⟨bound', hrest⟩ := ih
    refine ⟨max bound bound' + 1, fun inner outer hinner houter => ?_⟩
    obtain ⟨outer, rfl⟩ := Nat.exists_eq_succ_of_ne_zero (Nat.ne_of_gt (Nat.zero_lt_of_lt houter))
    rw [vprintfFrom_succ, if_neg hne, hround inner (by omega), Option.bind_some]
    exact hrest inner outer (by omega) (by omega)

/-- The first of the rounds that end at a zero. -/
theorem first_round (h : Relation.ReflTransGen (Round format args) s t) (ht : t.char format = 0)
    (hs : s.char format ≠ 0) :
    ∃ u, Round format args s u ∧ Relation.ReflTransGen (Round format args) u t := by
  rcases Relation.ReflTransGen.cases_head h with rfl | hfirst
  · exact absurd ht hs
  · exact hfirst

/-! ### One directive -/

variable (args) in
/-- A character that is printed. -/
theorem round_of_literal (hl : IsString format l) (hlen : l.length < 2 ^ 31)
    (h : At l s (c :: rest)) (hc : c ≠ '%'.toUInt8) :
    ∃ t, Round format args s t ∧ At l t rest ∧ t.list = s.list ∧
      t.displayed = s.displayed ++ [c] := by
  obtain ⟨t, hround, hat, hlist, hdisplayed⟩ := round_literal args hl hlen h hc
  have hne : s.char format ≠ 0 := by
    rw [h.char_eq hl]
    exact h.ne_zero hl
  exact ⟨t, ⟨hne, 0, fun fuel _ => hround fuel⟩, hat, hlist, hdisplayed⟩

/-- A conversion with a specifier: when it returns, and what it does. -/
theorem round_of_conversion (hl : IsString format l) (hlen : l.length < 2 ^ 31) {p : List UInt8}
    (h : At l s ('%'.toUInt8 :: p)) (hscan : scanText args s.list p = ⟨c :: rest, n, v⟩)
    (hc : kindOf c ≠ .float) :
    (Fits args v c n → ∃ t, Round format args s t) ∧
      ∀ t, Round format args s t → Fits args v c n ∧ At l t rest ∧ t.list = n + uses v c ∧
        t.displayed = s.displayed ++ shown args v c n := by
  obtain ⟨x, hx, hround⟩ := round_conversion args hl hlen h
  rw [hscan] at hx
  have hchar : x.1.char format = c := hx.here.char_eq hl
  have hv : x.2 = v := hx.v
  have hlist : x.1.look.list = n := hx.list
  have hne : s.char format ≠ 0 := by
    rw [h.char_eq hl]
    exact h.ne_zero hl
  rw [hchar, hv] at hround
  have hreturns : (∃ s', convert args v c x.1.look = some s') ↔ Fits args v c x.1.look.list :=
    convert_returns_iff hc
  rw [hlist] at hreturns
  refine ⟨fun hfits => ?_, fun t ht => ?_⟩
  · obtain ⟨u, hu⟩ := hreturns.mpr hfits
    refine ⟨u.next, hne, l.length, fun fuel hfuel => ?_⟩
    rw [(hround fuel).2 hfuel, hu, Option.map_some]
  · obtain ⟨-, bound, hbound⟩ := ht
    have hconvert := (hround (bound + 1)).1 t (hbound _ (Nat.lt_succ_self _))
    obtain ⟨u, hu, rfl⟩ := Option.map_eq_some_iff.mp hconvert
    obtain ⟨hat, hused⟩ := at_of_convert hlen hx rfl (by rw [hv]; exact hu)
    refine ⟨hreturns.mp ⟨u, hu⟩, hat, hused, ?_⟩
    show u.displayed = _
    rw [displayed_convert hu, hlist]
    exact congrArg (· ++ _) hx.displayed

end Rounds

/-! ## What `vprintf` does with a format -/

namespace Directive

/-- The number of arguments that `vprintf` takes. -/
def used : Directive → Nat
  | literal _ _ _ | percent => 0
  | integer o length _ _ => if length = .H then o.taken else o.taken + 1
  | plain o _ => o.taken + 1

/-- What `vprintf` prints. -/
def printed (args : Arguments) (n : Nat) : Directive → List UInt8
  | literal c _ _ => [c]
  | percent => []
  | integer o length _ specifier =>
    if length = .H then [specifier.char]
    else shown args (o.conversion args n length) specifier.char (n + o.taken)
  | plain o specifier => shown args (o.conversion args n .nul) specifier.char (n + o.taken)

/-- The argument that `vprintf` takes fits. -/
def ArgumentFits (args : Arguments) (n : Nat) : Directive → Prop
  | literal _ _ _ | percent => True
  | integer o length _ specifier =>
    length ≠ .H → Fits args (o.conversion args n length) specifier.char (n + o.taken)
  | plain o specifier => Fits args (o.conversion args n .nul) specifier.char (n + o.taken)

end Directive

/-- The number of arguments that `vprintf` takes for a format. -/
def used (ds : List Directive) : Nat :=
  (ds.map Directive.used).sum

/-- What `vprintf` prints for a format. -/
def printed (args : Arguments) : Nat → List Directive → List UInt8
  | _, [] => []
  | n, d :: ds => d.printed args n ++ printed args (n + d.used) ds

/-- The arguments that `vprintf` takes for a format fit. -/
def ArgumentsFit (args : Arguments) : Nat → List Directive → Prop
  | _, [] => True
  | n, d :: ds => d.ArgumentFits args n ∧ ArgumentsFit args (n + d.used) ds

theorem IntegerSpecifier.facts (specifier : IntegerSpecifier) :
    65 ≤ specifier.char.toNat ∧ lengthOf specifier.char = none ∧
      kindOf specifier.char ≠ .float ∧ specifier.char ≠ '%'.toUInt8 ∧
        ∀ v : Conversion, v.length ≠ .L → uses v specifier.char = 1 := by
  refine ⟨?_, ?_, ?_, ?_, fun v hv => ?_⟩
  · cases specifier <;> decide
  · cases specifier <;> decide
  · cases specifier <;> decide
  · cases specifier <;> decide
  · cases specifier <;> exact if_neg hv

theorem PlainSpecifier.facts (specifier : PlainSpecifier) :
    65 ≤ specifier.char.toNat ∧ lengthOf specifier.char = none ∧
      kindOf specifier.char ≠ .float ∧
        ∀ v : Conversion, v.length = .nul → uses v specifier.char = 1 := by
  refine ⟨?_, ?_, ?_, fun v hv => ?_⟩
  · cases specifier <;> decide
  · cases specifier <;> decide
  · cases specifier <;> decide
  · cases specifier with
    | c =>
      have hl : v.length ≠ .l := by
        rw [hv]
        decide
      exact if_neg hl
    | s | p => rfl

/-- Rounds from `s` come to a state with `Q` if `P` holds, and rounds that end at a zero
do so by `P`. -/
def Passes (format : Int → UInt8) (args : Arguments) (s : State) (P : Prop) (Q : State → Prop) :
    Prop :=
  (P → ∃ t, Relation.ReflTransGen (Round format args) s t ∧ Q t) ∧
    ∀ e, Relation.ReflTransGen (Round format args) s e → e.char format = 0 →
      P ∧ ∃ t, Relation.ReflTransGen (Round format args) t e ∧ Q t

section Passes

variable {format : Int → UInt8} {args : Arguments} {s : State} {P P' : Prop}
  {Q Q' : State → Prop}

theorem Passes.refl (h : Q s) : Passes format args s True Q :=
  ⟨fun _ => ⟨s, .refl, h⟩, fun _ he _ => ⟨trivial, s, he, h⟩⟩

theorem Passes.of_round (hs : s.char format ≠ 0) (hround : P → ∃ t, Round format args s t)
    (h : ∀ t, Round format args s t → P ∧ Q t) : Passes format args s P Q := by
  refine ⟨fun hP => ?_, fun e he hzero => ?_⟩
  · obtain ⟨t, ht⟩ := hround hP
    exact ⟨t, .single ht, (h t ht).2⟩
  · obtain ⟨t, ht, hrest⟩ := first_round he hzero hs
    exact ⟨(h t ht).1, t, hrest, (h t ht).2⟩

theorem Passes.trans (h : Passes format args s P Q)
    (h' : ∀ t, Q t → Passes format args t P' Q') : Passes format args s (P ∧ P') Q' := by
  refine ⟨fun hP => ?_, fun e he hzero => ?_⟩
  · obtain ⟨t, ht, hQ⟩ := h.1 hP.1
    obtain ⟨u, hu, hQ'⟩ := (h' t hQ).1 hP.2
    exact ⟨u, ht.trans hu, hQ'⟩
  · obtain ⟨hP, t, ht, hQ⟩ := h.2 e he hzero
    obtain ⟨hP', hu⟩ := (h' t hQ).2 e ht hzero
    exact ⟨⟨hP, hP'⟩, hu⟩

theorem Passes.congr (h : Passes format args s P Q) (hP : P' ↔ P) (hQ : ∀ t, Q t → Q' t) :
    Passes format args s P' Q' := by
  refine ⟨fun hP' => ?_, fun e he hzero => ?_⟩
  · obtain ⟨t, ht, hQt⟩ := h.1 (hP.mp hP')
    exact ⟨t, ht, hQ t hQt⟩
  · obtain ⟨hPe, t, ht, hQt⟩ := h.2 e he hzero
    exact ⟨hP.mpr hPe, t, ht, hQ t hQt⟩

end Passes

section Runs

variable {format : Int → UInt8} {args : Arguments} {s : State} {l rest : List UInt8}

/-- The state before `rest`, with some more arguments taken and characters printed. -/
structure Behind (l rest : List UInt8) (s : State) (more : Nat) (out : List UInt8) (t : State) :
    Prop where
  here : At l t rest
  list : t.list = s.list + more
  displayed : t.displayed = s.displayed ++ out

theorem passes_literal (hl : IsString format l) (hlen : l.length < 2 ^ 31) {c : UInt8}
    (h : At l s (c :: rest)) (hc : c ≠ '%'.toUInt8) :
    Passes format args s True (Behind l rest s 0 [c]) := by
  have hne : s.char format ≠ 0 := by
    rw [h.char_eq hl]
    exact h.ne_zero hl
  obtain ⟨t, ht, hat, hlist, hdisplayed⟩ := round_of_literal args hl hlen h hc
  refine .of_round hne (fun _ => ⟨t, ht⟩) fun u hu => ⟨trivial, ?_⟩
  rw [hu.unique ht]
  exact ⟨hat, hlist, hdisplayed⟩

theorem passes_conversion (hl : IsString format l) (hlen : l.length < 2 ^ 31) {p : List UInt8}
    (h : At l s ('%'.toUInt8 :: p)) {c : UInt8} {k : Nat} {v : Conversion}
    (hscan : scanText args s.list p = ⟨c :: rest, s.list + k, v⟩) (hc : kindOf c ≠ .float) :
    Passes format args s (Fits args v c (s.list + k))
      (Behind l rest s (k + uses v c) (shown args v c (s.list + k))) := by
  have hne : s.char format ≠ 0 := by
    rw [h.char_eq hl]
    exact h.ne_zero hl
  obtain ⟨hround, hdoes⟩ := round_of_conversion hl hlen h hscan hc
  refine .of_round hne hround fun t ht => ?_
  obtain ⟨hfits, hat, hlist, hdisplayed⟩ := hdoes t ht
  exact ⟨hfits, hat, hlist.trans (Nat.add_assoc _ _ _), hdisplayed⟩

/-- One directive. -/
theorem passes_directive (hl : IsString format l) (hlen : l.length < 2 ^ 31) (d : Directive)
    (h : At l s (d.text ++ rest)) :
    Passes format args s (d.ArgumentFits args s.list)
      (Behind l rest s d.used (d.printed args s.list)) := by
  cases d with
  | literal c hzero hpercent => exact passes_literal hl hlen h hpercent
  | percent =>
    have hscan : scanText args s.list ('%'.toUInt8 :: rest) =
        ⟨'%'.toUInt8 :: rest, s.list + 0, setPrec 6 Conversion.initial⟩ := rfl
    exact passes_conversion hl hlen h hscan (by decide)
  | integer o length hlength specifier =>
    obtain ⟨hletter, hnone, hfloat, hpercent, huses⟩ := specifier.facts
    have h' : At l s ('%'.toUInt8 :: (o.text ++ length.text ++ specifier.char :: rest)) := by
      rw [List.append_cons]
      exact h
    have hscan := scanText_conversion args rest o s.list hlength hletter hnone
    by_cases hH : length = .H
    · rw [if_pos hH] at hscan
      -- the second `h` is the specifier, and prints nothing
      have hfirst : Passes format args s True (Behind l (specifier.char :: rest) s o.taken []) :=
        passes_conversion hl hlen h' hscan (by decide)
      have hsecond : ∀ t, Behind l (specifier.char :: rest) s o.taken [] t →
          Passes format args t True (Behind l rest s o.taken [specifier.char]) := by
        intro t ht
        refine (passes_literal hl hlen ht.here hpercent).congr Iff.rfl fun u hu => ?_
        refine ⟨hu.here, hu.list.trans ht.list, ?_⟩
        rw [hu.displayed, ht.displayed, List.append_nil]
      refine (hfirst.trans hsecond).congr ?_ fun t ht => ?_
      · exact iff_of_true (fun hne => absurd hH hne) ⟨trivial, trivial⟩
      · rw [Directive.used, Directive.printed, if_pos hH, if_pos hH]
        exact ht
    · rw [if_neg hH] at hscan
      have hpasses := passes_conversion hl hlen h' hscan hfloat
      rw [huses _ hlength] at hpasses
      refine hpasses.congr (forall_prop_of_true hH) fun t ht => ?_
      rw [Directive.used, Directive.printed, if_neg hH, if_neg hH]
      exact ht
  | plain o specifier =>
    obtain ⟨hletter, hnone, hfloat, huses⟩ := specifier.facts
    have h' : At l s ('%'.toUInt8 :: (o.text ++ Length.nul.text ++ specifier.char :: rest)) := by
      rw [Length.text, List.append_nil, List.append_cons]
      exact h
    have hscan := scanText_conversion args rest o s.list
      (show Length.nul ≠ .L by decide) hletter hnone
    rw [if_neg (by decide)] at hscan
    have hpasses := passes_conversion hl hlen h' hscan hfloat
    rw [huses _ rfl] at hpasses
    exact hpasses

/-- A format. -/
theorem passes_text (hl : IsString format l) (hlen : l.length < 2 ^ 31) (ds : List Directive)
    (h : At l s (text ds ++ rest)) :
    Passes format args s (ArgumentsFit args s.list ds)
      (Behind l rest s (used ds) (printed args s.list ds)) := by
  induction ds generalizing s with
  | nil => exact .refl ⟨h, rfl, (List.append_nil _).symm⟩
  | cons d ds ih =>
    have h' : At l s (d.text ++ (text ds ++ rest)) := by
      rw [← List.append_assoc]
      exact h
    refine ((passes_directive hl hlen d h').trans fun t ht => ?_)
    have hrest := ih ht.here
    rw [ht.list] at hrest
    refine hrest.congr Iff.rfl fun u hu => ⟨hu.here, ?_, ?_⟩
    · rw [hu.list, ht.list, used, used, List.map_cons, List.sum_cons, Nat.add_assoc]
    · rw [hu.displayed, ht.displayed, List.append_assoc]
      rfl

/-- At the end of a format of directives the loop ends. -/
theorem char_eq_zero_of_at_nil (hl : IsString format l) (h : At l s []) : s.char format = 0 :=
  h.char_eq hl

/-- `vprintf` on a whole format. -/
theorem vprintf_text {ds : List Directive} (hl : IsString format (text ds))
    (hlen : (text ds).length < 2 ^ 31) {fuel : Nat} (h : vprintf format args fuel = some s) :
    ArgumentsFit args 0 ds ∧ s.list = used ds ∧ s.displayed = printed args 0 ds := by
  obtain ⟨e, hreach, hzero, rfl⟩ := reaches_of_returns h
  have hstart : At (text ds) State.initial (text ds ++ []) := by
    rw [List.append_nil]
    exact at_initial _
  obtain ⟨hfits, t, ht, hbehind⟩ := (passes_text hl hlen ds hstart).2 e hreach hzero
  have hend : t = e := by
    rcases Relation.ReflTransGen.cases_head ht with rfl | ⟨u, hu, -⟩
    · rfl
    · exact absurd (char_eq_zero_of_at_nil hl hbehind.here) hu.1
  subst hend
  exact ⟨hfits, hbehind.list.trans (Nat.zero_add _),
    hbehind.displayed.trans (List.nil_append _)⟩

theorem vprintf_returns {ds : List Directive} (hl : IsString format (text ds))
    (hlen : (text ds).length < 2 ^ 31) (hfits : ArgumentsFit args 0 ds) :
    ∃ fuel s, vprintf format args fuel = some s := by
  have hstart : At (text ds) State.initial (text ds ++ []) := by
    rw [List.append_nil]
    exact at_initial _
  obtain ⟨t, ht, hbehind⟩ := (passes_text hl hlen ds hstart).1 hfits
  obtain ⟨bound, hreturns⟩ := returns_of_reaches ht (char_eq_zero_of_at_nil hl hbehind.here)
  exact ⟨bound + 1, t.look, hreturns _ _ (Nat.lt_succ_self _) (Nat.lt_succ_self _)⟩

end Runs

/-! ## Which formats are printed -/

section Compare

variable {args : Arguments}

theorem Directive.used_le (d : Directive) : d.used ≤ d.taken := by
  cases d with
  | integer o length _ _ =>
    rw [used, taken]
    split
    · exact Nat.le_succ _
    · exact Nat.le_refl _
  | literal _ _ _ | percent | plain _ _ => exact Nat.le_refl _

theorem used_le (ds : List Directive) : used ds ≤ taken ds := by
  induction ds with
  | nil => exact Nat.le_refl _
  | cons d ds ih =>
    rw [used, List.map_cons, List.sum_cons, taken, List.map_cons, List.sum_cons]
    exact Nat.add_le_add d.used_le ih

/-- A directive that takes its arguments prints no more than it should, and less if it is
not `Good`. -/
theorem Directive.printed_spec (d : Directive) {n : Nat} (hused : d.used = d.taken)
    (hfits : d.ArgumentFits args n) :
    (d.printed args n).length ≤ (d.output args n).length ∧
      ((d.printed args n).length = (d.output args n).length ↔ d.Good args n) := by
  cases d with
  | literal _ _ _ => exact ⟨Nat.le_refl _, iff_of_true rfl trivial⟩
  | percent => exact ⟨Nat.zero_le _, iff_of_false (fun h => nomatch h) id⟩
  | integer o length _ _ =>
    rw [used, taken] at hused
    have hH : length ≠ .H := by
      rintro rfl
      rw [if_pos rfl] at hused
      omega
    rw [printed, if_neg hH]
    exact ⟨Nat.le_refl _, iff_of_true rfl ⟨hH, hfits hH⟩⟩
  | plain _ _ => exact ⟨Nat.le_refl _, iff_of_true rfl hfits⟩

theorem Directive.of_good {d : Directive} {n : Nat} (h : d.Good args n) :
    d.used = d.taken ∧ d.printed args n = d.output args n ∧ d.ArgumentFits args n := by
  cases d with
  | literal _ _ _ => exact ⟨rfl, rfl, trivial⟩
  | percent => exact h.elim
  | integer o length _ _ => exact ⟨if_neg h.1, if_neg h.1, fun _ => h.2⟩
  | plain _ _ => exact ⟨rfl, rfl, h⟩

theorem of_good {ds : List Directive} {n : Nat} (h : Good args n ds) :
    used ds = taken ds ∧ printed args n ds = output args n ds ∧ ArgumentsFit args n ds := by
  induction ds generalizing n with
  | nil => exact ⟨rfl, rfl, trivial⟩
  | cons d ds ih =>
    obtain ⟨husedD, hprintedD, hfitsD⟩ := Directive.of_good h.1
    obtain ⟨hused, hprinted, hfits⟩ := ih h.2
    refine ⟨?_, ?_, hfitsD, ?_⟩
    · rw [used, List.map_cons, List.sum_cons, taken, List.map_cons, List.sum_cons, husedD]
      exact congrArg _ hused
    · rw [printed, output, hprintedD, husedD, hprinted]
    · rw [husedD]
      exact hfits

theorem Good.of_prefix {before ds : List Directive} {n : Nat} (h : Good args n ds)
    (hpre : before <+: ds) : Good args n before := by
  induction before generalizing n ds with
  | nil => exact trivial
  | cons d before ih =>
    obtain ⟨after, rfl⟩ := hpre
    exact ⟨h.1, ih h.2 (List.prefix_append _ _)⟩

/-- What is taken and printed tells a `Good` format. -/
theorem good_of_printed {ds : List Directive} {n : Nat} (hused : used ds = taken ds)
    (hfits : ArgumentsFit args n ds) :
    (printed args n ds).length ≤ (output args n ds).length ∧
      ((printed args n ds).length = (output args n ds).length → Good args n ds) := by
  induction ds generalizing n with
  | nil => exact ⟨Nat.le_refl _, fun _ => trivial⟩
  | cons d ds ih =>
    have hle := d.used_le
    have hles := used_le ds
    rw [used, List.map_cons, List.sum_cons, taken, List.map_cons, List.sum_cons] at hused
    rw [used, taken] at hles
    have hd : d.used = d.taken := by omega
    have hds : used ds = taken ds := by
      rw [used, taken]
      omega
    obtain ⟨hshort, hgood⟩ := d.printed_spec hd hfits.1
    rw [printed, output, List.length_append, List.length_append]
    obtain ⟨hrest, hgoods⟩ := ih hds hfits.2
    rw [hd] at hrest hgoods ⊢
    refine ⟨by omega, fun heq => ⟨hgood.mp (by omega), hgoods (by omega)⟩⟩

end Compare

/-- A format that is printed as it should be: what `vprintf` takes and prints is what it
should take and print. -/
theorem Prints.spec {format : Int → UInt8} {args : Arguments} {ds : List Directive}
    (h : Prints format args ds) (hl : IsString format (text ds)) :
    (text ds).length < 2 ^ 31 ∧ ArgumentsFit args 0 ds ∧ used ds = taken ds ∧
      printed args 0 ds = output args 0 ds := by
  obtain ⟨⟨fuel, s, hs, hdisplayed, hlist⟩, hresumes⟩ := h
  have hlen : (text ds).length < 2 ^ 31 := by
    obtain ⟨t, -, ht, -⟩ := hresumes ds List.prefix_rfl
    have hbound := t.i.toInt_lt
    omega
  obtain ⟨hfits, hused, hprinted⟩ := vprintf_text hl hlen hs
  exact ⟨hlen, hfits, hused.symm.trans hlist, hprinted.symm.trans hdisplayed⟩

/-- `vprintf` prints a format if and only if it has fewer than `2 ^ 31` characters,
neither a length `hh` nor a `%%`, and its arguments fit. -/
theorem prints_iff {format : Int → UInt8} {args : Arguments} {ds : List Directive}
    (hl : IsString format (text ds)) :
    Prints format args ds ↔ (text ds).length < 2 ^ 31 ∧ Good args 0 ds := by
  constructor
  · intro h
    obtain ⟨hlen, hfits, hused, hprinted⟩ := h.spec hl
    exact ⟨hlen, (good_of_printed hused hfits).2 (congrArg List.length hprinted)⟩
  · rintro ⟨hlen, hgood⟩
    have hreach : ∀ before, before <+: ds →
        ∃ t, Relation.ReflTransGen (Round format args) State.initial t ∧
          t.i.toInt = (text before).length ∧ t.displayed = output args 0 before ∧
          t.list = taken before := by
      intro before hpre
      obtain ⟨hused, hprinted, hfits⟩ := of_good (hgood.of_prefix hpre)
      obtain ⟨after, rfl⟩ := hpre
      have happend : text (before ++ after) = text before ++ text after := List.flatMap_append
      have hstart : At (text (before ++ after)) State.initial (text before ++ text after) := by
        rw [happend]
        exact at_initial _
      obtain ⟨t, ht, hbehind⟩ := (passes_text hl hlen before hstart).1 hfits
      refine ⟨t, ht, ?_, ?_, ?_⟩
      · rw [hbehind.here.index_le, happend, List.length_append]
        omega
      · rw [← hprinted]
        exact hbehind.displayed
      · rw [← hused]
        exact hbehind.list.trans (Nat.zero_add _)
    obtain ⟨hused, hprinted, hfits⟩ := of_good hgood
    obtain ⟨fuel, s, hs⟩ := vprintf_returns hl hlen hfits
    obtain ⟨-, hlist, hdisplayed⟩ := vprintf_text hl hlen hs
    exact ⟨⟨fuel, s, hs, hdisplayed.trans hprinted, hlist.trans hused⟩, hreach⟩

/-- No options but a width. -/
def widthOnly (l : List (Fin 10)) (h : ∀ l', Amount.digits l ≠ .digits (0 :: l')) : Options where
  flags := []
  width := .digits l
  precision := none
  noZero := h

/-- The format `%5d!`. -/
def fiveD : List Directive :=
  [.integer (widthOnly [5] fun _ h => by cases h) .nul (by decide) .d,
    .literal '!'.toUInt8 (by decide) (by decide)]

theorem prints_fiveD : Prints (memoryOf (text fiveD ++ [0])) fortyTwo fiveD := by
  have hl : IsString (memoryOf (text fiveD ++ [0])) (text fiveD) :=
    isString_memoryOf (by decide) []
  refine (prints_iff hl).mpr ⟨by decide, ⟨by decide, ?_⟩, trivial, trivial⟩
  intro i hi
  cases hi
  decide +kernel

/-- The format `%hhd`. -/
def byteD : List Directive :=
  [.integer (widthOnly [] fun _ h => by cases h) .H (by decide) .d]

/-- `%hhd` prints a `d`, and leaves its argument where it is. -/
theorem not_prints_byteD :
    ¬ Prints (memoryOf (text byteD ++ [0])) fortyTwo byteD ∧
      (vprintf (memoryOf (text byteD ++ [0])) fortyTwo 8).map (fun s => (s.displayed, s.list)) =
        some (chars ['d'], 0) := by
  refine ⟨fun h => ?_, by decide +kernel⟩
  have hl : IsString (memoryOf (text byteD ++ [0])) (text byteD) :=
    isString_memoryOf (by decide) []
  obtain ⟨-, -, hused, -⟩ := h.spec hl
  exact absurd hused (by decide)

end Printf

end BbnOS
