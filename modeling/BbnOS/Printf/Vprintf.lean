import BbnOS.Lib.Loop
import BbnOS.Printf.IntStr

/-!
# The formatted print

`vprintf` of `printf.c`.  The format is given by the characters around its
pointer, and the index `i` is an `int` that wraps.  An argument takes a slot of 64
bits, and a string argument is the list of its characters before the zero.

The source tests `format[i]` in many places; each of them is a `look`, which keeps
the index in `reads`.  `reads` is a history variable, and so are the characters
`displayed` and the `stores` of `%n`: no function reads them.  The objects that the
arguments point to overlap neither the format nor each other.

Not modelled: the conversions of floating-point numbers.
-/

namespace BbnOS

namespace Printf

open Loop

/-! ## The variables of a conversion -/

/-- The values of `length`. -/
inductive Length where
  | nul | H | h | l | q | j | z | t | L
  deriving DecidableEq

/-- The variables of `vprintf` that belong to one conversion. -/
structure Conversion where
  leftJustify : Bool
  plusSign : Bool
  altForm : Bool
  spaceNoSign : Bool
  zeroPad : Bool
  lengthSpec : Int32
  precSpec : Int32
  length : Length
  deriving DecidableEq

/-- The variables at the start of a conversion. -/
def Conversion.initial : Conversion where
  leftJustify := false
  plusSign := false
  altForm := false
  spaceNoSign := false
  zeroPad := false
  lengthSpec := 0
  precSpec := 0
  length := .nul

/-- The `switch` over the flags, `none` for `extBreak`. -/
def flag (c : UInt8) (v : Conversion) : Option Conversion :=
  if c = '-'.toUInt8 then some { v with leftJustify := true }
  else if c = '+'.toUInt8 then some { v with plusSign := true }
  else if c = '#'.toUInt8 then some { v with altForm := true }
  else if c = ' '.toUInt8 then some { v with spaceNoSign := true }
  else if c = '0'.toUInt8 then some { v with zeroPad := true }
  else none

/-- `isdigit`. -/
def isdigit (c : UInt8) : Bool := '0'.toUInt8 ≤ c && c ≤ '9'.toUInt8

/-- A digit `c` at the end of the number `n`. -/
def appendDigit (n : Int32) (c : UInt8) : Int32 :=
  n * 10 + (c.toUInt32.toInt32 - 48)

/-- A digit of the width, `none` for any other character. -/
def widthDigit (c : UInt8) (v : Conversion) : Option Conversion :=
  if isdigit c then some { v with lengthSpec := appendDigit v.lengthSpec c } else none

/-- A digit of the precision. -/
def precDigit (c : UInt8) (v : Conversion) : Option Conversion :=
  if isdigit c then some { v with precSpec := appendDigit v.precSpec c } else none

/-- The width from an argument. -/
def setWidth (n : Int32) (v : Conversion) : Conversion := { v with lengthSpec := n }

/-- The precision from an argument. -/
def setPrec (n : Int32) (v : Conversion) : Conversion := { v with precSpec := n }

/-- The characters that `length` accepts. -/
def lengthOf (c : UInt8) : Option Length :=
  if c = 'h'.toUInt8 then some .h
  else if c = 'l'.toUInt8 then some .l
  else if c = 'j'.toUInt8 then some .j
  else if c = 'z'.toUInt8 then some .z
  else if c = 't'.toUInt8 then some .t
  else if c = 'L'.toUInt8 then some .L
  else none

/-! ## The state -/

/-- The arguments: the slots of the list, and the strings behind the pointers. -/
structure Arguments where
  slot : Nat → UInt64
  string : UInt64 → List UInt8

/-- The `int` in a slot. -/
def Arguments.int (args : Arguments) (n : Nat) : Int32 :=
  (args.slot n).toUInt32.toInt32

/-- A store of `%n`: its address, its size in bytes, and the value. -/
structure Store where
  address : UInt64
  size : Nat
  value : Int32
  deriving DecidableEq

/-- The variables of `vprintf`, the arguments that were taken, and the history. -/
structure State where
  i : Int32
  list : Nat
  chars : Int32
  displayed : List UInt8
  stores : List Store
  reads : List Int32
  deriving DecidableEq

namespace State

/-- The state at the start of `vprintf`. -/
def initial : State where
  i := 0
  list := 0
  chars := 0
  displayed := []
  stores := []
  reads := []

/-- `format[i]`. -/
def char (format : Int → UInt8) (s : State) : UInt8 := format s.i.toInt

/-- A test of `format[i]`. -/
def look (s : State) : State := { s with reads := s.i :: s.reads }

/-- `++i`. -/
def next (s : State) : State := { s with i := s.i + 1 }

/-- `va_arg`. -/
def take (s : State) : State := { s with list := s.list + 1 }

/-- `displayCharacter`, for each character. -/
def display (t : List UInt8) (s : State) : State :=
  { s with displayed := s.displayed ++ t, chars := s.chars + Int32.ofNat t.length }

/-- `displayString`.  Its index is an `int`. -/
def displayString (t : List UInt8) (s : State) : Option State :=
  if t.length < 2 ^ 31 then some (s.display t) else none

end State

/-! ## Scanning a conversion -/

section Scan

variable (format : Int → UInt8) (args : Arguments)

/-- A loop over characters of one kind. -/
def skipWhile (step : UInt8 → Conversion → Option Conversion) :
    Nat → State × Conversion → Option (State × Conversion) :=
  whileFuel
    (fun x => some
      (match step (x.1.char format) x.2 with
      | some v => (true, (x.1.look, v))
      | none => (false, (x.1.look, x.2))))
    fun x => some (x.1.next, x.2)

/-- A `*`. -/
def star (set : Int32 → Conversion → Conversion) (x : State × Conversion) : State × Conversion :=
  if x.1.char format = '*'.toUInt8 then (x.1.look.take.next, set (args.int x.1.list) x.2)
  else (x.1.look, x.2)

/-- The precision. -/
def precision (fuel : Nat) (x : State × Conversion) : Option (State × Conversion) :=
  if x.1.char format = '.'.toUInt8 then
    (skipWhile format precDigit fuel (x.1.look.next, x.2)).map (star format args setPrec)
  else some (x.1.look, setPrec 6 x.2)

/-- The length.  The source does not step over the second `h` of `hh`. -/
def lengthModifier (x : State × Conversion) : State × Conversion :=
  match lengthOf (x.1.char format) with
  | none => (x.1.look, x.2)
  | some length =>
    let s := x.1.look.next
    if s.char format = 'h'.toUInt8 then (s.look, { x.2 with length := .H })
    else if s.char format = 'l'.toUInt8 then (s.look.next, { x.2 with length := .q })
    else (s.look, { x.2 with length := length })

/-- The conversion up to its specifier. -/
def scan (fuel : Nat) (s : State) : Option (State × Conversion) := do
  let x ← skipWhile format flag fuel (s, Conversion.initial)
  let x ← skipWhile format widthDigit fuel x
  let x ← precision format args fuel (star format args setWidth x)
  some (lengthModifier format x)

end Scan

/-! ## Conversions -/

/-- The argument of an unsigned conversion as an `intmax_t`, if one is taken. -/
def unsignedArg (length : Length) (a : UInt64) : Option Int64 :=
  match length with
  | .nul => some a.toUInt32.toUInt64.toInt64
  | .H => some a.toUInt8.toUInt64.toInt64
  | .h => some a.toUInt16.toUInt64.toInt64
  | .l | .q | .j | .z | .t => some a.toInt64
  | .L => none

/-- The argument of a signed conversion. -/
def signedArg (length : Length) (a : UInt64) : Option Int64 :=
  match length with
  | .nul => some a.toUInt32.toInt32.toInt64
  | .H => some a.toUInt8.toInt8.toInt64
  | .h => some a.toUInt16.toInt16.toInt64
  | .l | .q | .j | .z | .t => some a.toInt64
  | .L => none

/-- An integer, if an argument is taken for it. -/
def printInteger (integer : Option Int64) (base : Int32) (v : Conversion) (s : State) :
    Option State :=
  match integer with
  | none => some s
  | some i => do
    let b ← intStr i (List.replicate 256 0) base v.plusSign v.spaceNoSign v.lengthSpec
      v.leftJustify v.zeroPad
    let t ← textOf b
    some (s.take.display t)

/-- The size of the object to which `%n` stores. -/
def sizeOfLength (length : Length) : Option Nat :=
  match length with
  | .nul => some 4
  | .H => some 1
  | .h => some 2
  | .l | .q | .j | .z | .t => some 8
  | .L => none

/-- What `vprintf` prints for `%lc`, by a call of `printf`. -/
def wcharError : List UInt8 :=
  chars "vprintf: ERROR: wchar not supported!\n".toList

/-- What the `switch` over the specifier tells apart. -/
inductive Kind where
  /-- An unsigned integer, with its base and the prefix of `#`. -/
  | unsigned (base : Int32) (altPrefix : List Char)
  | pointer
  | signed
  | char
  | string
  | store
  /-- A floating-point number. -/
  | float
  | other
  deriving DecidableEq

/-- The `switch` over the specifier, with the changes of `specifier` before it. -/
def kindOf (specifier : UInt8) : Kind :=
  if specifier = 'o'.toUInt8 then .unsigned 8 ['0']
  else if specifier = 'p'.toUInt8 then .pointer
  else if specifier = 'X'.toUInt8 then .unsigned 16 ['0', 'x']
  else if specifier = 'x'.toUInt8 then .unsigned 17 ['0', 'x']
  else if specifier = 'u'.toUInt8 then .unsigned 10 []
  else if specifier = 'd'.toUInt8 ∨ specifier = 'i'.toUInt8 then .signed
  else if specifier = 'c'.toUInt8 then .char
  else if specifier = 's'.toUInt8 then .string
  else if specifier = 'n'.toUInt8 then .store
  else if specifier ∈ chars ['e', 'E', 'f', 'F', 'g', 'G'] then .float
  else .other

/-- One conversion. -/
def convert (args : Arguments) (v : Conversion) (specifier : UInt8) (s : State) : Option State :=
  let a := args.slot s.list
  match kindOf specifier with
  | .unsigned base altPrefix =>
    printInteger (unsignedArg v.length a) base v
      (if v.altForm then s.display (chars altPrefix) else s)
  | .pointer => printInteger (unsignedArg .z a) 16 v s
  | .signed => printInteger (signedArg v.length a) 10 v s
  | .char =>
    -- the nested printf does not count for this call
    if v.length = .l then some { s with displayed := s.displayed ++ wcharError }
    else some (s.take.display [a.toUInt8])
  | .string => s.take.displayString (args.string a)
  | .store =>
    match sizeOfLength v.length with
    | some size => some { s.take with stores := s.stores ++ [⟨a, size, s.chars⟩] }
    | none => some s
  | .float => none
  | .other => some s

/-! ## The loop -/

section Loop

variable (format : Int → UInt8) (args : Arguments)

/-- The body of the loop, with its `++i`. -/
def round (fuel : Nat) (s : State) : Option State :=
  if s.char format = '%'.toUInt8 then do
    let (s, v) ← scan format args fuel s.look.next
    let s ← convert args v (s.char format) s.look
    some s.next
  else some (s.look.display [s.char format]).next

/-- The loop, from some state on. -/
def vprintfFrom (inner : Nat) : Nat → State → Option State :=
  whileFuel (fun s => some (s.char format != 0, s.look)) (round format args inner)

/-- `vprintf`, for at most `fuel` rounds of each loop. -/
def vprintf (fuel : Nat) : Option State :=
  vprintfFrom format args fuel fuel State.initial

end Loop

end Printf

end BbnOS
