import BbnOS.Console.Framebuffer

/-!
# The keyboard of `keycode.c`

`keyboardHandle` gets every scan code that the keyboard sends.  It keeps the
state of the two shift keys and whether the last code was the prefix `0xE0`,
and prints the character of the key that was pressed.

What a call does besides its statics is a `KeyAction`, among them the call of
`keycodeTranslate` with its two arguments.  `KeyAction.calls` are the calls of
the console that an action comes to.
-/

namespace BbnOS

namespace Keyboard

/-- A character constant. -/
def ch (c : Char) : Int8 := Int8.ofNat c.toNat

/-- `ASCIITable`, the characters of the codes 0x00 to 0x53.  The numbers are the
apostrophe, the grave accent and the backslash. -/
def asciiTable : List Int8 :=
  [0, 0] ++ ['1', '2', '3', '4', '5', '6', '7', '8', '9', '0', '-', '='].map ch ++
  [0, 0] ++ ['q', 'w', 'e', 'r', 't', 'y', 'u', 'i', 'o', 'p', '[', ']'].map ch ++
  [0, 0] ++ ['a', 's', 'd', 'f', 'g', 'h', 'j', 'k', 'l', ';'].map ch ++ [0x27, 0x60] ++
  [0, 0x5c] ++ ['z', 'x', 'c', 'v', 'b', 'n', 'm', ',', '.', '/'].map ch ++ [0, ch '*'] ++
  [0, ch ' '] ++ List.replicate 12 0 ++
  [0] ++ ['7', '8', '9', '-', '4', '5', '6', '+', '1', '2', '3', '0', '.'].map ch

/-- `upper_case_map`, for the characters from the comma to the digit 9. -/
def upperCaseMap : List Int8 :=
  ['<', '_', '>', '?', ')', '!', '@', '#', '$', '%', '^', '&', '*', '('].map ch

def keycodeBackspace : UInt8 := 0x0E
def keycodeEnter : UInt8 := 0x1C
def keycodeLShift : UInt8 := 0x2A
def keycodeRShift : UInt8 := 0x36
def keycodeSpace : UInt8 := 0x39

/-- The prefix of the codes of the extended keys. -/
def prefixE0 : UInt8 := 0xE0

/-- The upper case of a character, as `keycodeTranslate` has it. -/
def upperCase (c : Int8) : Int8 :=
  if c ≥ ch 'a' ∧ c ≤ ch 'z' then c + (ch 'A' - ch 'a')
  else if c ≥ ch ',' ∧ c ≤ ch '9' then upperCaseMap.getD (c - ch ',').toInt.toNat 0
  else if c = ch ';' then ch ':'
  else if c = 0x27 then 0x22
  else if c = ch '[' then 0x7b
  else if c = ch ']' then 0x7d
  else if c = 0x5c then ch '|'
  else if c = 0x60 then ch '~'
  else if c = ch '=' then ch '+'
  else c

/-- `keycodeTranslate`. -/
def keycodeTranslate (scancode : UInt8) (uppercase : Bool) : Int8 :=
  if scancode > 0x53 then 0
  else
    let charToPrint := asciiTable.getD scancode.toNat 0
    if charToPrint = 0 then 0
    else if uppercase then upperCase charToPrint
    else charToPrint

/-- What a call of `keyboardHandle` does besides its statics. -/
inductive KeyAction where
  | nothing
  | notImplemented
  | newline
  | clearChar
  | space
  | translate (scancode : UInt8) (uppercase : Bool)
  deriving DecidableEq

/-- The text of a `printf` without arguments. -/
def text (s : List Char) : List Console.Call := s.map fun c => .putchar (ch c)

/-- The calls of the console for an action. -/
def KeyAction.calls : KeyAction → List Console.Call
  | nothing => []
  | notImplemented => text "!! 0xE0 function not implemented\n".toList
  | newline => text ['\n']
  | clearChar => [.clearChar]
  | space => text [' ']
  | translate scancode uppercase =>
    let ascii := keycodeTranslate scancode uppercase
    if ascii ≠ 0 then [.putchar ascii] else []

end Keyboard

open Keyboard

/-- The statics of `keyboardHandle`. -/
structure Keyboard where
  lshift : Bool
  rshift : Bool
  e0Prefix : Bool
  deriving DecidableEq

namespace Keyboard

/-- The keyboard when the kernel starts. -/
def init : Keyboard where
  lshift := false
  rshift := false
  e0Prefix := false

/-- `keyboardHandle`. -/
def keyboardHandle (scancode : UInt8) (k : Keyboard) : KeyAction × Keyboard :=
  if scancode = prefixE0 then (.nothing, { k with e0Prefix := true })
  else if k.e0Prefix = false then
    let pressed := !(scancode &&& 0x80 == 0x80)
    let scancode := if pressed then scancode else scancode - 0x80
    if scancode = keycodeLShift then (.nothing, { k with lshift := pressed })
    else if scancode = keycodeRShift then (.nothing, { k with rshift := false })
    else if scancode = keycodeEnter then (if pressed then .newline else .nothing, k)
    else if scancode = keycodeBackspace then (if pressed then .clearChar else .nothing, k)
    else if scancode = keycodeSpace then (if pressed then .space else .nothing, k)
    else (if pressed then .translate scancode (k.lshift || k.rshift) else .nothing, k)
  else (.notImplemented, { k with e0Prefix := false })

/-- The state after a sequence of scan codes. -/
def handleAll (codes : List UInt8) (k : Keyboard) : Keyboard :=
  codes.foldl (fun k scancode => (keyboardHandle scancode k).2) k

end Keyboard

end BbnOS
