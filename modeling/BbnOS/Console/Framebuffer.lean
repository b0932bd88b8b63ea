import BbnOS.Lib.Loop

/-!
# The framebuffer console

The text console of `fb.c`: a framebuffer of 32-bit words, a font of glyphs
that are eight pixels wide and sixteen high, and a cursor that `fb_putchar`
moves over the screen.  `Console` is the state: the statics of `fb.c`, among
them the static local `clear` of `fb_putchar`, and the words of the
framebuffer, counted from its base address.

`fb_putchar` is written as its five pieces in the order of the source:
`enter`, `place`, `wrapLine`, `wrapScreen` and `leave`.  The counter of a loop
over scanlines has 32 bits; no row of a screen ends where it would wrap.

`stores` and `wraps` are history variables: the offsets of all stores to the
framebuffer since `fbInit`, and how often `fb_putchar` has gone back to the top
of the screen since then.  No function reads them.
-/

namespace BbnOS

namespace Console

open Loop

/-! ## Pixels -/

/-- The fields of `fb_info` that the console reads. -/
structure FbInfo where
  width : UInt32
  height : UInt32
  pixelsPerScanline : UInt32
  deriving DecidableEq

/-- The offset of a pixel, in words.  The product has 32 bits. -/
def FbInfo.offset (info : FbInfo) (x y : UInt32) : UInt64 :=
  x.toUInt64 + (y * info.pixelsPerScanline).toUInt64

/-- The words of the framebuffer, and the history of the stores to them. -/
structure Frame where
  words : UInt64 → UInt32
  stores : List UInt64

/-- A store of one word. -/
def Frame.write (f : Frame) (a : UInt64) (color : UInt32) : Frame where
  words := fun b => if b = a then color else f.words b
  stores := a :: f.stores

/-- `_setColorOfPixel`. -/
def setColorOfPixel (info : FbInfo) (color x y : UInt32) (f : Frame) : Frame :=
  if x ≥ info.width ∨ y ≥ info.height then f else f.write (info.offset x y) color

/-- The inner loop with which `fb_putchar` clears one scanline. -/
def clearLine (info : FbInfo) (color y : UInt32) : Frame → Frame :=
  forUpto (fun x => setColorOfPixel info color (UInt32.ofNat x) y) info.width.toNat

/-- The outer loop: `n` scanlines from `y` down. -/
def clearLines (info : FbInfo) (color y : UInt32) (n : Nat) : Frame → Frame :=
  forUpto (fun i => clearLine info color (y + UInt32.ofNat i)) n

/-! ## Glyphs -/

/-- `PSF1_FONT`: the size of a glyph in bytes, and the bytes around
`glyph_buffer`. -/
structure Font where
  charsize : UInt8
  glyphBuffer : Int → UInt8

/-- The bit of a glyph for one pixel, `i` scanlines down and `j` pixels in. -/
def Font.light (ft : Font) (chr : Int8) (i j : Nat) : Bool :=
  (ft.glyphBuffer (chr.toInt * ft.charsize.toNat + i) &&& (0b10000000 >>> UInt8.ofNat j)) > 0

/-- The guard of `_fbPutChar`: the glyph would leave the screen. -/
def FbInfo.outside (info : FbInfo) (x y : UInt32) : Bool :=
  x > info.width - 8 || y > info.height - 16

/-- `_fbPutChar`.  The color is not used. -/
def fbPutCharAt (info : FbInfo) (ft : Option Font) (_color : UInt64) (chr : Int8) (x y : UInt32)
    (f : Frame) : Frame :=
  match ft with
  | none => f
  | some ft =>
    if info.outside x y then f
    else
      forUpto (fun i =>
        forUpto (fun j f =>
          if ft.light chr i j then
            setColorOfPixel info 0xffffffff (x + UInt32.ofNat j) (y + UInt32.ofNat i) f
          else f) ((x + 8).toNat - x.toNat)) ((y + 16).toNat - y.toNat) f

/-! ## The console -/

/-- `CursorPosition`. -/
structure CursorPosition where
  x : UInt64
  y : UInt64
  deriving DecidableEq

end Console

open Console Loop

/-- The statics of `fb.c`, the framebuffer, and the history. -/
structure Console where
  info : FbInfo
  ft : Option Font
  color : UInt64
  cursor : CursorPosition
  clear : UInt32
  frame : Frame
  wraps : Nat

/-- `Framebuffer`, with the words behind its base address. -/
structure Framebuffer where
  info : FbInfo
  words : UInt64 → UInt32

namespace Console

/-- The console before `fbInit`. -/
def initial : Console where
  info := { width := 0, height := 0, pixelsPerScanline := 0 }
  ft := none
  color := 0xffffffff
  cursor := { x := 0, y := 0 }
  clear := 0
  frame := { words := fun _ => 0, stores := [] }
  wraps := 0

/-- `fbInit`. -/
def fbInit (fb : Framebuffer) (ft : Option Font) (color : UInt64) (s : Console) : Console :=
  { s with
    info := fb.info
    ft := ft
    color := color
    cursor := { x := 0, y := 0 }
    frame := { words := fb.words, stores := [] }
    wraps := 0 }

/-- `fbSetColor`. -/
def fbSetColor (color : UInt32) (s : Console) : Console :=
  { s with color := color.toUInt64 }

/-- `fbResetCursor`. -/
def fbResetCursor (x y : UInt64) (s : Console) : Console :=
  { s with cursor := { x := x, y := y } }

/-! ## The pieces of `fb_putchar` -/

/-- The position at which `fb_putchar` starts. -/
def enter (s : Console) : CursorPosition :=
  if s.cursor.x > s.info.width.toUInt64 || s.cursor.y > (s.info.height - 16).toUInt64 then
    { x := 0, y := 0 }
  else s.cursor

/-- What `fb_putchar` does for the character. -/
def place (c : Int8) (s : Console) (p : CursorPosition) : Console × CursorPosition :=
  if c = 0x08 ∧ p.x > 8 then (s, { p with x := p.x - 8 })
  else if c = 0x09 then (s, { p with x := (p.x + 64) &&& ~~~(64 - 1) })
  else if c = 13 then (s, { p with x := 0 })
  else if c = 10 then
    let p := { x := 0, y := p.y + 16 }
    if s.clear = 1 then
      ({ s with frame := clearLines s.info 0x00000000 p.y.toUInt32 16 s.frame }, p)
    else (s, p)
  else if c ≥ 32 then
    ({ s with frame := fbPutCharAt s.info s.ft s.color c p.x.toUInt32 p.y.toUInt32 s.frame },
      { p with x := p.x + 8 })
  else (s, p)

/-- At the end of a line `fb_putchar` goes to the next one. -/
def wrapLine (s : Console) (p : CursorPosition) : Console × CursorPosition :=
  if p.x ≥ (s.info.width - 8).toUInt64 then
    let p := { x := 0, y := p.y + 16 }
    if s.clear = 1 then
      let n := min 16 (s.info.height.toNat - p.y.toNat)
      ({ s with frame := clearLines s.info 0xff000000 p.y.toUInt32 n s.frame }, p)
    else (s, p)
  else (s, p)

/-- Behind the last line `fb_putchar` goes to the top. -/
def wrapScreen (s : Console) (p : CursorPosition) : Console × CursorPosition :=
  if p.y ≥ (s.info.height - 16).toUInt64 then
    ({ s with
        clear := s.clear + 1
        frame := clearLines s.info 0xff000000 0 16 s.frame
        wraps := s.wraps + 1 },
      { x := 0, y := 0 })
  else (s, p)

/-- The position at which `fb_putchar` leaves the cursor. -/
def leave (s : Console) (p : CursorPosition) : CursorPosition :=
  if p.x > (s.info.width - 8).toUInt64 || p.y > (s.info.height - 16).toUInt64 then
    { x := 0, y := 0 }
  else p

/-- `fb_putchar`. -/
def fbPutchar (c : Int8) (s : Console) : Console :=
  if s.ft.isNone then s
  else
    let p := s.enter
    let (s, p) := s.place c p
    let (s, p) := s.wrapLine p
    let (s, p) := s.wrapScreen p
    { s with cursor := s.leave p }

/-! ## Backspace -/

/-- The loops of `fbClearChar`, which blank the cell at a position. -/
def clearCell (info : FbInfo) (p : CursorPosition) : Frame → Frame :=
  forUpto (fun i =>
    forUpto (fun j =>
      setColorOfPixel info 0 (p.x + UInt64.ofNat j).toUInt32 (p.y + UInt64.ofNat i).toUInt32)
      ((p.x + 8).toNat - p.x.toNat)) ((p.y + 16).toNat - p.y.toNat)

/-- `fbClearChar`. -/
def fbClearChar (s : Console) : Console :=
  if s.cursor.x < 8 then
    if s.cursor.y < 16 then s
    else
      let p := { x := (s.info.width - 8).toUInt64, y := s.cursor.y - 16 }
      { s with cursor := p, frame := clearCell s.info p s.frame }
  else
    let p := { s.cursor with x := s.cursor.x - 8 }
    { s with cursor := p, frame := clearCell s.info p s.frame }

/-! ## Calls from outside -/

/-- A call of one of the console functions. -/
inductive Call where
  | putchar (c : Int8)
  | clearChar
  | resetCursor

/-- The state after one call. -/
def call (s : Console) : Call → Console
  | .putchar c => s.fbPutchar c
  | .clearChar => s.fbClearChar
  | .resetCursor => s.fbResetCursor 0 0

/-- The state after a sequence of calls. -/
def calls (s : Console) (l : List Call) : Console :=
  l.foldl call s

/-- The state after a text. -/
def putchars (s : Console) (l : List Int8) : Console :=
  l.foldl (fun s c => s.fbPutchar c) s

end Console

end BbnOS
