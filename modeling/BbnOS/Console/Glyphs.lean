import BbnOS.Console.Clearing
import BbnOS.Lib.ByteBits

/-!
# The color of a glyph

What `_fbPutChar` should leave behind: the pixels of the glyph in the color
asked for, and all others as they were (`GlyphDrawn`).  It passes the guard and
stores to the right pixels, but in white whatever the color, and a row whose
start does not have 32 bits goes to another word.  `drawn_iff` says which
glyphs come out as they should.
-/

namespace BbnOS

namespace Console

open Loop Painting ByteBits

/-! ## Pixels and glyphs as the header describes them -/

/-- The word of the pixel in column `x` of row `y`. -/
def FbInfo.wordOf (info : FbInfo) (x y : Nat) : Nat :=
  y * info.pixelsPerScanline.toNat + x

/-- Bit `7 - dx` of row `dy` of a character's glyph, of sixteen rows. -/
def Font.bit (ft : Font) (chr : Int8) (dy dx : Nat) : Bool :=
  (ft.glyphBuffer (chr.toInt * 16 + dy)).toNat.testBit (7 - dx)

/-- The glyph is drawn in the color, with its upper left corner in `(x, y)`, and
nothing else has changed. -/
structure GlyphDrawn (info : FbInfo) (ft : Font) (color : UInt32) (chr : Int8) (x y : UInt32)
    (before after : UInt64 → UInt32) : Prop where
  cell : ∀ dy, dy < 16 → ∀ dx, dx < 8 → ∀ a : UInt64,
    a.toNat = info.wordOf (x.toNat + dx) (y.toNat + dy) →
      after a = if ft.bit chr dy dx then color else before a
  others : ∀ a : UInt64,
    (∀ dy, dy < 16 → ∀ dx, dx < 8 → a.toNat ≠ info.wordOf (x.toNat + dx) (y.toNat + dy)) →
      after a = before a

/-- `_fbPutChar` draws the glyph in its color, on every framebuffer content.  So
does `fb_putchar`, for the next character of a text after `fbSetColor`; when it
clears no line behind the character, that is how it leaves the framebuffer. -/
structure PrintedIn (info : FbInfo) (ft : Font) (color : UInt64) (chr : Int8) (x y : UInt32) :
    Prop where
  glyph : ∀ f : Frame, GlyphDrawn info ft color.toUInt32 chr x y f.words
    (fbPutCharAt info (some ft) color chr x y f).words
  text : ∀ (s t : Console) (done : List Int8), s.info = info → s.ft = some ft →
    t = (s.fbSetColor color.toUInt32).putchars done →
    t.enter = { x := x.toUInt64, y := y.toUInt64 } →
      GlyphDrawn info ft color.toUInt32 chr x y t.frame.words
          (t.place chr t.enter).1.frame.words ∧
        (t.clear ≠ 1 → (t.fbPutchar chr).wraps = t.wraps →
          GlyphDrawn info ft color.toUInt32 chr x y t.frame.words (t.fbPutchar chr).frame.words)

/-- The mask test of `_fbPutChar` reads the bit of the glyph. -/
theorem light_eq_bit {ft : Font} (hft : ft.charsize = 16) (chr : Int8) (dy : Nat) {dx : Nat}
    (hdx : dx < 8) : ft.light chr dy dx = ft.bit chr dy dx := by
  have hsize : ft.charsize.toNat = 16 := by
    rw [hft]
    rfl
  have hmask : (UInt8.ofNat dx).toNat = dx :=
    UInt8.toNat_ofNat_of_lt' (Nat.lt_trans hdx (by decide))
  have htest := and_highMask_ne_zero (ft.glyphBuffer (chr.toInt * 16 + dy))
    (k := UInt8.ofNat dx) (by omega)
  rw [hmask] at htest
  rw [Bool.eq_iff_iff, Font.light, hsize, decide_eq_true_iff, gt_iff_lt, UInt8.pos_iff_ne_zero]
  exact htest

/-! ## The words of a cell -/

section Words

variable {p x y : Nat}

/-- Pixels of a later row are in later words. -/
theorem word_lt_of_row_lt {r r' c c' : Nat} (hc : c < p) (hr : r < r') :
    r * p + c < r' * p + c' := by
  have hrow : (r + 1) * p ≤ r' * p := Nat.mul_le_mul_right p hr
  rw [Nat.succ_mul] at hrow
  omega

/-- Two pixels are two words. -/
theorem pixel_inj {r r' c c' : Nat} (hc : c < p) (hc' : c' < p) (h : r * p + c = r' * p + c') :
    r = r' ∧ c = c' := by
  rcases Nat.lt_trichotomy r r' with hr | hr | hr
  · have hlt : r * p + c < r' * p + c' := word_lt_of_row_lt hc hr
    omega
  · subst hr
    exact ⟨rfl, Nat.add_left_cancel h⟩
  · have hlt : r' * p + c' < r * p + c := word_lt_of_row_lt hc' hr
    omega

/-- If the word of every light pixel is stored to, though the source computes the
start of a row in 32 bits, then no row with a light pixel starts behind them. -/
theorem rows_lt_of_stored (lit : Nat → Nat → Prop) (hp : x + 8 ≤ p)
    (h : ∀ i, i < 16 → ∀ j, j < 8 → lit i j → ∃ i', i' < 16 ∧ ∃ j', j' < 8 ∧ lit i' j' ∧
      (y + i) * p + (x + j) = (y + i') * p % 2 ^ 32 + (x + j'))
    {i j : Nat} (hi : i < 16) (hj : j < 8) (hlit : lit i j) : (y + i) * p < 2 ^ 32 := by
  -- From the last pixel of the cell back: the store comes from that pixel or a later one.
  induction hn : 128 - (8 * i + j) using Nat.strong_induction_on generalizing i j with
  | _ n ih =>
    obtain ⟨i', hi', j', hj', hlit', heq⟩ := h i hi j hj hlit
    have hle := Nat.mod_le ((y + i') * p) (2 ^ 32)
    rcases Nat.lt_trichotomy i i' with hlt | rfl | hgt
    · have hlater := ih _ (by omega) hi' hj' hlit' rfl
      have hrow : (y + i) * p ≤ (y + i') * p := Nat.mul_le_mul_right p (by omega)
      omega
    · rcases Nat.lt_trichotomy j j' with hlt | rfl | hgt
      · exact ih _ (by omega) hi' hj' hlit' rfl
      · have hmod := Nat.mod_lt ((y + i) * p) (by decide : 0 < 2 ^ 32)
        omega
      · omega
    · have hrow : (y + i') * p + (x + j') < (y + i) * p + (x + j) :=
        word_lt_of_row_lt (by omega) (by omega)
      omega

end Words

/-! ## One glyph -/

section Glyph

variable {info : FbInfo} {ft : Font} {chr : Int8} {x y : UInt32}

/-- `_fbPutChar` stores white, in the words that it computes for the pixels of the
glyph. -/
theorem fbPutCharAt_stores (hft : ft.charsize = 16) (hx : x.toNat + 8 ≤ info.width.toNat)
    (hy : y.toNat + 16 ≤ info.height.toNat) (chr : Int8) (color : UInt64) (f : Frame) :
    Paints 0xffffffff
      (fun a => ∃ i, i < 16 ∧ ∃ j, j < 8 ∧ ft.bit chr i j = true ∧
        a.toNat = (y.toNat + i) * info.pixelsPerScanline.toNat % 2 ^ 32 + (x.toNat + j))
      f.words (fbPutCharAt info (some ft) color chr x y f).words := by
  have hwlt := info.width.toNat_lt
  have hhlt := info.height.toNat_lt
  have hx8 : (x + 8).toNat = x.toNat + 8 := toNat_add_ofNat32 (k := 8) _ hx hwlt
  have hy16 : (y + 16).toNat = y.toNat + 16 := toNat_add_ofNat32 (k := 16) _ hy hhlt
  refine (fbPutCharAt_paints color chr (outside_eq_false hx hy) hx8 hy16 f).congr fun a => ?_
  refine exists_congr fun i => and_congr_right fun hi => exists_congr fun j =>
    and_congr_right fun hj => ?_
  have hxj : (x + UInt32.ofNat j).toNat = x.toNat + j :=
    toNat_add_ofNat32 info.width.toNat (by omega) hwlt
  have hyi : (y + UInt32.ofNat i).toNat = y.toNat + i :=
    toNat_add_ofNat32 info.height.toNat (by omega) hhlt
  rw [light_eq_bit hft chr i hj, FbInfo.PixelAt, UInt32.lt_iff_toNat_lt, UInt32.lt_iff_toNat_lt,
    hxj, hyi, ← UInt64.toNat_inj, FbInfo.offset, UInt64.toNat_add, UInt32.toNat_toUInt64,
    UInt32.toNat_toUInt64, UInt32.toNat_mul, hxj, hyi]
  refine and_congr_right fun _ => ?_
  have hmod := Nat.mod_lt ((y.toNat + i) * info.pixelsPerScanline.toNat)
    (by decide : 0 < 2 ^ 32)
  omega

/-- White glyphs whose rows start in the first `2 ^ 32` words are drawn as they
should be. -/
theorem glyphDrawn_of_white (hft : ft.charsize = 16)
    (hscan : info.width.toNat ≤ info.pixelsPerScanline.toNat)
    (hx : x.toNat + 8 ≤ info.width.toNat) (hy : y.toNat + 16 ≤ info.height.toNat)
    {k : UInt32}
    (h : ∀ i, i < 16 → ∀ j, j < 8 → ft.bit chr i j = true →
      k = 0xffffffff ∧ (y.toNat + i) * info.pixelsPerScanline.toNat < 2 ^ 32)
    (color : UInt64) (f : Frame) :
    GlyphDrawn info ft k chr x y f.words
      (fbPutCharAt info (some ft) color chr x y f).words := by
  have hpaint := fbPutCharAt_stores hft hx hy chr color f
  have hword : ∀ i, i < 16 → ∀ j, j < 8 → ft.bit chr i j = true →
      (y.toNat + i) * info.pixelsPerScanline.toNat % 2 ^ 32 + (x.toNat + j) =
        info.wordOf (x.toNat + j) (y.toNat + i) := by
    intro i hi j hj hbit
    rw [Nat.mod_eq_of_lt (h i hi j hj hbit).2]
    rfl
  constructor
  · intro i hi j hj a ha
    cases hbit : ft.bit chr i j with
    | true =>
      rw [if_pos rfl, (h i hi j hj hbit).1]
      exact hpaint.covered a ⟨i, hi, j, hj, hbit, by rw [hword i hi j hj hbit, ha]⟩
    | false =>
      rw [if_neg Bool.false_ne_true]
      refine hpaint.kept a ?_
      rintro ⟨i', hi', j', hj', hbit', heq⟩
      rw [hword i' hi' j' hj' hbit', ha] at heq
      have hsame := pixel_inj (by omega) (by omega) heq
      obtain rfl : i = i' := by omega
      obtain rfl : j = j' := by omega
      rw [hbit] at hbit'
      exact Bool.false_ne_true hbit'
  · intro a ha
    refine hpaint.kept a ?_
    rintro ⟨i, hi, j, hj, hbit, heq⟩
    rw [hword i hi j hj hbit] at heq
    exact ha i hi j hj heq

/-- A glyph with a light pixel that is drawn as it should be on every content is
white, and its rows start in the first `2 ^ 32` words. -/
theorem white_of_glyphDrawn (hft : ft.charsize = 16)
    (hscan : info.width.toNat ≤ info.pixelsPerScanline.toNat)
    (hx : x.toNat + 8 ≤ info.width.toNat) (hy : y.toNat + 16 ≤ info.height.toNat)
    {color : UInt64}
    (h : ∀ f : Frame, GlyphDrawn info ft color.toUInt32 chr x y f.words
      (fbPutCharAt info (some ft) color chr x y f).words) :
    ∀ i, i < 16 → ∀ j, j < 8 → ft.bit chr i j = true →
      color.toUInt32 = 0xffffffff ∧ (y.toNat + i) * info.pixelsPerScanline.toNat < 2 ^ 32 := by
  -- a content that shows every store in the color
  let f : Frame := { words := fun _ => color.toUInt32 + 1, stores := [] }
  have hpaint := fbPutCharAt_stores hft hx hy chr color f
  have hstored : ∀ i, i < 16 → ∀ j, j < 8 → ft.bit chr i j = true →
      color.toUInt32 = 0xffffffff ∧ ∃ i', i' < 16 ∧ ∃ j', j' < 8 ∧ ft.bit chr i' j' = true ∧
        (y.toNat + i) * info.pixelsPerScanline.toNat + (x.toNat + j) =
          (y.toNat + i') * info.pixelsPerScanline.toNat % 2 ^ 32 + (x.toNat + j') := by
    intro i hi j hj hbit
    have hword : (UInt64.ofNat (info.wordOf (x.toNat + j) (y.toNat + i))).toNat =
        info.wordOf (x.toNat + j) (y.toNat + i) := by
      refine UInt64.toNat_ofNat_of_lt' ?_
      have hwlt := info.width.toNat_lt
      have hhlt := info.height.toNat_lt
      have hplt := info.pixelsPerScanline.toNat_lt
      have hrow : (y.toNat + i) * info.pixelsPerScanline.toNat ≤ (2 ^ 32 - 1) * (2 ^ 32 - 1) :=
        Nat.mul_le_mul (by omega) (by omega)
      rw [FbInfo.wordOf]
      show _ < 2 ^ 64
      omega
    have hafter := (h f).cell i hi j hj _ hword
    rw [hbit, if_pos rfl] at hafter
    have hcov : ∃ i', i' < 16 ∧ ∃ j', j' < 8 ∧ ft.bit chr i' j' = true ∧
        (UInt64.ofNat (info.wordOf (x.toNat + j) (y.toNat + i))).toNat =
          (y.toNat + i') * info.pixelsPerScanline.toNat % 2 ^ 32 + (x.toNat + j') := by
      by_contra hnot
      rw [hpaint.kept _ hnot] at hafter
      have hne : color.toUInt32 + 1 ≠ color.toUInt32 := by simp
      exact hne hafter
    have hwhite := hpaint.covered _ hcov
    rw [hword] at hcov
    exact ⟨hafter.symm.trans hwhite, hcov⟩
  intro i hi j hj hbit
  exact ⟨(hstored i hi j hj hbit).1,
    rows_lt_of_stored (fun i j => ft.bit chr i j = true) (by omega)
      (fun i hi j hj hbit => (hstored i hi j hj hbit).2) hi hj hbit⟩

end Glyph

/-! ## Texts -/

section Text

variable {s : Console}

/-- Before the text has been at the end of the screen, `wrapLine` clears nothing. -/
theorem wrapLine_of_not_clear (h : s.clear ≠ 1) (p : CursorPosition) : (s.wrapLine p).1 = s := by
  simp only [wrapLine, if_neg h]
  split <;> rfl

/-- A character with which `fb_putchar` clears nothing: its drawing is all that
happens to the framebuffer. -/
theorem frame_fbPutchar {c : Int8} {ft : Font} (hft : s.ft = some ft) (hclear : s.clear ≠ 1)
    (hwrap : (s.fbPutchar c).wraps = s.wraps) :
    (s.fbPutchar c).frame = (s.place c s.enter).1.frame := by
  have hput : ∃ p, s.fbPutchar c = { (s.settle c).1 with cursor := p } := by
    rcases hplace : s.place c s.enter with ⟨s₁, p₁⟩
    rcases hline : s₁.wrapLine p₁ with ⟨s₂, p₂⟩
    rcases hscreen : s₂.wrapScreen p₂ with ⟨s₃, p₃⟩
    refine ⟨s₃.leave p₃, ?_⟩
    rw [fbPutchar, hft, Option.isNone_some, if_neg Bool.false_ne_true]
    simp only [settle, hplace, hline, hscreen]
  obtain ⟨p, hput⟩ := hput
  have hline : ((s.place c s.enter).1.wrapLine (s.place c s.enter).2).1 =
      (s.place c s.enter).1 :=
    wrapLine_of_not_clear (by rw [clear_place]; exact hclear) _
  have hwraps := wraps_place c s s.enter
  have hsettle : s.settle c =
      ((s.place c s.enter).1.wrapLine (s.place c s.enter).2).1.wrapScreen
        ((s.place c s.enter).1.wrapLine (s.place c s.enter).2).2 := rfl
  rw [hline] at hsettle
  rw [hput, hsettle] at hwrap ⊢
  unfold wrapScreen at hwrap ⊢
  split
  · rename_i hy
    rw [if_pos hy] at hwrap
    have hsucc : (s.place c s.enter).1.wraps + 1 = s.wraps := hwrap
    omega
  · rfl

/-- `fb_putchar` draws the next character in the color of `fbSetColor`, as
`_fbPutChar` does. -/
theorem text_of_glyph {info : FbInfo} {ft : Font} {chr : Int8} {x y : UInt32} {k : UInt32}
    (hchr : 0x20 ≤ chr)
    (h : ∀ f : Frame, GlyphDrawn info ft k chr x y f.words
      (fbPutCharAt info (some ft) k.toUInt64 chr x y f).words)
    {s t : Console} {done : List Int8} (hinfo : s.info = info) (hft : s.ft = some ft)
    (ht : t = (s.fbSetColor k).putchars done)
    (hat : t.enter = { x := x.toUInt64, y := y.toUInt64 }) :
    GlyphDrawn info ft k chr x y t.frame.words (t.place chr t.enter).1.frame.words ∧
      (t.clear ≠ 1 → (t.fbPutchar chr).wraps = t.wraps →
        GlyphDrawn info ft k chr x y t.frame.words (t.fbPutchar chr).frame.words) := by
  have hsame : SameSettings (s.fbSetColor k) t := by
    rw [ht, putchars_eq_calls]
    exact settings_calls _ _
  have hinfot : t.info = info := hsame.info.trans hinfo
  have hftt : t.ft = some ft := hsame.ft.trans hft
  have hcolor : t.color = k.toUInt64 := hsame.color
  have hplace : (t.place chr t.enter).1.frame =
      fbPutCharAt info (some ft) k.toUInt64 chr x y t.frame := by
    rw [place_of_glyph hchr, hat, hinfot, hftt, hcolor, UInt32.toUInt32_toUInt64,
      UInt32.toUInt32_toUInt64]
  have hdrawn : GlyphDrawn info ft k chr x y t.frame.words
      (t.place chr t.enter).1.frame.words := by
    rw [hplace]
    exact h t.frame
  refine ⟨hdrawn, fun hclear hwrap => ?_⟩
  rw [frame_fbPutchar hftt hclear hwrap]
  exact hdrawn

end Text

/-! ## Which glyphs are drawn as they should be -/

/-- A glyph comes out in its color, and alone, if and only if the color is white in
its 32 bits and no row with a light pixel starts behind the first `2 ^ 32` words,
or there is no light pixel. -/
theorem drawn_iff {info : FbInfo} {ft : Font} (hft : ft.charsize = 16)
    (hscan : info.width.toNat ≤ info.pixelsPerScanline.toNat) (color : UInt64) {chr : Int8}
    (hchr : 0x20 ≤ chr ∧ chr ≤ 0x7e) {x y : UInt32} (hx : x.toNat + 8 ≤ info.width.toNat)
    (hy : y.toNat + 16 ≤ info.height.toNat) :
    PrintedIn info ft color chr x y ↔
      ∀ dy, dy < 16 → ∀ dx, dx < 8 → ft.bit chr dy dx = true →
        color.toUInt32 = 0xffffffff ∧
          (y.toNat + dy) * info.pixelsPerScanline.toNat < 2 ^ 32 := by
  constructor
  · intro h
    exact white_of_glyphDrawn hft hscan hx hy h.glyph
  · intro h
    have hwhite := glyphDrawn_of_white hft hscan hx hy h
    exact ⟨hwhite color, fun s t done hinfo hsome ht hat =>
      text_of_glyph hchr.1 (hwhite color.toUInt32.toUInt64) hinfo hsome ht hat⟩

/-- A red `A` on the small screen comes out white. -/
theorem not_printedIn_red : ¬ PrintedIn smallScreen.info blockFont 0xffff0000 65 0 0 := by
  intro h
  have hafter := (h.glyph { words := smallScreen.words, stores := [] }).cell 0 (by decide) 0
    (by decide) 0 (by decide)
  revert hafter
  decide +kernel

/-- A white `A` comes out white. -/
theorem drawn_white : PrintedIn smallScreen.info blockFont 0xffffffff 65 0 0 := by
  refine (drawn_iff (by decide) (by decide) 0xffffffff (by decide) (by decide)
    (by decide)).mpr fun dy hdy dx hdx _ => ⟨rfl, ?_⟩
  have hscan : smallScreen.info.pixelsPerScanline.toNat = 80 := rfl
  rw [hscan, show (0 : UInt32).toNat = 0 from rfl]
  omega

end Console

end BbnOS
