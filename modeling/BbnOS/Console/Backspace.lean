import BbnOS.Console.Clearing

/-!
# Backspace after a character

`fb_putchar` ends a line when the column behind the character reaches
`Width - 8`, so a text leaves the last cell of a line empty.  `fbClearChar`, at
the start of a line, goes back to exactly that cell.  It undoes a character
inside a line, but not the one with which a line ended (`undone_iff`): then it
clears the empty cell and leaves the character.
-/

namespace BbnOS

namespace Console

open Loop Painting

/-- A state of the console after `fbInit` and any calls. -/
def Reached (fb : Framebuffer) (s : Console) : Prop :=
  ∃ ft color s₀ l, s = (fbInit fb ft color s₀).calls l

/-- `fb_putchar` and then `fbClearChar` bring the cursor back, and blank the cell
in which the character was drawn. -/
structure Undone (c : Int8) (s : Console) : Prop where
  cursor : (s.fbPutchar c).fbClearChar.cursor = s.cursor
  cell : s.ft ≠ none → ∀ i, i < 16 → ∀ j, j < 8 →
    (s.fbPutchar c).fbClearChar.frame.words
      (s.info.offset (s.enter.x.toUInt32 + UInt32.ofNat j)
        (s.enter.y.toUInt32 + UInt32.ofNat i)) = 0

/-! ## Without a font -/

/-- Without a font the cursor stays at the origin. -/
theorem cursor_call_of_none {s : Console} (hft : s.ft = none) (hs : s.cursor = { x := 0, y := 0 })
    (a : Call) : (s.call a).cursor = { x := 0, y := 0 } := by
  cases a with
  | putchar c =>
    show (s.fbPutchar c).cursor = { x := 0, y := 0 }
    rw [fbPutchar_of_none c hft, hs]
  | clearChar =>
    show s.fbClearChar.cursor = { x := 0, y := 0 }
    unfold fbClearChar
    rw [hs]
    exact hs
  | resetCursor => rfl

theorem cursor_calls_of_none {s : Console} (hft : s.ft = none)
    (hs : s.cursor = { x := 0, y := 0 }) (l : List Call) :
    (s.calls l).cursor = { x := 0, y := 0 } := by
  induction l generalizing s with
  | nil => exact hs
  | cons a l ih => exact ih ((settings_call s a).ft.trans hft) (cursor_call_of_none hft hs a)

/-- What holds of every reached state. -/
theorem Reached.spec {fb : Framebuffer} {s : Console} (h : Reached fb s)
    (hw : 8 ≤ fb.info.width.toNat) (hh : 16 ≤ fb.info.height.toNat) :
    s.info = fb.info ∧ OnScreen fb.info s.cursor ∧
      (s.ft = none → s.cursor = { x := 0, y := 0 }) := by
  obtain ⟨ft, color, s₀, l, rfl⟩ := h
  obtain ⟨hinfo, hcursor⟩ := onScreen_calls (s := fbInit fb ft color s₀) hw hh
    (onScreen_origin hw hh) l
  refine ⟨hinfo, hcursor, fun hft => ?_⟩
  rw [(settings_calls _ _).ft] at hft
  exact cursor_calls_of_none hft rfl l

/-! ## One character and one backspace -/

section Step

variable {s : Console}

/-- A character that does not take the text back to the top: the cursor goes on,
or to the start of the next line. -/
theorem fbPutchar_cursor {c : Int8} (hc : 32 ≤ c) (hft : s.ft ≠ none)
    (hw : 8 ≤ s.info.width.toNat) (hh : 16 ≤ s.info.height.toNat)
    (hs : OnScreen s.info s.cursor) (hwrap : (s.fbPutchar c).wraps = s.wraps) :
    (s.fbPutchar c).cursor =
      if s.cursor.x + 8 ≥ (s.info.width - 8).toUInt64 then { x := 0, y := s.cursor.y + 16 }
      else { s.cursor with x := s.cursor.x + 8 } := by
  obtain ⟨ft, hsome⟩ := Option.ne_none_iff_exists'.mp hft
  have hput := fbPutchar_of_some c hsome hw hh
  have hwraps : (s.settle c).1.wraps = s.wraps := by
    rw [← hwrap, hput]
  have hplace : (s.place c s.enter).2 = { s.cursor with x := s.cursor.x + 8 } := by
    rw [place_of_glyph hc, enter_of_onScreen hs]
  have hline := wrapLine_pos (s.place c s.enter).1 (s.place c s.enter).2
  rw [info_place, hplace] at hline
  have hsame : ((s.place c s.enter).1.wrapLine (s.place c s.enter).2).1.wraps = s.wraps := by
    rw [wraps_wrapLine, wraps_place]
  have hsettle : s.settle c =
      ((s.place c s.enter).1.wrapLine (s.place c s.enter).2).1.wrapScreen
        ((s.place c s.enter).1.wrapLine (s.place c s.enter).2).2 := rfl
  have hcursor : (s.fbPutchar c).cursor = (s.settle c).2 := by rw [hput]
  rw [hcursor, ← hline, ← hplace]
  generalize (s.place c s.enter).1.wrapLine (s.place c s.enter).2 = u at hsettle hsame ⊢
  by_cases hy : u.2.y ≥ (u.1.info.height - 16).toUInt64
  · -- that would be a wrap
    rw [hsettle, wrapScreen, if_pos hy, hsame] at hwraps
    exact absurd hwraps (Nat.succ_ne_self _)
  · rw [hsettle, wrapScreen, if_neg hy]

/-- `fbClearChar` inside a line. -/
theorem fbClearChar_of_column (h : 8 ≤ s.cursor.x) :
    s.fbClearChar = { s with
      cursor := { s.cursor with x := s.cursor.x - 8 }
      frame := clearCell s.info { s.cursor with x := s.cursor.x - 8 } s.frame } := by
  rw [fbClearChar, if_neg (UInt64.not_lt.mpr h)]

/-- `fbClearChar` at the start of a line. -/
theorem fbClearChar_of_row (hx : s.cursor.x < 8) (hy : 16 ≤ s.cursor.y) :
    s.fbClearChar = { s with
      cursor := { x := (s.info.width - 8).toUInt64, y := s.cursor.y - 16 }
      frame := clearCell s.info { x := (s.info.width - 8).toUInt64, y := s.cursor.y - 16 }
        s.frame } := by
  rw [fbClearChar, if_pos hx, if_neg (UInt64.not_lt.mpr hy)]

/-- `fbClearChar` blanks every pixel of a cell on the screen. -/
theorem clearCell_words {info : FbInfo} {p : CursorPosition} (hp : OnScreen info p) (f : Frame)
    {i j : Nat} (hi : i < 16) (hj : j < 8) :
    (clearCell info p f).words
      (info.offset (p.x.toUInt32 + UInt32.ofNat j) (p.y.toUInt32 + UInt32.ofNat i)) = 0 := by
  obtain ⟨hx, hy⟩ := hp
  have hwlt := info.width.toNat_lt
  have hhlt := info.height.toNat_lt
  have hx32 : p.x.toUInt32.toNat = p.x.toNat := toNat_toUInt32_of_lt (by omega)
  have hy32 : p.y.toUInt32.toNat = p.y.toNat := toNat_toUInt32_of_lt (by omega)
  have hcols : (p.x + 8).toNat - p.x.toNat = 8 := by
    rw [UInt64.toNat_add]
    simp only [UInt64.reduceToNat]
    omega
  have hrows : (p.y + 16).toNat - p.y.toNat = 16 := by
    rw [UInt64.toNat_add]
    simp only [UInt64.reduceToNat]
    omega
  have hpaint : Paints 0 (fun a => ∃ i, i < 16 ∧ ∃ j, j < 8 ∧
      info.PixelAt (p.x + UInt64.ofNat j).toUInt32 (p.y + UInt64.ofNat i).toUInt32 a)
      f.words (clearCell info p f).words := by
    rw [clearCell, hcols, hrows]
    exact forUpto_paints Frame.words fun i t _ =>
      forUpto_paints Frame.words fun j u _ => setColorOfPixel_paints info 0 _ _ u
  refine hpaint.covered _ ⟨i, hi, j, hj, ?_, ?_, ?_⟩
  · rw [UInt64.toUInt32_add, UInt64.toUInt32_ofNat', UInt32.lt_iff_toNat_lt,
      toNat_add_ofNat32 info.width.toNat (by omega) hwlt]
    omega
  · rw [UInt64.toUInt32_add, UInt64.toUInt32_ofNat', UInt32.lt_iff_toNat_lt,
      toNat_add_ofNat32 info.height.toNat (by omega) hhlt]
    omega
  · rw [UInt64.toUInt32_add, UInt64.toUInt32_ofNat', UInt64.toUInt32_add,
      UInt64.toUInt32_ofNat']

/-- A console without a font undoes nothing and has nothing to undo. -/
theorem undone_of_none {c : Int8} (hft : s.ft = none) (hs : s.cursor = { x := 0, y := 0 }) :
    Undone c s := by
  constructor
  · rw [fbPutchar_of_none c hft]
    exact (cursor_call_of_none hft hs .clearChar).trans hs.symm
  · exact fun hne => absurd hft hne

/-- With the character in the line, `fbClearChar` goes back to its cell. -/
theorem undone_of_column {c : Int8} (hs : OnScreen s.info s.cursor)
    (hcursor : (s.fbPutchar c).cursor = { s.cursor with x := s.cursor.x + 8 }) :
    Undone c s := by
  have hx := hs.1
  have hwlt := s.info.width.toNat_lt
  have hback : (s.fbPutchar c).cursor.x - 8 = s.cursor.x := by
    rw [hcursor]
    exact UInt64.add_sub_cancel s.cursor.x 8
  have hcol : 8 ≤ (s.fbPutchar c).cursor.x := by
    rw [hcursor, UInt64.le_iff_toNat_le, UInt64.toNat_add]
    simp only [UInt64.reduceToNat]
    omega
  have hpos : ({ (s.fbPutchar c).cursor with x := (s.fbPutchar c).cursor.x - 8 } :
      CursorPosition) = s.cursor := by
    rw [hback, hcursor]
  constructor
  · rw [fbClearChar_of_column hcol]
    exact hpos
  · intro _ i hi j hj
    rw [fbClearChar_of_column hcol, enter_of_onScreen hs, hpos, info_fbPutchar]
    exact clearCell_words hs _ hi hj

/-- With the character at the end of the line, `fbClearChar` goes back to the
last cell. -/
theorem undone_of_row_iff {c : Int8} (hs : OnScreen s.info s.cursor)
    (hcursor : (s.fbPutchar c).cursor = { x := 0, y := s.cursor.y + 16 }) :
    Undone c s ↔ s.cursor.x.toNat + 8 = s.info.width.toNat := by
  have hx := hs.1
  have hy := hs.2
  have hhlt := s.info.height.toNat_lt
  have hlast := width_sub s.info (by omega)
  have hup : (s.fbPutchar c).cursor.y - 16 = s.cursor.y := by
    rw [hcursor]
    exact UInt64.add_sub_cancel s.cursor.y 16
  have hstart : (s.fbPutchar c).cursor.x < 8 := by
    rw [hcursor]
    show (0 : UInt64) < 8
    decide
  have hrow : 16 ≤ (s.fbPutchar c).cursor.y := by
    rw [hcursor, UInt64.le_iff_toNat_le, UInt64.toNat_add]
    simp only [UInt64.reduceToNat]
    omega
  have hclear := fbClearChar_of_row hstart hrow
  rw [info_fbPutchar, hup] at hclear
  constructor
  · intro h
    have heq := congrArg CursorPosition.x h.cursor
    rw [hclear] at heq
    have heq' : (s.info.width - 8).toUInt64 = s.cursor.x := heq
    rw [heq'] at hlast
    omega
  · intro h
    have heq : (s.info.width - 8).toUInt64 = s.cursor.x := by
      rw [← UInt64.toNat_inj]
      omega
    rw [heq] at hclear
    constructor
    · rw [hclear]
    · intro _ i hi j hj
      rw [hclear, enter_of_onScreen hs]
      exact clearCell_words hs _ hi hj

end Step

/-! ## Reached states -/

/-- In every state after `fbInit`, a backspace undoes a character that does not
take the text back to the top if and only if the character does not end the line,
or was drawn in the last cell of the line. -/
theorem undone_iff {fb : Framebuffer} {s : Console} (hw : 80 ≤ fb.info.width.toNat)
    (hh : 48 ≤ fb.info.height.toNat) (hs : Reached fb s) {c : Int8} (hc : 0x20 ≤ c)
    (hwrap : (s.fbPutchar c).wraps = s.wraps) :
    Undone c s ↔ s.cursor.x.toNat + 16 < fb.info.width.toNat ∨
      s.cursor.x.toNat + 8 = fb.info.width.toNat := by
  obtain ⟨hinfo, hcursor, hnone⟩ := hs.spec (by omega) (by omega)
  rw [← hinfo] at hw hh hcursor ⊢
  have hwlt := s.info.width.toNat_lt
  have hx := hcursor.1
  by_cases hft : s.ft = none
  · refine iff_of_true (undone_of_none hft (hnone hft)) (Or.inl ?_)
    rw [hnone hft]
    exact Nat.lt_of_lt_of_le (by decide) hw
  · have hput := fbPutchar_cursor hc hft (by omega) (by omega) hcursor hwrap
    have hend : s.cursor.x + 8 ≥ (s.info.width - 8).toUInt64 ↔
        s.info.width.toNat ≤ s.cursor.x.toNat + 16 := by
      rw [ge_iff_le, UInt64.le_iff_toNat_le, width_sub s.info (by omega), UInt64.toNat_add]
      simp only [UInt64.reduceToNat]
      omega
    split at hput
    · rename_i hdown
      rw [hend] at hdown
      rw [undone_of_row_iff hcursor hput]
      omega
    · rename_i hline
      rw [hend] at hline
      exact iff_of_true (undone_of_column hcursor hput) (Or.inl (by omega))

/-- A console on the small screen, after eight letters. -/
def eightLetters : Console :=
  (initial.fbInit smallScreen (some blockFont) 0xffffffff).calls
    (List.replicate 8 (Call.putchar 65))

/-- The ninth letter of a line of 80 pixels ends it, and the backspace clears the
empty cell behind it. -/
theorem not_undone_eightLetters :
    Reached smallScreen eightLetters ∧
      (eightLetters.fbPutchar 65).wraps = eightLetters.wraps ∧ ¬ Undone 65 eightLetters := by
  refine ⟨⟨_, _, _, _, rfl⟩, by decide +kernel, fun h => ?_⟩
  have hcursor : (eightLetters.fbPutchar 65).fbClearChar.cursor ≠ eightLetters.cursor := by
    decide +kernel
  exact hcursor h.cursor

/-- A letter at the start of the screen is undone. -/
theorem undone_firstLetter :
    Undone 65 (initial.fbInit smallScreen (some blockFont) 0xffffffff) :=
  (undone_iff (by decide) (by decide) ⟨some blockFont, 0xffffffff, initial, [], rfl⟩ (by decide)
    (by decide +kernel)).mpr (Or.inl (by decide +kernel))

end Console

end BbnOS
