import BbnOS.Console.Cursor

/-!
# Clearing the rows of a full screen

When the text has gone back to the top, the rows below still hold the text of
the screen before.  `fb_putchar` clears a row as it moves onto it: the top row
always, and a lower one when the static `clear` is 1.  But `clear` counts the
wraps, so it is 1 on the second screen only, and from the third one on new text
goes over old text.

`Clears` is the condition for one call, and `rowCleared_of_clears` the law for a
run: as long as all calls meet it, every row that the cursor moves onto has been
cleared.
-/

namespace BbnOS

namespace Console

open Loop Painting

/-- All pixels of the 16 scanlines of the row at `y` have the color of a
clearing loop. -/
def RowCleared (s : Console) (y : UInt64) : Prop :=
  ∀ x, x < s.info.width.toNat → ∀ i, i < 16 →
    s.frame.words (s.info.offset (UInt32.ofNat x) (y.toUInt32 + UInt32.ofNat i)) = 0 ∨
      s.frame.words (s.info.offset (UInt32.ofNat x) (y.toUInt32 + UInt32.ofNat i)) = 0xff000000

/-- When `fb_putchar` gets `c` and moves the cursor onto another row, after the
text has been back at the top, that row is cleared. -/
def MoveCleared (c : Int8) (s : Console) : Prop :=
  1 ≤ (s.fbPutchar c).wraps → (s.fbPutchar c).cursor.y ≠ s.cursor.y →
    RowCleared (s.fbPutchar c) (s.fbPutchar c).cursor.y

/-! ## The condition -/

/-- The column behind a character. -/
def column (c : Int8) (x : UInt64) : UInt64 :=
  if c = 0x08 ∧ x > 8 then x - 8
  else if c = 0x09 then (x + 64) &&& ~~~(64 - 1)
  else if c = 13 ∨ c = 10 then 0
  else if c ≥ 32 then x + 8
  else x

/-- The character ends the line, and the next one is not behind the last. -/
def MovesDown (c : Int8) (s : Console) : Prop :=
  (c = 10 ∨ column c s.cursor.x ≥ (s.info.width - 8).toUInt64) ∧
    s.cursor.y.toNat + 32 < s.info.height.toNat

/-- The character does not move the cursor down to a row that `fb_putchar` does
not clear: the text has not been back at the top, or `clear` is 1. -/
def Clears (c : Int8) (s : Console) : Prop :=
  s.wraps = 0 ∨ s.clear = 1 ∨ ¬ MovesDown c s

/-- Whether a row is cleared depends on the pixels only. -/
theorem RowCleared.congr {s t : Console} {y : UInt64} (h : RowCleared s y)
    (hinfo : t.info = s.info) (hframe : t.frame = s.frame) : RowCleared t y := by
  unfold RowCleared
  rw [hinfo, hframe]
  exact h

theorem putchars_eq_calls (s : Console) (text : List Int8) :
    s.putchars text = s.calls (text.map Call.putchar) := by
  rw [putchars, calls, List.foldl_map]
  rfl

/-! ## One call -/

section Step

variable {s : Console} {p : CursorPosition}

theorem place_x (c : Int8) (s : Console) (p : CursorPosition) :
    (s.place c p).2.x = column c p.x := by
  unfold place column
  by_cases hcr : c = 13
  · subst hcr
    rfl
  · by_cases hlf : c = 10
    · subst hlf
      by_cases hclear : s.clear = 1 <;> simp [hclear]
    · simp only [hcr, hlf, if_false, or_self]
      repeat' split
      all_goals rfl

theorem place_of_lf (s : Console) (p : CursorPosition) :
    s.place 10 p =
      if s.clear = 1 then
        ({ s with frame := clearLines s.info 0 (p.y + 16).toUInt32 16 s.frame },
          { x := 0, y := p.y + 16 })
      else (s, { x := 0, y := p.y + 16 }) := by
  rfl

theorem place_y {c : Int8} (hc : c ≠ 10) (s : Console) (p : CursorPosition) :
    (s.place c p).2.y = p.y := by
  unfold place
  simp only [hc, if_false]
  repeat' split
  all_goals rfl

@[simp] theorem clear_place (c : Int8) (s : Console) (p : CursorPosition) :
    (s.place c p).1.clear = s.clear := by
  unfold place
  repeat' split
  all_goals rfl

@[simp] theorem wraps_place (c : Int8) (s : Console) (p : CursorPosition) :
    (s.place c p).1.wraps = s.wraps := by
  unfold place
  repeat' split
  all_goals rfl

@[simp] theorem wraps_wrapLine (s : Console) (p : CursorPosition) :
    (s.wrapLine p).1.wraps = s.wraps := by
  unfold wrapLine
  repeat' split
  all_goals rfl

/-- A clearing loop over the 16 scanlines of a row on the screen clears it. -/
theorem rowCleared_clearLines {color : UInt32} {y : UInt64} (f : Frame)
    (hcolor : color = 0 ∨ color = 0xff000000) (hy : y.toNat + 16 ≤ s.info.height.toNat)
    (hframe : s.frame = clearLines s.info color y.toUInt32 16 f) : RowCleared s y := by
  intro x hx i hi
  have hwlt := s.info.width.toNat_lt
  have hhlt := s.info.height.toNat_lt
  have hpaint := clearLines_paints s.info color y.toUInt32 16 f
  rw [← hframe] at hpaint
  have hword := hpaint.covered
    (s.info.offset (UInt32.ofNat x) (y.toUInt32 + UInt32.ofNat i)) ⟨i, hi, x, hx, ?_, ?_, rfl⟩
  · rw [hword]
    exact hcolor
  · rw [UInt32.lt_iff_toNat_lt, UInt32.toNat_ofNat']
    omega
  · have hy32 : y.toUInt32.toNat = y.toNat := toNat_toUInt32_of_lt (by omega)
    rw [UInt32.lt_iff_toNat_lt, toNat_add_ofNat32 s.info.height.toNat (by omega) hhlt]
    omega

/-- Going to the top clears the top row. -/
theorem rowCleared_wrapScreen (hh : 16 ≤ s.info.height.toNat)
    (hy : p.y ≥ (s.info.height - 16).toUInt64) : RowCleared (s.wrapScreen p).1 0 := by
  rw [wrapScreen, if_pos hy]
  refine rowCleared_clearLines s.frame (Or.inr rfl) ?_ rfl
  show (0 : UInt64).toNat + 16 ≤ s.info.height.toNat
  exact (Nat.zero_add 16).symm ▸ hh

/-- While `clear` is 1, a line wrap clears the next row. -/
theorem rowCleared_wrapLine (hclear : s.clear = 1) (hx : p.x ≥ (s.info.width - 8).toUInt64)
    (hy : (p.y + 16).toNat + 16 ≤ s.info.height.toNat) :
    RowCleared (s.wrapLine p).1 (p.y + 16) := by
  have hn : min 16 (s.info.height.toNat - (p.y + 16).toNat) = 16 := by omega
  rw [wrapLine, if_pos hx]
  simp only [hclear, if_true, hn]
  exact rowCleared_clearLines s.frame (Or.inr rfl) hy rfl

/-- While `clear` is 1, a line feed clears the next row. -/
theorem rowCleared_place (hclear : s.clear = 1)
    (hy : (p.y + 16).toNat + 16 ≤ s.info.height.toNat) :
    RowCleared (s.place 10 p).1 (p.y + 16) := by
  rw [place_of_lf, if_pos hclear]
  exact rowCleared_clearLines s.frame (Or.inl rfl) hy rfl

/-- A line feed does not wrap the line as well. -/
theorem wrapLine_of_lf (hw : 80 ≤ s.info.width.toNat) :
    (s.place 10 p).1.wrapLine (s.place 10 p).2 = s.place 10 p := by
  have hcol : ¬ (s.place 10 p).2.x ≥ (s.info.width - 8).toUInt64 := by
    rw [place_x, show column 10 p.x = 0 from rfl, ge_iff_le, UInt64.le_iff_toNat_le,
      width_sub _ (by omega), UInt64.toNat_zero]
    omega
  rw [wrapLine, info_place, if_neg hcol]

/-- The row after `place` and `wrapLine`. -/
theorem wrapLine_place_y (hw : 80 ≤ s.info.width.toNat) (c : Int8) :
    ((s.place c p).1.wrapLine (s.place c p).2).2.y =
      if c = 10 ∨ column c p.x ≥ (s.info.width - 8).toUInt64 then p.y + 16 else p.y := by
  by_cases hlf : c = 10
  · subst hlf
    rw [wrapLine_of_lf hw, place_of_lf, if_pos (Or.inl rfl)]
    split <;> rfl
  · rw [wrapLine_pos, info_place, place_x]
    by_cases hcol : column c p.x ≥ (s.info.width - 8).toUInt64
    · rw [if_pos hcol, if_pos (Or.inr hcol), place_y hlf]
    · rw [if_neg hcol, if_neg (by simp only [hlf, hcol, or_self, not_false_eq_true]),
        place_y hlf]

/-- A row above the end of the screen to which `place` and `wrapLine` bring the
cursor is cleared when `clear` is 1. -/
theorem rowCleared_moveDown {c : Int8} (hw : 80 ≤ s.info.width.toNat) (hclear : s.clear = 1)
    (hmove : c = 10 ∨ column c p.x ≥ (s.info.width - 8).toUInt64)
    (hy : (p.y + 16).toNat + 16 ≤ s.info.height.toNat) :
    RowCleared ((s.place c p).1.wrapLine (s.place c p).2).1 (p.y + 16) := by
  by_cases hlf : c = 10
  · subst hlf
    rw [wrapLine_of_lf hw]
    exact rowCleared_place hclear hy
  · have hcol := hmove.resolve_left hlf
    rw [← place_y hlf s p] at hy ⊢
    exact rowCleared_wrapLine (by rw [clear_place]; exact hclear)
      (by rw [info_place, place_x]; exact hcol) (by rw [info_place]; exact hy)

/-- The two ways in which `fb_putchar` settles: at the top, which is cleared, or
where `wrapLine` has brought it. -/
theorem settle_cases (c : Int8) (hh : 16 ≤ s.info.height.toNat) :
    ((s.settle c).2 = { x := 0, y := 0 } ∧ RowCleared (s.settle c).1 0) ∨
    (((s.place c s.enter).1.wrapLine (s.place c s.enter).2).2.y.toNat + 16 <
        s.info.height.toNat ∧
      s.settle c = (s.place c s.enter).1.wrapLine (s.place c s.enter).2) := by
  have hsettle : s.settle c =
      ((s.place c s.enter).1.wrapLine (s.place c s.enter).2).1.wrapScreen
        ((s.place c s.enter).1.wrapLine (s.place c s.enter).2).2 := rfl
  have hinfo : ((s.place c s.enter).1.wrapLine (s.place c s.enter).2).1.info = s.info := by
    rw [info_wrapLine, info_place]
  generalize (s.place c s.enter).1.wrapLine (s.place c s.enter).2 = u at hsettle hinfo ⊢
  rw [hsettle, ← hinfo]
  rw [← hinfo] at hh
  by_cases hy : u.2.y ≥ (u.1.info.height - 16).toUInt64
  · refine Or.inl ⟨?_, rowCleared_wrapScreen hh hy⟩
    rw [wrapScreen_pos, if_pos hy]
  · refine Or.inr ⟨?_, by rw [wrapScreen, if_neg hy]⟩
    rw [ge_iff_le, UInt64.not_le, UInt64.lt_iff_toNat_lt, height_sub _ hh] at hy
    omega

/-- One call that meets the condition. -/
theorem moveCleared_of_clears {c : Int8} (hw : 80 ≤ s.info.width.toNat)
    (hh : 48 ≤ s.info.height.toNat) (hs : OnScreen s.info s.cursor) (h : Clears c s) :
    MoveCleared c s := by
  intro hwraps hmove
  cases hft : s.ft with
  | none =>
    rw [fbPutchar_of_none c hft] at hmove
    exact absurd rfl hmove
  | some ft =>
    have hput := fbPutchar_of_some c hft (by omega) (by omega)
    have hcursor : (s.fbPutchar c).cursor = (s.settle c).2 := by rw [hput]
    have hwraps' : (s.fbPutchar c).wraps = (s.settle c).1.wraps := by rw [hput]
    have hinfo : (s.fbPutchar c).info = (s.settle c).1.info := by rw [hput]
    have hframe : (s.fbPutchar c).frame = (s.settle c).1.frame := by rw [hput]
    have hrow : ∀ y, RowCleared (s.settle c).1 y → RowCleared (s.fbPutchar c) y :=
      fun y hy => hy.congr hinfo hframe
    rw [hcursor] at hmove ⊢
    rw [hwraps'] at hwraps
    refine hrow _ ?_
    have henter := enter_of_onScreen hs
    rcases settle_cases (s := s) c (by omega) with ⟨hpos, htop⟩ | ⟨hy, heq⟩
    · rw [hpos]
      exact htop
    · rw [heq, henter, wraps_wrapLine, wraps_place] at hwraps
      rw [heq, henter, wrapLine_place_y hw] at hmove
      rw [henter, wrapLine_place_y hw] at hy
      rw [heq, henter, wrapLine_place_y hw]
      split at hmove
      · rename_i hdown
        rw [if_pos hdown] at hy ⊢
        have hsum : (s.cursor.y + 16).toNat = s.cursor.y.toNat + 16 := by
          have hlt := s.info.height.toNat_lt
          have hon := hs.2
          rw [UInt64.toNat_add]
          simp only [UInt64.reduceToNat]
          omega
        -- the text has been at the top before, so it is the second screen
        have hclear : s.clear = 1 := by
          rcases h with hzero | hone | hno
          · omega
          · exact hone
          · exact absurd ⟨hdown, by omega⟩ hno
        exact rowCleared_moveDown hw hclear hdown (by omega)
      · exact absurd rfl hmove

end Step

/-! ## Runs -/

/-- Text after `fbInit` on a screen of at least 80 by 48 pixels: when every
character of it meets the condition in the state in which `fb_putchar` gets it,
every row that the cursor moves onto, after the text has been back at the top,
is cleared. -/
theorem rowCleared_of_clears {fb : Framebuffer} (hw : 80 ≤ fb.info.width.toNat)
    (hh : 48 ≤ fb.info.height.toNat) (ft : Option Font) (color : UInt64) (s : Console)
    {text : List Int8}
    (h : ∀ before c after, text = before ++ c :: after →
      Clears c ((s.fbInit fb ft color).putchars before)) :
    ∀ before c after, text = before ++ c :: after →
      MoveCleared c ((s.fbInit fb ft color).putchars before) := by
  intro before c after htext
  have hcalls := putchars_eq_calls (s.fbInit fb ft color) before
  obtain ⟨hinfo, hcursor⟩ := onScreen_calls (s := s.fbInit fb ft color)
    (show 8 ≤ fb.info.width.toNat by omega) (show 16 ≤ fb.info.height.toNat by omega)
    (onScreen_origin (show 8 ≤ fb.info.width.toNat by omega)
      (show 16 ≤ fb.info.height.toNat by omega))
    (before.map Call.putchar)
  rw [← hcalls] at hinfo hcursor
  refine moveCleared_of_clears ?_ ?_ ?_ (h before c after htext)
  · rw [hinfo]
    exact hw
  · rw [hinfo]
    exact hh
  · rw [hinfo]
    exact hcursor

/-- A console on the small screen, after a text. -/
def smallConsole (text : List Int8) : Console :=
  (initial.fbInit smallScreen (some blockFont) 0xffffffff).putchars text

/-- The third screen of a text: the block that stands in the second row since
the second screen is still there. -/
theorem not_moveCleared_of_thirdScreen :
    ¬ MoveCleared 10 (smallConsole [10, 10, 10, 65, 10]) := by
  intro h
  have hwraps : 1 ≤ ((smallConsole [10, 10, 10, 65, 10]).fbPutchar 10).wraps := by
    decide +kernel
  have hmove : ((smallConsole [10, 10, 10, 65, 10]).fbPutchar 10).cursor.y ≠
      (smallConsole [10, 10, 10, 65, 10]).cursor.y := by decide +kernel
  have hword := h hwraps hmove 0 (by decide +kernel) 0 (by decide)
  revert hword
  decide +kernel

/-- Line feeds on two screens: the condition holds, and the line feed that goes
to the second row of the second screen clears it. -/
theorem rowCleared_secondScreen : MoveCleared 10 (smallConsole [10, 10]) := by
  have hstate : ∀ n, n < 3 →
      (smallConsole ([10, 10, 10].take n)).wraps = 0 ∨
        (smallConsole ([10, 10, 10].take n)).clear = 1 := by
    decide +kernel
  have hclears : ∀ before c after, [10, 10, 10] = before ++ c :: after →
      Clears c (smallConsole before) := by
    intro before c after htext
    have hlen := congrArg List.length htext
    rw [show [10, 10, (10 : Int8)].length = 3 from rfl, List.length_append,
      List.length_cons] at hlen
    have hbefore : before = [10, 10, 10].take before.length := by
      rw [htext, List.take_left']
      rfl
    have hkept := hstate before.length (by omega)
    rw [← hbefore] at hkept
    rcases hkept with hwraps | hclear
    · exact Or.inl hwraps
    · exact Or.inr (Or.inl hclear)
  have hwidth : 80 ≤ smallScreen.info.width.toNat := by decide
  have hheight : 48 ≤ smallScreen.info.height.toNat := by decide
  exact rowCleared_of_clears hwidth hheight (some blockFont) 0xffffffff initial hclears
    [10, 10] 10 [] rfl

end Console

end BbnOS
