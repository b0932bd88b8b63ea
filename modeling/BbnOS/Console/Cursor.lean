import BbnOS.Console.Painting

/-!
# The cursor stays on the screen

`OnScreen` is the invariant of the cursor: a cell at its position is inside the
screen.  `fb_putchar` leaves it so whatever the character does to the position,
since `wrapLine` bounds the column and `wrapScreen` the row (`onScreen_fbPutchar`),
and `fbClearChar` keeps it.  So the guard of `_fbPutChar` never refuses a
character, and no store leaves the framebuffer (`calls_spec`).
-/

namespace BbnOS

namespace Console

open Loop Painting

/-- A cell at the position is inside the screen. -/
def OnScreen (info : FbInfo) (p : CursorPosition) : Prop :=
  p.x.toNat + 8 ≤ info.width.toNat ∧ p.y.toNat + 16 ≤ info.height.toNat

/-! ## The bounds of the source -/

/-- `Width - 8`, which the source computes in 32 bits. -/
theorem width_sub (info : FbInfo) (h : 8 ≤ info.width.toNat) :
    (info.width - 8).toUInt64.toNat = info.width.toNat - 8 := by
  have hle : (8 : UInt32) ≤ info.width := UInt32.le_iff_toNat_le.mpr h
  rw [UInt32.toNat_toUInt64, UInt32.toNat_sub_of_le _ _ hle]
  rfl

/-- `Height - 16`. -/
theorem height_sub (info : FbInfo) (h : 16 ≤ info.height.toNat) :
    (info.height - 16).toUInt64.toNat = info.height.toNat - 16 := by
  have hle : (16 : UInt32) ≤ info.height := UInt32.le_iff_toNat_le.mpr h
  rw [UInt32.toNat_toUInt64, UInt32.toNat_sub_of_le _ _ hle]
  rfl

theorem onScreen_origin {info : FbInfo} (hw : 8 ≤ info.width.toNat) (hh : 16 ≤ info.height.toNat) :
    OnScreen info { x := 0, y := 0 } := by
  constructor
  · exact (Nat.zero_add 8).symm ▸ hw
  · exact (Nat.zero_add 16).symm ▸ hh

/-! ## What the console functions leave alone -/

/-- The framebuffer, the font and the color are the same. -/
structure SameSettings (s s' : Console) : Prop where
  info : s'.info = s.info
  ft : s'.ft = s.ft
  color : s'.color = s.color

theorem SameSettings.refl (s : Console) : SameSettings s s := ⟨rfl, rfl, rfl⟩

theorem SameSettings.trans {s t u : Console} (h : SameSettings s t) (h' : SameSettings t u) :
    SameSettings s u :=
  ⟨h'.info.trans h.info, h'.ft.trans h.ft, h'.color.trans h.color⟩

theorem settings_place (c : Int8) (s : Console) (p : CursorPosition) :
    SameSettings s (s.place c p).1 := by
  unfold place
  repeat' split
  all_goals exact ⟨rfl, rfl, rfl⟩

theorem settings_wrapLine (s : Console) (p : CursorPosition) :
    SameSettings s (s.wrapLine p).1 := by
  unfold wrapLine
  repeat' split
  all_goals exact ⟨rfl, rfl, rfl⟩

theorem settings_wrapScreen (s : Console) (p : CursorPosition) :
    SameSettings s (s.wrapScreen p).1 := by
  unfold wrapScreen
  split <;> exact ⟨rfl, rfl, rfl⟩

theorem settings_fbPutchar (c : Int8) (s : Console) : SameSettings s (s.fbPutchar c) := by
  unfold fbPutchar
  split
  · exact .refl s
  · have hplace := settings_place c s s.enter
    have hline := hplace.trans (settings_wrapLine _ (s.place c s.enter).2)
    have hscreen := hline.trans (settings_wrapScreen _
      ((s.place c s.enter).1.wrapLine (s.place c s.enter).2).2)
    exact ⟨hscreen.info, hscreen.ft, hscreen.color⟩

theorem settings_fbClearChar (s : Console) : SameSettings s s.fbClearChar := by
  unfold fbClearChar
  repeat' split
  all_goals exact ⟨rfl, rfl, rfl⟩

theorem settings_call (s : Console) (a : Call) : SameSettings s (s.call a) := by
  cases a with
  | putchar c => exact settings_fbPutchar c s
  | clearChar => exact settings_fbClearChar s
  | resetCursor => exact ⟨rfl, rfl, rfl⟩

theorem settings_calls (s : Console) (l : List Call) : SameSettings s (s.calls l) := by
  induction l generalizing s with
  | nil => exact .refl s
  | cons a l ih => exact (settings_call s a).trans (ih (s.call a))

/-! ## The pieces of `fb_putchar` -/

section Pieces

variable {s : Console} {p : CursorPosition}

@[simp] theorem info_place (c : Int8) (s : Console) (p : CursorPosition) :
    (s.place c p).1.info = s.info := (settings_place c s p).info

@[simp] theorem info_wrapLine (s : Console) (p : CursorPosition) :
    (s.wrapLine p).1.info = s.info := (settings_wrapLine s p).info

@[simp] theorem info_wrapScreen (s : Console) (p : CursorPosition) :
    (s.wrapScreen p).1.info = s.info := (settings_wrapScreen s p).info

/-- A cursor on the screen is where the next character goes. -/
theorem enter_of_onScreen (h : OnScreen s.info s.cursor) : s.enter = s.cursor := by
  have hx : ¬ s.cursor.x > s.info.width.toUInt64 := by
    rw [gt_iff_lt, UInt64.lt_iff_toNat_lt, UInt32.toNat_toUInt64]
    have := h.1
    omega
  have hy : ¬ s.cursor.y > (s.info.height - 16).toUInt64 := by
    have := h.2
    rw [gt_iff_lt, UInt64.lt_iff_toNat_lt, height_sub s.info (by omega)]
    omega
  rw [enter, decide_eq_false hx, decide_eq_false hy]
  rfl

/-- A position on the screen stays when `fb_putchar` leaves. -/
theorem leave_of_onScreen (h : OnScreen s.info p) : s.leave p = p := by
  obtain ⟨hx, hy⟩ := h
  have hx' : ¬ p.x > (s.info.width - 8).toUInt64 := by
    rw [gt_iff_lt, UInt64.lt_iff_toNat_lt, width_sub s.info (by omega)]
    omega
  have hy' : ¬ p.y > (s.info.height - 16).toUInt64 := by
    rw [gt_iff_lt, UInt64.lt_iff_toNat_lt, height_sub s.info (by omega)]
    omega
  rw [leave, decide_eq_false hx', decide_eq_false hy']
  rfl

/-- What `wrapLine` does to the position. -/
theorem wrapLine_pos (s : Console) (p : CursorPosition) :
    (s.wrapLine p).2 =
      if p.x ≥ (s.info.width - 8).toUInt64 then { x := 0, y := p.y + 16 } else p := by
  unfold wrapLine
  split
  · split <;> rfl
  · rfl

/-- What `wrapScreen` does to the position. -/
theorem wrapScreen_pos (s : Console) (p : CursorPosition) :
    (s.wrapScreen p).2 =
      if p.y ≥ (s.info.height - 16).toUInt64 then { x := 0, y := 0 } else p := by
  unfold wrapScreen
  split <;> rfl

/-- The column after `wrapLine` has room for a cell. -/
theorem wrapLine_column (hw : 8 ≤ s.info.width.toNat) :
    (s.wrapLine p).2.x.toNat + 8 ≤ s.info.width.toNat := by
  rw [wrapLine_pos]
  split
  · exact (Nat.zero_add 8).symm ▸ hw
  · rename_i hlt
    rw [ge_iff_le, UInt64.not_le, UInt64.lt_iff_toNat_lt, width_sub s.info hw] at hlt
    omega

/-- `wrapScreen` brings a position whose column has room onto the screen. -/
theorem onScreen_wrapScreen (hh : 16 ≤ s.info.height.toNat)
    (hx : p.x.toNat + 8 ≤ s.info.width.toNat) : OnScreen s.info (s.wrapScreen p).2 := by
  rw [wrapScreen_pos]
  split
  · exact onScreen_origin (by omega) hh
  · rename_i hlt
    rw [ge_iff_le, UInt64.not_le, UInt64.lt_iff_toNat_lt, height_sub s.info hh] at hlt
    exact ⟨hx, by omega⟩

end Pieces

/-! ## Whole calls -/

/-- The state and the position after `wrapScreen`. -/
def settle (c : Int8) (s : Console) : Console × CursorPosition :=
  let (s, p) := s.place c s.enter
  let (s, p) := s.wrapLine p
  s.wrapScreen p

section Calls

variable {s : Console}

@[simp] theorem info_settle (c : Int8) (s : Console) : (s.settle c).1.info = s.info := by
  simp [settle]

/-- `fb_putchar` settles on the screen. -/
theorem onScreen_settle (c : Int8) (hw : 8 ≤ s.info.width.toNat)
    (hh : 16 ≤ s.info.height.toNat) : OnScreen s.info (s.settle c).2 := by
  have hline := wrapLine_column (s := (s.place c s.enter).1) (p := (s.place c s.enter).2)
    (by rw [info_place]; exact hw)
  have hscreen := onScreen_wrapScreen
    (s := ((s.place c s.enter).1.wrapLine (s.place c s.enter).2).1)
    (by rw [info_wrapLine, info_place]; exact hh) (by rw [info_wrapLine]; exact hline)
  rw [info_wrapLine, info_place] at hscreen
  exact hscreen

/-- `fb_putchar` without a font does nothing. -/
theorem fbPutchar_of_none (c : Int8) (hft : s.ft = none) : s.fbPutchar c = s := by
  rw [fbPutchar, hft]
  rfl

/-- With a font, on a screen that holds a cell, the settled position is the new
cursor. -/
theorem fbPutchar_of_some {ft : Font} (c : Int8) (hft : s.ft = some ft)
    (hw : 8 ≤ s.info.width.toNat) (hh : 16 ≤ s.info.height.toNat) :
    s.fbPutchar c = { (s.settle c).1 with cursor := (s.settle c).2 } := by
  have hleave : (s.settle c).1.leave (s.settle c).2 = (s.settle c).2 := by
    refine leave_of_onScreen ?_
    rw [info_settle]
    exact onScreen_settle c hw hh
  rcases hplace : s.place c s.enter with ⟨s₁, p₁⟩
  rcases hline : s₁.wrapLine p₁ with ⟨s₂, p₂⟩
  rcases hscreen : s₂.wrapScreen p₂ with ⟨s₃, p₃⟩
  have hsettle : s.settle c = (s₃, p₃) := by simp only [settle, hplace, hline, hscreen]
  rw [hsettle] at hleave ⊢
  rw [fbPutchar, hft, Option.isNone_some, if_neg Bool.false_ne_true]
  simp only [hplace, hline, hscreen, hleave]

@[simp] theorem info_fbPutchar (c : Int8) (s : Console) : (s.fbPutchar c).info = s.info :=
  (settings_fbPutchar c s).info

/-- `fb_putchar` leaves the cursor on the screen. -/
theorem onScreen_fbPutchar (c : Int8) (hw : 8 ≤ s.info.width.toNat)
    (hh : 16 ≤ s.info.height.toNat) (hs : OnScreen s.info s.cursor) :
    OnScreen s.info (s.fbPutchar c).cursor := by
  cases hft : s.ft with
  | none =>
    rw [fbPutchar_of_none c hft]
    exact hs
  | some ft =>
    rw [fbPutchar_of_some c hft hw hh]
    exact onScreen_settle c hw hh

/-- `fbClearChar` keeps the cursor on the screen: it goes one cell to the left, or to
the end of the line above. -/
theorem onScreen_fbClearChar (hs : OnScreen s.info s.cursor) :
    OnScreen s.info s.fbClearChar.cursor := by
  obtain ⟨hx, hy⟩ := hs
  unfold fbClearChar
  split
  · split
    · exact ⟨hx, hy⟩
    · rename_i hy16
      rw [UInt64.not_lt] at hy16
      have hle := UInt64.le_iff_toNat_le.mp hy16
      refine ⟨?_, ?_⟩
      · show (s.info.width - 8).toUInt64.toNat + 8 ≤ s.info.width.toNat
        rw [width_sub s.info (by omega)]
        omega
      · show (s.cursor.y - 16).toNat + 16 ≤ s.info.height.toNat
        rw [UInt64.toNat_sub_of_le _ _ hy16]
        omega
  · rename_i hx8
    rw [UInt64.not_lt] at hx8
    refine ⟨?_, hy⟩
    show (s.cursor.x - 8).toNat + 8 ≤ s.info.width.toNat
    rw [UInt64.toNat_sub_of_le _ _ hx8]
    omega

@[simp] theorem info_call (s : Console) (a : Call) : (s.call a).info = s.info :=
  (settings_call s a).info

/-- Every call leaves the cursor on the screen. -/
theorem onScreen_call (a : Call) (hw : 8 ≤ s.info.width.toNat) (hh : 16 ≤ s.info.height.toNat)
    (hs : OnScreen s.info s.cursor) : OnScreen s.info (s.call a).cursor := by
  cases a with
  | putchar c => exact onScreen_fbPutchar c hw hh hs
  | clearChar => exact onScreen_fbClearChar hs
  | resetCursor => exact onScreen_origin hw hh

end Calls

/-- A sequence of calls leaves the cursor on the screen. -/
theorem onScreen_calls {s : Console} (hw : 8 ≤ s.info.width.toNat)
    (hh : 16 ≤ s.info.height.toNat) (hs : OnScreen s.info s.cursor) (l : List Call) :
    (s.calls l).info = s.info ∧ OnScreen s.info (s.calls l).cursor := by
  induction l generalizing s with
  | nil => exact ⟨rfl, hs⟩
  | cons a l ih =>
    have hcall := onScreen_call a hw hh hs
    rw [← info_call s a] at hw hh hcall ⊢
    exact ih hw hh hcall

/-! ## Stores -/

section Stores

variable {s : Console} {p : CursorPosition}

theorem inScreen_place (h : s.info.Fits) (c : Int8) (hs : InScreen s.info s.frame) :
    InScreen s.info (s.place c p).1.frame := by
  unfold place
  repeat' split
  all_goals first
    | exact hs
    | exact clearLines_inScreen h _ _ _ hs
    | exact fbPutCharAt_inScreen h s.ft s.color c _ _ hs

theorem inScreen_wrapLine (h : s.info.Fits) (hs : InScreen s.info s.frame) :
    InScreen s.info (s.wrapLine p).1.frame := by
  unfold wrapLine
  split
  · split
    · exact clearLines_inScreen h _ _ _ hs
    · exact hs
  · exact hs

theorem inScreen_wrapScreen (h : s.info.Fits) (hs : InScreen s.info s.frame) :
    InScreen s.info (s.wrapScreen p).1.frame := by
  unfold wrapScreen
  split
  · exact clearLines_inScreen h _ _ _ hs
  · exact hs

/-- Every call stores to the framebuffer only. -/
theorem inScreen_call (a : Call) (h : s.info.Fits) (hs : InScreen s.info s.frame) :
    InScreen s.info (s.call a).frame := by
  cases a with
  | putchar c =>
    show InScreen s.info (s.fbPutchar c).frame
    unfold fbPutchar
    split
    · exact hs
    · have hplace := inScreen_place (p := s.enter) h c hs
      have hline := inScreen_wrapLine (s := (s.place c s.enter).1) (p := (s.place c s.enter).2)
        (by rw [info_place]; exact h) (by rw [info_place]; exact hplace)
      have hscreen := inScreen_wrapScreen
        (s := ((s.place c s.enter).1.wrapLine (s.place c s.enter).2).1)
        (p := ((s.place c s.enter).1.wrapLine (s.place c s.enter).2).2)
        (by rw [info_wrapLine, info_place]; exact h) (by rw [info_wrapLine]; exact hline)
      rw [info_wrapLine, info_place] at hscreen
      exact hscreen
  | clearChar =>
    show InScreen s.info s.fbClearChar.frame
    unfold fbClearChar
    repeat' split
    all_goals first
      | exact hs
      | exact clearCell_inScreen h _ hs
  | resetCursor => exact hs

end Stores

/-! ## Glyphs -/

/-- The glyph of `c` comes out whole when `fb_putchar` gets `c`: `_fbPutChar`
accepts the position, the cell is inside the screen, and after the call of
`_fbPutChar` every light pixel of the glyph is white. -/
structure Shown (c : Int8) (s : Console) : Prop where
  accepted : s.info.outside s.enter.x.toUInt32 s.enter.y.toUInt32 = false
  inside : ∀ i, i < 16 → ∀ j, j < 8 → s.enter.x.toNat + j < s.info.width.toNat ∧
    s.enter.y.toNat + i < s.info.height.toNat
  drawn : ∀ ft, s.ft = some ft → ∀ i, i < 16 → ∀ j, j < 8 → ft.light c i j = true →
    (s.place c s.enter).1.frame.words (s.info.offset (s.enter.x.toUInt32 + UInt32.ofNat j)
      (s.enter.y.toUInt32 + UInt32.ofNat i)) = 0xffffffff

/-- Adding a small number to a coordinate of a cell does not wrap. -/
theorem toNat_add_ofNat32 {x : UInt32} {k : Nat} (bound : Nat) (h : x.toNat + k ≤ bound)
    (hb : bound < 2 ^ 32) : (x + UInt32.ofNat k).toNat = x.toNat + k := by
  rw [UInt32.toNat_add, UInt32.toNat_ofNat']
  omega

/-- A coordinate on the screen has 32 bits. -/
theorem toNat_toUInt32_of_lt {x : UInt64} (h : x.toNat < 2 ^ 32) : x.toUInt32.toNat = x.toNat := by
  rw [UInt64.toNat_toUInt32]
  exact Nat.mod_eq_of_lt h

/-- A character for which `fb_putchar` calls `_fbPutChar`. -/
theorem place_of_glyph {c : Int8} (hc : 32 ≤ c) (s : Console) (p : CursorPosition) :
    s.place c p =
      ({ s with frame := fbPutCharAt s.info s.ft s.color c p.x.toUInt32 p.y.toUInt32 s.frame },
        { p with x := p.x + 8 }) := by
  have hne : ∀ d : Int8, d < 32 → c ≠ d := by
    intro d hd heq
    rw [heq] at hc
    exact Int8.not_lt.mpr hc hd
  have hbs : ¬ (c = 0x08 ∧ p.x > 8) := fun h => hne 8 (by decide) h.1
  rw [place, if_neg hbs, if_neg (hne 9 (by decide)), if_neg (hne 13 (by decide)),
    if_neg (hne 10 (by decide)), if_pos hc]

/-- A cell on the screen passes the guard of `_fbPutChar`. -/
theorem outside_eq_false {info : FbInfo} {x y : UInt32} (hx : x.toNat + 8 ≤ info.width.toNat)
    (hy : y.toNat + 16 ≤ info.height.toNat) : info.outside x y = false := by
  have hwsub := width_sub info (by omega)
  have hhsub := height_sub info (by omega)
  rw [UInt32.toNat_toUInt64] at hwsub hhsub
  have hx' : ¬ x > info.width - 8 := by
    rw [gt_iff_lt, UInt32.lt_iff_toNat_lt]
    omega
  have hy' : ¬ y > info.height - 16 := by
    rw [gt_iff_lt, UInt32.lt_iff_toNat_lt]
    omega
  rw [FbInfo.outside, decide_eq_false hx', decide_eq_false hy']
  rfl

/-- With the cursor on the screen, every character shows. -/
theorem shown_of_onScreen {c : Int8} {s : Console} (hc : 32 ≤ c)
    (hs : OnScreen s.info s.cursor) : Shown c s := by
  have henter := enter_of_onScreen hs
  obtain ⟨hx, hy⟩ := hs
  have hwlt := s.info.width.toNat_lt
  have hhlt := s.info.height.toNat_lt
  have hx32 : s.cursor.x.toUInt32.toNat = s.cursor.x.toNat := toNat_toUInt32_of_lt (by omega)
  have hy32 : s.cursor.y.toUInt32.toNat = s.cursor.y.toNat := toNat_toUInt32_of_lt (by omega)
  have hin : s.info.outside s.cursor.x.toUInt32 s.cursor.y.toUInt32 = false :=
    outside_eq_false (by omega) (by omega)
  constructor
  · rw [henter]
    exact hin
  · intro i hi j hj
    rw [henter]
    omega
  · intro ft hft i hi j hj hlight
    rw [place_of_glyph hc, henter, hft]
    have hx8 : (s.cursor.x.toUInt32 + 8).toNat = s.cursor.x.toUInt32.toNat + 8 :=
      toNat_add_ofNat32 (k := 8) s.info.width.toNat (by omega) hwlt
    have hy16 : (s.cursor.y.toUInt32 + 16).toNat = s.cursor.y.toUInt32.toNat + 16 :=
      toNat_add_ofNat32 (k := 16) s.info.height.toNat (by omega) hhlt
    refine (fbPutCharAt_paints s.color c hin hx8 hy16 s.frame).covered _
      ⟨i, hi, j, hj, hlight, ?_, ?_, rfl⟩
    · rw [UInt32.lt_iff_toNat_lt, toNat_add_ofNat32 s.info.width.toNat (by omega) hwlt]
      omega
    · rw [UInt32.lt_iff_toNat_lt, toNat_add_ofNat32 s.info.height.toNat (by omega) hhlt]
      omega

/-! ## Runs -/

/-- A sequence of calls stores to the framebuffer only. -/
theorem inScreen_calls {s : Console} (h : s.info.Fits) (hs : InScreen s.info s.frame)
    (l : List Call) : InScreen s.info (s.calls l).frame := by
  induction l generalizing s with
  | nil => exact hs
  | cons a l ih =>
    have hcall := inScreen_call a h hs
    rw [← info_call s a] at h hcall ⊢
    exact ih h hcall

/-- After `fbInit` on a screen that fits its framebuffer, and any calls of
`fb_putchar`, `fbClearChar` and `fbResetCursor(0, 0)`: the cursor is on the
screen, every printable character that comes next shows whole, and all stores
so far went to the words of the framebuffer. -/
theorem calls_spec {fb : Framebuffer} (h : fb.info.Fits) (ft : Option Font) (color : UInt64)
    (s : Console) (l : List Call) :
    OnScreen fb.info ((s.fbInit fb ft color).calls l).cursor ∧
      (∀ c : Int8, 0x20 ≤ c → c ≤ 0x7e → Shown c ((s.fbInit fb ft color).calls l)) ∧
      ∀ a ∈ ((s.fbInit fb ft color).calls l).frame.stores,
        a.toNat < fb.info.pixelsPerScanline.toNat * fb.info.height.toNat := by
  have hstores : InScreen fb.info (s.fbInit fb ft color).frame := by
    intro a ha
    cases ha
  obtain ⟨hinfo, hcursor⟩ := onScreen_calls (s := s.fbInit fb ft color) h.width h.height
    (onScreen_origin h.width h.height) l
  refine ⟨hcursor, fun c hc _ => shown_of_onScreen hc ?_,
    inScreen_calls (s := s.fbInit fb ft color) h hstores l⟩
  rw [hinfo]
  exact hcursor

/-- A screen of 80 by 48 pixels. -/
def smallScreen : Framebuffer where
  info := { width := 80, height := 48, pixelsPerScanline := 80 }
  words := fun _ => 0

/-- A font in which all pixels of every glyph are light. -/
def blockFont : Font where
  charsize := 16
  glyphBuffer := fun _ => 0xff

/-- A text and a backspace on the small screen. -/
theorem calls_spec_smallScreen :
    OnScreen smallScreen.info ((initial.fbInit smallScreen (some blockFont) 0xffffffff).calls
        [.putchar 65, .putchar 10, .clearChar]).cursor ∧
      (∀ c : Int8, 0x20 ≤ c → c ≤ 0x7e →
        Shown c ((initial.fbInit smallScreen (some blockFont) 0xffffffff).calls
          [.putchar 65, .putchar 10, .clearChar])) ∧
      ∀ a ∈ ((initial.fbInit smallScreen (some blockFont) 0xffffffff).calls
          [.putchar 65, .putchar 10, .clearChar]).frame.stores,
        a.toNat < smallScreen.info.pixelsPerScanline.toNat * smallScreen.info.height.toNat :=
  calls_spec ⟨by decide, by decide, by decide, by decide⟩ (some blockFont) 0xffffffff initial
    [.putchar 65, .putchar 10, .clearChar]

end Console

end BbnOS
