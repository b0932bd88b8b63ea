import Mathlib.Data.UInt

/-!
# The text screen of the legacy kernel

`fb_putchar` of `lib/legacy/fb.c`, which prints on the 80 columns and 25 rows of the
text screen.  The static variables are a `Console`, and `calls` is a history of what the
function does to the hardware.

The row is brought back to the screen at the end of a call, so a newline on the last
row does its work on row 25 first: `onScreen_iff` says that everything else stays on
the screen.
-/

namespace BbnOS

namespace Legacy

namespace Framebuffer

/-! ## The driver -/

/-- What `fb_putchar` calls. -/
inductive Call where
  | writeCell (i : UInt32) (c : Int8) (fg bg : UInt8)
  | moveCursor (pos : UInt16)
  /-- `fb_writer`, for the message `BUG in fb_putchar!!`. -/
  | writer
  deriving DecidableEq

/-- `fb_write_cell`: the bytes it stores, by their index in `fb`. -/
def fbWriteCell (i : UInt32) (c : Int8) (fg bg : UInt8) : List (UInt32 × UInt8) :=
  [(i, c.toUInt8), (i + 1, ((bg &&& 0x0F) <<< 4) ||| (fg &&& 0x0F))]

/-- The static variables of `fb_putchar`. -/
structure Console where
  xPos : Int32
  yPos : Int32
  clear : Int32
  calls : List Call
  deriving DecidableEq

namespace Console

def initial : Console where
  xPos := 0
  yPos := 0
  clear := 0
  calls := []

/-- Calls made one after the other. -/
def does (l : List Call) (s : Console) : Console := { s with calls := s.calls ++ l }

end Console

/-- The argument of `fb_putchar` and its colours. -/
structure Character where
  c : Int8
  fg : UInt32
  bg : UInt32

/-- The place of a cell in the framebuffer. -/
def posOf (x y : Int32) : UInt32 := ((y * 80 + x) * 2).toUInt32

/-- The place of the cursor. -/
def cursorOf (x y : Int32) : UInt16 := (y * 80 + x).toUInt32.toUInt16

/-- A cell written with the colours of a character. -/
def cell (k : Character) (c : Int8) (x y : Int32) : Call :=
  .writeCell (posOf x y) c k.fg.toUInt8 k.bg.toUInt8

/-- The loop that writes spaces to row `y`. -/
def clearRow (k : Character) (y : Int32) : List Call :=
  (List.range 80).map fun i => cell k 32 (Int32.ofNat i) y

/-- The `if` chain over the character. -/
def character (k : Character) (s : Console) : Console :=
  if k.c = 0x08 ∧ s.xPos ≠ 0 then { s with xPos := s.xPos - 1 }
  else if k.c = 0x09 then { s with xPos := (s.xPos + 8) &&& ~~~(8 - 1) }
  else if k.c = 13 then { s with xPos := 0 }
  else if k.c = 10 then
    let s := { s with xPos := 0, yPos := s.yPos + 1 }
    let s := if s.clear = 1 then s.does (clearRow k s.yPos) else s
    s.does [.moveCursor (cursorOf s.xPos s.yPos)]
  else if k.c ≥ 32 then
    let s := s.does [cell k k.c s.xPos s.yPos, .moveCursor (cursorOf s.xPos s.yPos)]
    { s with xPos := s.xPos + 1 }
  else s

/-- `if (x_pos >= 80)`. -/
def wrapColumn (s : Console) : Console :=
  if s.xPos ≥ 80 then { s with xPos := 0, yPos := s.yPos + 1 } else s

/-- `if (y_pos >= 25)`, with the loop that clears the first row. -/
def wrapRow (k : Character) (s : Console) : Console :=
  if s.yPos ≥ 25 then
    { s with xPos := 0, yPos := 0, clear := 1 }.does
      ((List.range 80).flatMap fun i => [cell k 32 (Int32.ofNat i) 0, .moveCursor 0])
  else s

/-- `fb_putchar`. -/
def fbPutchar (s : Console) (k : Character) : Console :=
  if s.xPos > 80 ∨ s.yPos > 25 then s.does [.writer]
  else wrapRow k (wrapColumn (character k s))

/-- Characters given one after the other, from the initial state on. -/
def putText (text : List Character) : Console :=
  text.foldl fbPutchar Console.initial

/-! ## What stays on the screen -/

/-- The stores and the position of a call are on the screen, and nothing is called that
should not be. -/
def Call.OnScreen : Call → Prop
  | .writeCell i c fg bg => ∀ store ∈ fbWriteCell i c fg bg, store.1.toNat < 80 * 25 * 2
  | .moveCursor pos => pos.toNat < 80 * 25
  | .writer => False

/-- All calls for the text are on the screen, and so is the place after each character. -/
structure OnScreen (text : List Character) : Prop where
  calls : ∀ call ∈ (putText text).calls, call.OnScreen
  place : ∀ before, before <+: text → (putText before).xPos < 80 ∧ (putText before).yPos < 25

/-- The console stands at column `x` and row `y`. -/
structure Stands (s : Console) (x y : Nat) : Prop where
  x : s.xPos = Int32.ofNat x
  y : s.yPos = Int32.ofNat y

section Places

variable {x y : Nat}

theorem toInt_ofNat32 {n : Nat} (h : n < 2 ^ 31) : (Int32.ofNat n).toInt = n :=
  Int32.toInt_ofNat_of_lt h

theorem toNat_toUInt32_ofNat {n : Nat} (h : n < 2 ^ 31) : (Int32.ofNat n).toUInt32.toNat = n := by
  have hofNat : (Int32.ofNat n).toUInt32 = UInt32.ofNat n := rfl
  rw [hofNat, UInt32.toNat_ofNat_of_lt' (by
    have hsize : UInt32.size = 2 ^ 32 := rfl
    omega)]

theorem place_ofNat (x y : Nat) :
    Int32.ofNat y * 80 + Int32.ofNat x = Int32.ofNat (y * 80 + x) := by
  rw [Int32.ofNat_add, Int32.ofNat_mul]
  rfl

theorem toNat_posOf (hx : x < 81) (hy : y < 26) :
    (posOf (Int32.ofNat x) (Int32.ofNat y)).toNat = (y * 80 + x) * 2 := by
  have htwo : (2 : Int32) = Int32.ofNat 2 := rfl
  rw [posOf, place_ofNat, htwo, ← Int32.ofNat_mul, toNat_toUInt32_ofNat (by omega)]

theorem toNat_cursorOf (hx : x < 81) (hy : y < 26) :
    (cursorOf (Int32.ofNat x) (Int32.ofNat y)).toNat = y * 80 + x := by
  rw [cursorOf, place_ofNat, UInt32.toNat_toUInt16, toNat_toUInt32_ofNat (by omega)]
  omega

/-- A cell of the screen, and one that is not. -/
theorem onScreen_cell_iff (k : Character) (c : Int8) (hx : x < 80) (hy : y < 26) :
    (cell k c (Int32.ofNat x) (Int32.ofNat y)).OnScreen ↔ y < 25 := by
  have hpos := toNat_posOf (x := x) (y := y) (by omega) hy
  have hnext : (posOf (Int32.ofNat x) (Int32.ofNat y) + 1).toNat = (y * 80 + x) * 2 + 1 := by
    rw [UInt32.toNat_add, hpos]
    have hone : (1 : UInt32).toNat = 1 := rfl
    rw [hone]
    omega
  simp only [cell, Call.OnScreen, fbWriteCell, List.forall_mem_cons, hpos, hnext]
  constructor
  · rintro ⟨h, -⟩
    omega
  · intro h
    exact ⟨by omega, by omega, fun _ hmem => absurd hmem List.not_mem_nil⟩

theorem onScreen_cursor_iff (hx : x < 80) (hy : y < 26) :
    (Call.moveCursor (cursorOf (Int32.ofNat x) (Int32.ofNat y))).OnScreen ↔ y < 25 := by
  rw [Call.OnScreen, toNat_cursorOf (by omega) hy]
  omega

theorem onScreen_clearRow_iff (k : Character) (hy : y < 26) :
    (∀ call ∈ clearRow k (Int32.ofNat y), call.OnScreen) ↔ y < 25 := by
  rw [clearRow]
  constructor
  · intro h
    have hmem : cell k 32 (Int32.ofNat 0) (Int32.ofNat y) ∈
        (List.range 80).map fun i => cell k 32 (Int32.ofNat i) (Int32.ofNat y) :=
      List.mem_map.mpr ⟨0, by decide, rfl⟩
    exact (onScreen_cell_iff k 32 (by decide) hy).mp (h _ hmem)
  · intro h call hcall
    obtain ⟨i, hi, rfl⟩ := List.mem_map.mp hcall
    exact (onScreen_cell_iff k 32 (List.mem_range.mp hi) hy).mpr h

end Places

/-! ## One character -/

/-- The calls from `s` to `t` are on the screen if and only if `P` holds. -/
def Draws (s t : Console) (P : Prop) : Prop :=
  ∃ l, t.calls = s.calls ++ l ∧ ((∀ call ∈ l, call.OnScreen) ↔ P)

section Step

variable {s t u : Console} {x y : Nat} {P Q : Prop}

theorem Draws.of_calls (h : t.calls = s.calls) : Draws s t True :=
  ⟨[], by rw [h, List.append_nil], iff_of_true (fun _ hmem => absurd hmem List.not_mem_nil) trivial⟩

theorem Draws.trans (h : Draws s t P) (h' : Draws t u Q) : Draws s u (P ∧ Q) := by
  obtain ⟨l, hl, hP⟩ := h
  obtain ⟨l', hl', hQ⟩ := h'
  exact ⟨l ++ l', by rw [hl', hl, List.append_assoc], by rw [List.forall_mem_append, hP, hQ]⟩

theorem Draws.congr (h : Draws s t P) (hiff : P ↔ Q) : Draws s t Q := by
  obtain ⟨l, hl, hP⟩ := h
  exact ⟨l, hl, hP.trans hiff⟩

theorem Draws.onScreen_step_iff (h : Draws s t P) :
    (∀ call ∈ t.calls, call.OnScreen) ↔ (∀ call ∈ s.calls, call.OnScreen) ∧ P := by
  obtain ⟨l, hl, hP⟩ := h
  rw [hl, List.forall_mem_append, hP]

/-- The next stop of the tabulator. -/
theorem tab_ofNat : ∀ x < 80,
    (Int32.ofNat x + 8) &&& ~~~(8 - 1) = Int32.ofNat ((x + 8) / 8 * 8) := by
  decide +kernel

theorem add_one_ofNat (n : Nat) : Int32.ofNat n + 1 = Int32.ofNat (n + 1) := by
  rw [Int32.ofNat_add]
  rfl

/-- A printed character, with the cursor behind it. -/
theorem draws_print (k : Character) (hx : x < 80) (hy : y < 25) (s : Console) :
    Draws s (s.does [cell k k.c (Int32.ofNat x) (Int32.ofNat y),
      .moveCursor (cursorOf (Int32.ofNat x) (Int32.ofNat y))]) True := by
  refine ⟨_, rfl, iff_of_true ?_ trivial⟩
  simp only [List.forall_mem_cons]
  exact ⟨(onScreen_cell_iff k k.c hx (by omega)).mpr hy, (onScreen_cursor_iff hx (by omega)).mpr hy,
    fun _ hmem => absurd hmem List.not_mem_nil⟩

/-- A newline draws on the row below. -/
theorem draws_newline (k : Character) (hy : y < 26) (s : Console) :
    Draws s ((if s.clear = 1 then s.does (clearRow k (Int32.ofNat y)) else s).does
      [.moveCursor (cursorOf 0 (Int32.ofNat y))]) (y < 25) := by
  have hcursor := onScreen_cursor_iff (x := 0) (by decide) hy
  have hmove : ∀ t : Console,
      Draws t (t.does [.moveCursor (cursorOf 0 (Int32.ofNat y))]) (y < 25) :=
    fun t => ⟨_, rfl, by rw [List.forall_mem_singleton]; exact hcursor⟩
  by_cases hclear : s.clear = 1
  · rw [if_pos hclear]
    have hrow : Draws s (s.does (clearRow k (Int32.ofNat y))) (y < 25) :=
      ⟨_, rfl, onScreen_clearRow_iff k hy⟩
    exact (hrow.trans (hmove _)).congr (and_self_iff)
  · rw [if_neg hclear]
    exact hmove s

/-- What the `if` chain does: it moves at most one column or row too far, and draws off the
screen for a newline on the last row only. -/
theorem character_spec (k : Character) (hs : Stands s x y) (hx : x < 80) (hy : y < 25) :
    ∃ x' y', Stands (character k s) x' y' ∧ x' ≤ 80 ∧ y' ≤ 25 ∧ (x' = 80 → y' < 25) ∧
      Draws s (character k s) (k.c = 10 → y < 24) := by
  obtain ⟨xPos, yPos, clear, calls⟩ := s
  obtain ⟨rfl, rfl⟩ := hs
  have hother : ∀ {c : Int8}, k.c = c → c ≠ 10 → (True ↔ (k.c = 10 → y < 24)) :=
    fun hc hne => iff_of_true trivial fun h => absurd (hc.symm.trans h) hne
  unfold character
  by_cases hback : k.c = 0x08 ∧ Int32.ofNat x ≠ 0
  · have hpos : x ≠ 0 := by
      rintro rfl
      exact hback.2 rfl
    obtain ⟨x, rfl⟩ := Nat.exists_eq_succ_of_ne_zero hpos
    have hsub : Int32.ofNat (x + 1) - 1 = Int32.ofNat x := by
      rw [← add_one_ofNat, Int32.add_sub_cancel]
    rw [if_pos hback]
    exact ⟨x, y, ⟨hsub, rfl⟩, by omega, by omega, by omega,
      (Draws.of_calls rfl).congr (hother hback.1 (by decide))⟩
  rw [if_neg hback]
  by_cases htab : k.c = 0x09
  · rw [if_pos htab]
    exact ⟨(x + 8) / 8 * 8, y, ⟨tab_ofNat x hx, rfl⟩, by omega, by omega, fun _ => hy,
      (Draws.of_calls rfl).congr (hother htab (by decide))⟩
  rw [if_neg htab]
  by_cases hreturn : k.c = 13
  · rw [if_pos hreturn]
    exact ⟨0, y, ⟨rfl, rfl⟩, by omega, by omega, by omega,
      (Draws.of_calls rfl).congr (hother hreturn (by decide))⟩
  rw [if_neg hreturn]
  by_cases hnewline : k.c = 10
  · have hdraws := draws_newline k (y := y + 1) (by omega) ⟨0, Int32.ofNat (y + 1), clear, calls⟩
    rw [if_pos hnewline]
    dsimp only
    rw [add_one_ofNat]
    refine ⟨0, y + 1, ?_, by omega, by omega, by omega, ?_⟩
    · split <;> exact ⟨rfl, rfl⟩
    · obtain ⟨l, hl, hP⟩ := hdraws
      refine ⟨l, ?_, hP.trans ⟨fun h _ => by omega, fun h => Nat.succ_lt_succ (h hnewline)⟩⟩
      rw [← hl]
      split <;> rfl
  rw [if_neg hnewline]
  have hnever : True ↔ (k.c = 10 → y < 24) := iff_of_true trivial fun h => absurd h hnewline
  by_cases hprint : k.c ≥ 32
  · obtain ⟨l, hl, hP⟩ := draws_print k hx hy ⟨Int32.ofNat x, Int32.ofNat y, clear, calls⟩
    rw [if_pos hprint]
    exact ⟨x + 1, y, ⟨add_one_ofNat x, rfl⟩, by omega, by omega, fun _ => hy, l, hl,
      hP.trans hnever⟩
  · rw [if_neg hprint]
    exact ⟨x, y, ⟨rfl, rfl⟩, by omega, by omega, by omega, (Draws.of_calls rfl).congr hnever⟩

theorem le_ofNat_iff {m n : Nat} (hm : m < 2 ^ 31) (hn : n < 2 ^ 31) :
    Int32.ofNat m ≤ Int32.ofNat n ↔ m ≤ n := by
  rw [Int32.le_iff_toInt_le, toInt_ofNat32 hm, toInt_ofNat32 hn]
  exact Int.ofNat_le

theorem wrapColumn_spec (hs : Stands s x y) (hx : x ≤ 80) (hy : y ≤ 25) (hlast : x = 80 → y < 25) :
    ∃ x' y', Stands (wrapColumn s) x' y' ∧ x' < 80 ∧ y' ≤ 25 ∧ Draws s (wrapColumn s) True := by
  unfold wrapColumn
  have hend : s.xPos ≥ 80 ↔ 80 ≤ x := by
    rw [hs.x]
    exact le_ofNat_iff (by decide) (by omega)
  by_cases hwrap : s.xPos ≥ 80
  · have hx80 : x = 80 := by
      have := hend.mp hwrap
      omega
    rw [if_pos hwrap, hs.y, add_one_ofNat]
    exact ⟨0, y + 1, ⟨rfl, rfl⟩, by decide, hlast hx80, .of_calls rfl⟩
  · rw [if_neg hwrap]
    exact ⟨x, y, hs, Nat.lt_of_not_le fun h => hwrap (hend.mpr h), hy, .of_calls rfl⟩

theorem wrapRow_spec (k : Character) (hs : Stands s x y) (hx : x < 80) (hy : y ≤ 25) :
    ∃ x' y', Stands (wrapRow k s) x' y' ∧ x' < 80 ∧ y' < 25 ∧ Draws s (wrapRow k s) True := by
  unfold wrapRow
  have hend : s.yPos ≥ 25 ↔ 25 ≤ y := by
    rw [hs.y]
    exact le_ofNat_iff (by decide) (by omega)
  by_cases hwrap : s.yPos ≥ 25
  · rw [if_pos hwrap]
    refine ⟨0, 0, ⟨rfl, rfl⟩, by decide, by decide, _, rfl, iff_of_true ?_ trivial⟩
    intro call hcall
    obtain ⟨i, hi, hmem⟩ := List.mem_flatMap.mp hcall
    rcases List.mem_cons.mp hmem with rfl | hmem
    · exact (onScreen_cell_iff k 32 (y := 0) (List.mem_range.mp hi) (by decide)).mpr (by decide)
    · rw [List.mem_singleton.mp hmem]
      exact (by decide : (0 : UInt16).toNat < 80 * 25)
  · rw [if_neg hwrap]
    exact ⟨x, y, hs, hx, Nat.lt_of_not_le fun h => hwrap (hend.mpr h), .of_calls rfl⟩

/-- One character. -/
theorem fbPutchar_spec (k : Character) (hs : Stands s x y) (hx : x < 80) (hy : y < 25) :
    ∃ x' y', Stands (fbPutchar s k) x' y' ∧ x' < 80 ∧ y' < 25 ∧
      Draws s (fbPutchar s k) (k.c = 10 → y < 24) := by
  have hinside : ¬ (s.xPos > 80 ∨ s.yPos > 25) := by
    rw [hs.x, hs.y]
    have hx80 : ¬ Int32.ofNat x > 80 := by
      rw [gt_iff_lt, Int32.not_lt]
      exact (le_ofNat_iff (n := 80) (by omega) (by decide)).mpr (by omega)
    have hy25 : ¬ Int32.ofNat y > 25 := by
      rw [gt_iff_lt, Int32.not_lt]
      exact (le_ofNat_iff (n := 25) (by omega) (by decide)).mpr (by omega)
    exact not_or.mpr ⟨hx80, hy25⟩
  rw [fbPutchar, if_neg hinside]
  obtain ⟨x₁, y₁, hs₁, hx₁, hy₁, hlast, hdraws₁⟩ := character_spec k hs hx hy
  obtain ⟨x₂, y₂, hs₂, hx₂, hy₂, hdraws₂⟩ := wrapColumn_spec hs₁ hx₁ hy₁ hlast
  obtain ⟨x₃, y₃, hs₃, hx₃, hy₃, hdraws₃⟩ := wrapRow_spec k hs₂ hx₂ hy₂
  exact ⟨x₃, y₃, hs₃, hx₃, hy₃,
    ((hdraws₁.trans hdraws₂).trans hdraws₃).congr (by rw [and_true, and_true])⟩

end Step

/-! ## Every text -/

section Text

variable {text : List Character}

theorem putText_append (text : List Character) (k : Character) :
    putText (text ++ [k]) = fbPutchar (putText text) k :=
  List.foldl_concat _ _ _ _

/-- The place is on the screen after every text. -/
theorem stands_putText (text : List Character) :
    ∃ x y, Stands (putText text) x y ∧ x < 80 ∧ y < 25 := by
  induction text using List.reverseRecOn with
  | nil => exact ⟨0, 0, ⟨rfl, rfl⟩, by decide, by decide⟩
  | append_singleton text k ih =>
    obtain ⟨x, y, hs, hx, hy⟩ := ih
    obtain ⟨x', y', hs', hx', hy', -⟩ := fbPutchar_spec k hs hx hy
    rw [putText_append]
    exact ⟨x', y', hs', hx', hy'⟩

theorem place_putText (text : List Character) :
    (putText text).xPos < 80 ∧ (putText text).yPos < 25 := by
  obtain ⟨x, y, hs, hx, hy⟩ := stands_putText text
  rw [hs.x, hs.y, ← Int32.not_le, ← Int32.not_le]
  exact ⟨fun h => absurd ((le_ofNat_iff (m := 80) (by decide) (by omega)).mp h) (by omega),
    fun h => absurd ((le_ofNat_iff (m := 25) (by decide) (by omega)).mp h) (by omega)⟩

/-- What one more character draws. -/
theorem draws_putText (text : List Character) (k : Character) :
    Draws (putText text) (putText (text ++ [k])) (k.c = 10 → (putText text).yPos ≠ 24) := by
  obtain ⟨x, y, hs, hx, hy⟩ := stands_putText text
  obtain ⟨-, -, -, -, -, hdraws⟩ := fbPutchar_spec k hs hx hy
  have hlast : (putText text).yPos = 24 ↔ y = 24 := by
    rw [hs.y, ← Int32.toInt_inj, toInt_ofNat32 (by omega)]
    exact Int.natCast_inj (n := 24)
  rw [putText_append]
  refine hdraws.congr (imp_congr_right fun _ => ?_)
  rw [Ne, hlast]
  omega

/-- The calls stay on the screen if and only if no newline is given on the last row. -/
theorem onScreen_iff (text : List Character) :
    OnScreen text ↔ ∀ before k, before ++ [k] <+: text → k.c = 10 →
      (putText before).yPos ≠ 24 := by
  have hcalls : (∀ call ∈ (putText text).calls, call.OnScreen) ↔
      ∀ before k, before ++ [k] <+: text → k.c = 10 → (putText before).yPos ≠ 24 := by
    induction text using List.reverseRecOn with
    | nil =>
      refine iff_of_true (fun call hcall => absurd hcall List.not_mem_nil) fun before k hpre => ?_
      exact absurd (List.prefix_nil.mp hpre)
        (List.append_ne_nil_of_right_ne_nil _ (List.cons_ne_nil _ _))
    | append_singleton text k ih =>
      rw [(draws_putText text k).onScreen_step_iff, ih]
      constructor
      · rintro ⟨hbefore, hk⟩ before k' hpre
        rcases List.prefix_concat_iff.mp hpre with heq | hpre
        · obtain ⟨rfl, hlast⟩ := List.append_inj' heq rfl
          obtain rfl := List.singleton_inj.mp hlast
          exact hk
        · exact hbefore before k' hpre
      · intro h
        exact ⟨fun before k' hpre => h before k' (hpre.trans (List.prefix_append _ _)),
          h text k List.prefix_rfl⟩
  exact ⟨fun h => hcalls.mp h.calls, fun h => ⟨hcalls.mpr h, fun before _ => place_putText before⟩⟩

end Text

/-- A newline and a tabulator, white on black. -/
def newline : Character := ⟨10, 15, 0⟩

def tab : Character := ⟨9, 15, 0⟩

/-- A full screen, tabulators to the last row, and a newline there: it writes spaces behind the
last row.  The newline that filled the screen moved the cursor there. -/
def twoScreens : List Character :=
  List.replicate 25 newline ++ List.replicate 240 tab ++ [newline]

theorem not_onScreen_twoScreens :
    ¬ OnScreen twoScreens ∧ Call.moveCursor 2000 ∈ (putText (List.replicate 25 newline)).calls ∧
      Call.writeCell 4000 32 15 0 ∈ (putText twoScreens).calls := by
  have hlookup : (putText twoScreens).calls[185]? = some (.writeCell 4000 32 15 0) := by
    decide +kernel
  have hcell := List.mem_of_getElem? hlookup
  refine ⟨fun h => ?_, by decide +kernel, hcell⟩
  exact absurd (h.calls _ hcell _ List.mem_cons_self) (by decide)

end Framebuffer

end Legacy

end BbnOS
