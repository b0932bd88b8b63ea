import BbnOS.Console.Framebuffer
import BbnOS.Lib.Painting
import Mathlib.Data.UInt

/-!
# What the drawing functions store

Every drawing function stores one color, so it paints a set of offsets
(`setColorOfPixel_paints` and the lemmas that follow it).  On a screen that
fits the framebuffer (`FbInfo.Fits`) no store leaves it: `InScreen` is kept by
every function.
-/

namespace BbnOS

namespace Console

open Loop Painting

/-- The screen holds a cell, a scanline holds its pixels, and the framebuffer
has fewer than `2 ^ 32` words. -/
structure FbInfo.Fits (info : FbInfo) : Prop where
  width : 8 ≤ info.width.toNat
  height : 16 ≤ info.height.toNat
  scanline : info.width.toNat ≤ info.pixelsPerScanline.toNat
  size : info.pixelsPerScanline.toNat * info.height.toNat < 2 ^ 32

/-- The offset of the pixel `(x, y)`, and the pixel is on the screen. -/
def FbInfo.PixelAt (info : FbInfo) (x y : UInt32) (a : UInt64) : Prop :=
  x < info.width ∧ y < info.height ∧ a = info.offset x y

/-- All stores so far went to the framebuffer. -/
def InScreen (info : FbInfo) (f : Frame) : Prop :=
  ∀ a ∈ f.stores, a.toNat < info.pixelsPerScanline.toNat * info.height.toNat

section Drawing

variable {info : FbInfo} {f : Frame}

/-- A pixel of the screen has its word in the framebuffer. -/
theorem FbInfo.Fits.pixelAt_lt (h : info.Fits) {x y : UInt32} {a : UInt64}
    (ha : info.PixelAt x y a) :
    a.toNat < info.pixelsPerScanline.toNat * info.height.toNat := by
  obtain ⟨hx, hy, heq⟩ := ha
  have hx' := UInt32.lt_iff_toNat_lt.mp hx
  have hy' := UInt32.lt_iff_toNat_lt.mp hy
  have hscan := h.scanline
  have hsize := h.size
  have hrow : (y.toNat + 1) * info.pixelsPerScanline.toNat ≤
      info.pixelsPerScanline.toNat * info.height.toNat := by
    rw [Nat.mul_comm info.pixelsPerScanline.toNat]
    exact Nat.mul_le_mul_right _ hy'
  rw [Nat.succ_mul] at hrow
  have hprod : (y * info.pixelsPerScanline).toNat = y.toNat * info.pixelsPerScanline.toNat := by
    rw [UInt32.toNat_mul]
    exact Nat.mod_eq_of_lt (by omega)
  rw [heq, FbInfo.offset, UInt64.toNat_add, UInt32.toNat_toUInt64, UInt32.toNat_toUInt64, hprod]
  omega

theorem setColorOfPixel_paints (info : FbInfo) (color x y : UInt32) (f : Frame) :
    Paints color (info.PixelAt x y) f.words (setColorOfPixel info color x y f).words := by
  unfold setColorOfPixel
  by_cases hout : x ≥ info.width ∨ y ≥ info.height
  · rw [if_pos hout]
    refine (Paints.refl color f.words).congr fun a => ?_
    rw [iff_false]
    intro ⟨hx, hy, _⟩
    rcases hout with hx' | hy'
    · exact UInt32.not_lt.mpr hx' hx
    · exact UInt32.not_lt.mpr hy' hy
  · rw [if_neg hout]
    rw [not_or, UInt32.not_le, UInt32.not_le] at hout
    constructor
    · intro a ha
      exact if_pos ha.2.2
    · intro a ha
      exact if_neg fun heq => ha ⟨hout.1, hout.2, heq⟩

theorem setColorOfPixel_inScreen (h : info.Fits) (color x y : UInt32) (hf : InScreen info f) :
    InScreen info (setColorOfPixel info color x y f) := by
  unfold setColorOfPixel
  by_cases hout : x ≥ info.width ∨ y ≥ info.height
  · rw [if_pos hout]
    exact hf
  · rw [if_neg hout]
    rw [not_or, UInt32.not_le, UInt32.not_le] at hout
    intro a ha
    rcases List.mem_cons.mp ha with heq | hin
    · exact h.pixelAt_lt ⟨hout.1, hout.2, heq⟩
    · exact hf a hin

/-- A loop keeps `InScreen` when its rounds do. -/
theorem forUpto_inScreen {body : Nat → Frame → Frame} {n : Nat}
    (hbody : ∀ i t, InScreen info t → InScreen info (body i t)) (hf : InScreen info f) :
    InScreen info (forUpto body n f) :=
  forUpto_induct (fun _ t => InScreen info t) hf fun i t _ => hbody i t

/-! ## Clearing -/

theorem clearLine_paints (info : FbInfo) (color y : UInt32) (f : Frame) :
    Paints color (fun a => ∃ x, x < info.width.toNat ∧ info.PixelAt (UInt32.ofNat x) y a)
      f.words (clearLine info color y f).words :=
  forUpto_paints Frame.words fun x t _ => setColorOfPixel_paints info color (UInt32.ofNat x) y t

theorem clearLines_paints (info : FbInfo) (color y : UInt32) (n : Nat) (f : Frame) :
    Paints color
      (fun a => ∃ i, i < n ∧ ∃ x, x < info.width.toNat ∧
        info.PixelAt (UInt32.ofNat x) (y + UInt32.ofNat i) a)
      f.words (clearLines info color y n f).words :=
  forUpto_paints Frame.words fun i t _ => clearLine_paints info color (y + UInt32.ofNat i) t

theorem clearLines_inScreen (h : info.Fits) (color y : UInt32) (n : Nat) (hf : InScreen info f) :
    InScreen info (clearLines info color y n f) :=
  forUpto_inScreen (fun _ _ ht =>
    forUpto_inScreen (fun _ _ ht' => setColorOfPixel_inScreen h _ _ _ ht') ht) hf

theorem clearCell_inScreen (h : info.Fits) (p : CursorPosition) (hf : InScreen info f) :
    InScreen info (clearCell info p f) :=
  forUpto_inScreen (fun _ _ ht =>
    forUpto_inScreen (fun _ _ ht' => setColorOfPixel_inScreen h _ _ _ ht') ht) hf

/-! ## Glyphs -/

/-- One pixel of a glyph. -/
theorem glyphPixel_paints (info : FbInfo) (light : Bool) (x y : UInt32) (f : Frame) :
    Paints 0xffffffff (fun a => light = true ∧ info.PixelAt x y a) f.words
      (if light then setColorOfPixel info 0xffffffff x y f else f).words := by
  cases light with
  | true => exact (setColorOfPixel_paints info 0xffffffff x y f).congr fun a => by simp
  | false => exact (Paints.refl _ f.words).congr fun a => by simp

/-- Inside the screen, `_fbPutChar` paints the light pixels of the glyph. -/
theorem fbPutCharAt_paints {ft : Font} {x y : UInt32} (color : UInt64) (chr : Int8)
    (hin : info.outside x y = false) (hx : (x + 8).toNat = x.toNat + 8)
    (hy : (y + 16).toNat = y.toNat + 16) (f : Frame) :
    Paints 0xffffffff
      (fun a => ∃ i, i < 16 ∧ ∃ j, j < 8 ∧ ft.light chr i j = true ∧
        info.PixelAt (x + UInt32.ofNat j) (y + UInt32.ofNat i) a)
      f.words (fbPutCharAt info (some ft) color chr x y f).words := by
  simp only [fbPutCharAt, hin, Bool.false_eq_true, if_false]
  rw [hx, hy, Nat.add_sub_cancel_left, Nat.add_sub_cancel_left]
  exact forUpto_paints Frame.words fun i t _ =>
    forUpto_paints Frame.words fun j u _ =>
      glyphPixel_paints info (ft.light chr i j) (x + UInt32.ofNat j) (y + UInt32.ofNat i) u

theorem fbPutCharAt_inScreen (h : info.Fits) (ft : Option Font) (color : UInt64) (chr : Int8)
    (x y : UInt32) (hf : InScreen info f) :
    InScreen info (fbPutCharAt info ft color chr x y f) := by
  unfold fbPutCharAt
  split
  · exact hf
  · split
    · exact hf
    · refine forUpto_inScreen (fun i t ht => forUpto_inScreen (fun j u hu => ?_) ht) hf
      split
      · exact setColorOfPixel_inScreen h _ _ _ hu
      · exact hu

end Drawing

end Console

end BbnOS
