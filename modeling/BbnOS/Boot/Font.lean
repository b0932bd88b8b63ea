import BbnOS.Boot.Loader
import BbnOS.Console.Cursor
import BbnOS.Lib.Traced

/-!
# The font, from the file to the screen

`LoadPSF1Font` takes the number of bytes of a glyph from the header of the font
file, whatever it is, and allocates room for 256 or 512 glyphs.  `_fbPutChar`
draws 16 rows of every glyph.  `ownGlyphs_iff` says for which fonts all bytes
that it reads are bytes of the glyph that it draws.
-/

namespace BbnOS

open ByteMemory Console Traced

namespace Uefi

/-! ## Loading -/

/-- The magic number of a PSF1 font. -/
def PSF1_MAGIC0 : UInt8 := 0x36

/-- The second byte of the magic number. -/
def PSF1_MAGIC1 : UInt8 := 0x04

/-- `PSF1_HEADER`. -/
structure Psf1Header where
  magic0 : UInt8
  magic1 : UInt8
  mode : UInt8
  charsize : UInt8
  deriving DecidableEq

/-- `sizeof(PSF1_HEADER)`. -/
def Psf1Header.size : UInt64 := 4

/-- The header at the start of a list of bytes. -/
def Psf1Header.ofList (l : List UInt8) : Psf1Header where
  magic0 := l.getD 0 0
  magic1 := l.getD 1 0
  mode := l.getD 2 0
  charsize := l.getD 3 0

/-- `glyph_buffer_size`: 256 glyphs, or 512. -/
def Psf1Header.glyphBufferSize (header : Psf1Header) : UInt64 :=
  UInt64.ofNat (if header.mode = 1 then header.charsize.toNat * 512
    else header.charsize.toNat * 256)

/-- What the firmware answers to `LoadPSF1Font`. -/
structure FontFirmware where
  /-- The contents of the font file, unless `LoadFile` fails. -/
  file : Option (List UInt8)
  /-- The bytes of the pool for the header before it is read. -/
  headerPool : List UInt8
  readHeader : ReadAnswer
  seekGlyphs : UInt64
  /-- The pointer that `AllocatePool` leaves in `glyph_buffer`. -/
  glyphBuffer : UInt64
  readGlyphs : ReadAnswer

/-- `PSF1_FONT`, with the size of the buffer that was allocated for the glyphs. -/
structure Psf1Font where
  header : Psf1Header
  glyphBuffer : UInt64
  bufferSize : UInt64

/-- The header after the first `Read`. -/
def fontHeader (fw : FontFirmware) (file : List UInt8) : Psf1Header :=
  let data := fw.readHeader.data file 0 Psf1Header.size
  .ofList (data ++ fw.headerPool.drop data.length)

/-- The state before the glyphs are read. -/
def beforeGlyphs (fw : FontFirmware) (file : List UInt8) (ram : ByteMemory) : State :=
  setPosition fw.seekGlyphs Psf1Header.size
    { ram := ram
      position := UInt64.ofNat (fw.readHeader.data file 0 Psf1Header.size).length
      loads := [] }

/-- `LoadPSF1Font`: the font, if it is accepted, and the memory with its glyphs. -/
def loadPsf1Font (fw : FontFirmware) (ram : ByteMemory) : Option (Psf1Font × ByteMemory) :=
  match fw.file with
  | none => none
  | some file =>
    let header := fontHeader fw file
    if header.magic0 ≠ PSF1_MAGIC0 ∨ header.magic1 ≠ PSF1_MAGIC1 then none
    else
      let size := header.glyphBufferSize
      let s := read file fw.readGlyphs size fw.glyphBuffer (beforeGlyphs fw file ram)
      some ({ header := header, glyphBuffer := fw.glyphBuffer, bufferSize := size }, s.ram)

/-- The font as the console uses it. -/
def Psf1Font.font (ft : Psf1Font) (ram : ByteMemory) : Font where
  charsize := ft.header.charsize
  glyphBuffer := fun k => ram.bytes (ft.glyphBuffer + UInt64.ofInt k)

end Uefi

namespace Console

/-! ## Drawing -/

/-- The read of one byte of the font, by its offset from `glyph_buffer`. -/
def readGlyph (ft : Font) (k : Int) : StateM (Traced Frame Int) UInt8 :=
  use k fun f => (ft.glyphBuffer k, f)

/-- `_fbPutChar`, with the bytes of the font that it reads. -/
def fbPutCharTraced (info : FbInfo) (ft : Font) (chr : Int8) (x y : UInt32) :
    StateM (Traced Frame Int) Unit :=
  if info.outside x y then pure ()
  else
    repeatUpto (fun i =>
      repeatUpto (fun j => do
        let row ← readGlyph ft (chr.toInt * ft.charsize.toNat + i)
        if (row &&& (0b10000000 >>> UInt8.ofNat j)) > 0 then
          update (setColorOfPixel info 0xffffffff (x + UInt32.ofNat j) (y + UInt32.ofNat i)))
        ((x + 8).toNat - x.toNat)) ((y + 16).toNat - y.toNat)

/-- The offsets of the bytes that `_fbPutChar` reads from the font. -/
def glyphReads (info : FbInfo) (ft : Font) (chr : Int8) (x y : UInt32) (f : Frame) : List Int :=
  (fbPutCharTraced info ft chr x y (start f)).2.used

/-- Without the record it is `_fbPutChar`. -/
theorem fbPutCharTraced_eq (info : FbInfo) (ft : Font) (color : UInt64) (chr : Int8)
    (x y : UInt32) (t : Traced Frame Int) :
    (fbPutCharTraced info ft chr x y t).2.state =
      fbPutCharAt info (some ft) color chr x y t.state := by
  unfold fbPutCharTraced fbPutCharAt
  by_cases hout : info.outside x y = true
  · simp only [hout, if_true]
    rfl
  · simp only [hout, Bool.false_eq_true, if_false]
    refine runs_repeat (fun i t => ?_) _ t
    refine runs_repeat (fun j t => ?_) _ t
    exact (state_ite_update _ _ _).trans (if_congr decide_eq_true_iff.symm rfl rfl)

/-- It reads at most 16 rows from the start of the glyph. -/
theorem fbPutCharTraced_confined (info : FbInfo) (ft : Font) (chr : Int8) (x y : UInt32) :
    Confined (fun k => ∃ i : Nat, i < 16 ∧ k = chr.toInt * ft.charsize.toNat + i)
      (fbPutCharTraced info ft chr x y) := by
  unfold fbPutCharTraced
  by_cases hout : info.outside x y = true
  · rw [if_pos hout]
    exact confined_pure ()
  · rw [if_neg hout]
    refine confined_repeat fun i hi => confined_repeat fun j _ => ?_
    have hrow : i < 16 := by
      rw [UInt32.toNat_add] at hi
      have hlt := y.toNat_lt
      have h16 : (16 : UInt32).toNat = 16 := rfl
      omega
    refine (confined_use ⟨i, hrow, rfl⟩ _).bind fun row => ?_
    split
    · exact confined_update _
    · exact confined_pure ()

/-- A glyph that is drawn at the origin: its last row is read. -/
theorem mem_glyphReads_origin (info : FbInfo) (hx : 8 ≤ info.width.toNat)
    (hy : 16 ≤ info.height.toNat) (ft : Font) (chr : Int8) (f : Frame) :
    chr.toInt * ft.charsize.toNat + 15 ∈ glyphReads info ft chr 0 0 f := by
  have hin : info.outside 0 0 = false :=
    outside_eq_false (by rw [UInt32.toNat_zero]; omega) (by rw [UInt32.toNat_zero]; omega)
  have hcols : ((0 : UInt32) + 8).toNat - (0 : UInt32).toNat = 7 + 1 := by decide
  have hrows : ((0 : UInt32) + 16).toNat - (0 : UInt32).toNat = 15 + 1 := by decide
  unfold glyphReads fbPutCharTraced
  rw [hin, if_neg Bool.false_ne_true, hcols, hrows]
  apply mem_used_repeat
  intro t
  apply mem_used_repeat
  intro u
  -- the last round reads the row, and then stores at most
  show _ ∈ ((if _ then _ else _ : StateM (Traced Frame Int) Unit) _).2.used
  split
  · exact List.mem_cons_self
  · exact List.mem_cons_self

end Console

namespace Uefi

/-! ## Which fonts are drawn from their own glyphs -/

/-- The second `Read` delivers the whole glyph table of the file. -/
def GlyphsRead (fw : FontFirmware) (file : List UInt8) (ram : ByteMemory) : Prop :=
  (beforeGlyphs fw file ram).position = Psf1Header.size ∧
    fw.readGlyphs.Complete file Psf1Header.size (fontHeader fw file).glyphBufferSize

/-- Whatever printable character is drawn, wherever, every byte that is read from
the font lies in the buffer of the glyphs and belongs to the glyph of the
character, and is the byte that the file has there. -/
def OwnGlyphs (ft : Psf1Font) (file : List UInt8) (ram : ByteMemory) : Prop :=
  ∀ (info : FbInfo) (chr : Int8) (x y : UInt32) (f : Frame), 0x20 ≤ chr → chr ≤ 0x7e →
    ∀ k ∈ glyphReads info (ft.font ram) chr x y f,
      (0 ≤ k ∧ k < ft.bufferSize.toNat) ∧
      (chr.toInt * ft.header.charsize.toNat ≤ k ∧
        k < chr.toInt * ft.header.charsize.toNat + ft.header.charsize.toNat) ∧
      (ft.font ram).glyphBuffer k = file.getD (4 + k.toNat) 0

theorem toInt_printable {chr : Int8} (hlo : 0x20 ≤ chr) (hhi : chr ≤ 0x7e) :
    32 ≤ chr.toInt ∧ chr.toInt ≤ 126 :=
  ⟨Int8.le_iff_toInt_le.mp hlo, Int8.le_iff_toInt_le.mp hhi⟩

theorem toNat_glyphBufferSize (header : Psf1Header) :
    header.glyphBufferSize.toNat =
      if header.mode = 1 then header.charsize.toNat * 512 else header.charsize.toNat * 256 := by
  have hlt := header.charsize.toNat_lt
  unfold Psf1Header.glyphBufferSize
  refine UInt64.toNat_ofNat_of_lt' ?_
  show _ < 2 ^ 64
  split <;> omega

/-- A complete `Read` delivers the bytes of the file. -/
theorem getD_data_complete {o : ReadAnswer} {file : List UInt8} {position size : UInt64}
    (h : o.Complete file position size) {k : Nat} (hk : k < size.toNat) :
    (o.data file position size).getD k 0 = file.getD (position.toNat + k) 0 := by
  have hlen := h.2
  unfold ReadAnswer.data at hlen ⊢
  rw [List.length_take] at hlen
  simp only [List.getD_eq_getElem?_getD]
  rw [List.getElem?_take_of_lt (by omega), List.getElem?_drop]

/-- The glyphs of the file are in the buffer. -/
theorem glyphBuffer_font {fw : FontFirmware} {ram ram' : ByteMemory} {file : List UInt8}
    {ft : Psf1Font} (hfile : fw.file = some file) (h : loadPsf1Font fw ram = some (ft, ram'))
    (hread : GlyphsRead fw file ram) {k : Nat} (hk : k < ft.bufferSize.toNat) :
    (ft.font ram').glyphBuffer k = file.getD (4 + k) 0 := by
  have hlen := hread.2.2
  have hbuf := hread.1
  simp only [loadPsf1Font, hfile] at h
  split at h
  · cases h
  · cases h
    have hk64 : k < 2 ^ 64 := Nat.lt_trans hk (UInt64.toNat_lt _)
    have hoff : UInt64.ofInt (k : Int) = UInt64.ofNat k := by
      rw [UInt64.ofInt, Int.emod_eq_of_lt (by omega) (by omega), Int.toNat_natCast]
    show (read file fw.readGlyphs _ fw.glyphBuffer (beforeGlyphs fw file ram)).ram.bytes
      (fw.glyphBuffer + UInt64.ofInt k) = _
    unfold read
    rw [hbuf, hoff]
    rw [bytes_store_add _ _ (by rw [hlen]; exact hk) hk64]
    exact getD_data_complete hread.2 hk

/-- The last row of a space belongs to its glyph only if that has 16 rows. -/
theorem OwnGlyphs.charsize_le {ft : Psf1Font} {file : List UInt8} {ram : ByteMemory}
    (h : OwnGlyphs ft file ram) : 16 ≤ ft.header.charsize.toNat := by
  have hlast := mem_glyphReads_origin smallScreen.info (by decide) (by decide)
    (ft.font ram) 0x20 { words := smallScreen.words, stores := [] }
  have hin := (h _ _ _ _ _ (by decide) (by decide) _ hlast).2.1.2
  have hfont : (ft.font ram).charsize = ft.header.charsize := rfl
  rw [hfont] at hin
  omega

theorem loadPsf1Font_font {fw : FontFirmware} {ram ram' : ByteMemory} {file : List UInt8}
    {ft : Psf1Font} (hfile : fw.file = some file) (h : loadPsf1Font fw ram = some (ft, ram')) :
    ft.header = fontHeader fw file ∧ ft.bufferSize = (fontHeader fw file).glyphBufferSize := by
  simp only [loadPsf1Font, hfile] at h
  split at h
  · cases h
  · cases h
    exact ⟨rfl, rfl⟩

/-- A font that `LoadPSF1Font` accepts, with its whole glyph table, is drawn from
its own glyphs if and only if they have at least 16 bytes. -/
theorem ownGlyphs_iff {fw : FontFirmware} {ram ram' : ByteMemory} {file : List UInt8}
    {ft : Psf1Font} (hfile : fw.file = some file) (h : loadPsf1Font fw ram = some (ft, ram'))
    (hread : GlyphsRead fw file ram) :
    OwnGlyphs ft file ram' ↔ 16 ≤ (fontHeader fw file).charsize.toNat := by
  have hheader := loadPsf1Font_font hfile h
  have hsize := toNat_glyphBufferSize (fontHeader fw file)
  rw [← hheader.2] at hsize
  rw [← hheader.1] at hsize ⊢
  constructor
  · intro hown
    exact hown.charsize_le
  · intro hcs info chr x y f hlo hhi k hk
    obtain ⟨i, hi, rfl⟩ := fbPutCharTraced_confined info (ft.font ram') chr x y (start f)
      (fun a ha => absurd ha List.not_mem_nil) k hk
    have hchr := toInt_printable hlo hhi
    obtain ⟨c, hc⟩ := Int.eq_ofNat_of_zero_le (show 0 ≤ chr.toInt by omega)
    have hfont : (ft.font ram').charsize = ft.header.charsize := rfl
    have hrows : c * ft.header.charsize.toNat ≤ 126 * ft.header.charsize.toNat :=
      Nat.mul_le_mul_right _ (by omega)
    have hin : c * ft.header.charsize.toNat + i < ft.bufferSize.toNat := by
      rw [hsize]
      split <;> omega
    have hk : (c : Int) * ft.header.charsize.toNat + i =
        ((c * ft.header.charsize.toNat + i : Nat) : Int) := by
      push_cast
      rfl
    rw [hfont, hc]
    refine ⟨⟨?_, ?_⟩, ⟨?_, ?_⟩, ?_⟩
    · rw [hk]
      exact Int.natCast_nonneg _
    · rw [hk]
      exact Int.ofNat_lt.mpr hin
    · omega
    · omega
    · rw [hk, Int.toNat_natCast]
      exact glyphBuffer_font hfile h hread hin

/-- A font file with a glyph size of eight bytes, or of sixteen, and its answers. -/
def fontFile (charsize : UInt8) : FontFirmware where
  file := some ([0x36, 0x04, 0, charsize] ++ List.replicate (256 * charsize.toNat) 0xff)
  headerPool := []
  readHeader := { status := EFI_SUCCESS, limit := none }
  seekGlyphs := EFI_SUCCESS
  glyphBuffer := 0x100000
  readGlyphs := { status := EFI_SUCCESS, limit := none }

theorem glyphsRead_fontFile (charsize : UInt8) (ram : ByteMemory) :
    ∃ file, (fontFile charsize).file = some file ∧
      fontHeader (fontFile charsize) file = ⟨0x36, 0x04, 0, charsize⟩ ∧
      GlyphsRead (fontFile charsize) file ram := by
  have hmode : (0 : UInt8) ≠ 1 := by decide
  have hsize : (Psf1Header.glyphBufferSize ⟨0x36, 0x04, 0, charsize⟩).toNat =
      charsize.toNat * 256 :=
    (toNat_glyphBufferSize ⟨0x36, 0x04, 0, charsize⟩).trans (if_neg hmode)
  refine ⟨_, rfl, rfl, rfl, rfl, ?_⟩
  have hfour : Psf1Header.size.toNat = 4 := rfl
  show (List.take (min (Psf1Header.glyphBufferSize ⟨0x36, 0x04, 0, charsize⟩).toNat
    (Psf1Header.glyphBufferSize ⟨0x36, 0x04, 0, charsize⟩).toNat) (List.drop _ _)).length =
      (Psf1Header.glyphBufferSize ⟨0x36, 0x04, 0, charsize⟩).toNat
  rw [hsize, hfour, List.length_take, List.length_drop, List.length_append, List.length_replicate]
  have hhead : [0x36, 0x04, 0, charsize].length = 4 := rfl
  omega

/-- A font with glyphs of eight bytes: the last rows that are drawn for a character
are those of the next one. -/
theorem not_ownGlyphs_eight :
    ∃ file ft ram', (fontFile 8).file = some file ∧
      loadPsf1Font (fontFile 8) ⟨fun _ => 0⟩ = some (ft, ram') ∧
      GlyphsRead (fontFile 8) file ⟨fun _ => 0⟩ ∧ ¬ OwnGlyphs ft file ram' := by
  obtain ⟨file, hfile, hheader, hread⟩ := glyphsRead_fontFile 8 ⟨fun _ => 0⟩
  refine ⟨file, _, _, hfile, rfl, hread, fun h => ?_⟩
  exact absurd h.charsize_le (by decide)

/-- A font with glyphs of sixteen bytes is drawn from its own glyphs. -/
theorem ownGlyphs_sixteen :
    ∃ file ft ram', (fontFile 16).file = some file ∧
      loadPsf1Font (fontFile 16) ⟨fun _ => 0⟩ = some (ft, ram') ∧
      16 ≤ (fontHeader (fontFile 16) file).charsize.toNat ∧ OwnGlyphs ft file ram' := by
  obtain ⟨file, hfile, hheader, hread⟩ := glyphsRead_fontFile 16 ⟨fun _ => 0⟩
  have hsize : 16 ≤ (fontHeader (fontFile 16) file).charsize.toNat := by
    rw [hheader]
    decide
  exact ⟨file, _, _, hfile, rfl, hsize, (ownGlyphs_iff hfile rfl hread).mpr hsize⟩

end Uefi

end BbnOS
