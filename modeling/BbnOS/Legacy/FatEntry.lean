import BbnOS.Legacy.RealMode

/-!
# Entries of the FAT

`GetFATEntry` of `boot.asm` and `loader.asm`, instruction by instruction.  The FAT is a
stream of bits, the low bits of a byte first, and the entry of cluster `c` is its bits
from `12 * c` on: `getFATEntry_decodes`.

`getFATEntry_refines` connects the routine with the one of `Legacy.Loader`, which leaves
the registers out.
-/

namespace BbnOS

namespace Legacy

namespace RealMode

open ByteMemory

/-! ## The code -/

namespace Machine

/-- The first part of `GetFATEntry`: the sector of the FAT and the offset in it. -/
def locate (s : Machine) : Option Machine := do
  let s := { s with bOdd := 0 }
  let s := { s with bx := 3 }
  let s := s.mulWord s.bx
  let s := { s with bx := 2 }
  let s ← s.divWord s.bx
  let s := if s.dx = 0 then s else { s with bOdd := 1 }
  let s := { s with dx := 0 }
  let s := { s with bx := BPB_BytesPerSec }
  s.divWord s.bx

/-- The last part: it takes the entry out of its word. -/
def takeEntry (s : Machine) : Machine :=
  let s := { s with bx := s.bx + s.dx }
  let s := s.loadWord s.bx
  let s := if s.bOdd = 1 then { s with ax := s.ax >>> 4 } else s
  { s with ax := s.ax &&& 0xfff }

/-- The second part: it reads two sectors. -/
def fetch (int13 : DiskRequest → Option (List UInt8)) (s : Machine) : Option Machine := do
  let s := s.push s.dx
  let s := { s with bx := 0 }
  let s := { s with ax := s.ax + SectorNoOfFAT1 }
  let s := { s with cx := word (hi s.cx) 2 }
  let s ← s.readSector int13
  let (dx, s) ← s.pop
  some { s with dx := dx }.takeEntry

end Machine

/-- `GetFATEntry`. -/
def getFATEntry (p : Program) (int13 : DiskRequest → Option (List UInt8)) (s : Machine) :
    Option Machine := do
  let s := ((s.push s.es).push s.bx).push s.ax
  let s := { s with ax := p.base }
  let s := { s with ax := s.ax - 0x100 }
  let s := { s with es := s.ax }
  let (ax, s) ← s.pop
  let s ← { s with ax := ax }.locate
  let s ← s.fetch int13
  let (bx, s) ← s.pop
  let s := { s with bx := bx }
  let (es, s) ← s.pop
  some { s with es := es }

/-! ## What an entry is -/

/-- Bit `i` of the FAT. -/
def fatBit (disk : Nat → Nat → UInt8) (i : Nat) : Bool :=
  (fatByte disk (i / 8)).toNat.testBit (i % 8)

/-- Where a program loads sectors of the FAT. -/
def fatBuffer (p : Program) : UInt64 := physAddr (p.base - 0x100) 0

/-- `t` has the entry of the cluster in `ax`, and `bx`, `es` and the stack of before.  It has
read only bytes of the FAT, in the two sectors that were loaded. -/
structure Decodes (p : Program) (disk : Nat → Nat → UInt8) (s t : Machine) : Prop where
  entry : ∀ j, t.ax.toNat.testBit j = (decide (j < 12) && fatBit disk (12 * s.ax.toNat + j))
  bx : t.bx = s.bx
  es : t.es = s.es
  stack : t.stack = s.stack
  loads : ∃ q l, t.ram = s.ram.store (fatBuffer p) (sectors disk (q + 1) 2) ∧
    t.loads = s.loads ++ l ∧ ∀ a ∈ l, ∃ k, k < 2 * 512 ∧ 512 * q + k < 9 * 512 ∧
      a = fatBuffer p + UInt64.ofNat k

section Bits

variable {disk : Nat → Nat → UInt8}

/-- The bits of a word of the FAT. -/
theorem testBit_fatWord (disk : Nat → Nat → UInt8) (k i : Nat) :
    ((fatByte disk k).toNat + 256 * (fatByte disk (k + 1)).toNat).testBit i =
      (decide (i < 16) && fatBit disk (8 * k + i)) := by
  have hsplit := Nat.testBit_two_pow_mul_add (fatByte disk (k + 1)).toNat
    (show (fatByte disk k).toNat < 2 ^ 8 from (fatByte disk k).toNat_lt) i
  rw [Nat.add_comm, show (256 : Nat) = 2 ^ 8 from rfl, hsplit, fatBit]
  by_cases hlow : i < 8
  · have hbyte : (8 * k + i) / 8 = k := by omega
    have hbit : (8 * k + i) % 8 = i := by omega
    rw [if_pos hlow, hbyte, hbit, decide_eq_true (by omega : i < 16), Bool.true_and]
  · rw [if_neg hlow]
    by_cases hhigh : i < 16
    · have hbyte : (8 * k + i) / 8 = k + 1 := by omega
      have hbit : (8 * k + i) % 8 = i - 8 := by omega
      rw [hbyte, hbit, decide_eq_true hhigh, Bool.true_and]
    · have hlt : (fatByte disk (k + 1)).toNat < 2 ^ (i - 8) :=
        Nat.lt_of_lt_of_le (fatByte disk (k + 1)).toNat_lt
          (Nat.pow_le_pow_right (by decide) (by omega : 8 ≤ i - 8))
      rw [Nat.testBit_lt_two_pow hlt, decide_eq_false hhigh, Bool.false_and]

/-- The 12 bits of an entry. -/
theorem testBit_fatEntry (disk : Nat → Nat → UInt8) (c j : Nat) :
    (fatEntry disk c).testBit j = (decide (j < 12) && fatBit disk (12 * c + j)) := by
  rw [fatEntry]
  by_cases hodd : c % 2 = 1
  · have hplace : 8 * (c * 3 / 2) + (j + 4) = 12 * c + j := by omega
    rw [if_pos hodd, show (16 : Nat) = 2 ^ 4 from rfl, Nat.testBit_div_two_pow,
      testBit_fatWord, hplace]
    congr 1
    exact decide_eq_decide.mpr (by omega)
  · have hplace : 8 * (c * 3 / 2) + j = 12 * c + j := by omega
    rw [if_neg hodd, show (4096 : Nat) = 2 ^ 12 from rfl, Nat.testBit_mod_two_pow,
      testBit_fatWord, hplace, ← Bool.and_assoc]
    congr 1
    rw [← Bool.decide_and]
    exact decide_eq_decide.mpr (by omega)

theorem fatEntry_lt (disk : Nat → Nat → UInt8) (c : Nat) : fatEntry disk c < 4096 := by
  have hlow := (fatByte disk (c * 3 / 2)).toNat_lt
  have hhigh := (fatByte disk (c * 3 / 2 + 1)).toNat_lt
  rw [fatEntry]
  split <;> omega

end Bits

/-! ## The routine -/

section Routine

variable {int13 : DiskRequest → Option (List UInt8)} {disk : Nat → Nat → UInt8} {s : Machine}

namespace Machine

theorem mulWord_eq {w : UInt16} (h : s.ax.toNat * w.toNat < 65536) :
    s.mulWord w = { s with ax := s.ax * w, dx := 0 } := by
  have hproduct : (s.ax.toUInt32 * w.toUInt32).toNat = s.ax.toNat * w.toNat := by
    rw [UInt32.toNat_mul, UInt16.toNat_toUInt32, UInt16.toNat_toUInt32]
    exact Nat.mod_eq_of_lt (Nat.lt_trans h (by decide))
  have hlow : (s.ax.toUInt32 * w.toUInt32).toUInt16 = s.ax * w := by
    rw [← UInt16.toNat_inj, UInt32.toNat_toUInt16, hproduct, UInt16.toNat_mul]
  have hhigh : ((s.ax.toUInt32 * w.toUInt32) >>> 16).toUInt16 = 0 := by
    have hsixteen : (16 : UInt32).toNat % 32 = 16 := rfl
    rw [← UInt16.toNat_inj, UInt32.toNat_toUInt16, UInt32.toNat_shiftRight, hproduct, hsixteen,
      Nat.shiftRight_eq_div_pow, Nat.div_eq_of_lt h]
    rfl
  rw [mulWord, hlow, hhigh]

theorem divWord_eq {w : UInt16} (hw : w ≠ 0) (hdx : s.dx = 0) :
    s.divWord w = some { s with ax := s.ax / w, dx := s.ax % w } := by
  have hdividend : s.dx.toUInt32 * 0x10000 + s.ax.toUInt32 = s.ax.toUInt32 := by
    rw [hdx]
    exact UInt32.zero_add _
  have hquotient : (s.ax.toUInt32 / w.toUInt32).toNat = s.ax.toNat / w.toNat := by
    rw [UInt32.toNat_div, UInt16.toNat_toUInt32, UInt16.toNat_toUInt32]
  have hax := s.ax.toNat_lt
  have hle := Nat.div_le_self s.ax.toNat w.toNat
  have hfits : ¬ (w = 0 ∨ s.ax.toUInt32 / w.toUInt32 > 0xffff) := by
    rw [not_or, gt_iff_lt, UInt32.lt_iff_toNat_lt, hquotient]
    exact ⟨hw, by simp only [UInt32.reduceToNat]; omega⟩
  have hdiv : (s.ax.toUInt32 / w.toUInt32).toUInt16 = s.ax / w := by
    rw [← UInt16.toNat_inj, UInt32.toNat_toUInt16, hquotient, UInt16.toNat_div]
    omega
  have hmod : (s.ax.toUInt32 % w.toUInt32).toUInt16 = s.ax % w := by
    have hle' := Nat.mod_le s.ax.toNat w.toNat
    rw [← UInt16.toNat_inj, UInt32.toNat_toUInt16, UInt32.toNat_mod, UInt16.toNat_toUInt32,
      UInt16.toNat_toUInt32, UInt16.toNat_mod]
    omega
  rw [divWord, hdividend]
  simp only [hfits, if_false, hdiv, hmod]

/-- The sector and the offset of the entry of cluster `ax`. -/
theorem locate_eq (hc : s.ax.toNat < 3072) :
    s.locate = some { s with
      ax := UInt16.ofNat (s.ax.toNat * 3 / 2 / 512)
      bx := 512
      dx := UInt16.ofNat (s.ax.toNat * 3 / 2 % 512)
      bOdd := if s.ax.toNat % 2 = 1 then 1 else 0 } := by
  have hthree : (3 : UInt16).toNat = 3 := rfl
  have hmul : mulWord 3 { s with bOdd := 0, bx := 3 } =
      { s with bOdd := 0, bx := 3, ax := s.ax * 3, dx := 0 } :=
    mulWord_eq (show s.ax.toNat * (3 : UInt16).toNat < 65536 by rw [hthree]; omega)
  have hproduct : (s.ax * 3).toNat = s.ax.toNat * 3 := by
    rw [UInt16.toNat_mul, hthree]
    omega
  have htwo : (2 : UInt16).toNat = 2 := rfl
  have hsize : BPB_BytesPerSec.toNat = 512 := rfl
  have hoffset : (s.ax * 3 / 2).toNat = s.ax.toNat * 3 / 2 := by
    rw [UInt16.toNat_div, hproduct, htwo]
  have hsector : s.ax * 3 / 2 / BPB_BytesPerSec = UInt16.ofNat (s.ax.toNat * 3 / 2 / 512) := by
    rw [← UInt16.toNat_inj, UInt16.toNat_div, hoffset, hsize, toNat_ofNat16 (by omega)]
  have hplace : s.ax * 3 / 2 % BPB_BytesPerSec = UInt16.ofNat (s.ax.toNat * 3 / 2 % 512) := by
    rw [← UInt16.toNat_inj, UInt16.toNat_mod, hoffset, hsize, toNat_ofNat16 (by omega)]
  have hparity : s.ax * 3 % 2 = 0 ↔ ¬ s.ax.toNat % 2 = 1 := by
    rw [← UInt16.toNat_inj, UInt16.toNat_mod, hproduct, htwo, UInt16.toNat_zero]
    omega
  have hdiv : divWord 2 { s with bOdd := 0, bx := 2, ax := s.ax * 3, dx := 0 } =
      some { s with bOdd := 0, bx := 2, ax := s.ax * 3 / 2, dx := s.ax * 3 % 2 } :=
    divWord_eq (by decide) rfl
  have hfinal : ∀ odd : UInt8,
      divWord BPB_BytesPerSec
        { s with bOdd := odd, bx := BPB_BytesPerSec, ax := s.ax * 3 / 2, dx := 0 } =
        some { s with
          bOdd := odd
          bx := 512
          ax := UInt16.ofNat (s.ax.toNat * 3 / 2 / 512)
          dx := UInt16.ofNat (s.ax.toNat * 3 / 2 % 512) } := by
    intro odd
    rw [divWord_eq (by decide) rfl, hsector, hplace]
    rfl
  rw [locate]
  dsimp only
  rw [hmul]
  dsimp only
  rw [hdiv, Option.bind_eq_bind, Option.bind_some]
  by_cases hodd : s.ax.toNat % 2 = 1
  · rw [if_neg fun h => hparity.mp h hodd, if_pos hodd]
    exact hfinal 1
  · rw [if_pos (hparity.mpr hodd), if_neg hodd]
    exact hfinal 0

/-- The word at `es:bx + dx`, and its 12 bits. -/
theorem takeEntry_eq (s : Machine) :
    s.takeEntry = { s with
      ax := (if s.bOdd = 1 then
          UInt16.ofNat (s.ram.readLE (s.address (s.bx + s.dx)) 2) >>> 4
        else UInt16.ofNat (s.ram.readLE (s.address (s.bx + s.dx)) 2)) &&& 0xfff
      bx := s.bx + s.dx
      loads := s.loads ++ [s.address (s.bx + s.dx), s.address (s.bx + s.dx) + 1] } := by
  by_cases hodd : s.bOdd = 1
  · simp only [takeEntry, loadWord, hodd, if_true]
    rfl
  · simp only [takeEntry, loadWord, hodd, if_false]
    rfl

/-- The entry at offset `dx` of the two sectors from sector `q` of the FAT. -/
theorem fetch_eq (h : Serves int13 disk) {q r : Nat} (hax : s.ax = UInt16.ofNat q)
    (hdx : s.dx = UInt16.ofNat r) (hq : q < 9) (hr : r < 512) :
    ∃ cx, s.fetch int13 = some { s with
      ax := (if s.bOdd = 1 then
          UInt16.ofNat ((fatByte disk (512 * q + r)).toNat +
            256 * (fatByte disk (512 * q + r + 1)).toNat) >>> 4
        else
          UInt16.ofNat ((fatByte disk (512 * q + r)).toNat +
            256 * (fatByte disk (512 * q + r + 1)).toNat)) &&& 0xfff
      bx := UInt16.ofNat r
      cx := cx
      dx := UInt16.ofNat r
      ram := s.ram.store (physAddr s.es 0) (sectors disk (q + 1) 2)
      loads := s.loads ++
        [physAddr s.es 0 + UInt64.ofNat r, physAddr s.es 0 + UInt64.ofNat (r + 1)] } := by
  have hsector : s.ax + SectorNoOfFAT1 = UInt16.ofNat (q + 1) := by
    rw [hax, UInt16.ofNat_add]
    rfl
  have hread : ∃ ax cx dx, readSector int13 { s with
      stack := s.dx :: s.stack
      bx := 0
      ax := s.ax + SectorNoOfFAT1
      cx := word (hi s.cx) 2 } = some { s with
        stack := s.dx :: s.stack
        bx := 0
        ax := ax
        cx := cx
        dx := dx
        ram := s.ram.store (physAddr s.es 0) (sectors disk (q + 1) 2) } :=
    readSector_of_serves h hsector (lo_word _ _) (by decide) (by omega) (by omega)
  obtain ⟨ax, cx, dx, hread⟩ := hread
  have hword := readLE_sectors disk s.ram (physAddr s.es 0) q (show r < 1023 by omega)
  have haddr : physAddr s.es (0 + s.dx) = physAddr s.es 0 + UInt64.ofNat r := by
    rw [UInt16.zero_add, physAddr_eq_add, hdx, toUInt64_ofNat16 (by omega)]
  have hnext : physAddr s.es 0 + UInt64.ofNat r + 1 = physAddr s.es 0 + UInt64.ofNat (r + 1) :=
    add_ofNat_add_ofNat (physAddr s.es 0) r 1
  refine ⟨cx, ?_⟩
  rw [fetch]
  dsimp only [push]
  rw [hread, Option.bind_eq_bind, Option.bind_some]
  dsimp only [pop]
  rw [Option.bind_eq_bind, Option.bind_some, takeEntry_eq]
  dsimp only [address]
  rw [haddr, hword, hnext, UInt16.zero_add, hdx]

end Machine

/-- The machine that has found the sector and the offset of the entry. -/
def located (p : Program) (s : Machine) : Machine :=
  { s with
    ax := UInt16.ofNat (s.ax.toNat * 3 / 2 / 512)
    bx := 512
    dx := UInt16.ofNat (s.ax.toNat * 3 / 2 % 512)
    es := p.base - 0x100
    stack := s.bx :: s.es :: s.stack
    bOdd := if s.ax.toNat % 2 = 1 then 1 else 0 }

theorem bOdd_located (p : Program) (s : Machine) :
    (located p s).bOdd = 1 ↔ s.ax.toNat % 2 = 1 := by
  rw [located]
  dsimp only
  by_cases hodd : s.ax.toNat % 2 = 1
  · rw [if_pos hodd]
    exact iff_of_true rfl hodd
  · rw [if_neg hodd]
    exact iff_of_false (by decide) hodd

theorem fetch_located (h : Serves int13 disk) (p : Program) (hc : s.ax.toNat < 3072) :
    ∃ cx, (located p s).fetch int13 = some { located p s with
      ax := UInt16.ofNat (fatEntry disk s.ax.toNat)
      bx := UInt16.ofNat (s.ax.toNat * 3 / 2 % 512)
      cx := cx
      ram := s.ram.store (fatBuffer p) (sectors disk (s.ax.toNat * 3 / 2 / 512 + 1) 2)
      loads := s.loads ++ [fatBuffer p + UInt64.ofNat (s.ax.toNat * 3 / 2 % 512),
        fatBuffer p + UInt64.ofNat (s.ax.toNat * 3 / 2 % 512 + 1)] } := by
  obtain ⟨cx, hfetch⟩ := @Machine.fetch_eq int13 disk (located p s) h
    (s.ax.toNat * 3 / 2 / 512) (s.ax.toNat * 3 / 2 % 512) rfl rfl (by omega)
    (Nat.mod_lt _ (by decide))
  rw [Nat.div_add_mod, entry_of_word (fatByte disk (s.ax.toNat * 3 / 2)).toNat_lt
    (fatByte disk (s.ax.toNat * 3 / 2 + 1)).toNat_lt (bOdd_located p s)] at hfetch
  exact ⟨cx, hfetch⟩

/-- The routine, for a cluster of the FAT. -/
theorem getFATEntry_eq (h : Serves int13 disk) (p : Program) (hc : s.ax.toNat < 3072) :
    ∃ cx, getFATEntry p int13 s = some { s with
      ax := UInt16.ofNat (fatEntry disk s.ax.toNat)
      cx := cx
      dx := UInt16.ofNat (s.ax.toNat * 3 / 2 % 512)
      bOdd := if s.ax.toNat % 2 = 1 then 1 else 0
      ram := s.ram.store (fatBuffer p) (sectors disk (s.ax.toNat * 3 / 2 / 512 + 1) 2)
      loads := s.loads ++ [fatBuffer p + UInt64.ofNat (s.ax.toNat * 3 / 2 % 512),
        fatBuffer p + UInt64.ofNat (s.ax.toNat * 3 / 2 % 512 + 1)] } := by
  have hlocate : Machine.locate { s with stack := s.bx :: s.es :: s.stack, es := p.base - 0x100 } =
      some (located p s) := Machine.locate_eq hc
  obtain ⟨cx, hfetch⟩ := fetch_located h p hc
  refine ⟨cx, ?_⟩
  rw [getFATEntry]
  dsimp only [Machine.push, Machine.pop]
  rw [Option.bind_eq_bind, Option.bind_some]
  dsimp only
  rw [hlocate, Option.bind_eq_bind, Option.bind_some, hfetch]
  rfl

/-- `GetFATEntry` decodes the FAT. -/
theorem getFATEntry_decodes (h : Serves int13 disk) (p : Program) (hc : s.ax.toNat < 3072) :
    ∃ t, getFATEntry p int13 s = some t ∧ Decodes p disk s t := by
  obtain ⟨cx, heq⟩ := getFATEntry_eq h p hc
  refine ⟨_, heq, ⟨fun j => ?_, rfl, rfl, rfl, _, _, rfl, rfl, fun a ha => ?_⟩⟩
  · have hentry : (UInt16.ofNat (fatEntry disk s.ax.toNat)).toNat = fatEntry disk s.ax.toNat :=
      toNat_ofNat16 (Nat.lt_trans (fatEntry_lt disk s.ax.toNat) (by decide))
    rw [hentry]
    exact testBit_fatEntry disk s.ax.toNat j
  · rcases List.mem_cons.mp ha with rfl | ha
    · exact ⟨_, by omega, by omega, rfl⟩
    · exact ⟨_, by omega, by omega, List.mem_singleton.mp ha⟩

/-- The routine finds what the one without registers finds. -/
theorem getFATEntry_refines (h : Serves int13 disk) (hc : s.ax.toNat < 3072) :
    (getFATEntry .loader int13 s).map (fun t => (t.ax, t.ram)) =
      Legacy.getFATEntry int13 s.ax s.ram := by
  obtain ⟨cx, heq⟩ := getFATEntry_eq h .loader hc
  have hspec := Legacy.getFATEntry_eq h hc s.ram
  rw [UInt16.ofNat_toNat] at hspec
  rw [heq, hspec]
  rfl

end Routine

/-- Registers and memory of zeros, with the cluster in `ax`. -/
def zeros (ax : UInt16) : Machine where
  ax := ax
  bx := 0
  cx := 0
  dx := 0
  si := 0
  di := 0
  es := 0
  stack := []
  bOdd := 0
  wSectorNo := 0
  wRootDirSizeForLoop := 0
  ram := ⟨fun _ => 0⟩
  loads := []

/-- Cluster 2 of a disk with one small file, for the boot sector. -/
theorem getFATEntry_smallDisk :
    ∃ t, getFATEntry .boot (floppy (smallDisk 0xfff)) (zeros 2) = some t ∧
      Decodes .boot (smallDisk 0xfff) (zeros 2) t :=
  getFATEntry_decodes (serves_floppy _) .boot (by decide)

end RealMode

end Legacy

end BbnOS
