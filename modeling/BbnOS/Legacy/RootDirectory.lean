import BbnOS.Legacy.FatEntry
import Mathlib.Logic.Relation

/-!
# The search in the root directory

The loops from `LABEL_SEARCH_IN_ROOT_DIR_BEGIN` on, over the sectors of the root
directory, the entries of a sector and the characters of a name.  `boot.asm` and
`loader.asm` have the same code, with labels of their own.

A state is a label and the registers there.  `finds_file` says that the loops come to
an end, and where: at the first entry of the file, or at the label for no file.
-/

namespace BbnOS

namespace Legacy

namespace RealMode

open ByteMemory

/-! ## The code -/

/-- `SectorNoOfRootDirectory`. -/
def SectorNoOfRootDirectory : UInt16 := 19

/-- The labels. -/
inductive Label where
  | searchInRootDirBegin
  /-- `LABEL_SEARCH_FOR_LOADER` and `LABEL_SEARCH_FOR_KERNEL`. -/
  | searchForFile
  | cmpFilename
  | goOn
  | different
  | nextSearch
  /-- `LABEL_NO_LOADER` and `LABEL_NO_KERNEL`. -/
  | noFile
  /-- `LABEL_LOADER_FOUND` and `LABEL_KERNEL_FOUND`. -/
  | fileFound
  deriving DecidableEq

namespace Machine

/-- `lodsb` from the file name: `si` counts from its label. -/
def lodsb (p : Program) (s : Machine) : Option Machine :=
  (p.fileName[s.si.toNat]?).map fun al => { s with ax := word (hi s.ax) al, si := s.si + 1 }

/-- The part of `LABEL_SEARCH_IN_ROOT_DIR_BEGIN` behind the test: the next sector. -/
def nextSector (p : Program) (int13 : DiskRequest → Option (List UInt8)) (s : Machine) :
    Option Machine := do
  let s := { s with wRootDirSizeForLoop := s.wRootDirSizeForLoop - 1 }
  let s := { s with ax := p.base }
  let s := { s with es := s.ax }
  let s := { s with bx := p.offset }
  let s := { s with ax := s.wSectorNo }
  let s := { s with cx := word (hi s.cx) 1 }
  let s ← s.readSector int13
  some { s with si := 0, di := p.offset, dx := 0x10 }

end Machine

/-- From one label to the next.  The loops end at the last two. -/
def step (p : Program) (int13 : DiskRequest → Option (List UInt8)) :
    Label × Machine → Option (Label × Machine)
  | (.searchInRootDirBegin, s) =>
    if s.wRootDirSizeForLoop = 0 then some (.noFile, s)
    else (s.nextSector p int13).map fun s => (.searchForFile, s)
  | (.searchForFile, s) =>
    if s.dx = 0 then some (.nextSearch, s)
    else some (.cmpFilename, { s with dx := s.dx - 1, cx := 11 })
  | (.cmpFilename, s) =>
    if s.cx = 0 then some (.fileFound, s)
    else
      (Machine.lodsb p { s with cx := s.cx - 1 }).map fun s =>
        let s' := { s with loads := s.loads ++ [s.address s.di] }
        if lo s.ax = s.ram.bytes (s.address s.di) then (.goOn, s') else (.different, s')
  | (.goOn, s) => some (.cmpFilename, { s with di := s.di + 1 })
  | (.different, s) => some (.searchForFile, { s with di := (s.di &&& 0xFFE0) + 0x20, si := 0 })
  | (.nextSearch, s) => some (.searchInRootDirBegin, { s with wSectorNo := s.wSectorNo + 1 })
  | (.noFile, _) | (.fileFound, _) => none

/-- Some steps later. -/
def Reaches (p : Program) (int13 : DiskRequest → Option (List UInt8)) :
    Label × Machine → Label × Machine → Prop :=
  Relation.ReflTransGen fun x y => step p int13 x = some y

/-- The first state: the variables are set, and the registers hold anything. -/
def start (s : Machine) : Label × Machine :=
  (.searchInRootDirBegin,
    { s with wRootDirSizeForLoop := RootDirSectors, wSectorNo := SectorNoOfRootDirectory })

/-! ## What the search is for -/

/-- Byte `i` of entry `k` of the root directory. -/
def dirByte (disk : Nat → Nat → UInt8) (k i : Nat) : UInt8 :=
  disk (19 + k / 16) (32 * (k % 16) + i)

/-- Entry `k` starts with the 11 characters of the file name. -/
def IsFile (p : Program) (disk : Nat → Nat → UInt8) (k : Nat) : Prop :=
  ∀ i < 11, p.fileName[i]? = some (dirByte disk k i)

/-- `di` is in entry `k`, which is in the memory. -/
structure InEntry (p : Program) (disk : Nat → Nat → UInt8) (k : Nat) (s : Machine) : Prop where
  es : s.es = p.base
  di : s.di &&& 0xFFE0 = p.offset + UInt16.ofNat (32 * (k % 16))
  bytes : ∀ i < 32, s.ram.bytes (s.address (s.di &&& 0xFFE0) + UInt64.ofNat i) = dirByte disk k i

/-- The search ends, at the first entry of the file if there is one. -/
structure Finds (p : Program) (int13 : DiskRequest → Option (List UInt8))
    (disk : Nat → Nat → UInt8) (s : Machine) : Prop where
  ends : ∃ t, Reaches p int13 (start s) (.fileFound, t) ∨ Reaches p int13 (start s) (.noFile, t)
  found_iff : (∃ t, Reaches p int13 (start s) (.fileFound, t)) ↔ ∃ k < 224, IsFile p disk k
  notFound_iff : (∃ t, Reaches p int13 (start s) (.noFile, t)) ↔ ¬ ∃ k < 224, IsFile p disk k
  first : ∀ t, Reaches p int13 (start s) (.fileFound, t) → ∀ k < 224, IsFile p disk k →
    (∀ k' < k, ¬ IsFile p disk k') → InEntry p disk k t

/-! ## Places in a sector -/

section Places

variable {p : Program} {disk : Nat → Nat → UInt8} {s : Machine} {n e j : Nat}

theorem and_mask (w : UInt16) : (w &&& 0xFFE0).toNat = w.toNat / 32 * 32 := by
  have hw := w.toNat_lt
  have hmask : (0xFFE0 : UInt16).toNat = 2 ^ 5 * (2 ^ 11 - 1) := rfl
  rw [UInt16.toNat_and, hmask]
  apply Nat.eq_of_testBit_eq
  intro i
  rw [Nat.testBit_and, Nat.testBit_two_pow_mul, Nat.testBit_two_pow_sub_one,
    show (32 : Nat) = 2 ^ 5 from rfl, Nat.testBit_mul_two_pow, Nat.testBit_div_two_pow]
  by_cases hi : 5 ≤ i
  · rw [Nat.sub_add_cancel hi, decide_eq_true hi, Bool.true_and, Bool.true_and]
    by_cases hhigh : i < 16
    · rw [decide_eq_true (by omega : i - 5 < 11), Bool.and_true]
    · have hlt : w.toNat < 2 ^ i :=
        Nat.lt_of_lt_of_le hw (Nat.pow_le_pow_right (by decide) (by omega : 16 ≤ i))
      rw [Nat.testBit_lt_two_pow hlt, Bool.false_and]
  · rw [decide_eq_false hi, Bool.false_and, Bool.false_and, Bool.and_false]

theorem toNat_offset (p : Program) : p.offset.toNat = 0 ∨ p.offset.toNat = 0x100 := by
  cases p
  · exact Or.inr rfl
  · exact Or.inl rfl

/-- A place in the sector that was read. -/
theorem toNat_place (hk : j < 512) :
    (p.offset + UInt16.ofNat j).toNat = p.offset.toNat + j := by
  rcases toNat_offset p with h | h <;>
    rw [UInt16.toNat_add, toNat_ofNat16 (by omega)] <;> omega

theorem mask_place (he : e < 16) (hj : j < 32) :
    (p.offset + UInt16.ofNat (32 * e + j)) &&& 0xFFE0 = p.offset + UInt16.ofNat (32 * e) := by
  rw [← UInt16.toNat_inj, and_mask, toNat_place (by omega), toNat_place (by omega)]
  rcases toNat_offset p with h | h <;> omega

/-- Sector `n` of the root directory is in the memory. -/
structure SectorLoaded (p : Program) (disk : Nat → Nat → UInt8) (n : Nat) (s : Machine) : Prop where
  es : s.es = p.base
  bytes : ∀ i < 512, s.ram.bytes (physAddr p.base p.offset + UInt64.ofNat i) = disk (19 + n) i

theorem address_place (hes : s.es = p.base) (hj : j < 512) :
    s.address (p.offset + UInt16.ofNat j) = physAddr p.base p.offset + UInt64.ofNat j := by
  have hplace : (p.offset + UInt16.ofNat j).toUInt64 = p.offset.toUInt64 + UInt64.ofNat j := by
    have hlt := p.offset.toNat_lt
    rw [← UInt64.toNat_inj, UInt16.toNat_toUInt64, toNat_place hj, toNat_add_ofNat,
      UInt16.toNat_toUInt64]
    omega
  rw [Machine.address, hes, physAddr_eq_add, physAddr_eq_add p.base p.offset, hplace,
    UInt64.add_assoc]

end Places

/-! ## The loops -/

section Loops

variable {p : Program} {int13 : DiskRequest → Option (List UInt8)} {disk : Nat → Nat → UInt8}
  {s t u : Machine} {n e j : Nat} {x y z : Label × Machine}

/-- What the loops in a sector leave alone. -/
structure Keeps (s t : Machine) : Prop where
  ram : t.ram = s.ram
  es : t.es = s.es
  wSectorNo : t.wSectorNo = s.wSectorNo
  wRootDirSizeForLoop : t.wRootDirSizeForLoop = s.wRootDirSizeForLoop

theorem Keeps.refl (s : Machine) : Keeps s s := ⟨rfl, rfl, rfl, rfl⟩

theorem Keeps.trans (h : Keeps s t) (h' : Keeps t u) : Keeps s u :=
  ⟨h'.ram.trans h.ram, h'.es.trans h.es, h'.wSectorNo.trans h.wSectorNo,
    h'.wRootDirSizeForLoop.trans h.wRootDirSizeForLoop⟩

theorem Keeps.after (h' : Keeps t u) (h : Keeps s t) : Keeps s u := h.trans h'

theorem SectorLoaded.of_keeps (h : SectorLoaded p disk n s) (hkeeps : Keeps s t) :
    SectorLoaded p disk n t :=
  ⟨hkeeps.es.trans h.es, fun i hi => by rw [hkeeps.ram]; exact h.bytes i hi⟩

theorem Reaches.head (h : step p int13 x = some y) (h' : Reaches p int13 y z) :
    Reaches p int13 x z :=
  Relation.ReflTransGen.head h h'

/-- An entry of the sector. -/
theorem dirByte_eq (disk : Nat → Nat → UInt8) (n : Nat) (he : e < 16) (i : Nat) :
    dirByte disk (16 * n + e) i = disk (19 + n) (32 * e + i) := by
  have hsector : (16 * n + e) / 16 = n := by omega
  have hentry : (16 * n + e) % 16 = e := by omega
  rw [dirByte, hsector, hentry]

theorem length_fileName (p : Program) : p.fileName.length = 11 := by
  cases p <;> rfl

theorem ofNat_sub_one (k : Nat) : UInt16.ofNat (k + 1) - 1 = UInt16.ofNat k := by
  rw [UInt16.ofNat_add]
  exact UInt16.add_sub_cancel _ _

theorem ofNat_succ_ne_zero {k : Nat} (hk : k < 65535) : UInt16.ofNat (k + 1) ≠ 0 := by
  rw [Ne, ← UInt16.toNat_inj, toNat_ofNat16 (by omega), UInt16.toNat_zero]
  omega

theorem add_ofNat_add_one (a : UInt16) (k : Nat) :
    a + UInt16.ofNat k + 1 = a + UInt16.ofNat (k + 1) := by
  rw [UInt16.ofNat_add, ← UInt16.add_assoc]
  rfl

/-- The state behind the comparison with the character `c` of the name. -/
def compared (c : UInt8) (s : Machine) : Machine :=
  { s with
    cx := s.cx - 1
    ax := word (hi s.ax) c
    si := s.si + 1
    loads := s.loads ++ [s.address s.di] }

theorem step_cmpFilename (int13 : DiskRequest → Option (List UInt8)) (hne : s.cx ≠ 0) {c : UInt8}
    (hlook : p.fileName[s.si.toNat]? = some c) :
    step p int13 (.cmpFilename, s) =
      some (if c = s.ram.bytes (s.address s.di) then (.goOn, compared c s)
        else (.different, compared c s)) := by
  rw [step, if_neg hne, Machine.lodsb]
  dsimp only
  rw [hlook, Option.map_some, Option.map_some]
  dsimp only
  rw [lo_word]
  rfl

/-- The comparison with character `j` of an entry. -/
theorem step_compare (int13 : DiskRequest → Option (List UInt8)) (hs : SectorLoaded p disk n s)
    (he : e < 16) (hj : j < 11) (hne : s.cx ≠ 0) (hsi : s.si = UInt16.ofNat j)
    (hdi : s.di = p.offset + UInt16.ofNat (32 * e + j)) {c : UInt8}
    (hc : p.fileName[j]? = some c) :
    step p int13 (.cmpFilename, s) =
      some (if c = dirByte disk (16 * n + e) j then (.goOn, compared c s)
        else (.different, compared c s)) := by
  have hlook : p.fileName[s.si.toNat]? = some c := by
    rw [hsi, toNat_ofNat16 (by omega), hc]
  have hbyte : s.ram.bytes (s.address s.di) = dirByte disk (16 * n + e) j := by
    rw [hdi, address_place hs.es (by omega), hs.bytes _ (by omega), dirByte_eq disk n he]
  rw [step_cmpFilename int13 hne hlook, hbyte]

/-- A character differs, and the search goes on with the next entry. -/
theorem reaches_of_different (he : e < 16) (hj : j < 11)
    (hdi : s.di = p.offset + UInt16.ofNat (32 * e + j)) {c : UInt8}
    (hstep : step p int13 (.cmpFilename, s) = some (.different, compared c s)) :
    ∃ t, Reaches p int13 (.cmpFilename, s) (.searchForFile, t) ∧ Keeps s t ∧ t.dx = s.dx ∧
      t.si = 0 ∧ t.di = p.offset + UInt16.ofNat (32 * (e + 1)) := by
  have hnext : step p int13 (.different, compared c s) =
      some (.searchForFile, { compared c s with di := (s.di &&& 0xFFE0) + 0x20, si := 0 }) := rfl
  refine ⟨_, .head hstep (.head hnext .refl), ⟨rfl, rfl, rfl, rfl⟩, rfl, rfl, ?_⟩
  show (s.di &&& 0xFFE0) + 0x20 = _
  rw [hdi, mask_place he (by omega), Nat.mul_succ, UInt16.ofNat_add, UInt16.add_assoc]
  rfl

/-- The loop over the characters, of which `m` are left: it ends at the file, or at the next
entry. -/
theorem reaches_of_cmpFilename (hs : SectorLoaded p disk n s) (he : e < 16) {m : Nat}
    (hm : j + m = 11) (hcx : s.cx = UInt16.ofNat m) (hsi : s.si = UInt16.ofNat j)
    (hdi : s.di = p.offset + UInt16.ofNat (32 * e + j))
    (hmatch : ∀ i < j, p.fileName[i]? = some (dirByte disk (16 * n + e) i)) :
    (IsFile p disk (16 * n + e) ∧ ∃ t, Reaches p int13 (.cmpFilename, s) (.fileFound, t) ∧
      Keeps s t ∧ t.di &&& 0xFFE0 = p.offset + UInt16.ofNat (32 * e)) ∨
    (¬ IsFile p disk (16 * n + e) ∧ ∃ t, Reaches p int13 (.cmpFilename, s) (.searchForFile, t) ∧
      Keeps s t ∧ t.dx = s.dx ∧ t.si = 0 ∧ t.di = p.offset + UInt16.ofNat (32 * (e + 1))) := by
  induction m generalizing s j with
  | zero =>
    obtain rfl : j = 11 := hm
    have hstep : step p int13 (.cmpFilename, s) = some (.fileFound, s) := by
      rw [step, hcx]
      exact if_pos rfl
    refine Or.inl ⟨hmatch, s, .head hstep .refl, .refl s, ?_⟩
    rw [hdi, mask_place he (by decide)]
  | succ m ih =>
    have hne : s.cx ≠ 0 := by
      rw [hcx]
      exact ofNat_succ_ne_zero (by omega)
    have hlt : j < p.fileName.length := by
      rw [length_fileName]
      omega
    have hget : p.fileName[j]? = some p.fileName[j] := List.getElem?_eq_getElem hlt
    have hstep := step_compare int13 hs he (by omega) hne hsi hdi hget
    by_cases heq : p.fileName[j] = dirByte disk (16 * n + e) j
    · rw [if_pos heq] at hstep
      have hmatch' : ∀ i < j + 1, p.fileName[i]? = some (dirByte disk (16 * n + e) i) := by
        intro i hi
        rcases Nat.lt_succ_iff_lt_or_eq.mp hi with hi | rfl
        · exact hmatch i hi
        · rw [hget, heq]
      have hnext : step p int13 (.goOn, compared p.fileName[j] s) =
          some (.cmpFilename, { compared p.fileName[j] s with di := s.di + 1 }) := rfl
      have hloop := @ih { compared p.fileName[j] s with di := s.di + 1 } (j + 1)
        (hs.of_keeps ⟨rfl, rfl, rfl, rfl⟩) (by omega) (by rw [← ofNat_sub_one, ← hcx]; rfl)
        (by rw [UInt16.ofNat_add, ← hsi]; rfl) (by rw [hdi]; exact add_ofNat_add_one _ _) hmatch'
      refine hloop.imp ?_ ?_
      · rintro ⟨hfile, t, ht, hkeeps, hdi'⟩
        exact ⟨hfile, t, .head hstep (.head hnext ht), hkeeps.after ⟨rfl, rfl, rfl, rfl⟩, hdi'⟩
      · rintro ⟨hfile, t, ht, hkeeps, hrest⟩
        exact ⟨hfile, t, .head hstep (.head hnext ht), hkeeps.after ⟨rfl, rfl, rfl, rfl⟩, hrest⟩
    · rw [if_neg heq] at hstep
      refine Or.inr ⟨fun hfile => heq ?_, reaches_of_different he (by omega) hdi hstep⟩
      exact Option.some.inj (hget.symm.trans (hfile j (by omega)))

/-- The loop over the entries, of which `m` are left. -/
theorem reaches_of_searchForFile (hs : SectorLoaded p disk n s) {m : Nat} (hm : e + m = 16)
    (hdx : s.dx = UInt16.ofNat m) (hsi : s.si = 0)
    (hdi : s.di = p.offset + UInt16.ofNat (32 * e))
    (hnone : ∀ e' < e, ¬ IsFile p disk (16 * n + e')) :
    (∃ e' < 16, IsFile p disk (16 * n + e') ∧ (∀ e'' < e', ¬ IsFile p disk (16 * n + e'')) ∧
      ∃ t, Reaches p int13 (.searchForFile, s) (.fileFound, t) ∧ Keeps s t ∧
        t.di &&& 0xFFE0 = p.offset + UInt16.ofNat (32 * e')) ∨
    ((∀ e' < 16, ¬ IsFile p disk (16 * n + e')) ∧
      ∃ t, Reaches p int13 (.searchForFile, s) (.nextSearch, t) ∧ Keeps s t) := by
  induction m generalizing s e with
  | zero =>
    obtain rfl : e = 16 := hm
    have hstep : step p int13 (.searchForFile, s) = some (.nextSearch, s) := by
      rw [step, hdx]
      exact if_pos rfl
    exact Or.inr ⟨hnone, s, .head hstep .refl, .refl s⟩
  | succ m ih =>
    have hne : s.dx ≠ 0 := by
      rw [hdx]
      exact ofNat_succ_ne_zero (by omega)
    have hstep : step p int13 (.searchForFile, s) =
        some (.cmpFilename, { s with dx := s.dx - 1, cx := 11 }) := by
      rw [step]
      exact if_neg hne
    have hcmp := @reaches_of_cmpFilename p int13 disk { s with dx := s.dx - 1, cx := 11 } n e 0
      (hs.of_keeps ⟨rfl, rfl, rfl, rfl⟩) (by omega) 11 rfl rfl hsi hdi
      (fun i hi => absurd hi (Nat.not_lt_zero i))
    rcases hcmp with ⟨hfile, t, ht, hkeeps, hdi'⟩ | ⟨hfile, t, ht, hkeeps, hdx', hsi', hdi'⟩
    · exact Or.inl ⟨e, by omega, hfile, hnone, t, .head hstep ht,
        hkeeps.after ⟨rfl, rfl, rfl, rfl⟩, hdi'⟩
    · have hkept : Keeps s t := hkeeps.after ⟨rfl, rfl, rfl, rfl⟩
      have hnone' : ∀ e' < e + 1, ¬ IsFile p disk (16 * n + e') := by
        intro e' he'
        rcases Nat.lt_succ_iff_lt_or_eq.mp he' with he' | rfl
        · exact hnone e' he'
        · exact hfile
      have hloop := ih (hs.of_keeps hkept) (by omega) (hdx'.trans (by rw [← ofNat_sub_one, ← hdx]))
        hsi' hdi' hnone'
      have hfirst : Reaches p int13 (.searchForFile, s) (.searchForFile, t) := .head hstep ht
      refine hloop.imp ?_ ?_
      · rintro ⟨e', he', hfile', hbefore, u, hu, hkeeps', hdi''⟩
        exact ⟨e', he', hfile', hbefore, u, hfirst.trans hu, hkept.trans hkeeps', hdi''⟩
      · rintro ⟨hall, u, hu, hkeeps'⟩
        exact ⟨hall, u, hfirst.trans hu, hkept.trans hkeeps'⟩

/-- The next sector is read. -/
theorem nextSector_loads (h : Serves int13 disk) (hn : n < 14)
    (hno : s.wSectorNo = UInt16.ofNat (19 + n)) :
    ∃ t, s.nextSector p int13 = some t ∧ SectorLoaded p disk n t ∧ t.dx = UInt16.ofNat 16 ∧
      t.si = 0 ∧ t.di = p.offset + UInt16.ofNat (32 * 0) ∧ t.wSectorNo = s.wSectorNo ∧
      t.wRootDirSizeForLoop = s.wRootDirSizeForLoop - 1 := by
  have hread := @Machine.readSector_of_serves int13 disk h { s with
      wRootDirSizeForLoop := s.wRootDirSizeForLoop - 1
      ax := s.wSectorNo
      es := p.base
      bx := p.offset
      cx := word (hi s.cx) 1 } (19 + n) 1 hno (lo_word _ _) (by decide) (by omega) (by omega)
  obtain ⟨ax, cx, dx, hread⟩ := hread
  have hnext : s.nextSector p int13 = some { s with
      wRootDirSizeForLoop := s.wRootDirSizeForLoop - 1
      ax := ax
      bx := p.offset
      cx := cx
      dx := 0x10
      si := 0
      di := p.offset
      es := p.base
      ram := s.ram.store (physAddr p.base p.offset) (sectors disk (19 + n) 1) } := by
    rw [Machine.nextSector]
    dsimp only
    rw [hread]
    rfl
  refine ⟨_, hnext, ⟨rfl, fun i hi => ?_⟩, rfl, rfl, (UInt16.add_zero _).symm, rfl, rfl⟩
  have hlen : i < (sectors disk (19 + n) 1).length := by
    rw [length_sectors]
    omega
  refine (bytes_store_add _ _ hlen (by omega)).trans ?_
  rw [sectors_getD disk _ (by omega), Nat.div_eq_of_lt hi, Nat.mod_eq_of_lt hi, Nat.add_zero]

/-- `di` in an entry of the sector. -/
theorem SectorLoaded.inEntry (h : SectorLoaded p disk n s) (he : e < 16)
    (hdi : s.di &&& 0xFFE0 = p.offset + UInt16.ofNat (32 * e)) :
    InEntry p disk (16 * n + e) s := by
  have hentry : (16 * n + e) % 16 = e := by omega
  refine ⟨h.es, by rw [hentry, hdi], fun i hi => ?_⟩
  rw [hdi, address_place h.es (by omega), add_ofNat_add_ofNat, h.bytes _ (by omega),
    dirByte_eq disk n he]

/-- Two stretches of numbers, one behind the other. -/
theorem forall_lt_add {P : Nat → Prop} {a b : Nat} (h : ∀ k < a, P k)
    (h' : ∀ i < b, P (a + i)) : ∀ k < a + b, P k := by
  intro k hk
  by_cases hlow : k < a
  · exact h k hlow
  · obtain ⟨i, rfl⟩ := Nat.exists_eq_add_of_le (Nat.le_of_not_lt hlow)
    exact h' i (by omega)

/-- Where the search ends, from a state before `m` sectors. -/
theorem reaches_of_searchInRootDirBegin (h : Serves int13 disk) {m : Nat} (hm : n + m = 14)
    (hsize : s.wRootDirSizeForLoop = UInt16.ofNat m)
    (hno : s.wSectorNo = UInt16.ofNat (19 + n)) (hnone : ∀ k < 16 * n, ¬ IsFile p disk k) :
    (∃ k < 224, IsFile p disk k ∧ (∀ k' < k, ¬ IsFile p disk k') ∧
      ∃ t, Reaches p int13 (.searchInRootDirBegin, s) (.fileFound, t) ∧ InEntry p disk k t) ∨
    ((∀ k < 224, ¬ IsFile p disk k) ∧
      ∃ t, Reaches p int13 (.searchInRootDirBegin, s) (.noFile, t)) := by
  induction m generalizing s n with
  | zero =>
    obtain rfl : n = 14 := hm
    have hstep : step p int13 (.searchInRootDirBegin, s) = some (.noFile, s) := by
      rw [step, hsize]
      exact if_pos rfl
    exact Or.inr ⟨hnone, s, .head hstep .refl⟩
  | succ m ih =>
    have hne : s.wRootDirSizeForLoop ≠ 0 := by
      rw [hsize]
      exact ofNat_succ_ne_zero (by omega)
    obtain ⟨t, ht, hloaded, hdx, hsi, hdi, hno', hsize'⟩ :=
      @nextSector_loads p _ _ s n h (by omega) hno
    have hstep : step p int13 (.searchInRootDirBegin, s) = some (.searchForFile, t) := by
      rw [step, if_neg hne, ht, Option.map_some]
    have hsearch := @reaches_of_searchForFile p int13 disk t n 0 hloaded 16 rfl hdx hsi hdi
      (fun e' he' => absurd he' (Nat.not_lt_zero e'))
    rcases hsearch with ⟨e, he, hfile, hbefore, u, hu, hkeeps, hdi'⟩ | ⟨hall, u, hu, hkeeps⟩
    · exact Or.inl ⟨16 * n + e, by omega, hfile, forall_lt_add hnone hbefore, u, .head hstep hu,
        (hloaded.of_keeps hkeeps).inEntry he hdi'⟩
    · have hnone' : ∀ k < 16 * (n + 1), ¬ IsFile p disk k := forall_lt_add hnone hall
      have hnext : step p int13 (.nextSearch, u) =
          some (.searchInRootDirBegin, { u with wSectorNo := u.wSectorNo + 1 }) := rfl
      have hloop := @ih { u with wSectorNo := u.wSectorNo + 1 } (n + 1) (by omega)
        (by
          show u.wRootDirSizeForLoop = _
          rw [hkeeps.wRootDirSizeForLoop, hsize', hsize, ofNat_sub_one])
        (by
          show u.wSectorNo + 1 = _
          rw [hkeeps.wSectorNo, hno', hno, ← Nat.add_assoc, UInt16.ofNat_add (19 + n) 1]
          rfl) hnone'
      have hfirst : Reaches p int13 (.searchInRootDirBegin, s)
          (.searchInRootDirBegin, { u with wSectorNo := u.wSectorNo + 1 }) :=
        .head hstep (hu.trans (.head hnext .refl))
      refine hloop.imp ?_ ?_
      · rintro ⟨k, hk, hfile, hbefore, v, hv, hin⟩
        exact ⟨k, hk, hfile, hbefore, v, hfirst.trans hv, hin⟩
      · rintro ⟨hnone'', v, hv⟩
        exact ⟨hnone'', v, hfirst.trans hv⟩

/-- The steps are determined, so the search ends in one state only. -/
theorem Reaches.unique (h : Reaches p int13 x y) (h' : Reaches p int13 x z)
    (hy : step p int13 y = none) (hz : step p int13 z = none) : y = z := by
  have hright : Relator.RightUnique fun x y => step p int13 x = some y := by
    intro x y z hy hz
    exact Option.some.inj (hy.symm.trans hz)
  have hstay : ∀ {y z : Label × Machine}, step p int13 y = none → Reaches p int13 y z → y = z := by
    intro y z hy hyz
    rcases Relation.ReflTransGen.cases_head hyz with rfl | ⟨w, hw, -⟩
    · rfl
    · rw [hy] at hw
      cases hw
  rcases Relation.ReflTransGen.total_of_right_unique hright h h' with hyz | hzy
  · exact hstay hy hyz
  · exact (hstay hz hzy).symm

end Loops

/-- The search finds the file exactly when it exists. -/
theorem finds_file {int13 : DiskRequest → Option (List UInt8)} {disk : Nat → Nat → UInt8}
    (h : Serves int13 disk) (p : Program) (s : Machine) : Finds p int13 disk s := by
  have hsearch := @reaches_of_searchInRootDirBegin p int13 disk (start s).2 0 h 14 rfl rfl rfl
    (fun k hk => absurd hk (Nat.not_lt_zero k))
  rcases hsearch with ⟨k, hk, hfile, hbefore, t, ht, hin⟩ | ⟨hnone, t, ht⟩
  · have hother : ∀ u, ¬ Reaches p int13 (start s) (.noFile, u) := by
      intro u hu
      have hlabel : Label.fileFound = .noFile := congrArg Prod.fst (ht.unique hu rfl rfl)
      exact absurd hlabel (by decide)
    refine ⟨⟨t, Or.inl ht⟩, iff_of_true ⟨t, ht⟩ ⟨k, hk, hfile⟩,
      iff_of_false (fun ⟨u, hu⟩ => hother u hu) (not_not_intro ⟨k, hk, hfile⟩), ?_⟩
    intro u hu k' hk' hfile' hbefore'
    obtain rfl : t = u := congrArg Prod.snd (ht.unique hu rfl rfl)
    have hk : k = k' := by
      rcases Nat.lt_trichotomy k k' with hlt | heq | hgt
      · exact absurd hfile (hbefore' k hlt)
      · exact heq
      · exact absurd hfile' (hbefore k' hgt)
    exact hk ▸ hin
  · have hother : ∀ u, ¬ Reaches p int13 (start s) (.fileFound, u) := by
      intro u hu
      have hlabel : Label.noFile = .fileFound := congrArg Prod.fst (ht.unique hu rfl rfl)
      exact absurd hlabel (by decide)
    have hno : ¬ ∃ k < 224, IsFile p disk k := fun ⟨k, hk, hfile⟩ => hnone k hk hfile
    exact ⟨⟨t, Or.inr ht⟩, iff_of_false (fun ⟨u, hu⟩ => hother u hu) hno,
      iff_of_true ⟨t, ht⟩ hno, fun u hu => absurd hu (hother u)⟩

/-- On a disk with `LOADER.BIN` and `KERNEL.TXT` in front, the search for `KERNEL.BIN` ends
at its entry, the third one. -/
theorem finds_fileDisk :
    ∃ t, Reaches .loader (floppy fileDisk) (start (zeros 0)) (.fileFound, t) ∧
      InEntry .loader fileDisk 2 t := by
  have hfinds := finds_file (serves_floppy fileDisk) .loader (zeros 0)
  have hfile : IsFile .loader fileDisk 2 := by
    rw [IsFile]
    decide +kernel
  have hbefore : ∀ k < 2, ¬ IsFile .loader fileDisk k := by
    simp only [IsFile]
    decide +kernel
  obtain ⟨t, ht⟩ := hfinds.found_iff.mpr ⟨2, by decide, hfile⟩
  exact ⟨t, ht, hfinds.first t ht 2 (by decide) hfile hbefore⟩

end RealMode

end Legacy

end BbnOS
