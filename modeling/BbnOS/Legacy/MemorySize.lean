import BbnOS.Lib.ByteMemory

/-!
# The memory size of the legacy kernel

`PrintMemInfo` of `loader.asm`, which copies every recorded entry of the memory map to
`ARDStruct` and leaves the size of the memory in `dwMemSize`.  It adds the low halves of
base and length only, so that an entry beyond 4 GiB counts by its end modulo `2 ^ 32`:
`sizesMemory_iff` says when this does no harm.

The selectors in `ds` and `es` are flat.  The routines that show the numbers keep the
registers and this memory, and are left out.
-/

namespace BbnOS

namespace Legacy

namespace MemorySize

open ByteMemory

/-! ## The code -/

/-- The addresses of the variables. -/
structure Layout where
  MemChkBufOffset : UInt32
  MemNumOffset : UInt32
  ARDStructOffset : UInt32
  dwMemSizeOffset : UInt32

namespace Layout

def dwBaseAddrLowOffset (l : Layout) : UInt32 := l.ARDStructOffset

def dwLengthLowOffset (l : Layout) : UInt32 := l.ARDStructOffset + 8

def dwTypeOffset (l : Layout) : UInt32 := l.ARDStructOffset + 16

/-- The variables of `loader.asm`.  The text `MemChkTitle` lies between the 512 bytes of
`MemChkBuf` and `ARDStruct`, and two more texts and `dwDispPos` before `MemNum`. -/
def loader (MemChkBufOffset : UInt32) : Layout where
  MemChkBufOffset := MemChkBufOffset
  ARDStructOffset := MemChkBufOffset + 604
  dwMemSizeOffset := MemChkBufOffset + 628
  MemNumOffset := MemChkBufOffset + 650

end Layout

/-- `.1`: the double words at `esi` go to `edi`, as many as `edx` says. -/
def copy : Nat → UInt32 → UInt32 → ByteMemory → ByteMemory
  | 0, _, _, mem => mem
  | edx + 1, esi, edi, mem =>
    let eax := mem.read32 esi.toUInt64
    copy edx (esi + 4) (edi + 4) (mem.write32 edi.toUInt64 eax)

/-- The entry in `ARDStruct` raises `dwMemSize`. -/
def raise (l : Layout) (mem : ByteMemory) : ByteMemory :=
  if mem.read32 l.dwTypeOffset.toUInt64 ≠ 1 then mem
  else
    let eax := mem.read32 l.dwBaseAddrLowOffset.toUInt64
    let eax := eax + mem.read32 l.dwLengthLowOffset.toUInt64
    if eax < mem.read32 l.dwMemSizeOffset.toUInt64 then mem
    else mem.write32 l.dwMemSizeOffset.toUInt64 eax

/-- `.loop`: a loop that starts with `ecx` zero has `2 ^ 32` rounds. -/
def loop (l : Layout) : Nat → UInt32 → UInt32 → ByteMemory → Option ByteMemory
  | 0, _, _, _ => none
  | fuel + 1, ecx, esi, mem =>
    let mem := copy 6 esi l.ARDStructOffset mem
    let mem := raise l mem
    if ecx - 1 = 0 then some mem else loop l fuel (ecx - 1) (esi + 24) mem

/-- `PrintMemInfo`. -/
def printMemInfo (l : Layout) (mem : ByteMemory) : Option ByteMemory :=
  loop l (2 ^ 32) (mem.read32 l.MemNumOffset.toUInt64) l.MemChkBufOffset mem

/-! ## What the routine is for -/

/-- An entry of the memory map. -/
structure Entry where
  base : UInt64
  length : UInt64
  type : UInt32
  acpi_resp : UInt32

namespace Entry

/-- The double words of an entry. -/
def words (e : Entry) : List UInt32 :=
  [e.base.toUInt32, (e.base >>> 32).toUInt32, e.length.toUInt32, (e.length >>> 32).toUInt32,
    e.type, e.acpi_resp]

/-- The end of the memory that an entry describes. -/
def top (e : Entry) : Nat := e.base.toNat + e.length.toNat

end Entry

/-- The largest of some numbers, and zero if there is none. -/
def largest (l : List Nat) : Nat := l.foldr max 0

/-- The top of the usable memory below 4 GiB. -/
def lowTop (es : List Entry) : Nat :=
  largest ((es.filter fun e => e.type = 1 ∧ e.top < 2 ^ 32).map Entry.top)

/-- The memory holds entries from an address up. -/
def Holds (es : List Entry) (esi : UInt32) (mem : ByteMemory) : Prop :=
  ∀ i < es.length, ∀ e, es[i]? = some e → ∀ k < 6,
    some (mem.read32 (esi + UInt32.ofNat (24 * i + 4 * k)).toUInt64) = e.words[k]?

/-- Some entries from an address up, `ARDStruct` and `dwMemSize` do not meet. -/
structure Apart (l : Layout) (esi : UInt32) (n : Nat) : Prop where
  entries : esi.toNat + 24 * n ≤ 2 ^ 32
  ARDStruct : l.ARDStructOffset.toNat + 24 ≤ 2 ^ 32
  dwMemSize : l.dwMemSizeOffset.toNat + 4 ≤ 2 ^ 32
  entries_ARDStruct : esi.toNat + 24 * n ≤ l.ARDStructOffset.toNat ∨
    l.ARDStructOffset.toNat + 24 ≤ esi.toNat
  entries_dwMemSize : esi.toNat + 24 * n ≤ l.dwMemSizeOffset.toNat ∨
    l.dwMemSizeOffset.toNat + 4 ≤ esi.toNat
  ARDStruct_dwMemSize : l.ARDStructOffset.toNat + 24 ≤ l.dwMemSizeOffset.toNat ∨
    l.dwMemSizeOffset.toNat + 4 ≤ l.ARDStructOffset.toNat

/-- As many entries as `MemChkBuf` can hold. -/
theorem Layout.apart_loader {buf : UInt32} (hbuf : buf.toNat + 654 ≤ 2 ^ 32) {n : Nat}
    (hn : n ≤ 21) : Apart (loader buf) buf n := by
  have hard : (loader buf).ARDStructOffset.toNat = buf.toNat + 604 :=
    toNat_add_offset32 (k := 604) (by omega)
  have hsize : (loader buf).dwMemSizeOffset.toNat = buf.toNat + 628 :=
    toNat_add_offset32 (k := 628) (by omega)
  refine ⟨?_, ?_, ?_, ?_, ?_, ?_⟩ <;> omega

/-- `DetectMemory` has recorded entries, and `dwMemSize` is still zero. -/
structure Recorded (l : Layout) (es : List Entry) (mem : ByteMemory) : Prop where
  memNum : (mem.read32 l.MemNumOffset.toUInt64).toNat = es.length
  holds : Holds es l.MemChkBufOffset mem
  dwMemSize : mem.read32 l.dwMemSizeOffset.toUInt64 = 0
  apart : Apart l l.MemChkBufOffset es.length

/-- `PrintMemInfo` leaves the top of the usable memory below 4 GiB in `dwMemSize`. -/
def SizesMemory (l : Layout) (es : List Entry) (mem : ByteMemory) : Prop :=
  ∃ mem', printMemInfo l mem = some mem' ∧
    (mem'.read32 l.dwMemSizeOffset.toUInt64).toNat = lowTop es

/-! ## The copy -/

section Copy

variable {n : Nat} {esi edi : UInt32} {mem : ByteMemory}

theorem bytes_copy_of_outside (hedi : edi.toNat + 4 * n ≤ 2 ^ 32) {a : UInt64}
    (ha : a.toNat < edi.toNat ∨ edi.toNat + 4 * n ≤ a.toNat) :
    (copy n esi edi mem).bytes a = mem.bytes a := by
  induction n generalizing esi edi mem with
  | zero => rfl
  | succ n ih =>
    have hbase : edi.toUInt64.toNat = edi.toNat := UInt32.toNat_toUInt64 edi
    rw [copy]
    cases n with
    | zero => exact bytes_write32_of_outside mem _ (by omega) (by omega)
    | succ n =>
      have hnext : (edi + 4).toNat = edi.toNat + 4 := toNat_add_offset32 (k := 4) (by omega)
      rw [ih (by omega) (by omega), bytes_write32_of_outside mem _ (by omega) (by omega)]

theorem read32_copy_of_outside (hedi : edi.toNat + 4 * n ≤ 2 ^ 32) {a : UInt32}
    (h : a.toNat + 4 ≤ edi.toNat ∨ edi.toNat + 4 * n ≤ a.toNat) :
    (copy n esi edi mem).read32 a.toUInt64 = mem.read32 a.toUInt64 := by
  have ha : a.toUInt64.toNat = a.toNat := UInt32.toNat_toUInt64 a
  have hlt := a.toNat_lt
  refine read32_congr_of_outside (by omega) fun b _ _ => ?_
  exact bytes_copy_of_outside hedi (by omega)

/-- The copied words. -/
theorem read32_copy (hesi : esi.toNat + 4 * n ≤ 2 ^ 32) (hedi : edi.toNat + 4 * n ≤ 2 ^ 32)
    (hsep : esi.toNat + 4 * n ≤ edi.toNat ∨ edi.toNat + 4 * n ≤ esi.toNat) {k : Nat}
    (hk : k < n) :
    (copy n esi edi mem).read32 (edi + UInt32.ofNat (4 * k)).toUInt64 =
      mem.read32 (esi + UInt32.ofNat (4 * k)).toUInt64 := by
  induction n generalizing esi edi mem k with
  | zero => omega
  | succ n ih =>
    have hbase : edi.toUInt64.toNat = edi.toNat := UInt32.toNat_toUInt64 edi
    have hbase' : esi.toUInt64.toNat = esi.toNat := UInt32.toNat_toUInt64 esi
    have hfour : ∀ (a : UInt32) (j : Nat),
        a + UInt32.ofNat (4 * (j + 1)) = a + 4 + UInt32.ofNat (4 * j) := by
      intro a j
      rw [Nat.mul_succ, Nat.add_comm, ← add_offset32_add]
      rfl
    rw [copy]
    cases n with
    | zero =>
      obtain rfl : k = 0 := by omega
      have hzero : ∀ a : UInt32, a + UInt32.ofNat (4 * 0) = a := fun a => UInt32.add_zero a
      rw [hzero, hzero, copy, read32_write32_self]
    | succ n =>
      have hnext : (edi + 4).toNat = edi.toNat + 4 := toNat_add_offset32 (k := 4) (by omega)
      have hnext' : (esi + 4).toNat = esi.toNat + 4 := toNat_add_offset32 (k := 4) (by omega)
      cases k with
      | zero =>
        have hzero : ∀ a : UInt32, a + UInt32.ofNat (4 * 0) = a := fun a => UInt32.add_zero a
        rw [hzero, hzero, read32_copy_of_outside (by omega) (by omega), read32_write32_self]
      | succ k =>
        have hlt : (esi + 4 + UInt32.ofNat (4 * k)).toUInt64.toNat =
            esi.toNat + 4 + 4 * k := by
          rw [UInt32.toNat_toUInt64, toNat_add_offset32 (by omega), hnext']
        rw [hfour, hfour, ih (by omega) (by omega) (by omega) (by omega)]
        exact read32_write32_of_outside mem _ (by omega) (by omega) (by omega)

end Copy

/-! ## One entry -/

/-- What an entry makes of the size. -/
def raised (m : Nat) (e : Entry) : Nat :=
  if e.type = 1 then max m (e.top % 2 ^ 32) else m

section Round

variable {l : Layout} {mem : ByteMemory} {e : Entry} {es : List Entry} {esi : UInt32}

/-- `ARDStruct` holds an entry. -/
structure Loaded (l : Layout) (e : Entry) (mem : ByteMemory) : Prop where
  baseLow : mem.read32 l.dwBaseAddrLowOffset.toUInt64 = e.base.toUInt32
  lengthLow : mem.read32 l.dwLengthLowOffset.toUInt64 = e.length.toUInt32
  type : mem.read32 l.dwTypeOffset.toUInt64 = e.type

/-- The sum of the low halves. -/
theorem toNat_low_add (e : Entry) :
    (e.base.toUInt32 + e.length.toUInt32).toNat = e.top % 2 ^ 32 := by
  rw [UInt32.toNat_add, UInt64.toNat_toUInt32, UInt64.toNat_toUInt32, ← Nat.add_mod, Entry.top]

theorem raise_size (h : Loaded l e mem) :
    ((raise l mem).read32 l.dwMemSizeOffset.toUInt64).toNat =
      raised (mem.read32 l.dwMemSizeOffset.toUInt64).toNat e := by
  rw [raise, raised, h.baseLow, h.lengthLow, h.type]
  by_cases htype : e.type = 1
  · rw [if_neg (not_not.mpr htype), if_pos htype]
    dsimp only
    by_cases hlt : e.base.toUInt32 + e.length.toUInt32 < mem.read32 l.dwMemSizeOffset.toUInt64
    · rw [if_pos hlt]
      rw [UInt32.lt_iff_toNat_lt, toNat_low_add] at hlt
      omega
    · rw [if_neg hlt, read32_write32_self, toNat_low_add]
      rw [UInt32.lt_iff_toNat_lt, toNat_low_add] at hlt
      omega
  · rw [if_pos htype, if_neg htype]

theorem bytes_raise_of_outside (hsize : l.dwMemSizeOffset.toNat + 4 ≤ 2 ^ 32) {a : UInt64}
    (ha : a.toNat < l.dwMemSizeOffset.toNat ∨ l.dwMemSizeOffset.toNat + 4 ≤ a.toNat) :
    (raise l mem).bytes a = mem.bytes a := by
  have hbase : l.dwMemSizeOffset.toUInt64.toNat = l.dwMemSizeOffset.toNat :=
    UInt32.toNat_toUInt64 _
  rw [raise]
  split
  · rfl
  · dsimp only
    split
    · rfl
    · exact bytes_write32_of_outside mem _ (by omega) (by omega)

/-- The copy loads the first entry. -/
theorem loaded_copy (hapart : Apart l esi (es.length + 1)) (hholds : Holds (e :: es) esi mem) :
    Loaded l e (copy 6 esi l.ARDStructOffset mem) := by
  obtain ⟨hesi, hard, _, hsep, _, _⟩ := hapart
  have hword : ∀ k < 6, some ((copy 6 esi l.ARDStructOffset mem).read32
      (l.ARDStructOffset + UInt32.ofNat (4 * k)).toUInt64) = e.words[k]? := by
    intro k hk
    rw [read32_copy (by omega) (by omega) (by omega) hk]
    have hfirst := hholds 0 (Nat.succ_pos es.length) e rfl k hk
    rwa [Nat.mul_zero, Nat.zero_add] at hfirst
  refine ⟨?_, ?_, ?_⟩
  · have h0 := Option.some.inj (hword 0 (by omega))
    rwa [show l.ARDStructOffset + UInt32.ofNat (4 * 0) = l.ARDStructOffset from
      UInt32.add_zero _] at h0
  · exact Option.some.inj (hword 2 (by omega))
  · exact Option.some.inj (hword 4 (by omega))

/-- A pass through the loop keeps the entries that follow. -/
theorem holds_round (hapart : Apart l esi (es.length + 1)) (hholds : Holds (e :: es) esi mem) :
    Holds es (esi + 24) (raise l (copy 6 esi l.ARDStructOffset mem)) := by
  intro i hi x hx k hk
  obtain ⟨hesi, hard, hsize, hsep, hsep', _⟩ := hapart
  have haddr : esi + 24 + UInt32.ofNat (24 * i + 4 * k) =
      esi + UInt32.ofNat (24 * (i + 1) + 4 * k) := by
    rw [show 24 * (i + 1) + 4 * k = 24 + (24 * i + 4 * k) by omega]
    exact add_offset32_add esi 24 _
  have hnat : (esi + UInt32.ofNat (24 * (i + 1) + 4 * k)).toUInt64.toNat =
      esi.toNat + (24 * (i + 1) + 4 * k) := by
    rw [UInt32.toNat_toUInt64, toNat_add_offset32 (by omega)]
  rw [haddr, ← hholds (i + 1) (by simpa using hi) x (by simpa using hx) k hk]
  refine congrArg some (read32_congr_of_outside (by omega) fun b hlo hhi => ?_)
  rw [bytes_raise_of_outside hsize (by omega), bytes_copy_of_outside (by omega) (by omega)]

/-- A pass through the loop raises the size. -/
theorem size_round (hapart : Apart l esi (es.length + 1)) (hholds : Holds (e :: es) esi mem) :
    ((raise l (copy 6 esi l.ARDStructOffset mem)).read32 l.dwMemSizeOffset.toUInt64).toNat =
      raised (mem.read32 l.dwMemSizeOffset.toUInt64).toNat e := by
  have hard := hapart.ARDStruct
  have hsep := hapart.ARDStruct_dwMemSize
  rw [raise_size (loaded_copy hapart hholds), read32_copy_of_outside (by omega) (by omega)]

end Round

/-! ## The loop -/

theorem Apart.tail {l : Layout} {esi : UInt32} {n : Nat} (hn : 0 < n)
    (h : Apart l esi (n + 1)) : Apart l (esi + 24) n := by
  obtain ⟨hesi, hard, hsize, hsep, hsep', hsep''⟩ := h
  have hnext : (esi + 24).toNat = esi.toNat + 24 := toNat_add_offset32 (k := 24) (by omega)
  exact ⟨by omega, hard, hsize, by omega, by omega, hsep''⟩

/-- The loop goes through the entries one after the other.  By induction on the entries
left. -/
theorem loop_eq {l : Layout} {es : List Entry} (hes : es ≠ []) {fuel : Nat}
    (hfuel : es.length ≤ fuel) {ecx esi : UInt32} {mem : ByteMemory}
    (hecx : ecx.toNat = es.length) (hapart : Apart l esi es.length) (hholds : Holds es esi mem) :
    ∃ mem', loop l fuel ecx esi mem = some mem' ∧
      (mem'.read32 l.dwMemSizeOffset.toUInt64).toNat =
        es.foldl raised (mem.read32 l.dwMemSizeOffset.toUInt64).toNat := by
  induction es generalizing fuel ecx esi mem with
  | nil => exact absurd rfl hes
  | cons e es ih =>
    rw [List.length_cons] at hfuel hecx hapart
    obtain ⟨fuel, rfl⟩ := Nat.exists_eq_succ_of_ne_zero (show fuel ≠ 0 by omega)
    have hone : (1 : UInt32).toNat = 1 := rfl
    have hpred : (ecx - 1).toNat = es.length := by
      rw [UInt32.toNat_sub_of_le _ _ (by rw [UInt32.le_iff_toNat_le]; omega), hecx, hone]
      omega
    have hzero : ecx - 1 = 0 ↔ es = [] := by
      rw [← UInt32.toNat_inj, hpred, UInt32.toNat_zero, List.length_eq_zero_iff]
    have hsize := size_round hapart hholds
    rw [loop, List.foldl_cons, ← hsize]
    by_cases hlast : es = []
    · subst hlast
      exact ⟨_, if_pos (hzero.mpr rfl), rfl⟩
    · obtain ⟨mem', hloop, htop⟩ :=
        @ih hlast fuel (by omega) (ecx - 1) (esi + 24) _ hpred
          (hapart.tail (List.length_pos_iff.mpr hlast)) (holds_round hapart hholds)
      exact ⟨mem', (if_neg fun h => hlast (hzero.mp h)).trans hloop, htop⟩

/-! ## The largest end -/

theorem largest_le_iff {l : List Nat} {b : Nat} : largest l ≤ b ↔ ∀ x ∈ l, x ≤ b := by
  induction l with
  | nil => simp [largest]
  | cons x l ih =>
    rw [largest, List.foldr_cons, ← largest, Nat.max_le, ih, List.forall_mem_cons]

theorem lowTop_le_iff {es : List Entry} {b : Nat} :
    lowTop es ≤ b ↔ ∀ e ∈ es, e.type = 1 → e.top < 2 ^ 32 → e.top ≤ b := by
  rw [lowTop, largest_le_iff, List.forall_mem_map]
  simp only [List.mem_filter, decide_eq_true_eq, and_imp]

theorem foldl_raised_le_iff {es : List Entry} {m b : Nat} :
    es.foldl raised m ≤ b ↔ m ≤ b ∧ ∀ e ∈ es, e.type = 1 → e.top % 2 ^ 32 ≤ b := by
  induction es generalizing m with
  | nil => simp
  | cons e es ih =>
    have hraised : raised m e ≤ b ↔ m ≤ b ∧ (e.type = 1 → e.top % 2 ^ 32 ≤ b) := by
      rw [raised]
      by_cases htype : e.type = 1
      · rw [if_pos htype, Nat.max_le]
        exact and_congr_right' ⟨fun h _ => h, fun h => h htype⟩
      · rw [if_neg htype]
        exact ⟨fun h => ⟨h, fun h' => absurd h' htype⟩, And.left⟩
    rw [List.foldl_cons, ih, hraised, List.forall_mem_cons, and_assoc]

/-- The size is right exactly if no usable entry that reaches 4 GiB ends, modulo `2 ^ 32`,
above the usable memory below 4 GiB. -/
theorem sizesMemory_iff {l : Layout} {es : List Entry} {mem : ByteMemory} (hes : es ≠ [])
    (h : Recorded l es mem) :
    SizesMemory l es mem ↔
      ∀ e ∈ es, e.type = 1 → 2 ^ 32 ≤ e.top → e.top % 2 ^ 32 ≤ lowTop es := by
  have hfuel : es.length ≤ 2 ^ 32 := by
    have hlt := (mem.read32 l.MemNumOffset.toUInt64).toNat_lt
    have hnum := h.memNum
    omega
  obtain ⟨mem', hrun, hsize⟩ := loop_eq hes hfuel h.memNum h.apart h.holds
  rw [h.dwMemSize, UInt32.toNat_zero] at hsize
  -- an end below 4 GiB is its own remainder, so the loop never stays below
  have hlow : lowTop es ≤ es.foldl raised 0 := by
    rw [lowTop_le_iff]
    intro e he htype htop
    rw [← Nat.mod_eq_of_lt htop]
    exact (foldl_raised_le_iff.mp le_rfl).2 e he htype
  have hsizes : SizesMemory l es mem ↔ es.foldl raised 0 ≤ lowTop es := by
    constructor
    · rintro ⟨mem'', hrun', hsize'⟩
      obtain rfl := Option.some.inj (hrun.symm.trans hrun')
      rw [← hsize, hsize']
    · intro hle
      exact ⟨mem', hrun, hsize.trans (Nat.le_antisymm hle hlow)⟩
  rw [hsizes, foldl_raised_le_iff]
  constructor
  · rintro ⟨_, hall⟩ e he htype _
    exact hall e he htype
  · intro hall
    refine ⟨Nat.zero_le _, fun e he htype => ?_⟩
    by_cases htop : e.top < 2 ^ 32
    · rw [Nat.mod_eq_of_lt htop]
      exact lowTop_le_iff.mp le_rfl e he htype htop
    · exact hall e he htype (by omega)

/-! ## Entries in the buffer -/

/-- The memory with `MemChkBuf` at `0x91000` and some 24-byte entries in it. -/
def memChkBuf (num : UInt8) (data : List UInt8) : ByteMemory :=
  ((ByteMemory.mk fun _ => 0).store 0x91000 data).store 0x9128a [num, 0, 0, 0]

theorem recorded_memChkBuf {num : UInt8} {data : List UInt8} {es : List Entry}
    (hlen : es.length ≤ 21) (hnum : ((memChkBuf num data).read32 0x9128a).toNat = es.length)
    (hwords : ∀ i < es.length, ∀ k < 6, some ((memChkBuf num data).read32
      ((0x91000 : UInt32) + UInt32.ofNat (24 * i + 4 * k)).toUInt64) =
        es[i]?.bind fun e => e.words[k]?)
    (hsize : (memChkBuf num data).read32 0x91274 = 0) :
    Recorded (Layout.loader 0x91000) es (memChkBuf num data) := by
  have hapart : Apart (Layout.loader 0x91000) 0x91000 es.length :=
    Layout.apart_loader (by decide) hlen
  refine ⟨hnum, fun i hi x hx k hk => ?_, hsize, hapart⟩
  have hword := hwords i hi k hk
  rw [hx] at hword
  exact hword

/-- 639 KiB, 31 MiB from 1 MiB up, and 16 MiB from 4 GiB up. -/
def severalEntries : List Entry :=
  [{ base := 0, length := 0x9fc00, type := 1, acpi_resp := 1 },
   { base := 0x100000, length := 0x1f00000, type := 1, acpi_resp := 1 },
   { base := 0x100000000, length := 0x1000000, type := 1, acpi_resp := 1 }]

def severalMap : ByteMemory :=
  memChkBuf 3
    ([0, 0, 0, 0, 0, 0, 0, 0, 0, 0xfc, 9, 0, 0, 0, 0, 0, 1, 0, 0, 0, 1, 0, 0, 0] ++
      [0, 0, 0x10, 0, 0, 0, 0, 0, 0, 0, 0xf0, 1, 0, 0, 0, 0, 1, 0, 0, 0, 1, 0, 0, 0] ++
      [0, 0, 0, 0, 1, 0, 0, 0, 0, 0, 0, 1, 0, 0, 0, 0, 1, 0, 0, 0, 1, 0, 0, 0])

/-- 1 GiB from 4 GiB up. -/
def highEntry : Entry := { base := 0x100000000, length := 0x40000000, type := 1, acpi_resp := 1 }

def highMap : ByteMemory :=
  memChkBuf 1 [0, 0, 0, 0, 1, 0, 0, 0, 0, 0, 0, 0x40, 0, 0, 0, 0, 1, 0, 0, 0, 1, 0, 0, 0]

theorem recorded_severalMap : Recorded (Layout.loader 0x91000) severalEntries severalMap :=
  recorded_memChkBuf (by decide) (by decide +kernel) (by decide +kernel) (by decide +kernel)

theorem recorded_highMap : Recorded (Layout.loader 0x91000) [highEntry] highMap :=
  recorded_memChkBuf (by decide) (by decide +kernel) (by decide +kernel) (by decide +kernel)

/-- The region above 4 GiB ends, modulo 4 GiB, below the 32 MiB. -/
theorem sizesMemory_severalMap :
    SizesMemory (Layout.loader 0x91000) severalEntries severalMap :=
  (sizesMemory_iff (by decide) recorded_severalMap).mpr (by decide)

theorem not_sizesMemory_highMap :
    Recorded (Layout.loader 0x91000) [highEntry] highMap ∧
      ¬ SizesMemory (Layout.loader 0x91000) [highEntry] highMap := by
  have h := recorded_highMap
  refine ⟨h, ?_⟩
  rintro ⟨mem', hrun, hsize⟩
  obtain ⟨mem'', hrun', hsize'⟩ :=
    @loop_eq _ _ (List.cons_ne_nil highEntry []) (2 ^ 32) (by decide) _ _ _ h.memNum h.apart
      h.holds
  obtain rfl := Option.some.inj (hrun.symm.trans hrun')
  rw [hsize, h.dwMemSize] at hsize'
  exact absurd hsize' (by decide)

end MemorySize

end Legacy

end BbnOS
