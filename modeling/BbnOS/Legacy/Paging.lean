import BbnOS.Lib.ByteMemory

/-!
# Paging of the legacy kernel

`SetupPaging` of `loader.asm`.  Its two loops fill one entry of the page directory for
every 4 MiB of the detected memory, and the page tables behind it, one after the other.
They store nothing else: `mapsExactly_iff` says that the entries of the directory behind
those must not be present before.

The selector in `es` is flat, and `cld` has cleared the direction flag.
-/

namespace BbnOS

namespace Legacy

namespace Paging

open ByteMemory

/-! ## The code -/

def PageDirBase : UInt32 := 0x100000

def PageTblBase : UInt32 := 0x101000

def PG_P : UInt32 := 1

def PG_RWW : UInt32 := 2

def PG_USU : UInt32 := 4

/-- `stosd`, `add eax, 4096`, `loop`: a loop that starts with `ecx` zero has `2 ^ 32`
rounds. -/
def stosdLoop : Nat → UInt32 → UInt32 → UInt32 → ByteMemory → Option ByteMemory
  | 0, _, _, _, _ => none
  | fuel + 1, eax, ecx, edi, mem =>
    let mem := mem.write32 edi.toUInt64 eax
    if ecx - 1 = 0 then some mem else stosdLoop fuel (eax + 4096) (ecx - 1) (edi + 4) mem

/-- The state after `SetupPaging`. -/
structure Paged where
  memory : ByteMemory
  cr0 : UInt32
  cr3 : UInt32

/-- `SetupPaging`, with `dwMemSize`. -/
def setupPaging (dwMemSize cr0 : UInt32) (mem : ByteMemory) : Option Paged := do
  let eax := dwMemSize / 0x400000
  let edx := dwMemSize % 0x400000
  let ecx := if edx = 0 then eax else eax + 1
  let mem ← stosdLoop (2 ^ 32) (PageTblBase ||| PG_P ||| PG_USU ||| PG_RWW) ecx PageDirBase mem
  let mem ← stosdLoop (2 ^ 32) (PG_P ||| PG_USU ||| PG_RWW) (ecx * 1024) PageTblBase mem
  some { memory := mem, cr0 := cr0 ||| 0x80000000, cr3 := PageDirBase }

/-! ## The walk of the processor -/

/-- The address in an entry. -/
def frame (entry : UInt32) : UInt32 := (entry >>> 12) * 4096

/-- Entry `k` of the page directory. -/
def pde (s : Paged) (k : UInt32) : UInt32 :=
  s.memory.read32 (frame s.cr3 + k * 4).toUInt64

/-- The entry of the page table for a linear address. -/
def pte (s : Paged) (la : UInt32) : UInt32 :=
  s.memory.read32 (frame (pde s (la >>> 22)) + (la >>> 12) % 1024 * 4).toUInt64

/-- The physical address for a linear address, if both entries are present. -/
def translate (s : Paged) (la : UInt32) : Option UInt32 :=
  if pde s (la >>> 22) &&& PG_P = 0 ∨ pte s la &&& PG_P = 0 then none
  else some (frame (pte s la) + la % 4096)

/-- The bits of a page for users, which they may write. -/
def Open (entry : UInt32) : Prop :=
  entry &&& PG_P = PG_P ∧ entry &&& PG_USU = PG_USU ∧ entry &&& PG_RWW = PG_RWW

/-- The number of page tables for `M` bytes. -/
def tables (M : UInt32) : Nat := (M.toNat + (2 ^ 22 - 1)) / 2 ^ 22

/-- The pages of `M` bytes are mapped to themselves, and the directory has no other entries. -/
structure MapsExactly (M : UInt32) (s : Paged) : Prop where
  identity : ∀ la : UInt32, la.toNat < tables M * 2 ^ 22 →
    translate s la = some la ∧ Open (pde s (la >>> 22)) ∧ Open (pte s la)
  rest : ∀ k : UInt32, tables M ≤ k.toNat → k.toNat < 1024 → pde s k &&& PG_P = 0

/-! ## The loops -/

section Loops

variable {eax ecx edi : UInt32} {mem mem' : ByteMemory} {c fuel : Nat}

/-- A loop of `c` rounds: the words it stores, and what it leaves alone. -/
structure Stores (eax edi : UInt32) (c : Nat) (mem mem' : ByteMemory) : Prop where
  words : ∀ j < c, mem'.read32 (edi + UInt32.ofNat (4 * j)).toUInt64 =
    eax + UInt32.ofNat (4096 * j)
  others : ∀ a, a.toNat < edi.toNat ∨ edi.toNat + 4 * c ≤ a.toNat → mem'.bytes a = mem.bytes a

theorem add_four_add (a : UInt32) (j : Nat) :
    a + 4 + UInt32.ofNat (4 * j) = a + UInt32.ofNat (4 * (j + 1)) := by
  rw [Nat.mul_succ, Nat.add_comm, ← add_offset32_add]
  rfl

theorem add_page_add (a : UInt32) (j : Nat) :
    a + 4096 + UInt32.ofNat (4096 * j) = a + UInt32.ofNat (4096 * (j + 1)) := by
  rw [Nat.mul_succ, Nat.add_comm, ← add_offset32_add]
  rfl

/-- One round in front of a loop. -/
theorem Stores.cons (hedi : edi.toNat + 4 * (c + 1) ≤ 2 ^ 32) (hc : 0 < c)
    (h : Stores (eax + 4096) (edi + 4) c (mem.write32 edi.toUInt64 eax) mem') :
    Stores eax edi (c + 1) mem mem' := by
  have hbase : edi.toUInt64.toNat = edi.toNat := UInt32.toNat_toUInt64 edi
  have hnext : (edi + 4).toNat = edi.toNat + 4 := toNat_add_offset32 (k := 4) (by omega)
  refine ⟨fun j hj => ?_, fun a ha => ?_⟩
  · cases j with
    | zero =>
      have hzero : edi + UInt32.ofNat (4 * 0) = edi := UInt32.add_zero edi
      have hkept : mem'.read32 edi.toUInt64 = (mem.write32 edi.toUInt64 eax).read32 edi.toUInt64 :=
        read32_congr_of_outside (by omega) fun b _ hb => h.others b (by omega)
      rw [hzero, hkept, read32_write32_self]
      exact (UInt32.add_zero eax).symm
    | succ j =>
      rw [← add_four_add, ← add_page_add]
      exact h.words j (by omega)
  · rw [h.others a (by omega), bytes_write32_of_outside mem eax (by omega) (by omega)]

theorem stosdLoop_stores (hc : 0 < c) (hfuel : c ≤ fuel) (hecx : ecx.toNat = c)
    (hedi : edi.toNat + 4 * c ≤ 2 ^ 32) :
    ∃ mem', stosdLoop fuel eax ecx edi mem = some mem' ∧ Stores eax edi c mem mem' := by
  induction fuel generalizing c eax ecx edi mem with
  | zero => omega
  | succ fuel ih =>
    have hone : (1 : UInt32).toNat = 1 := rfl
    have hpred : (ecx - 1).toNat = c - 1 := by
      rw [UInt32.toNat_sub_of_le _ _ (by rw [UInt32.le_iff_toNat_le]; omega), hecx, hone]
    have hzero : ecx - 1 = 0 ↔ c = 1 := by
      rw [← UInt32.toNat_inj, hpred, UInt32.toNat_zero]
      omega
    rw [stosdLoop]
    by_cases hlast : c = 1
    · subst hlast
      have hbase : edi.toUInt64.toNat = edi.toNat := UInt32.toNat_toUInt64 edi
      refine ⟨_, if_pos (hzero.mpr rfl), fun j hj => ?_, fun a ha => ?_⟩
      · obtain rfl : j = 0 := by omega
        have hsame : edi + UInt32.ofNat (4 * 0) = edi := UInt32.add_zero edi
        rw [hsame, read32_write32_self]
        exact (UInt32.add_zero eax).symm
      · exact bytes_write32_of_outside mem eax (by omega) (by omega)
    · have hnext : (edi + 4).toNat = edi.toNat + 4 := toNat_add_offset32 (k := 4) (by omega)
      have hrest : ∃ mem', stosdLoop fuel (eax + 4096) (ecx - 1) (edi + 4)
          (mem.write32 edi.toUInt64 eax) = some mem' ∧
            Stores (eax + 4096) (edi + 4) (c - 1) (mem.write32 edi.toUInt64 eax) mem' :=
        ih (by omega) (by omega) hpred (by omega)
      obtain ⟨mem', hloop, hstores⟩ := hrest
      refine ⟨mem', ?_, ?_⟩
      · rw [if_neg fun h => hlast (hzero.mp h), hloop]
      · obtain ⟨c, rfl⟩ := Nat.exists_eq_succ_of_ne_zero (Nat.ne_of_gt hc)
        exact .cons hedi (by omega) hstores

end Loops

/-! ## Entries -/

section Entries

variable {v : UInt32} {q : Nat}

theorem toNat_shiftRight32 (a : UInt32) {k : Nat} (hk : k < 32) :
    (a >>> UInt32.ofNat k).toNat = a.toNat / 2 ^ k := by
  have hshift : (UInt32.ofNat k).toNat = k :=
    UInt32.toNat_ofNat_of_lt' (Nat.lt_trans hk (by decide))
  rw [UInt32.toNat_shiftRight, hshift, Nat.mod_eq_of_lt hk, Nat.shiftRight_eq_div_pow]

theorem toNat_frame (v : UInt32) : (frame v).toNat = v.toNat / 4096 * 4096 := by
  have hv := v.toNat_lt
  have hshift : (v >>> 12).toNat = v.toNat / 4096 := toNat_shiftRight32 v (by decide)
  have hpage : (4096 : UInt32).toNat = 4096 := rfl
  rw [frame, UInt32.toNat_mul, hshift, hpage]
  omega

theorem and_seven (h : v.toNat = 4096 * q + 7) : v &&& 7 = 7 := by
  have hseven : (7 : UInt32).toNat = 2 ^ 3 - 1 := rfl
  rw [← UInt32.toNat_inj, UInt32.toNat_and, hseven, Nat.and_two_pow_sub_one_eq_mod, h]
  omega

/-- An entry of the two loops. -/
theorem open_of_toNat (h : v.toNat = 4096 * q + 7) : Open v := by
  have hbit : ∀ m : UInt32, 7 &&& m = m → v &&& m = m := by
    intro m hm
    rw [← hm, ← UInt32.and_assoc, and_seven h]
  exact ⟨hbit PG_P rfl, hbit PG_USU rfl, hbit PG_RWW rfl⟩

theorem present_of_toNat (h : v.toNat = 4096 * q + 7) : v &&& PG_P ≠ 0 := by
  rw [(open_of_toNat h).1]
  decide

theorem frame_of_toNat (h : v.toNat = 4096 * q + 7) : (frame v).toNat = 4096 * q := by
  rw [toNat_frame, h]
  omega

theorem mul_four (k : UInt32) : k * 4 = UInt32.ofNat (4 * k.toNat) := by
  rw [Nat.mul_comm, UInt32.ofNat_mul, UInt32.ofNat_toNat]
  rfl

end Entries

/-! ## The whole setup -/

section Setup

variable {dwMemSize cr0 : UInt32} {mem : ByteMemory} {s : Paged}

theorem tables_bounds (hM : 0 < dwMemSize) : 0 < tables dwMemSize ∧ tables dwMemSize ≤ 1024 := by
  have hlt := dwMemSize.toNat_lt
  rw [UInt32.lt_iff_toNat_lt, UInt32.toNat_zero] at hM
  rw [tables]
  omega

/-- The count of the first loop. -/
theorem toNat_count (dwMemSize : UInt32) :
    (if dwMemSize % 0x400000 = 0 then dwMemSize / 0x400000
      else dwMemSize / 0x400000 + 1).toNat = tables dwMemSize := by
  have hlt := dwMemSize.toNat_lt
  have hsize : (0x400000 : UInt32).toNat = 2 ^ 22 := rfl
  have hdiv : (dwMemSize / 0x400000).toNat = dwMemSize.toNat / 2 ^ 22 := by
    rw [UInt32.toNat_div, hsize]
  have hmod : dwMemSize % 0x400000 = 0 ↔ dwMemSize.toNat % 2 ^ 22 = 0 := by
    rw [← UInt32.toNat_inj, UInt32.toNat_mod, hsize, UInt32.toNat_zero]
  rw [tables]
  by_cases hexact : dwMemSize % 0x400000 = 0
  · have hzero := hmod.mp hexact
    rw [if_pos hexact, hdiv]
    omega
  · have hne : dwMemSize.toNat % 2 ^ 22 ≠ 0 := fun h => hexact (hmod.mpr h)
    have hone : (1 : UInt32).toNat = 1 := rfl
    rw [if_neg hexact, UInt32.toNat_add, hdiv, hone]
    omega

/-- What `SetupPaging` leaves: the directory, and the tables behind it. -/
structure Filled (n : Nat) (mem : ByteMemory) (s : Paged) : Prop where
  cr3 : s.cr3 = PageDirBase
  directory : ∀ k < n, s.memory.read32 (PageDirBase + UInt32.ofNat (4 * k)).toUInt64 =
    0x101007 + UInt32.ofNat (4096 * k)
  entries : ∀ j < n * 1024, s.memory.read32 (PageTblBase + UInt32.ofNat (4 * j)).toUInt64 =
    7 + UInt32.ofNat (4096 * j)
  behind : ∀ k, n ≤ k → k < 1024 →
    s.memory.read32 (PageDirBase + UInt32.ofNat (4 * k)).toUInt64 =
      mem.read32 (PageDirBase + UInt32.ofNat (4 * k)).toUInt64

/-- The words of the directory lie below the tables. -/
theorem toNat_directory {k : Nat} (hk : k < 1024) :
    (PageDirBase + UInt32.ofNat (4 * k)).toUInt64.toNat = 0x100000 + 4 * k := by
  have hbase : PageDirBase.toNat = 0x100000 := rfl
  rw [UInt32.toNat_toUInt64, toNat_add_offset32 (by omega), hbase]

theorem setupPaging_filled (hM : 0 < dwMemSize) (cr0 : UInt32) (mem : ByteMemory) :
    ∃ s, setupPaging dwMemSize cr0 mem = some s ∧ Filled (tables dwMemSize) mem s := by
  obtain ⟨hpos, hle⟩ := tables_bounds hM
  have hcount := toNat_count dwMemSize
  have hdir : PageDirBase.toNat = 0x100000 := rfl
  have htbl : PageTblBase.toNat = 0x101000 := rfl
  have hthousand : (1024 : UInt32).toNat = 1024 := rfl
  generalize hecx : (if dwMemSize % 0x400000 = 0 then dwMemSize / 0x400000
    else dwMemSize / 0x400000 + 1) = ecx at hcount
  generalize tables dwMemSize = n at *
  have hmul : (ecx * 1024).toNat = n * 1024 := by
    rw [UInt32.toNat_mul, hcount, hthousand]
    omega
  obtain ⟨mid, hfirst, hdirectory⟩ := @stosdLoop_stores
    (PageTblBase ||| PG_P ||| PG_USU ||| PG_RWW) ecx PageDirBase mem n (2 ^ 32) hpos (by omega)
    hcount (by omega)
  obtain ⟨last, hsecond, hentries⟩ := @stosdLoop_stores (PG_P ||| PG_USU ||| PG_RWW) (ecx * 1024)
    PageTblBase mid (n * 1024) (2 ^ 32) (by omega) (by omega) hmul (by omega)
  refine ⟨⟨last, cr0 ||| 0x80000000, PageDirBase⟩, ?_, rfl, ?_, hentries.words, ?_⟩
  · rw [setupPaging, hecx, hfirst, Option.bind_eq_bind, Option.bind_some, hsecond]
    rfl
  · intro k hk
    have haddr := toNat_directory (k := k) (by omega)
    have hkept : last.read32 (PageDirBase + UInt32.ofNat (4 * k)).toUInt64 =
        mid.read32 (PageDirBase + UInt32.ofNat (4 * k)).toUInt64 :=
      read32_congr_of_outside (by omega) fun b _ hb => hentries.others b (by omega)
    rw [hkept]
    exact hdirectory.words k hk
  · intro k hnk hk
    have haddr := toNat_directory hk
    refine read32_congr_of_outside (by omega) fun b hlo hb => ?_
    rw [hentries.others b (by omega), hdirectory.others b (by omega)]

/-- An entry of the directory. -/
theorem Filled.pde_eq {n : Nat} (h : Filled n mem s) (k : UInt32) :
    pde s k = s.memory.read32 (PageDirBase + UInt32.ofNat (4 * k.toNat)).toUInt64 := by
  have hframe : frame PageDirBase = PageDirBase := by decide
  rw [pde, h.cr3, hframe, mul_four]

theorem Filled.toNat_pde {n : Nat} (h : Filled n mem s) (hn : n ≤ 1024) {k : UInt32}
    (hk : k.toNat < n) : (pde s k).toNat = 4096 * (0x101 + k.toNat) + 7 := by
  have hbase : (0x101007 : UInt32).toNat = 0x101007 := rfl
  rw [h.pde_eq, h.directory _ hk, toNat_add_offset32 (by omega), hbase]
  omega

/-- The entry for a page of the tables. -/
theorem Filled.toNat_pte {n : Nat} (h : Filled n mem s) (hn : n ≤ 1024) {la : UInt32}
    (hla : la.toNat < n * 2 ^ 22) : (pte s la).toNat = 4096 * (la.toNat / 2 ^ 12) + 7 := by
  have hdir : (la >>> 22).toNat = la.toNat / 2 ^ 22 := toNat_shiftRight32 la (by decide)
  have hpage : (la >>> 12).toNat = la.toNat / 2 ^ 12 := toNat_shiftRight32 la (by decide)
  have hframe := frame_of_toNat (h.toNat_pde hn (k := la >>> 22) (by omega))
  have hthousand : (1024 : UInt32).toNat = 1024 := rfl
  have hbase : PageTblBase.toNat = 0x101000 := rfl
  have hseven : (7 : UInt32).toNat = 7 := rfl
  have hindex : ((la >>> 12) % 1024 * 4).toNat = la.toNat / 2 ^ 12 % 1024 * 4 := by
    have hfour : (4 : UInt32).toNat = 4 := rfl
    rw [UInt32.toNat_mul, UInt32.toNat_mod, hpage, hthousand, hfour]
    omega
  have haddr : frame (pde s (la >>> 22)) + (la >>> 12) % 1024 * 4 =
      PageTblBase + UInt32.ofNat (4 * (la.toNat / 2 ^ 12)) := by
    rw [← UInt32.toNat_inj, UInt32.toNat_add, hframe, hindex, toNat_add_offset32 (by omega), hbase]
    omega
  rw [pte, haddr, h.entries _ (by omega), toNat_add_offset32 (by omega), hseven]
  omega

/-- A linear address below the tables' pages is mapped to itself. -/
theorem Filled.identity {n : Nat} (h : Filled n mem s) (hn : n ≤ 1024) {la : UInt32}
    (hla : la.toNat < n * 2 ^ 22) :
    translate s la = some la ∧ Open (pde s (la >>> 22)) ∧ Open (pte s la) := by
  have hdir : (la >>> 22).toNat = la.toNat / 2 ^ 22 := toNat_shiftRight32 la (by decide)
  have hpde := h.toNat_pde hn (k := la >>> 22) (by omega)
  have hpte := h.toNat_pte hn hla
  have hpage : (4096 : UInt32).toNat = 4096 := rfl
  have hsame : frame (pte s la) + la % 4096 = la := by
    have hlt := la.toNat_lt
    rw [← UInt32.toNat_inj, UInt32.toNat_add, frame_of_toNat hpte, UInt32.toNat_mod, hpage]
    omega
  refine ⟨?_, open_of_toNat hpde, open_of_toNat hpte⟩
  rw [translate, if_neg (not_or.mpr ⟨present_of_toNat hpde, present_of_toNat hpte⟩), hsame]

/-- The entry of the directory behind the tables is what the memory held. -/
theorem Filled.pde_behind {n : Nat} (h : Filled n mem s) {k : UInt32} (hn : n ≤ k.toNat)
    (hk : k.toNat < 1024) : pde s k = mem.read32 (PageDirBase + k * 4).toUInt64 := by
  rw [h.pde_eq, h.behind _ hn hk, mul_four]

/-- The detected memory is mapped to itself and nothing else is if and only if none of the
other entries of the directory was present before. -/
theorem mapsExactly_iff (hM : 0 < dwMemSize) (cr0 : UInt32) (mem : ByteMemory) :
    (∃ s, setupPaging dwMemSize cr0 mem = some s ∧ MapsExactly dwMemSize s) ↔
      ∀ k : UInt32, tables dwMemSize ≤ k.toNat → k.toNat < 1024 →
        mem.read32 (PageDirBase + k * 4).toUInt64 &&& PG_P = 0 := by
  obtain ⟨-, hle⟩ := tables_bounds hM
  obtain ⟨s, hs, hfilled⟩ := setupPaging_filled hM cr0 mem
  constructor
  · rintro ⟨t, ht, hmaps⟩ k hn hk
    obtain rfl := Option.some.inj (hs.symm.trans ht)
    rw [← hfilled.pde_behind hn hk]
    exact hmaps.rest k hn hk
  · intro h
    refine ⟨s, hs, fun la hla => hfilled.identity hle hla, fun k hn hk => ?_⟩
    rw [hfilled.pde_behind hn hk]
    exact h k hn hk

/-- 32 MiB, and a memory of zeros. -/
theorem mapsExactly_zeros :
    ∃ s, setupPaging 0x2000000 0x60000011 ⟨fun _ => 0⟩ = some s ∧ MapsExactly 0x2000000 s := by
  refine (mapsExactly_iff (by decide) _ _).mpr fun k _ _ => ?_
  rw [ByteMemory.read32, ByteMemory.readLE_zero]
  rfl

/-- 32 MiB, and a memory full of ones: entry 8 of the directory stays present. -/
theorem not_mapsExactly_ones :
    ¬ ∃ s, setupPaging 0x2000000 0x60000011 ⟨fun _ => 0xff⟩ = some s ∧
      MapsExactly 0x2000000 s := by
  rintro ⟨s, hs, hmaps⟩
  obtain ⟨t, ht, hfilled⟩ := @setupPaging_filled 0x2000000 (by decide) 0x60000011 ⟨fun _ => 0xff⟩
  obtain rfl := Option.some.inj (hs.symm.trans ht)
  have hzero := hmaps.rest 8 (by decide) (by decide)
  rw [hfilled.pde_behind (by decide) (by decide)] at hzero
  exact absurd hzero (by decide +kernel)

end Setup

end Paging

end Legacy

end BbnOS
