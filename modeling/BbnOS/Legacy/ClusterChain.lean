import BbnOS.Legacy.Loader
import Mathlib.Data.List.Chain

/-!
# Loading a whole cluster chain

A file on a FAT12 disk is a chain of clusters, linked by the entries of the FAT
and ended by one of the marks `0xff8` to `0xfff` (`FileChain`).  `LoadsWhole` is
what the loop should do with it: come to an end after it has read the clusters
of the chain in order, each behind the one before.

`At` is the invariant of the loop and `at_step` its step.  The loop knows one of
the marks only, and its offset into the segment has 16 bits, so that the 129th
cluster goes where the first one is: `loadsWhole_iff` says that it loads exactly
the chains of at most 128 clusters whose mark is `0xfff`.
-/

namespace BbnOS

namespace Legacy

open ByteMemory

/-! ## The disk -/

/-- The bytes of `n` sectors from `lba` on. -/
def sectors (disk : Nat → Nat → UInt8) (lba n : Nat) : List UInt8 :=
  (List.range (512 * n)).map fun i => disk (lba + i / 512) (i % 512)

@[simp] theorem length_sectors (disk : Nat → Nat → UInt8) (lba n : Nat) :
    (sectors disk lba n).length = 512 * n := by
  simp [sectors]

theorem sectors_getD (disk : Nat → Nat → UInt8) (lba : Nat) {n i : Nat} (hi : i < 512 * n) :
    (sectors disk lba n).getD i 0 = disk (lba + i / 512) (i % 512) := by
  rw [sectors, List.getD_eq_getElem?_getD, List.getElem?_map, List.getElem?_range hi]
  rfl

/-- The BIOS reads sectors of one track of a disk with 80 cylinders, 2 heads and
18 sectors in a track. -/
def Serves (int13 : DiskRequest → Option (List UInt8)) (disk : Nat → Nat → UInt8) : Prop :=
  ∀ lba n, 0 < n → lba % 18 + n ≤ 18 → lba + n ≤ 2880 →
    int13
      { count := UInt8.ofNat n
        cylinder := UInt8.ofNat (lba / 36)
        sector := UInt8.ofNat (lba % 18 + 1)
        head := UInt8.ofNat (lba / 18 % 2)
        drive := 0 } = some (sectors disk lba n)

/-- The FAT, which begins in sector 1. -/
def fatByte (disk : Nat → Nat → UInt8) (i : Nat) : UInt8 :=
  disk (1 + i / 512) (i % 512)

/-- The 12-bit entry of a cluster: two entries share three bytes. -/
def fatEntry (disk : Nat → Nat → UInt8) (c : Nat) : Nat :=
  let word := (fatByte disk (c * 3 / 2)).toNat + 256 * (fatByte disk (c * 3 / 2 + 1)).toNat
  if c % 2 = 1 then word / 16 else word % 4096

/-- The chain of a file: data clusters, each linked to the next one, and the
last one to an end mark.  So no cluster comes twice. -/
structure FileChain (disk : Nat → Nat → UInt8) (first : Nat) (chain : List Nat) (mark : Nat) :
    Prop where
  head : chain.head? = some first
  links : (chain ++ [mark]).IsChain fun c c' => fatEntry disk c = c'
  data : ∀ c ∈ chain, 2 ≤ c ∧ c ≤ 2848
  endMark : 0xff8 ≤ mark ∧ mark ≤ 0xfff

/-- The loop comes to an end, and it has read the sectors of the chain in order:
byte `i` of cluster `k` is at its place, and no cluster was read to where an
earlier one went. -/
def LoadsWhole (int13 : DiskRequest → Option (List UInt8)) (disk : Nat → Nat → UInt8)
    (s : LoaderState) (chain : List Nat) : Prop :=
  ∃ fuel t, s.goonLoadingFile int13 fuel = some t ∧
    t.reads.map Prod.fst = chain.map (fun c => UInt16.ofNat (c + 31)) ∧
    (∀ k c, chain[k]? = some c → ∀ i, i < 512 →
      t.ram.bytes (UInt64.ofNat (0x80000 + 512 * k + i)) = disk (c + 31) i) ∧
    t.reads.Pairwise fun r r' => Disjoint r.2 512 r'.2 512

/-! ## One read -/

section Reading

variable {int13 : DiskRequest → Option (List UInt8)} {disk : Nat → Nat → UInt8}

/-- Sector numbers as cylinder, head and sector. -/
theorem readSector_eq (h : Serves int13 disk) {lba n : Nat} (hn : 0 < n)
    (htrack : lba % 18 + n ≤ 18) (hdisk : lba + n ≤ 2880) (es bx : UInt16) (ram : ByteMemory) :
    readSector int13 (UInt16.ofNat lba) (UInt8.ofNat n) es bx ram =
      some (ram.store (physAddr es bx) (sectors disk lba n)) := by
  have hlba : (UInt16.ofNat lba).toNat = lba := by
    rw [UInt16.toNat_ofNat']
    omega
  have hquot : (UInt16.ofNat lba / BPB_SecPerTrk.toUInt16).toNat = lba / 18 := by
    rw [UInt16.toNat_div, hlba]
    rfl
  have hrem : (UInt16.ofNat lba % BPB_SecPerTrk.toUInt16).toNat = lba % 18 := by
    rw [UInt16.toNat_mod, hlba]
    rfl
  have hsmall : ¬ UInt16.ofNat lba / BPB_SecPerTrk.toUInt16 > 255 := by
    rw [gt_iff_lt, UInt16.lt_iff_toNat_lt, hquot]
    simp only [UInt16.reduceToNat]
    omega
  have hy : (UInt16.ofNat lba / BPB_SecPerTrk.toUInt16).toUInt8.toNat = lba / 18 := by
    rw [UInt16.toNat_toUInt8, hquot]
    omega
  have hcyl : (UInt16.ofNat lba / BPB_SecPerTrk.toUInt16).toUInt8 >>> 1 =
      UInt8.ofNat (lba / 36) := by
    apply UInt8.toNat_inj.mp
    rw [UInt8.toNat_shiftRight, hy, UInt8.toNat_ofNat', Nat.shiftRight_eq_div_pow,
      show (1 : UInt8).toNat % 8 = 1 from rfl]
    omega
  have hhead : (UInt16.ofNat lba / BPB_SecPerTrk.toUInt16).toUInt8 &&& 1 =
      UInt8.ofNat (lba / 18 % 2) := by
    apply UInt8.toNat_inj.mp
    rw [UInt8.toNat_and, hy, UInt8.toNat_ofNat', show (1 : UInt8).toNat = 1 from rfl,
      Nat.and_one_is_mod]
    omega
  have hsector : (UInt16.ofNat lba % BPB_SecPerTrk.toUInt16).toUInt8 + 1 =
      UInt8.ofNat (lba % 18 + 1) := by
    apply UInt8.toNat_inj.mp
    rw [UInt8.toNat_add, UInt16.toNat_toUInt8, hrem, UInt8.toNat_ofNat']
    simp only [UInt8.reduceToNat]
    omega
  simp only [readSector, hsmall, if_false, hcyl, hhead, hsector]
  rw [show BS_DrvNum = 0 from rfl, h lba n hn htrack hdisk]
  rfl

theorem toNat_ofNat16 {k : Nat} (hk : k < 65536) : (UInt16.ofNat k).toNat = k :=
  UInt16.toNat_ofNat_of_lt' hk

/-- Ranges below `2 ^ 63`, as numbers. -/
theorem inRange_ofNat {a b n : Nat} (ha : a < 2 ^ 63) (hb : b < 2 ^ 63) (hn : n ≤ 2 ^ 63) :
    InRange (UInt64.ofNat b) n (UInt64.ofNat a) ↔ b ≤ a ∧ a < b + n := by
  rw [InRange, UInt64.toNat_sub, ofNat_toNat_of_lt (by omega), ofNat_toNat_of_lt (by omega)]
  omega

/-- The offset of a FAT entry, in 16 bits. -/
theorem fatOffset_toNat {c : Nat} (hc : c < 3072) :
    ((UInt16.ofNat c).toUInt32 * 3 / 2).toNat = c * 3 / 2 ∧
      ((UInt16.ofNat c).toUInt32 * 3 % 2).toNat = c % 2 := by
  have hprod : ((UInt16.ofNat c).toUInt32 * 3).toNat = c * 3 := by
    have hc16 : (UInt16.ofNat c).toNat = c := toNat_ofNat16 (by omega)
    rw [UInt32.toNat_mul, UInt16.toNat_toUInt32, hc16]
    exact Nat.mod_eq_of_lt (show c * 3 < 2 ^ 32 by omega)
  constructor
  · rw [UInt32.toNat_div, hprod]
    rfl
  · rw [UInt32.toNat_mod, hprod]
    simp only [UInt32.reduceToNat]
    omega

/-- The 12 bits of the entry in its word. -/
theorem entry_of_word {b b' c : Nat} {P : Prop} [Decidable P] (hb : b < 2 ^ 8) (hb' : b' < 2 ^ 8)
    (hP : P ↔ c % 2 = 1) :
    (if P then UInt16.ofNat (b + 256 * b') >>> 4 else UInt16.ofNat (b + 256 * b')) &&& 0xfff =
      UInt16.ofNat (if c % 2 = 1 then (b + 256 * b') / 16 else (b + 256 * b') % 4096) := by
  have hword : (UInt16.ofNat (b + 256 * b')).toNat = b + 256 * b' := toNat_ofNat16 (by omega)
  have hmask : ∀ n : Nat, n &&& (0xfff : UInt16).toNat = n % 4096 := fun n =>
    Nat.and_two_pow_sub_one_eq_mod n 12
  apply UInt16.toNat_inj.mp
  rw [UInt16.toNat_and, hmask]
  by_cases hodd : c % 2 = 1
  · rw [if_pos (hP.mpr hodd), if_pos hodd, UInt16.toNat_shiftRight, hword,
      Nat.shiftRight_eq_div_pow, show (4 : UInt16).toNat % 16 = 4 from rfl,
      toNat_ofNat16 (by omega)]
    omega
  · rw [if_neg fun h => hodd (hP.mp h), if_neg hodd, hword, toNat_ofNat16 (by omega)]

/-- A word of two sectors of the FAT that were stored. -/
theorem readLE_sectors (disk : Nat → Nat → UInt8) (ram : ByteMemory) (a : UInt64) (q : Nat)
    {r : Nat} (hr : r < 1023) :
    (ram.store a (sectors disk (q + 1) 2)).readLE (a + UInt64.ofNat r) 2 =
      (fatByte disk (512 * q + r)).toNat + 256 * (fatByte disk (512 * q + r + 1)).toNat := by
  have hbyte : ∀ j, j < 2 → (ram.store a (sectors disk (q + 1) 2)).bytes
      (a + UInt64.ofNat (r + j)) = fatByte disk (512 * q + (r + j)) := by
    intro j hj
    have hlt : r + j < 512 * 2 := by omega
    rw [bytes_store_add _ _ (by rw [length_sectors]; exact hlt) (by omega),
      sectors_getD disk _ hlt, fatByte]
    congr 1 <;> omega
  have hzero : (ram.store a (sectors disk (q + 1) 2)).bytes (a + UInt64.ofNat r) =
      fatByte disk (512 * q + r) := hbyte 0 (by decide)
  have hone := hbyte 1 (by decide)
  rw [← add_ofNat_add_ofNat, show UInt64.ofNat 1 = 1 from rfl] at hone
  rw [readLE, readLE, readLE, Nat.mul_zero, Nat.add_zero, hone, hzero]
  rfl

/-- `GetFATEntry` finds the entry of a data cluster, with two sectors of the FAT
in the memory below the file. -/
theorem getFATEntry_eq (h : Serves int13 disk) {c : Nat} (hc : c < 3072) (ram : ByteMemory) :
    getFATEntry int13 (UInt16.ofNat c) ram =
      some (UInt16.ofNat (fatEntry disk c),
        ram.store (UInt64.ofNat 0x7f000) (sectors disk (c * 3 / 2 / 512 + 1) 2)) := by
  obtain ⟨hoff, hodd⟩ := fatOffset_toNat hc
  have hsmall : ¬ (UInt16.ofNat c).toUInt32 * 3 / 2 > 0xffff := by
    rw [gt_iff_lt, UInt32.lt_iff_toNat_lt, hoff]
    simp only [UInt32.reduceToNat]
    omega
  have hoffset : ((UInt16.ofNat c).toUInt32 * 3 / 2).toUInt16 = UInt16.ofNat (c * 3 / 2) := by
    apply UInt16.toNat_inj.mp
    rw [UInt32.toNat_toUInt16, hoff, UInt16.toNat_ofNat']
  have hoff16 : (UInt16.ofNat (c * 3 / 2)).toNat = c * 3 / 2 :=
    toNat_ofNat16 (by omega)
  have hsector : UInt16.ofNat (c * 3 / 2) / BPB_BytesPerSec + SectorNoOfFAT1 =
      UInt16.ofNat (c * 3 / 2 / 512 + 1) := by
    apply UInt16.toNat_inj.mp
    rw [UInt16.toNat_add, UInt16.toNat_div, hoff16, UInt16.toNat_ofNat']
    rfl
  have hrem : (UInt16.ofNat (c * 3 / 2) % BPB_BytesPerSec).toNat = c * 3 / 2 % 512 := by
    rw [UInt16.toNat_mod, hoff16]
    rfl
  have hes : physAddr (BaseOfKernelFile - 0x100) 0 = UInt64.ofNat 0x7f000 := by decide
  have hplace : physAddr (BaseOfKernelFile - 0x100) (UInt16.ofNat (c * 3 / 2) % BPB_BytesPerSec) =
      UInt64.ofNat 0x7f000 + UInt64.ofNat (c * 3 / 2 % 512) := by
    rw [physAddr, ← UInt64.ofNat_toNat (x := UInt16.toUInt64 (_ % _)), UInt16.toNat_toUInt64, hrem]
    rfl
  have hlba : c * 3 / 2 / 512 + 1 ≤ 9 := by omega
  have hread := readSector_eq h (show 0 < 2 by decide)
    (show (c * 3 / 2 / 512 + 1) % 18 + 2 ≤ 18 by omega)
    (show c * 3 / 2 / 512 + 1 + 2 ≤ 2880 by omega) (BaseOfKernelFile - 0x100) 0 ram
  have hword := readLE_sectors disk ram (UInt64.ofNat 0x7f000) (c * 3 / 2 / 512)
    (show c * 3 / 2 % 512 < 1023 by omega)
  rw [Nat.div_add_mod] at hword
  have hparity : (UInt16.ofNat c).toUInt32 * 3 % 2 = 1 ↔ c % 2 = 1 := by
    rw [← UInt32.toNat_inj, hodd]
    rfl
  simp only [getFATEntry, hsmall, if_false, hoffset, hsector]
  rw [show (2 : UInt8) = UInt8.ofNat 2 from rfl, hread, hes, Option.map_some, hplace, hword]
  have hentry := entry_of_word (fatByte disk (c * 3 / 2)).toNat_lt
    (fatByte disk (c * 3 / 2 + 1)).toNat_lt hparity
  exact congrArg some (Prod.ext hentry rfl)

end Reading

/-! ## The loop -/

/-- Read `k` of the loop: the sector, and where `es:bx` is. -/
def readOf (links : List Nat) (k : Nat) : UInt16 × UInt64 :=
  (UInt16.ofNat (links.getD k 0 + 31), UInt64.ofNat (0x80000 + 512 * k % 65536))

/-- The first `n` clusters have been read, and as long as the offset has not
wrapped, each is at its place. -/
structure Loaded (disk : Nat → Nat → UInt8) (links : List Nat) (n : Nat) (s : LoaderState) :
    Prop where
  reads : s.reads = (List.range n).map (readOf links)
  bytes : n ≤ 128 → ∀ k, k < n → ∀ i, i < 512 →
    s.ram.bytes (UInt64.ofNat (0x80000 + 512 * k + i)) = disk (links.getD k 0 + 31) i

/-- The state before read `n`. -/
structure At (disk : Nat → Nat → UInt8) (links : List Nat) (n : Nat) (s : LoaderState) : Prop
    extends Loaded disk links n s where
  ax : s.ax = UInt16.ofNat (links.getD n 0 + 31)
  cluster : s.cluster = UInt16.ofNat (links.getD n 0)
  bx : s.bx = UInt16.ofNat (512 * n)

section Loop

variable {int13 : DiskRequest → Option (List UInt8)} {disk : Nat → Nat → UInt8}
  {links : List Nat} {n : Nat} {s : LoaderState}

/-- Addresses in the segment of the file. -/
theorem physAddr_kernelFile (bx : UInt16) :
    physAddr BaseOfKernelFile bx = UInt64.ofNat (0x80000 + bx.toNat) := by
  rw [physAddr, UInt64.ofNat_add, ← UInt16.toNat_toUInt64, UInt64.ofNat_toNat]
  rfl

/-- One round reads the next cluster and its entry. -/
theorem readCluster_at (h : Serves int13 disk) (hs : At disk links n s)
    (hlo : 2 ≤ links.getD n 0) (hhi : links.getD n 0 ≤ 2848) :
    ∃ t, s.readCluster int13 = some (UInt16.ofNat (fatEntry disk (links.getD n 0)), t) ∧
      t.bx = s.bx ∧ Loaded disk links (n + 1) t := by
  have hbx : s.bx.toNat = 512 * n % 65536 := by
    rw [hs.bx, UInt16.toNat_ofNat']
  have hplace : physAddr BaseOfKernelFile s.bx = UInt64.ofNat (0x80000 + 512 * n % 65536) := by
    rw [physAddr_kernelFile, hbx]
  have hread := readSector_eq h (show 0 < 1 by decide)
    (show (links.getD n 0 + 31) % 18 + 1 ≤ 18 by omega)
    (show links.getD n 0 + 31 + 1 ≤ 2880 by omega) BaseOfKernelFile s.bx s.ram
  have hentry := getFATEntry_eq h (Nat.lt_of_le_of_lt hhi (by decide))
    (s.ram.store (UInt64.ofNat (0x80000 + 512 * n % 65536)) (sectors disk (links.getD n 0 + 31) 1))
  rw [hplace] at hread
  unfold LoaderState.readCluster
  rw [hs.ax, hs.cluster, show (1 : UInt8) = UInt8.ofNat 1 from rfl, hread, Option.bind_some,
    hentry, Option.map_some]
  refine ⟨_, rfl, rfl, ?_, ?_⟩
  · show s.reads ++ [_] = _
    rw [hs.reads, List.range_succ, List.map_append, hplace]
    rfl
  · intro hn k hk i hi
    -- the FAT buffer is below the file
    have hfat : ¬ InRange (UInt64.ofNat 0x7f000)
        (sectors disk (links.getD n 0 * 3 / 2 / 512 + 1) 2).length
        (UInt64.ofNat (0x80000 + 512 * k + i)) := by
      rw [length_sectors, inRange_ofNat (by omega) (by decide) (by decide)]
      omega
    show (ByteMemory.store _ _ _).bytes _ = _
    rw [bytes_store_of_not_inRange _ hfat]
    have hoff : 512 * n % 65536 = 512 * n := Nat.mod_eq_of_lt (by omega)
    rw [hoff]
    rcases Nat.lt_succ_iff_lt_or_eq.mp hk with hlt | heq
    · have hold : ¬ InRange (UInt64.ofNat (0x80000 + 512 * n))
          (sectors disk (links.getD n 0 + 31) 1).length
          (UInt64.ofNat (0x80000 + 512 * k + i)) := by
        rw [length_sectors, inRange_ofNat (by omega) (by omega) (by decide)]
        omega
      rw [bytes_store_of_not_inRange _ hold]
      exact hs.bytes (by omega) k hlt i hi
    · rw [heq, UInt64.ofNat_add (0x80000 + 512 * n) i,
        bytes_store_add _ _ (by rw [length_sectors]; omega) (by omega),
        sectors_getD disk _ (by omega)]
      congr 1 <;> omega

/-- The registers go on to the next cluster. -/
theorem at_advance (hbx : s.bx = UInt16.ofNat (512 * n)) (hs : Loaded disk links (n + 1) s) :
    At disk links (n + 1) (s.advance (UInt16.ofNat (links.getD (n + 1) 0))) where
  reads := hs.reads
  bytes := hs.bytes
  ax := by
    rw [LoaderState.advance, add_assoc]
    exact (UInt16.ofNat_add _ _).symm
  cluster := rfl
  bx := by
    rw [LoaderState.advance, hbx, Nat.mul_succ, UInt16.ofNat_add]
    rfl

theorem goonLoadingFile_succ {entry : UInt16} {u : LoaderState}
    (h : s.readCluster int13 = some (entry, u)) (fuel : Nat) :
    s.goonLoadingFile int13 (fuel + 1) =
      if entry = 0xfff then some u else (u.advance entry).goonLoadingFile int13 fuel := by
  rw [LoaderState.goonLoadingFile, h]
  rfl

/-- Every further round reads one more sector. -/
theorem length_reads_lt {fuel : Nat} {t : LoaderState}
    (h : s.goonLoadingFile int13 fuel = some t) : s.reads.length < t.reads.length := by
  induction fuel generalizing s with
  | zero => cases h
  | succ fuel ih =>
    rcases hread : s.readCluster int13 with _ | ⟨entry, u⟩
    · rw [LoaderState.goonLoadingFile, hread] at h
      cases h
    rw [goonLoadingFile_succ hread] at h
    have hlen : u.reads.length = s.reads.length + 1 := by
      unfold LoaderState.readCluster at hread
      obtain ⟨ram, _, hmap⟩ := Option.bind_eq_some_iff.mp hread
      obtain ⟨_, _, heq⟩ := Option.map_eq_some_iff.mp hmap
      rw [← (Prod.mk.inj heq).2, List.length_append]
      rfl
    by_cases hend : entry = 0xfff
    · rw [if_pos hend] at h
      rw [← Option.some.inj h, hlen]
      exact Nat.lt_succ_self _
    · rw [if_neg hend] at h
      have hlt : (u.advance entry).reads.length < t.reads.length := ih h
      rw [show (u.advance entry).reads = u.reads from rfl] at hlt
      omega

end Loop

/-! ## The whole chain -/

section Chain

variable {int13 : DiskRequest → Option (List UInt8)} {disk : Nat → Nat → UInt8}
  {first mark : Nat} {chain : List Nat} {n : Nat} {s t : LoaderState}

theorem getD_mem_chain (mark : Nat) (hn : n < chain.length) :
    (chain ++ [mark]).getD n 0 ∈ chain := by
  rw [List.getD_eq_getElem?_getD, List.getElem?_append_left hn, List.getElem?_eq_getElem hn]
  exact List.getElem_mem hn

theorem getD_length (chain : List Nat) (mark : Nat) :
    (chain ++ [mark]).getD chain.length 0 = mark := by
  simp

/-- The entry of a cluster of the chain is what comes next in it. -/
theorem FileChain.fatEntry_eq (h : FileChain disk first chain mark) (hn : n < chain.length) :
    fatEntry disk ((chain ++ [mark]).getD n 0) = (chain ++ [mark]).getD (n + 1) 0 := by
  have hlen : n + 1 < (chain ++ [mark]).length := by
    rw [List.length_append, List.length_singleton]
    omega
  have hlink := List.isChain_iff_getElem.mp h.links n hlen
  rw [List.getD_eq_getElem?_getD, List.getElem?_eq_getElem (by omega),
    List.getD_eq_getElem?_getD, List.getElem?_eq_getElem hlen]
  exact hlink

/-- What follows a cluster stops the loop only if it is the mark `0xfff`. -/
theorem FileChain.ofNat_eq_end (h : FileChain disk first chain mark) (hn : n < chain.length) :
    UInt16.ofNat ((chain ++ [mark]).getD (n + 1) 0) = 0xfff ↔
      n + 1 = chain.length ∧ mark = 0xfff := by
  rcases Nat.lt_or_eq_of_le (show n + 1 ≤ chain.length from hn) with hlt | heq
  · have hdata := h.data _ (getD_mem_chain mark hlt)
    constructor
    · intro hend
      have hnat := congrArg UInt16.toNat hend
      rw [toNat_ofNat16 (by omega)] at hnat
      simp only [UInt16.reduceToNat] at hnat
      omega
    · intro hend
      omega
  · have hmark := h.endMark
    rw [heq, getD_length]
    constructor
    · intro hend
      have hnat := congrArg UInt16.toNat hend
      rw [toNat_ofNat16 (by omega)] at hnat
      exact ⟨rfl, hnat⟩
    · intro hend
      rw [hend.2]
      rfl

/-- A round on a cluster of the chain. -/
theorem FileChain.round (h : FileChain disk first chain mark) (hserves : Serves int13 disk)
    (hs : At disk (chain ++ [mark]) n s) (hn : n < chain.length) :
    ∃ u, s.readCluster int13 = some (UInt16.ofNat ((chain ++ [mark]).getD (n + 1) 0), u) ∧
      Loaded disk (chain ++ [mark]) (n + 1) u ∧
      At disk (chain ++ [mark]) (n + 1)
        (u.advance (UInt16.ofNat ((chain ++ [mark]).getD (n + 1) 0))) := by
  have hdata := h.data _ (getD_mem_chain mark hn)
  obtain ⟨u, hread, hbx, hloaded⟩ := readCluster_at hserves hs hdata.1 hdata.2
  rw [h.fatEntry_eq hn] at hread
  exact ⟨u, hread, hloaded, at_advance (hbx.trans hs.bx) hloaded⟩

/-- With the mark `0xfff` the loop ends when the chain does. -/
theorem FileChain.total (h : FileChain disk first chain mark) (hserves : Serves int13 disk)
    (hmark : mark = 0xfff) (hs : At disk (chain ++ [mark]) n s) (hn : n < chain.length) :
    ∃ fuel t, s.goonLoadingFile int13 fuel = some t ∧
      Loaded disk (chain ++ [mark]) chain.length t := by
  obtain ⟨d, hd⟩ := Nat.exists_eq_add_of_lt hn
  induction d generalizing n s with
  | zero =>
    obtain ⟨u, hread, hloaded, _⟩ := h.round hserves hs hn
    refine ⟨1, u, ?_, by rw [hd]; exact hloaded⟩
    rw [goonLoadingFile_succ hread]
    exact if_pos ((h.ofNat_eq_end hn).mpr ⟨by omega, hmark⟩)
  | succ d ih =>
    obtain ⟨u, hread, _, hat⟩ := h.round hserves hs hn
    obtain ⟨fuel, t, hrun, hloaded⟩ := ih hat (by omega) (by omega)
    refine ⟨fuel + 1, t, ?_, hloaded⟩
    rw [goonLoadingFile_succ hread]
    refine (if_neg fun hend => ?_).trans hrun
    have := (h.ofNat_eq_end hn).mp hend
    omega

/-- A run that ends has read the chain, and nothing else if the mark is `0xfff`. -/
theorem FileChain.reads_of_run (h : FileChain disk first chain mark)
    (hserves : Serves int13 disk) {fuel : Nat} (hs : At disk (chain ++ [mark]) n s)
    (hn : n < chain.length) (hrun : s.goonLoadingFile int13 fuel = some t) :
    (mark = 0xfff ∧ t.reads = (List.range chain.length).map (readOf (chain ++ [mark]))) ∨
      chain.length < t.reads.length := by
  induction fuel generalizing n s with
  | zero => cases hrun
  | succ fuel ih =>
    obtain ⟨u, hread, hloaded, hat⟩ := h.round hserves hs hn
    rw [goonLoadingFile_succ hread] at hrun
    by_cases hend : UInt16.ofNat ((chain ++ [mark]).getD (n + 1) 0) = 0xfff
    · obtain ⟨hlast, hmark⟩ := (h.ofNat_eq_end hn).mp hend
      rw [if_pos hend] at hrun
      refine Or.inl ⟨hmark, ?_⟩
      rw [← Option.some.inj hrun, hloaded.reads, hlast]
    · rw [if_neg hend] at hrun
      rcases Nat.lt_or_eq_of_le (show n + 1 ≤ chain.length from hn) with hlt | heq
      · exact ih hat hlt hrun
      · have hlt := length_reads_lt hrun
        rw [hat.reads, List.length_map, List.length_range] at hlt
        exact Or.inr (by omega)

/-- The state at `LABEL_KERNEL_FOUND` is the one before the first read. -/
theorem FileChain.at_kernelFound (h : FileChain disk first chain mark) {ram : ByteMemory}
    {di : UInt16}
    (hentry : ram.readLE (physAddr BaseOfKernelFile ((di &&& 0xffe0) + 0x1a)) 2 = first) :
    At disk (chain ++ [mark]) 0 (LoaderState.kernelFound ram di) := by
  have hfirst : (chain ++ [mark]).getD 0 0 = first := by
    have hhead := h.head
    cases chain with
    | nil => cases hhead
    | cons c chain => exact Option.some.inj hhead
  constructor
  · constructor
    · rfl
    · intro _ k hk
      exact absurd hk (Nat.not_lt_zero k)
  · rw [hfirst, ← hentry, UInt16.ofNat_add, LoaderState.kernelFound, add_assoc]
    rfl
  · rw [hfirst, ← hentry]
    rfl
  · rfl

/-- The places of two reads are apart as long as the offset has not wrapped. -/
theorem disjoint_readOf {links : List Nat} {j k : Nat} (hjk : j < k) (hk : k < 128) :
    Disjoint (readOf links j).2 512 (readOf links k).2 512 := by
  have hj' : 512 * j % 65536 = 512 * j := Nat.mod_eq_of_lt (by omega)
  have hk' : 512 * k % 65536 = 512 * k := Nat.mod_eq_of_lt (by omega)
  rw [readOf, readOf, hj', hk', UInt64.ofNat_add, UInt64.ofNat_add]
  exact disjoint_of_offsets (N := 65536) (by omega) (by omega) (by decide) (by omega)

/-- The 129th cluster goes where the first one is. -/
theorem not_disjoint_readOf (links : List Nat) :
    ¬ Disjoint (readOf links 0).2 512 (readOf links 128).2 512 := by
  intro h
  exact h (UInt64.ofNat 0x80000)
    (show InRange (UInt64.ofNat (0x80000 + 512 * 0 % 65536)) 512 (UInt64.ofNat 0x80000) by decide)
    (show InRange (UInt64.ofNat (0x80000 + 512 * 128 % 65536)) 512 (UInt64.ofNat 0x80000) by
      decide)

theorem FileChain.length_pos (h : FileChain disk first chain mark) : 0 < chain.length := by
  have hhead := h.head
  cases chain with
  | nil => cases hhead
  | cons c chain => exact Nat.succ_pos _

/-- What a chain that gets loaded as it should is like. -/
theorem FileChain.short_of_loadsWhole (h : FileChain disk first chain mark)
    (hserves : Serves int13 disk) (hs : At disk (chain ++ [mark]) 0 s)
    (hload : LoadsWhole int13 disk s chain) : chain.length ≤ 128 ∧ mark = 0xfff := by
  obtain ⟨fuel, t, hrun, hsectors, _, hapart⟩ := hload
  have hlen := congrArg List.length hsectors
  rw [List.length_map, List.length_map] at hlen
  rcases h.reads_of_run hserves hs h.length_pos hrun with ⟨hmark, hreads⟩ | hlt
  · refine ⟨?_, hmark⟩
    by_contra hlong
    rw [hreads, List.pairwise_map] at hapart
    have hpair := List.pairwise_iff_getElem.mp hapart 0 128 (by rw [List.length_range]; omega)
      (by rw [List.length_range]; omega) (by decide)
    rw [List.getElem_range, List.getElem_range] at hpair
    exact not_disjoint_readOf (chain ++ [mark]) hpair
  · omega

/-- A chain of at most 128 clusters with the mark `0xfff` gets loaded. -/
theorem FileChain.loadsWhole (h : FileChain disk first chain mark) (hserves : Serves int13 disk)
    (hs : At disk (chain ++ [mark]) 0 s) (hshort : chain.length ≤ 128) (hmark : mark = 0xfff) :
    LoadsWhole int13 disk s chain := by
  have hget : ∀ k c, chain[k]? = some c → k < chain.length ∧ (chain ++ [mark]).getD k 0 = c := by
    intro k c hc
    obtain ⟨hk, _⟩ := List.getElem?_eq_some_iff.mp hc
    refine ⟨hk, ?_⟩
    rw [List.getD_eq_getElem?_getD, List.getElem?_append_left hk, hc]
    rfl
  obtain ⟨fuel, t, hrun, hloaded⟩ := h.total hserves hmark hs h.length_pos
  refine ⟨fuel, t, hrun, ?_, ?_, ?_⟩
  · rw [hloaded.reads, List.map_map]
    apply List.ext_getElem?
    intro k
    rw [List.getElem?_map, List.getElem?_map]
    by_cases hk : k < chain.length
    · obtain ⟨_, hc⟩ := hget k chain[k] (List.getElem?_eq_getElem hk)
      rw [List.getElem?_range hk, List.getElem?_eq_getElem hk, ← hc]
      rfl
    · rw [List.getElem?_eq_none (by rw [List.length_range]; omega),
        List.getElem?_eq_none (by omega)]
      rfl
  · intro k c hc i hi
    obtain ⟨hk, hc'⟩ := hget k c hc
    rw [hloaded.bytes hshort k hk i hi, hc']
  · rw [hloaded.reads, List.pairwise_map]
    refine List.pairwise_iff_getElem.mpr fun j k hj hk hjk => ?_
    rw [List.getElem_range, List.getElem_range]
    rw [List.length_range] at hk
    exact disjoint_readOf hjk (by omega)

end Chain

/-- For every disk that INT 13h serves and every file whose directory entry is at
`es:di`, the loop loads the whole chain of the file, as it should, if and only if
the chain has at most 128 clusters and ends with the mark `0xfff`. -/
theorem loadsWhole_iff {int13 : DiskRequest → Option (List UInt8)} {disk : Nat → Nat → UInt8}
    (hserves : Serves int13 disk) {first mark : Nat} {chain : List Nat}
    (hchain : FileChain disk first chain mark) {ram : ByteMemory} {di : UInt16}
    (hentry : ram.readLE (physAddr BaseOfKernelFile ((di &&& 0xffe0) + 0x1a)) 2 = first) :
    LoadsWhole int13 disk (LoaderState.kernelFound ram di) chain ↔
      chain.length ≤ 128 ∧ mark = 0xfff := by
  have hstart := hchain.at_kernelFound hentry
  constructor
  · exact hchain.short_of_loadsWhole hserves hstart
  · intro ⟨hshort, hmark⟩
    exact hchain.loadsWhole hserves hstart hshort hmark

/-! ## Two disks -/

/-- A disk whose FAT holds one entry, that of cluster 2. -/
def smallDisk (mark : Nat) : Nat → Nat → UInt8 := fun lba i =>
  if lba = 1 ∧ i = 3 then UInt8.ofNat mark
  else if lba = 1 ∧ i = 4 then UInt8.ofNat (mark / 256)
  else 0

/-- A BIOS with a floppy disk in its drive 0. -/
def floppy (disk : Nat → Nat → UInt8) (r : DiskRequest) : Option (List UInt8) :=
  if r.drive = 0 ∧ r.cylinder < 80 ∧ r.head < 2 ∧ 1 ≤ r.sector ∧
      r.sector.toNat + r.count.toNat ≤ 19 then
    some (sectors disk (r.cylinder.toNat * 36 + r.head.toNat * 18 + (r.sector.toNat - 1))
      r.count.toNat)
  else none

theorem serves_floppy (disk : Nat → Nat → UInt8) : Serves (floppy disk) disk := by
  intro lba n hn htrack hdisk
  have hbyte : ∀ k, k < 256 → (UInt8.ofNat k).toNat = k := fun k hk =>
    UInt8.toNat_ofNat_of_lt' hk
  have hcyl := hbyte (lba / 36) (by omega)
  have hhead := hbyte (lba / 18 % 2) (by omega)
  have hsector := hbyte (lba % 18 + 1) (by omega)
  have hcount := hbyte n (by omega)
  have hlba : lba / 36 * 36 + lba / 18 % 2 * 18 + (lba % 18 + 1 - 1) = lba := by omega
  rw [floppy, if_pos, hcyl, hhead, hsector, hcount, hlba]
  refine ⟨rfl, ?_, ?_, ?_, ?_⟩
  · rw [UInt8.lt_iff_toNat_lt, hcyl]
    simp only [UInt8.reduceToNat]
    omega
  · rw [UInt8.lt_iff_toNat_lt, hhead]
    simp only [UInt8.reduceToNat]
    omega
  · rw [UInt8.le_iff_toNat_le, hsector]
    simp only [UInt8.reduceToNat]
    omega
  · rw [hsector, hcount]
    omega

/-- The memory with a directory entry of a file in cluster 2. -/
def entryRam : ByteMemory := (ByteMemory.mk fun _ => 0).write8 0x8001a 2

theorem fileChain_smallDisk {mark : Nat} (hmark : 0xff8 ≤ mark ∧ mark ≤ 0xfff) :
    FileChain (smallDisk mark) 2 [2] mark where
  head := rfl
  links := by
    have hlow : fatByte (smallDisk mark) 3 = UInt8.ofNat mark := by simp [fatByte, smallDisk]
    have hhigh : fatByte (smallDisk mark) 4 = UInt8.ofNat (mark / 256) := by
      simp [fatByte, smallDisk]
    have hentry : fatEntry (smallDisk mark) 2 = mark := by
      show ((fatByte (smallDisk mark) 3).toNat + 256 * (fatByte (smallDisk mark) 4).toNat) % 4096 =
        mark
      rw [hlow, hhigh, UInt8.toNat_ofNat', UInt8.toNat_ofNat']
      omega
    exact List.isChain_cons_cons.mpr ⟨hentry, List.isChain_singleton _⟩
  data := by
    intro c hc
    rw [List.mem_singleton.mp hc]
    decide
  endMark := hmark

/-- A file of one cluster whose mark is `0xff8`: the loop goes on. -/
theorem not_loadsWhole_of_mark :
    Serves (floppy (smallDisk 0xff8)) (smallDisk 0xff8) ∧
      FileChain (smallDisk 0xff8) 2 [2] 0xff8 ∧
      entryRam.readLE (physAddr BaseOfKernelFile ((0 &&& 0xffe0) + 0x1a)) 2 = 2 ∧
      ¬ LoadsWhole (floppy (smallDisk 0xff8)) (smallDisk 0xff8)
        (LoaderState.kernelFound entryRam 0) [2] := by
  have hchain := fileChain_smallDisk (show 0xff8 ≤ 0xff8 ∧ 0xff8 ≤ 0xfff by decide)
  have hentry : entryRam.readLE (physAddr BaseOfKernelFile ((0 &&& 0xffe0) + 0x1a)) 2 = 2 := by
    decide +kernel
  refine ⟨serves_floppy _, hchain, hentry, fun h => ?_⟩
  have hbad := hchain.short_of_loadsWhole (serves_floppy _) (hchain.at_kernelFound hentry) h
  exact absurd hbad.2 (by decide)

/-- The names in the root directory of a disk, with the first cluster of the last file. -/
def fileDiskRoot : List UInt8 :=
  "LOADER  BIN".toList.map Char.toUInt8 ++ List.replicate 21 0 ++
    "KERNEL  TXT".toList.map Char.toUInt8 ++ List.replicate 21 0 ++
    "KERNEL  BIN".toList.map Char.toUInt8 ++ List.replicate 15 0 ++ [2, 0]

/-- A disk with a file in the clusters 2, 5 and 3. -/
def fileDisk : Nat → Nat → UInt8 := fun lba i =>
  if lba = 1 then [0xf0, 0xff, 0xff, 0x05, 0xf0, 0xff, 0x00, 0x30, 0x00].getD i 0
  else if lba = 19 then fileDiskRoot.getD i 0
  else UInt8.ofNat lba

theorem fileChain_fileDisk : FileChain fileDisk 2 [2, 5, 3] 0xfff where
  head := rfl
  links := by
    have hfirst : fatEntry fileDisk 2 = 5 := by decide +kernel
    have hnext : fatEntry fileDisk 5 = 3 := by decide +kernel
    have hlast : fatEntry fileDisk 3 = 0xfff := by decide +kernel
    exact List.isChain_cons_cons.mpr ⟨hfirst, List.isChain_cons_cons.mpr
      ⟨hnext, List.isChain_cons_cons.mpr ⟨hlast, List.isChain_singleton _⟩⟩⟩
  data := by decide
  endMark := by decide

/-- A file in three clusters, the last of which is in front of the second. -/
theorem loadsWhole_fileDisk :
    LoadsWhole (floppy fileDisk) fileDisk (LoaderState.kernelFound entryRam 0) [2, 5, 3] := by
  have hentry : entryRam.readLE (physAddr BaseOfKernelFile ((0 &&& 0xffe0) + 0x1a)) 2 = 2 := by
    decide +kernel
  exact (loadsWhole_iff (serves_floppy _) fileChain_fileDisk hentry).mpr ⟨by decide, rfl⟩

end Legacy

end BbnOS
