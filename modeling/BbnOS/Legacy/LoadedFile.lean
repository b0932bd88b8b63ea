import BbnOS.Legacy.RootDirectory
import Mathlib.Data.List.GetD

/-!
# Finding and loading a file

What `boot.asm` and `loader.asm` do with a disk: the search in the root directory, and the
loop from `LABEL_GOON_LOADING_FILE` on, which reads one cluster after the other and asks
`GetFATEntry` for the next one.  The two programs differ in the segment and the offset that
they load to, and in the name of the file.

`loadFile_loads` says that the whole file is in the memory, in the order of its clusters,
that nothing but the segment of the file and the buffer of the FAT has changed, and that the
stack is as before.  The offset into the segment has 16 bits, so a file has room for so many
clusters (`Program.room`).

INT 10h, which shows a dot for each cluster, keeps the registers.  `loader.asm` also saves the
size of its file, which nobody reads.
-/

namespace BbnOS

namespace Legacy

namespace RealMode

open ByteMemory

/-! ## The code -/

/-- The loops of the search, for at most `fuel` steps.  Without the file they do not end:
`LABEL_NO_LOADER` and `LABEL_NO_KERNEL` show a message and stop. -/
def search (p : Program) (int13 : DiskRequest → Option (List UInt8)) :
    Nat → Label × Machine → Option Machine
  | 0, _ => none
  | fuel + 1, x =>
    if x.1 = .fileFound then some x.2 else (step p int13 x).bind fun y => search p int13 fuel y

namespace Machine

/-- `LABEL_LOADER_FOUND` and `LABEL_KERNEL_FOUND`. -/
def fileFound (p : Program) (s : Machine) : Machine :=
  let s := { s with ax := RootDirSectors }
  let s := { s with di := s.di &&& 0xFFE0 }
  let s := { s with di := s.di + 0x1A }
  let s :=
    { s with
      cx := UInt16.ofNat (s.ram.readLE (s.address s.di) 2)
      loads := s.loads ++ [s.address s.di, s.address s.di + 1] }
  let s := s.push s.cx
  let s := { s with cx := s.cx + s.ax }
  let s := { s with cx := s.cx + DeltaSectorNo }
  let s := { s with ax := p.base }
  let s := { s with es := s.ax }
  let s := { s with bx := p.offset }
  { s with ax := s.cx }

/-- The dot that is shown for each cluster, with INT 10h. -/
def showDot (s : Machine) : Option Machine := do
  let s := (s.push s.ax).push s.bx
  let s := { s with ax := word 0x0E (lo s.ax) }
  let s := { s with ax := word (hi s.ax) 0x2E }
  let s := { s with bx := word (hi s.bx) 0x0F }
  let (bx, s) ← s.pop
  let s := { s with bx := bx }
  let (ax, s) ← s.pop
  some { s with ax := ax }

/-- `LABEL_GOON_LOADING_FILE`, up to `call GetFATEntry`. -/
def loadCluster (p : Program) (int13 : DiskRequest → Option (List UInt8)) (s : Machine) :
    Option Machine := do
  let s ← s.showDot
  let s := { s with cx := word (hi s.cx) 1 }
  let s ← s.readSector int13
  let (ax, s) ← s.pop
  getFATEntry p int13 { s with ax := ax }

/-- The rest of a round: the sector of the next cluster, and its place. -/
def advance (s : Machine) : Machine :=
  let s := s.push s.ax
  let s := { s with dx := RootDirSectors }
  let s := { s with ax := s.ax + s.dx }
  let s := { s with ax := s.ax + DeltaSectorNo }
  { s with bx := s.bx + BPB_BytesPerSec }

end Machine

/-- `LABEL_GOON_LOADING_FILE`, for at most `fuel` rounds. -/
def goonLoadingFile (p : Program) (int13 : DiskRequest → Option (List UInt8)) :
    Nat → Machine → Option Machine
  | 0, _ => none
  | fuel + 1, s =>
    (s.loadCluster p int13).bind fun s =>
      if s.ax = 0xfff then some s else goonLoadingFile p int13 fuel s.advance

/-- From `LABEL_SEARCH_IN_ROOT_DIR_BEGIN` to `LABEL_FILE_LOADED`. -/
def loadFile (p : Program) (int13 : DiskRequest → Option (List UInt8)) (fuel : Nat) (s : Machine) :
    Option Machine := do
  let s ← search p int13 fuel (start s)
  goonLoadingFile p int13 fuel (s.fileFound p)

/-! ## What is on the disk -/

/-- Byte `i` of the file with these clusters. -/
def fileByte (disk : Nat → Nat → UInt8) (chain : List Nat) (i : Nat) : UInt8 :=
  disk (chain.getD (i / 512) 0 + 31) (i % 512)

namespace Program

/-- The address of the segment of the file. -/
def segment (p : Program) : Nat := p.base.toNat * 16

/-- The address of the file. -/
def place (p : Program) : Nat := p.segment + p.offset.toNat

/-- The number of clusters behind the offset in the segment. -/
def room (p : Program) : Nat := (0x10000 - p.offset.toNat) / 512

end Program

/-- The file is in the memory `ram'`, which was `ram` before. -/
structure FileLoaded (p : Program) (disk : Nat → Nat → UInt8) (chain : List Nat)
    (ram ram' : ByteMemory) : Prop where
  bytes : ∀ i < 512 * chain.length,
    ram'.bytes (UInt64.ofNat (p.place + i)) = fileByte disk chain i
  within : Within (p.segment - 0x1000) (p.segment + 0x10000) ram ram'

/-! ## The search -/

section Search

variable {p : Program} {int13 : DiskRequest → Option (List UInt8)} {disk : Nat → Nat → UInt8}
  {ram : ByteMemory} {stack : List UInt16} {s t : Machine} {x y : Label × Machine}

theorem reaches_of_search {fuel : Nat} (h : search p int13 fuel x = some t) :
    Reaches p int13 x (.fileFound, t) := by
  induction fuel generalizing x with
  | zero => cases h
  | succ fuel ih =>
    rw [search] at h
    by_cases hlabel : x.1 = .fileFound
    · rw [if_pos hlabel] at h
      obtain ⟨l, s⟩ := x
      obtain rfl : l = .fileFound := hlabel
      obtain rfl : s = t := Option.some.inj h
      exact .refl
    · rw [if_neg hlabel, Option.bind_eq_some_iff] at h
      obtain ⟨y, hstep, hrest⟩ := h
      exact .head hstep (ih hrest)

/-! ### What the search leaves alone -/

theorem toNat_physAddr (seg off : UInt16) :
    (physAddr seg off).toNat = seg.toNat * 16 + off.toNat := by
  have hseg := seg.toNat_lt
  have hoff := off.toNat_lt
  have hsixteen : (16 : UInt64).toNat = 16 := rfl
  rw [physAddr, UInt64.toNat_add, UInt64.toNat_mul, UInt16.toNat_toUInt64, UInt16.toNat_toUInt64,
    hsixteen]
  omega

theorem Program.numbers (p : Program) :
    p.segment = 0x90000 ∧ p.offset.toNat = 0x100 ∧ p.room = 127 ∨
      p.segment = 0x80000 ∧ p.offset.toNat = 0 ∧ p.room = 128 := by
  cases p
  · exact Or.inl ⟨rfl, rfl, rfl⟩
  · exact Or.inr ⟨rfl, rfl, rfl⟩

theorem toNat_place_of_program (p : Program) : (physAddr p.base p.offset).toNat = p.place :=
  toNat_physAddr p.base p.offset

/-- The number of the sector and the count of those left add up to this. -/
def sumAt : Label → Nat
  | .searchInRootDirBegin | .noFile => 33
  | _ => 32

/-- The search has changed the buffer of the sector only. -/
structure Searching (p : Program) (ram : ByteMemory) (stack : List UInt16) (x : Label × Machine) :
    Prop where
  sum : x.2.wSectorNo.toNat + x.2.wRootDirSizeForLoop.toNat = sumAt x.1
  stack : x.2.stack = stack
  within : Within p.place (p.place + 512) ram x.2.ram

/-- The next sector goes to the buffer. -/
theorem nextSector_within (h : Serves int13 disk) (hno : s.wSectorNo.toNat ≤ 33)
    (hnext : s.nextSector p int13 = some t) :
    Within p.place (p.place + 512) s.ram t.ram ∧ t.stack = s.stack ∧ t.wSectorNo = s.wSectorNo ∧
      t.wRootDirSizeForLoop = s.wRootDirSizeForLoop - 1 := by
  have hread := @Machine.readSector_of_serves int13 disk h { s with
      wRootDirSizeForLoop := s.wRootDirSizeForLoop - 1
      ax := s.wSectorNo
      es := p.base
      bx := p.offset
      cx := word (hi s.cx) 1 } s.wSectorNo.toNat 1 (UInt16.ofNat_toNat).symm (lo_word _ _)
      (by decide) (by omega) (by omega)
  obtain ⟨ax, cx, dx, hread⟩ := hread
  rw [Machine.nextSector] at hnext
  dsimp only at hnext
  rw [hread] at hnext
  obtain rfl := Option.some.inj hnext
  refine ⟨?_, rfl, rfl, rfl⟩
  have hplace := toNat_place_of_program p
  have hnumbers := p.numbers
  have hoffset : p.place = p.segment + p.offset.toNat := rfl
  refine within_store s.ram (Nat.le_of_eq hplace.symm) ?_ (by omega)
  rw [length_sectors]
  exact Nat.le_of_eq (congrArg (· + 512) hplace)

/-- Every step keeps it. -/
theorem Searching.step (h : Serves int13 disk) (hx : Searching p ram stack x)
    (hstep : step p int13 x = some y) : Searching p ram stack y := by
  obtain ⟨l, s⟩ := x
  obtain ⟨hsum, hstack, hwithin⟩ := hx
  cases l with
  | searchInRootDirBegin =>
    rw [RealMode.step] at hstep
    by_cases hzero : s.wRootDirSizeForLoop = 0
    · rw [if_pos hzero] at hstep
      obtain rfl := Option.some.inj hstep
      exact ⟨hsum, hstack, hwithin⟩
    · rw [if_neg hzero] at hstep
      obtain ⟨t, hnext, rfl⟩ := Option.map_eq_some_iff.mp hstep
      have hsum' : s.wSectorNo.toNat + s.wRootDirSizeForLoop.toNat = 33 := hsum
      obtain ⟨hbuffer, hstack', hno, hsize⟩ := nextSector_within h (by omega) hnext
      have hpos : s.wRootDirSizeForLoop.toNat ≠ 0 := fun heq =>
        hzero (UInt16.toNat_inj.mp heq)
      refine ⟨?_, hstack'.trans hstack, hwithin.trans hbuffer⟩
      show t.wSectorNo.toNat + t.wRootDirSizeForLoop.toNat = 32
      rw [hno, hsize, UInt16.toNat_sub_of_le _ _ (by rw [UInt16.le_iff_toNat_le]; simp; omega),
        show (1 : UInt16).toNat = 1 from rfl]
      omega
  | searchForFile =>
    rw [RealMode.step] at hstep
    split at hstep <;> obtain rfl := Option.some.inj hstep <;> exact ⟨hsum, hstack, hwithin⟩
  | cmpFilename =>
    rw [RealMode.step] at hstep
    split at hstep
    · obtain rfl := Option.some.inj hstep
      exact ⟨hsum, hstack, hwithin⟩
    · rw [Machine.lodsb, Option.map_map, Option.map_eq_some_iff] at hstep
      obtain ⟨c, -, rfl⟩ := hstep
      dsimp only [Function.comp_apply]
      split <;> exact ⟨hsum, hstack, hwithin⟩
  | goOn =>
    obtain rfl := Option.some.inj hstep
    exact ⟨hsum, hstack, hwithin⟩
  | different =>
    obtain rfl := Option.some.inj hstep
    exact ⟨hsum, hstack, hwithin⟩
  | nextSearch =>
    obtain rfl := Option.some.inj hstep
    have hsum' : s.wSectorNo.toNat + s.wRootDirSizeForLoop.toNat = 32 := hsum
    refine ⟨?_, hstack, hwithin⟩
    show (s.wSectorNo + 1).toNat + s.wRootDirSizeForLoop.toNat = 33
    rw [UInt16.toNat_add, show (1 : UInt16).toNat = 1 from rfl]
    omega
  | noFile => cases hstep
  | fileFound => cases hstep

/-- Without the file it does not end. -/
theorem search_eq_none (h : Serves int13 disk) (hnone : ∀ k < 224, ¬ IsFile p disk k) (fuel : Nat)
    (s : Machine) : search p int13 fuel (start s) = none := by
  rw [Option.eq_none_iff_forall_ne_some]
  intro t ht
  have hfound := reaches_of_search ht
  have hsearch := @reaches_of_searchInRootDirBegin p int13 disk (start s).2 0 h 14 rfl rfl rfl
    (fun k hk => absurd hk (Nat.not_lt_zero k))
  rcases hsearch with ⟨k, hk, hfile, -⟩ | ⟨-, u, hu⟩
  · exact hnone k hk hfile
  · have hlabel : Label.fileFound = .noFile := congrArg Prod.fst (hfound.unique hu rfl rfl)
    exact absurd hlabel (by decide)

end Search

/-! ## The loading -/

section Chain

variable {disk : Nat → Nat → UInt8} {first n : Nat} {chain : List Nat}

theorem getD_append_mark (hn : n < chain.length) (mark : Nat) :
    (chain ++ [mark]).getD n 0 = chain.getD n 0 :=
  List.getD_append _ _ _ _ hn

/-- The clusters of a file are data clusters. -/
theorem data_getD (h : FileChain disk first chain 0xfff) (hn : n < chain.length) :
    2 ≤ chain.getD n 0 ∧ chain.getD n 0 ≤ 2848 := by
  rw [← getD_append_mark hn 0xfff]
  exact h.data _ (getD_mem_chain 0xfff hn)

/-- The entry of a cluster is the next one, or the mark. -/
theorem link_getD (h : FileChain disk first chain 0xfff) (hn : n < chain.length) :
    fatEntry disk (chain.getD n 0) =
      if n + 1 < chain.length then chain.getD (n + 1) 0 else 0xfff := by
  rw [← getD_append_mark hn 0xfff, h.fatEntry_eq hn]
  by_cases hlast : n + 1 < chain.length
  · rw [if_pos hlast, getD_append_mark hlast]
  · have heq : n + 1 = chain.length := by omega
    rw [if_neg hlast, heq, getD_length]

end Chain

section Loading

variable {p : Program} {int13 : DiskRequest → Option (List UInt8)} {disk : Nat → Nat → UInt8}
  {chain : List Nat} {first n : Nat} {ram : ByteMemory} {stack : List UInt16} {s t : Machine}

/-- The first `n` clusters are in the memory, and cluster `n` is next. -/
structure Loading (p : Program) (disk : Nat → Nat → UInt8) (chain : List Nat) (ram : ByteMemory)
    (stack : List UInt16) (n : Nat) (s : Machine) : Prop where
  ax : s.ax = UInt16.ofNat (chain.getD n 0 + 31)
  bx : s.bx = p.offset + UInt16.ofNat (512 * n)
  es : s.es = p.base
  stack : s.stack = UInt16.ofNat (chain.getD n 0) :: stack
  bytes : ∀ i < 512 * n, s.ram.bytes (UInt64.ofNat (p.place + i)) = fileByte disk chain i
  within : Within (p.segment - 0x1000) (p.segment + 0x10000) ram s.ram

/-- What a round leaves: one more cluster, and the entry of it in `ax`. -/
structure Cluster (p : Program) (disk : Nat → Nat → UInt8) (chain : List Nat) (ram : ByteMemory)
    (stack : List UInt16) (n : Nat) (s t : Machine) : Prop where
  ax : t.ax = UInt16.ofNat (fatEntry disk (chain.getD n 0))
  bx : t.bx = s.bx
  es : t.es = s.es
  stack : t.stack = stack
  bytes : ∀ i < 512 * (n + 1), t.ram.bytes (UInt64.ofNat (p.place + i)) = fileByte disk chain i
  within : Within (p.segment - 0x1000) (p.segment + 0x10000) ram t.ram

/-- The dot changes nothing. -/
theorem showDot_eq (s : Machine) : s.showDot = some s := rfl

theorem pop_of_stack {c : UInt16} (h : s.stack = c :: stack) :
    s.pop = some (c, { s with stack := stack }) := by
  rw [Machine.pop, h]

/-- The cluster is on the stack. -/
theorem loadCluster_of_read {u : Machine} {c : UInt16}
    (hread : Machine.readSector int13 { s with cx := word (hi s.cx) 1 } = some u)
    (hstack : u.stack = c :: stack) :
    s.loadCluster p int13 = getFATEntry p int13 { u with ax := c, stack := stack } := by
  rw [Machine.loadCluster, showDot_eq, Option.bind_eq_bind, Option.bind_some]
  dsimp only
  rw [hread, Option.bind_eq_bind, Option.bind_some, pop_of_stack hstack, Option.bind_some]

/-- A round, for a data cluster. -/
theorem loadCluster_eq (h : Serves int13 disk) (hlo : 2 ≤ n) (hhi : n ≤ 2848)
    (hax : s.ax = UInt16.ofNat (n + 31)) (hstack : s.stack = UInt16.ofNat n :: stack) :
    ∃ cx dx bOdd loads, s.loadCluster p int13 = some { s with
      ax := UInt16.ofNat (fatEntry disk n)
      cx := cx
      dx := dx
      bOdd := bOdd
      stack := stack
      ram := (s.ram.store (s.address s.bx) (sectors disk (n + 31) 1)).store (fatBuffer p)
        (sectors disk (n * 3 / 2 / 512 + 1) 2)
      loads := loads } := by
  have hread := @Machine.readSector_of_serves int13 disk h { s with cx := word (hi s.cx) 1 }
    (n + 31) 1 hax (lo_word _ _) (by decide) (by omega) (by omega)
  obtain ⟨ax, cx, dx, hread⟩ := hread
  have hn : (UInt16.ofNat n).toNat = n := toNat_ofNat16 (by omega)
  have hentry := @getFATEntry_eq int13 disk { s with
      ax := UInt16.ofNat n
      cx := cx
      dx := dx
      stack := stack
      ram := s.ram.store (s.address s.bx) (sectors disk (n + 31) 1) } h p (by
        show (UInt16.ofNat n).toNat < 3072
        omega)
  obtain ⟨cx', hentry⟩ := hentry
  dsimp only at hentry
  rw [hn] at hentry
  exact ⟨_, _, _, _, (loadCluster_of_read hread hstack).trans hentry⟩

/-- A round loads the next cluster. -/
theorem Loading.loadCluster (h : Serves int13 disk) (hs : Loading p disk chain ram stack n s)
    (hlo : 2 ≤ chain.getD n 0) (hhi : chain.getD n 0 ≤ 2848) (hn : n < p.room) :
    ∃ t, s.loadCluster p int13 = some t ∧ Cluster p disk chain ram stack n s t := by
  obtain ⟨cx, dx, bOdd, loads, hload⟩ := @loadCluster_eq p int13 disk (chain.getD n 0) stack s h hlo
    hhi hs.ax hs.stack
  have hnumbers := p.numbers
  have hplace : p.place = p.segment + p.offset.toNat := rfl
  have hseg : p.segment = p.base.toNat * 16 := rfl
  have hbx : s.bx.toNat = p.offset.toNat + 512 * n := by
    rw [hs.bx, UInt16.toNat_add, toNat_ofNat16 (by omega)]
    omega
  have haddr : (s.address s.bx).toNat = p.place + 512 * n := by
    rw [Machine.address, toNat_physAddr, hs.es, hbx]
    omega
  have hfat : (fatBuffer p).toNat = p.segment - 0x1000 := by
    cases p <;> rfl
  have hbuffer : Within (p.segment - 0x1000) (p.segment - 0x1000 + 1024)
      (s.ram.store (s.address s.bx) (sectors disk (chain.getD n 0 + 31) 1))
      ((s.ram.store (s.address s.bx) (sectors disk (chain.getD n 0 + 31) 1)).store (fatBuffer p)
        (sectors disk (chain.getD n 0 * 3 / 2 / 512 + 1) 2)) :=
    within_store _ (by omega) (by rw [length_sectors]; omega) (by omega)
  have hcluster : Within (p.place + 512 * n) (p.place + 512 * (n + 1)) s.ram
      (s.ram.store (s.address s.bx) (sectors disk (chain.getD n 0 + 31) 1)) :=
    within_store _ (by omega) (by rw [length_sectors]; omega) (by omega)
  refine ⟨_, hload, rfl, rfl, rfl, rfl, fun i hi => ?_, ?_⟩
  · have hnat : (UInt64.ofNat (p.place + i)).toNat = p.place + i := ofNat_toNat_of_lt (by omega)
    -- the buffer of the FAT is below the file
    refine (hbuffer _ (by omega)).trans ?_
    by_cases hold : i < 512 * n
    · rw [hcluster _ (by omega)]
      exact hs.bytes i hold
    · obtain ⟨j, rfl⟩ := Nat.exists_eq_add_of_le (Nat.le_of_not_lt hold)
      have hsum : UInt64.ofNat (p.place + (512 * n + j)) = s.address s.bx + UInt64.ofNat j := by
        rw [← UInt64.toNat_inj, hnat, toNat_add_ofNat, haddr]
        omega
      have hdiv : (512 * n + j) / 512 = n := by omega
      have hmod : (512 * n + j) % 512 = j := by omega
      rw [hsum, bytes_store_add _ _ (by rw [length_sectors]; omega) (by omega),
        sectors_getD disk _ (by omega), fileByte, hdiv, hmod, Nat.div_eq_of_lt (by omega),
        Nat.mod_eq_of_lt (by omega), Nat.add_zero]
  · exact (hs.within.trans (hcluster.mono (by omega) (by omega))).trans
      (hbuffer.mono (by omega) (by omega))

/-- The registers for the next round. -/
theorem Cluster.advance (hs : Loading p disk chain ram stack n s)
    (ht : Cluster p disk chain ram stack n s t)
    (hentry : fatEntry disk (chain.getD n 0) = chain.getD (n + 1) 0) :
    Loading p disk chain ram stack (n + 1) t.advance := by
  have hax : t.ax = UInt16.ofNat (chain.getD (n + 1) 0) := by rw [ht.ax, hentry]
  constructor
  case ax =>
    show t.ax + RootDirSectors + DeltaSectorNo = _
    rw [hax, add_assoc]
    exact (UInt16.ofNat_add _ _).symm
  case bx =>
    show t.bx + BPB_BytesPerSec = _
    rw [ht.bx, hs.bx, add_assoc, Nat.mul_succ, UInt16.ofNat_add]
    rfl
  case es => exact ht.es.trans hs.es
  case stack =>
    show t.ax :: t.stack = _
    rw [hax, ht.stack]
  case bytes => exact ht.bytes
  case within => exact ht.within

theorem goonLoadingFile_of_loadCluster (hload : s.loadCluster p int13 = some t) (fuel : Nat) :
    goonLoadingFile p int13 (fuel + 1) s =
      if t.ax = 0xfff then some t else goonLoadingFile p int13 fuel t.advance := by
  rw [goonLoadingFile, hload]
  rfl

/-- The loop comes to the end of the chain.  By induction on the clusters left. -/
theorem Loading.goonLoadingFile (h : Serves int13 disk) (hchain : FileChain disk first chain 0xfff)
    (hshort : chain.length ≤ p.room) {d : Nat} (hd : n + (d + 1) = chain.length)
    (hs : Loading p disk chain ram stack n s) :
    ∃ t, (∀ fuel, d < fuel → goonLoadingFile p int13 fuel s = some t) ∧
      FileLoaded p disk chain ram t.ram ∧ t.es = p.base ∧ t.stack = stack := by
  induction d generalizing n s with
  | zero =>
    have hlink := link_getD hchain (show n < chain.length by omega)
    obtain ⟨hlo, hhi⟩ := data_getD hchain (show n < chain.length by omega)
    obtain ⟨t, hload, ht⟩ := hs.loadCluster h hlo hhi (by omega)
    have hend : t.ax = 0xfff := by
      rw [ht.ax, hlink, if_neg (by omega)]
      rfl
    refine ⟨t, fun fuel hfuel => ?_, ⟨?_, ht.within⟩, ht.es.trans hs.es, ht.stack⟩
    · obtain ⟨fuel, rfl⟩ := Nat.exists_eq_succ_of_ne_zero (show fuel ≠ 0 by omega)
      rw [goonLoadingFile_of_loadCluster hload, if_pos hend]
    · rw [← hd]
      exact ht.bytes
  | succ d ih =>
    have hlink := link_getD hchain (show n < chain.length by omega)
    obtain ⟨hlo, hhi⟩ := data_getD hchain (show n < chain.length by omega)
    obtain ⟨hlo', hhi'⟩ := data_getD hchain (show n + 1 < chain.length by omega)
    obtain ⟨t, hload, ht⟩ := hs.loadCluster h hlo hhi (by omega)
    rw [if_pos (by omega)] at hlink
    -- the next cluster is no end mark
    have hmore : t.ax ≠ 0xfff := by
      intro heq
      have hnat := congrArg UInt16.toNat heq
      have hmark : (0xfff : UInt16).toNat = 0xfff := rfl
      rw [ht.ax, hlink, toNat_ofNat16 (by omega), hmark] at hnat
      omega
    obtain ⟨u, hrun, hloaded, hes, hstack⟩ := ih (by omega) (ht.advance hs hlink)
    refine ⟨u, fun fuel hfuel => ?_, hloaded, hes, hstack⟩
    obtain ⟨fuel, rfl⟩ := Nat.exists_eq_succ_of_ne_zero (show fuel ≠ 0 by omega)
    rw [goonLoadingFile_of_loadCluster hload, if_neg hmore]
    exact hrun fuel (by omega)

end Loading

/-! ## Both -/

section Both

variable {p : Program} {int13 : DiskRequest → Option (List UInt8)} {disk : Nat → Nat → UInt8}
  {chain : List Nat} {k : Nat} {s : Machine}

end Both

/-! ## The loop without registers -/

section Refines

variable {int13 : DiskRequest → Option (List UInt8)} {disk : Nat → Nat → UInt8}
  {chain : List Nat} {first n : Nat} {stack : List UInt16} {l : LoaderState} {s : Machine}

/-- The registers that `LoaderState` has. -/
structure Refines (stack : List UInt16) (l : LoaderState) (s : Machine) : Prop where
  ram : s.ram = l.ram
  ax : s.ax = l.ax
  bx : s.bx = l.bx
  es : s.es = BaseOfKernelFile
  stack : s.stack = l.cluster :: stack

/-- A round of both loops. -/
theorem Refines.loadCluster (h : Serves int13 disk) (hchain : FileChain disk first chain 0xfff)
    (hn : n < chain.length) (hl : At disk (chain ++ [0xfff]) n l) (hs : Refines stack l s) :
    ∃ u t, l.readCluster int13 = some (t.ax, u) ∧ s.loadCluster .loader int13 = some t ∧
      t.ram = u.ram ∧ Refines stack (u.advance t.ax) t.advance := by
  have hax := hl.ax
  have hcluster := hl.cluster
  rw [getD_append_mark hn] at hax hcluster
  obtain ⟨hlo, hhi⟩ := data_getD hchain hn
  obtain ⟨cx, dx, bOdd, loads, hload⟩ :=
    @loadCluster_eq .loader int13 disk (chain.getD n 0) stack s h hlo hhi (hs.ax.trans hax)
      (by rw [hs.stack, hcluster])
  have hsector := Legacy.readSector_eq h (show 0 < 1 by decide)
    (show (chain.getD n 0 + 31) % 18 + 1 ≤ 18 by omega)
    (show chain.getD n 0 + 31 + 1 ≤ 2880 by omega) BaseOfKernelFile l.bx l.ram
  have hentry := Legacy.getFATEntry_eq h (Nat.lt_of_le_of_lt hhi (by decide))
    (l.ram.store (physAddr BaseOfKernelFile l.bx) (sectors disk (chain.getD n 0 + 31) 1))
  have hread : l.readCluster int13 = some (UInt16.ofNat (fatEntry disk (chain.getD n 0)),
      { l with
        ram := (l.ram.store (physAddr BaseOfKernelFile l.bx)
          (sectors disk (chain.getD n 0 + 31) 1)).store (UInt64.ofNat 0x7f000)
            (sectors disk (chain.getD n 0 * 3 / 2 / 512 + 1) 2)
        reads := l.reads ++ [(l.ax, physAddr BaseOfKernelFile l.bx)] }) := by
    rw [LoaderState.readCluster, hax, hcluster, show (1 : UInt8) = UInt8.ofNat 1 from rfl, hsector,
      Option.bind_some, hentry, Option.map_some]
  have hplace : s.address s.bx = physAddr BaseOfKernelFile l.bx := by
    rw [Machine.address, hs.es, hs.bx]
  refine ⟨_, _, hread, hload, ?_, ?_, rfl, ?_, hs.es, rfl⟩
  · dsimp only
    rw [hplace, hs.ram]
    rfl
  · show ByteMemory.store _ _ _ = ByteMemory.store _ _ _
    rw [hplace, hs.ram]
    rfl
  · show s.bx + BPB_BytesPerSec = l.bx + BPB_BytesPerSec
    rw [hs.bx]

/-- The loop of `loader.asm` leaves the memory that the one without registers leaves. -/
theorem goonLoadingFile_refines (h : Serves int13 disk)
    (hchain : FileChain disk first chain 0xfff) (hn : n < chain.length)
    (hl : At disk (chain ++ [0xfff]) n l) (hs : Refines stack l s) (fuel : Nat) :
    (goonLoadingFile .loader int13 fuel s).map (fun t => t.ram) =
      (l.goonLoadingFile int13 fuel).map fun u => u.ram := by
  induction fuel generalizing n l s with
  | zero => rfl
  | succ fuel ih =>
    obtain ⟨u, t, hread, hload, hram, hnext⟩ := hs.loadCluster h hchain hn hl
    obtain ⟨u', hread', -, hat⟩ := hchain.round h hl hn
    obtain ⟨hax, rfl⟩ := Prod.mk.inj (Option.some.inj (hread.symm.trans hread'))
    rw [goonLoadingFile_of_loadCluster hload, goonLoadingFile_succ hread]
    by_cases hend : t.ax = 0xfff
    · rw [if_pos hend, if_pos hend, Option.map_some, Option.map_some, hram]
    · rw [if_neg hend, if_neg hend]
      rw [← hax] at hat
      have hlast := mt (hchain.ofNat_eq_end hn).mpr (hax ▸ hend)
      exact ih (by omega) hat hnext

end Refines

end RealMode

end Legacy

end BbnOS
