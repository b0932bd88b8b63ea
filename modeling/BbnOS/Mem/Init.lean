import BbnOS.Mem.MemoryMap

/-!
# What `readEFIMemoryMap` builds

The first call of `readEFIMemoryMap` goes through three states: the one with
the cleared bitmap (`cleared`), the one with the pages of the bitmap locked
(`locked`), and the one that the reserve pass leaves.  `readEFIMemoryMap_eq`
gives the first two in closed form, as functions of the memory and of the list
of descriptors.

`reservePass_marks` is the reserve pass for every memory, where `PassCover` is
the set of pages that it visits.  When the stores of the pass miss the
descriptors it has still to read, these are the pages of the regions in the
memory before the pass (`passCover_of_stable`).
-/

namespace BbnOS

open ByteMemory Loop Marking EfiMemoryType

/-! ## The list view of the loops -/

theorem descriptors_succ (ram : ByteMemory) (mmap z : UInt64) (n : Nat) :
    descriptors ram mmap z (n + 1) =
      descriptors ram mmap z n ++ [EfiMemoryDescriptor.read ram (descAt mmap z n)] := by
  rw [descriptors, List.range_succ, List.map_append]
  rfl

theorem mem_descriptors {ram : ByteMemory} {mmap z : UInt64} {n : Nat}
    {d : EfiMemoryDescriptor} :
    d ∈ descriptors ram mmap z n ↔
      ∃ i, i < n ∧ EfiMemoryDescriptor.read ram (descAt mmap z i) = d := by
  simp [descriptors]

theorem totalSize_append (ds : List EfiMemoryDescriptor) (d : EfiMemoryDescriptor) :
    totalSize (ds ++ [d]) = totalSize ds + d.numPages * 4096 := by
  simp [totalSize]

/-- The sum of the region sizes is a number of pages. -/
theorem totalSize_mod (ds : List EfiMemoryDescriptor) : (totalSize ds).toNat % 4096 = 0 := by
  induction ds with
  | nil => rfl
  | cons d ds ih =>
    rw [totalSize] at ih
    rw [totalSize, List.map_cons, List.sum_cons, UInt64.toNat_add, UInt64.toNat_mul]
    simp only [UInt64.reduceToNat]
    omega

/-- The search loop of `readEFIMemoryMap` is the fold over the descriptors. -/
theorem largestMemSeg_eq (ram : ByteMemory) (mmap n z : UInt64) :
    largestMemSeg ram mmap n z = bitmapBase (descriptors ram mmap z n.toNat) := by
  rw [largestMemSeg, bitmapBase, forUpto_eq_foldl, descriptors, List.foldl_map]

theorem bitmapSizeOf_toNat (memSize : UInt64) :
    (Machine.bitmapSizeOf memSize).toNat = memSize.toNat / 32768 + 1 := by
  have := memSize.toNat_lt
  rw [Machine.bitmapSizeOf, UInt64.toNat_add, UInt64.toNat_div, UInt64.toNat_div]
  simp only [UInt64.reduceToNat]
  omega

namespace Machine

/-! ## Adding up the sizes -/

/-- The summing pass, when it returns. -/
theorem addPass_eq {mmap n z : UInt64} {s s' : Machine}
    (h : doForAllMMapDesc mmap n z descAddMemSize s = some s') :
    (∀ d ∈ descriptors s.ram mmap z n.toNat, d.type ≤ 15) ∧
      s' = { s with
        memInfo := { s.memInfo with
          memSizeBytes := s.memInfo.memSizeBytes +
            totalSize (descriptors s.ram mmap z n.toNat) } } := by
  refine forUpto?_induct (fun i t =>
    (∀ d ∈ descriptors s.ram mmap z i, d.type ≤ 15) ∧
      t = { s with
        memInfo := { s.memInfo with
          memSizeBytes := s.memInfo.memSizeBytes +
            totalSize (descriptors s.ram mmap z i) } }) h ?_ ?_
  · refine ⟨by simp [descriptors], ?_⟩
    have hzero : s.memInfo.memSizeBytes + totalSize (descriptors s.ram mmap z 0) =
        s.memInfo.memSizeBytes := by simp [descriptors, totalSize]
    rw [hzero]
  · rintro i t t' _ ⟨htypes, rfl⟩ hbody
    simp only [descAddMemSize] at hbody
    split at hbody
    · cases hbody
    · rename_i htype
      injection hbody with hbody
      subst hbody
      rw [descriptors_succ, totalSize_append]
      refine ⟨?_, ?_⟩
      · intro d hd
        rcases List.mem_append.mp hd with hd | hd
        · exact htypes d hd
        · rw [List.mem_singleton.mp hd]
          exact UInt32.not_lt.mp htype
      · simp only [add_assoc]

/-- The summing pass returns when every type is at most 15. -/
theorem addPass_some {mmap n z : UInt64} {s : Machine}
    (htypes : ∀ d ∈ descriptors s.ram mmap z n.toNat, d.type ≤ 15) :
    ∃ s', doForAllMMapDesc mmap n z descAddMemSize s = some s' := by
  have hround : ∀ i t, i < n.toNat → t.ram = s.ram →
      ∃ t', descAddMemSize (descAt mmap z i) t = some t' ∧ t'.ram = s.ram := by
    intro i t hi ht
    have htype : ¬ (EfiMemoryDescriptor.read s.ram (descAt mmap z i)).type > 15 :=
      UInt32.not_lt.mpr (htypes _ (mem_descriptors.mpr ⟨i, hi, rfl⟩))
    simp only [descAddMemSize, ht, htype, if_false]
    exact ⟨_, rfl, rfl⟩
  obtain ⟨s', h, _⟩ := forUpto?_total (fun _ (t : Machine) => t.ram = s.ram) rfl hround
  exact ⟨s', h⟩

/-- The state with the total size stored. -/
def withSize (s : Machine) (memSize : UInt64) : Machine :=
  { s with memInfo := { s.memInfo with memSizeBytes := memSize } }

/-- `getMemSize` on a state that has no size yet, or the right one. -/
theorem getMemSize_eq {mmap n z : UInt64} {s : Machine}
    (hs : s.memInfo.memSizeBytes = 0 ∨
      s.memInfo.memSizeBytes = totalSize (descriptors s.ram mmap z n.toNat))
    (htypes : ∀ d ∈ descriptors s.ram mmap z n.toNat, d.type ≤ 15) :
    getMemSize mmap n z s =
      some (totalSize (descriptors s.ram mmap z n.toNat),
        s.withSize (totalSize (descriptors s.ram mmap z n.toNat))) := by
  unfold getMemSize
  split
  · rename_i hpos
    have hne : s.memInfo.memSizeBytes ≠ 0 := by
      intro hzero
      rw [hzero] at hpos
      exact absurd hpos (by decide)
    have heq := hs.resolve_left hne
    rw [← heq]
    rfl
  · rename_i hpos
    have hzero : s.memInfo.memSizeBytes = 0 := by
      rw [gt_iff_lt, UInt64.not_lt] at hpos
      exact UInt64.le_zero_iff.mp hpos
    obtain ⟨s', hs'⟩ := addPass_some htypes
    have heq := (addPass_eq hs').2
    rw [hs', heq, hzero, zero_add]
    rfl

/-! ## The first two stages -/

/-- The state after `PGinitBitMap`. -/
def cleared (ram : ByteMemory) (ds : List EfiMemoryDescriptor) : Machine where
  ram := ram.fill (bitmapBase ds) (bitmapSize ds).toNat 0
  memInfo :=
    { memBitMap := { size := bitmapSize ds, buffer := bitmapBase ds }
      freeMemory := totalSize ds
      reservedMemory := 0
      usedMemory := 0
      memSizeBytes := totalSize ds }
  initialized := true
  requested := []

/-- The state after the pages of the bitmap are locked. -/
def locked (ram : ByteMemory) (ds : List EfiMemoryDescriptor) : Machine :=
  (cleared ram ds).lockPages (bitmapBase ds) (bitmapSize ds / 4096 + 1)

/-- The loop of `PGinitBitMap` is a fill. -/
theorem clearLoop_eq_fill (ram : ByteMemory) (addr : UInt64) {n : Nat} (hn : n ≤ 2 ^ 64) :
    forUpto (fun i (ram : ByteMemory) => ram.write8 (addr + UInt64.ofNat i) 0) n ram =
      ram.fill addr n 0 := by
  induction n with
  | zero => simp
  | succ n ih => rw [forUpto_succ, ih (by omega), fill_succ _ _ (by omega)]

/-- The states of the first call, in closed form. -/
theorem AtBoot.cases_eq {ram : ByteMemory} {mmap mmapSize z : UInt64} {s : Machine}
    (h : AtBoot ram mmap mmapSize z s) :
    s = boot ram ∨
      (s = (boot ram).withSize (totalSize (mapOf ram mmap mmapSize z)) ∧
        ∀ d ∈ mapOf ram mmap mmapSize z, d.type ≤ 15) := by
  cases h with
  | initial => exact Or.inl rfl
  | sized h =>
    refine Or.inr ?_
    have hzero : ¬ (boot ram).memInfo.memSizeBytes > 0 := UInt64.lt_irrefl 0
    unfold getMemSize at h
    rw [if_neg hzero, Option.map_eq_some_iff] at h
    obtain ⟨s', hs', heq⟩ := h
    obtain ⟨_, rfl⟩ := Prod.mk.inj heq
    obtain ⟨htypes, rfl⟩ := addPass_eq hs'
    refine ⟨?_, htypes⟩
    simp only [boot, withSize, mapOf, zero_add]

/-- The first call of `readEFIMemoryMap` is the reserve pass over `locked`. -/
theorem readEFIMemoryMap_eq {ram : ByteMemory} {mmap mmapSize z : UInt64} {s : Machine}
    (hboot : AtBoot ram mmap mmapSize z s) (hz : z ≠ 0)
    (htypes : ∀ d ∈ mapOf ram mmap mmapSize z, d.type ≤ 15) :
    readEFIMemoryMap mmap mmapSize z s =
      doForAllMMapDesc mmap (mmapSize / z) z descReservePage
        (locked ram (mapOf ram mmap mmapSize z)) := by
  have hfill := clearLoop_eq_fill ram (bitmapBase (mapOf ram mmap mmapSize z))
    (bitmapSize (mapOf ram mmap mmapSize z)).toNat_lt.le
  have hstart : s.initialized = false ∧ s.ram = ram ∧
      (s.memInfo.memSizeBytes = 0 ∨
        s.memInfo.memSizeBytes = totalSize (mapOf ram mmap mmapSize z)) ∧
      s.memInfo.reservedMemory = 0 ∧ s.memInfo.usedMemory = 0 ∧ s.requested = [] := by
    rcases hboot.cases_eq with rfl | ⟨rfl, _⟩
    · exact ⟨rfl, rfl, Or.inl rfl, rfl, rfl, rfl⟩
    · exact ⟨rfl, rfl, Or.inr rfl, rfl, rfl, rfl⟩
  obtain ⟨hinit, rfl, hsize, hres, hused, hreq⟩ := hstart
  have hget := getMemSize_eq (s := { s with initialized := true }) hsize htypes
  unfold readEFIMemoryMap
  simp only [hinit, Bool.false_eq_true, if_false, hz, hget, largestMemSeg_eq]
  congr 1
  unfold locked cleared
  rw [← hfill]
  simp only [pgInitBitMap, withSize, hres, hused, hreq]
  rfl

/-- A first call of `readEFIMemoryMap` that returned had a stride and types
that the source accepts. -/
theorem readEFIMemoryMap_some {ram : ByteMemory} {mmap mmapSize z : UInt64} {s s' : Machine}
    (hboot : AtBoot ram mmap mmapSize z s)
    (h : readEFIMemoryMap mmap mmapSize z s = some s') :
    z ≠ 0 ∧ ∀ d ∈ mapOf ram mmap mmapSize z, d.type ≤ 15 := by
  have hinit : s.initialized = false := by
    rcases hboot.cases_eq with rfl | ⟨rfl, _⟩ <;> rfl
  have hz : z ≠ 0 := by
    intro hz
    simp [readEFIMemoryMap, hinit, hz] at h
  refine ⟨hz, ?_⟩
  rcases hboot.cases_eq with rfl | ⟨_, htypes⟩
  · unfold readEFIMemoryMap at h
    simp only [hinit, Bool.false_eq_true, if_false, hz, getMemSize] at h
    have hzero : ¬ (boot ram).memInfo.memSizeBytes > 0 := UInt64.lt_irrefl 0
    rw [if_neg hzero] at h
    split at h
    · cases h
    · rename_i hget
      obtain ⟨t, ht, _⟩ := Option.map_eq_some_iff.mp hget
      exact (addPass_eq ht).1
  · exact htypes

/-! ## The bitmap after the first two stages -/

section Stages

variable (ram : ByteMemory) (ds : List EfiMemoryDescriptor)

@[simp] theorem memBitMap_cleared :
    (cleared ram ds).memInfo.memBitMap = { size := bitmapSize ds, buffer := bitmapBase ds } :=
  rfl

theorem bits_cleared : (cleared ram ds).bits = 8 * (bitmapSize ds).toNat := rfl

theorem reach_cleared : (cleared ram ds).reach = 8 * (bitmapSize ds).toNat + 8 := rfl

theorem bitmapSize_toNat : (bitmapSize ds).toNat = (totalSize ds).toNat / 32768 + 1 :=
  bitmapSizeOf_toNat _

theorem bits_cleared_le : (cleared ram ds).bits ≤ 2 ^ 52 := by
  have := (totalSize ds).toNat_lt
  rw [bits_cleared, bitmapSize_toNat]
  omega

/-- Every bit of the cleared buffer is clear. -/
theorem marked_cleared {q : Nat} (hq : q < (cleared ram ds).bits) :
    (cleared ram ds).marked q = false := by
  rw [bits_cleared] at hq
  have hlt := (bitmapSize ds).toNat_lt
  have hin : InRange (bitmapBase ds) (bitmapSize ds).toNat
      (bitmapBase ds + UInt64.ofNat (q / 8)) :=
    (inRange_add_ofNat (by omega)).mpr (by omega)
  rw [marked, BitMap.bit]
  exact (congrArg (fun b => ByteBits.highBit b (q % 8))
    (bytes_fill_of_inRange ram 0 hin)).trans (ByteBits.highBit_zero _)

/-- The pages of the bitmap: those that `readEFIMemoryMap` locks. -/
def LockCover (ds : List EfiMemoryDescriptor) (q : Nat) : Prop :=
  Covers (bitmapBase ds) (bitmapSize ds / 4096 + 1).toNat q

instance (ds : List EfiMemoryDescriptor) (q : Nat) : Decidable (LockCover ds q) :=
  inferInstanceAs (Decidable (Covers _ _ _))

/-- The pages of the regions that the reserve pass does not skip. -/
def ReserveCover (ds : List EfiMemoryDescriptor) (q : Nat) : Prop :=
  ∃ d ∈ ds, d.isReserved = true ∧ d.HasPage q

instance (ds : List EfiMemoryDescriptor) (q : Nat) : Decidable (ReserveCover ds q) :=
  inferInstanceAs (Decidable (∃ d ∈ ds, _))

theorem locked_marks :
    Marks true MemDesc.lock (LockCover ds) (cleared ram ds) (locked ram ds) :=
  lockPages_marks _ _ _

@[simp] theorem bits_locked : (locked ram ds).bits = 8 * (bitmapSize ds).toNat :=
  (locked_marks ram ds).bits_eq

end Stages

/-! ## The reserve pass -/

/-- The pages that the first `n` rounds of the reserve pass visit.  A round
reads its descriptor in the state that the rounds before it left. -/
def PassCover (mmap z : UInt64) (s : Machine) (n q : Nat) : Prop :=
  ∃ i t, i < n ∧ forUpto? (fun i => descReservePage (descAt mmap z i)) i s = some t ∧
    (EfiMemoryDescriptor.read t.ram (descAt mmap z i)).isReserved = true ∧
    (EfiMemoryDescriptor.read t.ram (descAt mmap z i)).HasPage q

theorem passCover_succ {mmap z : UInt64} {s t : Machine} {n : Nat}
    (ht : forUpto? (fun i => descReservePage (descAt mmap z i)) n s = some t) (q : Nat) :
    PassCover mmap z s (n + 1) q ↔ PassCover mmap z s n q ∨
      ((EfiMemoryDescriptor.read t.ram (descAt mmap z n)).isReserved = true ∧
        (EfiMemoryDescriptor.read t.ram (descAt mmap z n)).HasPage q) := by
  constructor
  · rintro ⟨i, u, hi, hu, hres, hq⟩
    rcases Nat.lt_succ_iff_lt_or_eq.mp hi with hlt | rfl
    · exact Or.inl ⟨i, u, hlt, hu, hres, hq⟩
    · rw [ht] at hu
      obtain rfl : t = u := Option.some.inj hu
      exact Or.inr ⟨hres, hq⟩
  · rintro (⟨i, u, hi, hu, hres, hq⟩ | ⟨hres, hq⟩)
    · exact ⟨i, u, Nat.lt_succ_of_lt hi, hu, hres, hq⟩
    · exact ⟨n, t, Nat.lt_succ_self n, ht, hres, hq⟩

/-- Any number of rounds of the reserve pass returns, from every state, with
the pages they visit reserved. -/
theorem reserveRounds_marks (mmap z : UInt64) (s : Machine) (n : Nat) :
    ∃ s', forUpto? (fun i => descReservePage (descAt mmap z i)) n s = some s' ∧
      Marks true MemDesc.reserve (PassCover mmap z s n) s s' := by
  induction n with
  | zero =>
    refine ⟨s, rfl, (Marks.refl _ _ s).congr fun q => ?_⟩
    simp [PassCover]
  | succ n ih =>
    obtain ⟨t, ht, hmarks⟩ := ih
    rw [forUpto?_succ, ht, Option.bind_some, descReservePage]
    cases hres : (EfiMemoryDescriptor.read t.ram (descAt mmap z n)).isReserved
    · refine ⟨t, rfl, hmarks.congr fun q => ?_⟩
      rw [passCover_succ ht, hres]
      simp
    · refine ⟨_, rfl, (hmarks.trans (reservePages_marks _ _ t)).congr fun q => ?_⟩
      rw [passCover_succ ht, hres]
      simp only [true_and]
      rfl

/-- The reserve pass returns from every state, with the pages it visits
reserved. -/
theorem reservePass_marks (mmap n z : UInt64) (s : Machine) :
    ∃ s', doForAllMMapDesc mmap n z descReservePage s = some s' ∧
      Marks true MemDesc.reserve (PassCover mmap z s n.toNat) s s' :=
  reserveRounds_marks mmap z s n.toNat

/-- When the stores of the pass miss the descriptors it has still to read, the
visited pages are those of the regions in the memory before the pass.  The
first descriptor is read before any store. -/
theorem passCover_of_stable {mmap z : UInt64} {s : Machine} {n : Nat}
    (hstable : ∀ i, 0 < i → i < n → ∀ t : ByteMemory,
      (∀ a, ¬ s.memInfo.memBitMap.touched a → t.bytes a = s.ram.bytes a) →
      EfiMemoryDescriptor.read t (descAt mmap z i) =
        EfiMemoryDescriptor.read s.ram (descAt mmap z i)) (q : Nat) :
    PassCover mmap z s n q ↔ ReserveCover (descriptors s.ram mmap z n) q := by
  have hread : ∀ i t, i < n →
      forUpto? (fun i => descReservePage (descAt mmap z i)) i s = some t →
      EfiMemoryDescriptor.read t.ram (descAt mmap z i) =
        EfiMemoryDescriptor.read s.ram (descAt mmap z i) := by
    intro i t hi ht
    rcases Nat.eq_zero_or_pos i with rfl | hpos
    · rw [forUpto?_zero] at ht
      rw [Option.some.inj ht]
    · obtain ⟨t', ht', hmarks⟩ := reserveRounds_marks mmap z s i
      rw [ht] at ht'
      obtain rfl : t = t' := Option.some.inj ht'
      exact hstable i hpos hi t.ram hmarks.bytes
  constructor
  · rintro ⟨i, t, hi, ht, hres, hq⟩
    rw [hread i t hi ht] at hres hq
    exact ⟨_, mem_descriptors.mpr ⟨i, hi, rfl⟩, hres, hq⟩
  · rintro ⟨d, hd, hres, hq⟩
    obtain ⟨i, hi, rfl⟩ := mem_descriptors.mp hd
    obtain ⟨t, ht, _⟩ := reserveRounds_marks mmap z s i
    refine ⟨i, t, hi, ht, ?_⟩
    rw [hread i t hi ht]
    exact ⟨hres, hq⟩

/-- Every first call of `readEFIMemoryMap` that returned: a reserve pass over
`locked`. -/
theorem readEFIMemoryMap_stages {ram : ByteMemory} {mmap mmapSize z : UInt64} {s s' : Machine}
    (hboot : AtBoot ram mmap mmapSize z s)
    (h : readEFIMemoryMap mmap mmapSize z s = some s') :
    Marks true MemDesc.reserve
      (PassCover mmap z (locked ram (mapOf ram mmap mmapSize z)) (mmapSize / z).toNat)
      (locked ram (mapOf ram mmap mmapSize z)) s' := by
  obtain ⟨hz, htypes⟩ := readEFIMemoryMap_some hboot h
  rw [readEFIMemoryMap_eq hboot hz htypes] at h
  obtain ⟨t, ht, hmarks⟩ := reservePass_marks mmap (mmapSize / z) z
    (locked ram (mapOf ram mmap mmapSize z))
  rw [h] at ht
  obtain rfl : s' = t := Option.some.inj ht
  exact hmarks

/-- The bitmap that `readEFIMemoryMap` leaves. -/
theorem memBitMap_of_readEFIMemoryMap {ram : ByteMemory} {mmap mmapSize z : UInt64}
    {s s' : Machine} (hboot : AtBoot ram mmap mmapSize z s)
    (h : readEFIMemoryMap mmap mmapSize z s = some s') :
    s'.memInfo.memBitMap =
      { size := bitmapSize (mapOf ram mmap mmapSize z)
        buffer := bitmapBase (mapOf ram mmap mmapSize z) } := by
  rw [(readEFIMemoryMap_stages hboot h).memBitMap, (locked_marks ram _).memBitMap]
  rfl

theorem bits_of_readEFIMemoryMap {ram : ByteMemory} {mmap mmapSize z : UInt64}
    {s s' : Machine} (hboot : AtBoot ram mmap mmapSize z s)
    (h : readEFIMemoryMap mmap mmapSize z s = some s') :
    s'.bits = 8 * (bitmapSize (mapOf ram mmap mmapSize z)).toNat := by
  rw [bits, memBitMap_of_readEFIMemoryMap hboot h]
  rfl

theorem narrow_of_readEFIMemoryMap {ram : ByteMemory} {mmap mmapSize z : UInt64}
    {s s' : Machine} (hboot : AtBoot ram mmap mmapSize z s)
    (h : readEFIMemoryMap mmap mmapSize z s = some s') : s'.Narrow := by
  rw [Narrow, bits_of_readEFIMemoryMap hboot h, ← bits_cleared ram]
  exact bits_cleared_le ram _

/-- The pages that `readEFIMemoryMap` locks or reserves: the pages of the bitmap
and those that its reserve pass visits. -/
def BootCover (ram : ByteMemory) (mmap mmapSize z : UInt64) (p : Nat) : Prop :=
  LockCover (mapOf ram mmap mmapSize z) p ∨
    PassCover mmap z (locked ram (mapOf ram mmap mmapSize z)) (mmapSize / z).toNat p

/-- The bit of a page of the buffer after the first call of
`readEFIMemoryMap`. -/
theorem marked_readEFIMemoryMap {ram : ByteMemory} {mmap mmapSize z : UInt64} {s s' : Machine}
    (hboot : AtBoot ram mmap mmapSize z s)
    (h : readEFIMemoryMap mmap mmapSize z s = some s') {p : Nat} (hp : p < s'.bits) :
    s'.marked p = true ↔ BootCover ram mmap mmapSize z p := by
  have hlock := locked_marks ram (mapOf ram mmap mmapSize z)
  have hpass := readEFIMemoryMap_stages hboot h
  rw [hpass.bits_eq] at hp
  have hreach := Nat.lt_of_lt_of_le hp (bits_le_reach _)
  rw [hlock.bits_eq] at hp
  have hreach' := Nat.lt_of_lt_of_le hp (bits_le_reach _)
  rw [BootCover]
  by_cases hres : PassCover mmap z (locked ram (mapOf ram mmap mmapSize z))
      (mmapSize / z).toNat p
  · simp only [hpass.marked_of_covered hreach hres, hres, or_true]
  · rw [hpass.marked_of_not_covered hreach hres]
    by_cases hcov : LockCover (mapOf ram mmap mmapSize z) p
    · simp only [hlock.marked_of_covered hreach' hcov, hcov, true_or]
    · rw [hlock.marked_of_not_covered hreach' hcov, marked_cleared ram _ hp]
      simp only [hcov, hres, or_self, Bool.false_eq_true]

/-! ## The descriptor array and the bitmap -/

/-- The bytes of a descriptor lie in the array. -/
theorem inRange_array_of_desc {mmap mmapSize z a : UInt64} {i : Nat}
    (hz : EfiMemoryDescriptor.size ≤ z.toNat) (hi : i < (mmapSize / z).toNat)
    (ha : InRange (descAt mmap z i) EfiMemoryDescriptor.size a) :
    ∃ k, i * z.toNat ≤ k ∧ k < mmapSize.toNat ∧ a = mmap + UInt64.ofNat k := by
  have hsize := mmapSize.toNat_lt
  have hmul : (i + 1) * z.toNat ≤ mmapSize.toNat := by
    rw [UInt64.toNat_div] at hi
    calc (i + 1) * z.toNat ≤ mmapSize.toNat / z.toNat * z.toNat := Nat.mul_le_mul_right _ hi
      _ ≤ mmapSize.toNat := Nat.div_mul_le_self _ _
  have haddr : descAt mmap z i = mmap + UInt64.ofNat (i * z.toNat) := by
    rw [descAt, UInt64.ofNat_mul, UInt64.ofNat_toNat]
  rw [haddr] at ha
  obtain ⟨k, hk, _, rfl⟩ := exists_offset_of_inRange ha
  rw [add_ofNat_add_ofNat]
  rw [Nat.succ_mul] at hmul
  exact ⟨i * z.toNat + k, by omega, by omega, rfl⟩

/-- A descriptor depends on its own bytes only. -/
theorem read_congr {ram ram' : ByteMemory} {desc : UInt64}
    (h : ∀ a, InRange desc EfiMemoryDescriptor.size a → ram'.bytes a = ram.bytes a) :
    EfiMemoryDescriptor.read ram' desc = EfiMemoryDescriptor.read ram desc := by
  have hfield : ∀ (off len : Nat), off + len ≤ EfiMemoryDescriptor.size →
      ∀ a, InRange (desc + UInt64.ofNat off) len a → ram'.bytes a = ram.bytes a :=
    fun off len hle a ha => h a (inRange_of_offset hle (by decide) ha)
  have htype := read32_congr (a := desc) fun a ha => h a (inRange_mono ha (by decide))
  have hphys := read64_congr (hfield 8 8 (by decide))
  have hnum := read64_congr (hfield 24 8 (by decide))
  unfold EfiMemoryDescriptor.read
  rw [htype, show (8 : UInt64) = UInt64.ofNat 8 from rfl, hphys,
    show (24 : UInt64) = UInt64.ofNat 24 from rfl, hnum]

/-- The bitmap functions store to no byte of the descriptor array. -/
def ArrayApart (mmap mmapSize : UInt64) (ds : List EfiMemoryDescriptor) : Prop :=
  Disjoint mmap mmapSize.toNat (bitmapBase ds) ((bitmapSize ds).toNat + 1)

/-- Apart from the array, the map reads the same before every round of the
reserve pass. -/
theorem read_of_arrayApart {ram t : ByteMemory} {mmap mmapSize z : UInt64}
    {ds : List EfiMemoryDescriptor} {i : Nat}
    (hz : EfiMemoryDescriptor.size ≤ z.toNat) (hapart : ArrayApart mmap mmapSize ds)
    (hi : i < (mmapSize / z).toNat)
    (ht : ∀ a, ¬ InRange (bitmapBase ds) ((bitmapSize ds).toNat + 1) a →
      t.bytes a = ram.bytes a) :
    EfiMemoryDescriptor.read t (descAt mmap z i) =
      EfiMemoryDescriptor.read ram (descAt mmap z i) := by
  refine read_congr fun a ha => ht a (hapart a ?_)
  obtain ⟨k, _, hk, rfl⟩ := inRange_array_of_desc hz hi ha
  have := mmapSize.toNat_lt
  exact (inRange_add_ofNat (by omega)).mpr hk

/-- The memory of `locked` is the initial one outside the bitmap. -/
theorem bytes_locked (ram : ByteMemory) (ds : List EfiMemoryDescriptor) {a : UInt64}
    (ha : ¬ InRange (bitmapBase ds) ((bitmapSize ds).toNat + 1) a) :
    (locked ram ds).ram.bytes a = ram.bytes a := by
  rw [(locked_marks ram ds).bytes a ha]
  exact bytes_fill_of_not_inRange ram 0 fun h => ha (inRange_mono h (Nat.le_succ _))

/-- Apart from the array, the reserve pass visits the pages of the regions of
the map. -/
theorem passCover_of_arrayApart {ram : ByteMemory} {mmap mmapSize z : UInt64}
    (hz : EfiMemoryDescriptor.size ≤ z.toNat)
    (hapart : ArrayApart mmap mmapSize (mapOf ram mmap mmapSize z)) (q : Nat) :
    PassCover mmap z (locked ram (mapOf ram mmap mmapSize z)) (mmapSize / z).toNat q ↔
      ReserveCover (mapOf ram mmap mmapSize z) q := by
  have hmap : descriptors (locked ram (mapOf ram mmap mmapSize z)).ram mmap z
      (mmapSize / z).toNat = mapOf ram mmap mmapSize z := by
    refine List.map_congr_left fun i hi => ?_
    exact read_of_arrayApart hz hapart (List.mem_range.mp hi) fun a ha => bytes_locked ram _ ha
  rw [passCover_of_stable, hmap]
  intro i _ hi t ht
  refine read_of_arrayApart hz hapart hi fun a ha => ht a ?_
  rw [(locked_marks ram _).memBitMap]
  exact ha

/-- The first call of `readEFIMemoryMap`, with the map apart from the bitmap:
it returns, with the pages of the bitmap locked and the pages of the reserved
regions reserved. -/
theorem readEFIMemoryMap_spec {ram : ByteMemory} {mmap mmapSize z : UInt64} {s : Machine}
    (hboot : AtBoot ram mmap mmapSize z s) (hz : EfiMemoryDescriptor.size ≤ z.toNat)
    (htypes : ∀ d ∈ mapOf ram mmap mmapSize z, d.type ≤ 15)
    (hapart : ArrayApart mmap mmapSize (mapOf ram mmap mmapSize z)) :
    ∃ s', readEFIMemoryMap mmap mmapSize z s = some s' ∧
      Marks true MemDesc.reserve (ReserveCover (mapOf ram mmap mmapSize z))
        (locked ram (mapOf ram mmap mmapSize z)) s' := by
  obtain ⟨s', hs', hmarks⟩ := reservePass_marks mmap (mmapSize / z) z
    (locked ram (mapOf ram mmap mmapSize z))
  refine ⟨s', ?_, hmarks.congr fun q => (passCover_of_arrayApart hz hapart q).symm⟩
  rw [readEFIMemoryMap_eq hboot (ne_zero_of_size_le hz) htypes, hs']

end Machine

end BbnOS
