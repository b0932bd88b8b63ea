import BbnOS.Mem.Init
import BbnOS.Paging.Mapping

/-!
# The address space of the kernel

`kmain` builds its page tables with two loops, one over the memory and one
over the framebuffer.  Both map every page to itself, and both are
`mapIdentity`, with a bound that is computed anew before every round.  What
`kmain` prints, and the tables of segments and interrupts, are left out.

`mapIdentity_eq` says that such a loop is a fixed sequence of calls as long as
its bound stays the same.  With the refinement of the builder it follows that
the address space is the identity (`kmain_identity`).
-/

namespace BbnOS

open ByteMemory Loop

/-- The fields of `BootInfo` and of its framebuffer that the set-up reads. -/
structure BootInfo where
  baseAddress : UInt64
  bufferSize : UInt64
  mmap : UInt64
  mmapSize : UInt64
  mmapDescSize : UInt64

namespace Machine

/-! ## `kmain` up to the load of `cr3` -/

/-- The memory size as `kmain` asks for it.  A division by zero traps. -/
def totalMem (info : BootInfo) (s : Machine) : Option (UInt64 × Machine) :=
  if info.mmapDescSize = 0 then none
  else getMemSize info.mmap (info.mmapSize / info.mmapDescSize) info.mmapDescSize s

/-- The test `t < bound()` of the loops, on the pair of `t` and the machine. -/
def inBound (bound : Machine → Option (UInt64 × Machine)) (ts : UInt64 × Machine) :
    Option (Bool × UInt64 × Machine) :=
  (bound ts.2).map fun ms => (decide (ts.1 < ms.1), ts.1, ms.2)

/-- A round of the loops: `pageTableManagerMapMemory(ptm, t, t)` and
`t += 0x1000`. -/
def mapToSelf (ptm : PageTableManager) (ts : UInt64 × Machine) : UInt64 × Machine :=
  (ts.1 + 0x1000, pageTableManagerMapMemory ptm ts.1 ts.1 ts.2)

/-- `for (t = start; t < bound(); t += 0x1000)` with such rounds. -/
def mapIdentity (bound : Machine → Option (UInt64 × Machine)) (ptm : PageTableManager)
    (fuel : Nat) (start : UInt64) (s : Machine) : Option (UInt64 × Machine) :=
  whileFuel (inBound bound) (fun ts => some (mapToSelf ptm ts)) fuel (start, s)

/-- The PML4, a requested page that is cleared. -/
def makePml4 (s : Machine) : UInt64 × Machine :=
  let (pml4, s) := s.requestPage
  (pml4, memset pml4 0 0x1000 s)

/-- `kmain` from the request of the PML4 to the load of `cr3`, with the value
loaded. -/
def setUpPaging (fuel : Nat) (info : BootInfo) (s : Machine) : Option (UInt64 × Machine) := do
  let (pml4, s) := s.makePml4
  let ptm := initPageTableManager pml4
  let (_, s) ← mapIdentity (totalMem info) ptm fuel 0 s
  let fbBase := info.baseAddress
  let fbSize := info.bufferSize + 0x1000
  let s := s.lockPages fbBase (fbSize / 0x1000 + 1)
  let (_, s) ← mapIdentity (fun s => some (fbBase + fbSize, s)) ptm fuel fbBase s
  return (pml4, s)

/-- `kmain` from its first call of `getMemSize` to the set-up of the paging. -/
def setUpMemory (info : BootInfo) (kernelStart kernelEnd : UInt64) (s : Machine) :
    Option Machine := do
  let (_, s) ← totalMem info s
  let s ← readEFIMemoryMap info.mmap info.mmapSize info.mmapDescSize s
  let kernelSize := kernelEnd - kernelStart
  let kernelPages := kernelSize / 4096 + 1
  return s.lockPages kernelStart kernelPages

/-- `kmain` from its first call of `getMemSize` to the load of `cr3`. -/
def kmain (fuel : Nat) (info : BootInfo) (kernelStart kernelEnd : UInt64) (s : Machine) :
    Option (UInt64 × Machine) := do
  let s ← setUpMemory info kernelStart kernelEnd s
  setUpPaging fuel info s

/-! ## The loops as sequences of calls -/

/-- The calls of `n` rounds from `start` on. -/
def identityMaps (start : UInt64) : Nat → List (UInt64 × UInt64)
  | 0 => []
  | n + 1 => (start, start) :: identityMaps (start + 0x1000) n

/-- The number of pages from `start` to `stop`, the last one counted also when
it is not full. -/
def rounds (start stop : UInt64) : Nat := (stop.toNat - start.toNat + 4095) / 4096

theorem add_page_toNat {t : UInt64} (h : t.toNat + 0x1000 < 2 ^ 64) :
    (t + 0x1000).toNat = t.toNat + 4096 := by
  rw [UInt64.toNat_add]
  exact Nat.mod_eq_of_lt h

theorem mem_identityMaps {start : UInt64} {n : Nat} (h : start.toNat + n * 4096 < 2 ^ 64)
    {vp : UInt64 × UInt64} :
    vp ∈ identityMaps start n ↔
      ∃ i < n, vp.1.toNat = start.toNat + i * 4096 ∧ vp.2 = vp.1 := by
  induction n generalizing start with
  | zero => simp [identityMaps]
  | succ n ih =>
    have hnext := add_page_toNat (t := start) (by omega)
    rw [identityMaps, List.mem_cons, ih (by omega), hnext]
    constructor
    · rintro (rfl | ⟨i, hi, h₁, h₂⟩)
      · exact ⟨0, by omega, by simp, rfl⟩
      · exact ⟨i + 1, by omega, by omega, h₂⟩
    · rintro ⟨i, hi, h₁, h₂⟩
      rcases Nat.eq_zero_or_pos i with rfl | hpos
      · have hstart : vp.1 = start := UInt64.toNat_inj.mp (by omega)
        exact Or.inl (Prod.ext hstart (h₂.trans hstart))
      · exact Or.inr ⟨i - 1, by omega, by omega, h₂⟩

/-- The rounds of a loop reach every page up to `stop`, and no further. -/
theorem mem_identityMaps_rounds {start stop : UInt64} (h : stop.toNat ≤ 2 ^ 48)
    {vp : UInt64 × UInt64} :
    vp ∈ identityMaps start (rounds start stop) ↔
      ∃ i, vp.1.toNat = start.toNat + i * 4096 ∧ vp.1.toNat < stop.toNat ∧ vp.2 = vp.1 := by
  rcases Nat.lt_or_ge start.toNat stop.toNat with hlt | hge
  · have hbound : start.toNat + rounds start stop * 4096 < 2 ^ 64 := by
      unfold rounds
      omega
    rw [mem_identityMaps hbound]
    unfold rounds
    constructor
    · rintro ⟨i, hi, h₁, h₂⟩
      exact ⟨i, h₁, by omega, h₂⟩
    · rintro ⟨i, h₁, h₂, h₃⟩
      exact ⟨i, by omega, h₁, h₃⟩
  · have hzero : rounds start stop = 0 := by
      unfold rounds
      omega
    rw [hzero, identityMaps]
    constructor
    · intro hmem
      exact absurd hmem List.not_mem_nil
    · rintro ⟨i, h₁, h₂, _⟩
      omega

theorem mapAll_cons (ptm : PageTableManager) (vp : UInt64 × UInt64)
    (maps : List (UInt64 × UInt64)) (s : Machine) :
    mapAll ptm (vp :: maps) s = mapAll ptm maps (pageTableManagerMapMemory ptm vp.1 vp.2 s) := rfl

section Loop

variable {bound : Machine → Option (UInt64 × Machine)} {ptm : PageTableManager} {stop : UInt64}

/-- What holds before a round: the bound is `stop` and stays so, and the calls
of the `k` rounds that are left lead to the machine `last`. -/
def RoundsLeft (bound : Machine → Option (UInt64 × Machine)) (ptm : PageTableManager)
    (stop : UInt64) (last : Machine) (k : Nat) (ts : UInt64 × Machine) : Prop :=
  k = rounds ts.1 stop ∧ ∃ u, bound ts.2 = some (stop, u) ∧
    (ts.1 < stop → ∀ u', Grows u u' → bound u' = some (stop, u')) ∧
    mapAll ptm (identityMaps ts.1 k) u = last

theorem roundsLeft_step (hstop : stop.toNat ≤ 2 ^ 48) {last : Machine} (k : Nat)
    (ts : UInt64 × Machine) (h : RoundsLeft bound ptm stop last k ts) :
    (∃ ts', inBound bound ts = some (false, ts') ∧ ts'.2 = last) ∨
    (∃ j ts' ts'', k = j + 1 ∧ inBound bound ts = some (true, ts') ∧
      some (mapToSelf ptm ts') = some ts'' ∧ RoundsLeft bound ptm stop last j ts'') := by
  obtain ⟨t, v⟩ := ts
  obtain ⟨rfl, u, hu, hlater, hlast⟩ := h
  have htest : inBound bound (t, v) = some (decide (t < stop), t, u) := by
    rw [inBound, hu]
    rfl
  by_cases hlt : t < stop
  · have htn := UInt64.lt_iff_toNat_lt.mp hlt
    have hnext := add_page_toNat (t := t) (by omega)
    have hcount : rounds t stop = rounds (t + 0x1000) stop + 1 := by
      unfold rounds
      omega
    have hgrows := pageTableManagerMapMemory_grows ptm t t u
    refine Or.inr ⟨_, (t, u), mapToSelf ptm (t, u), hcount, ?_, rfl, rfl, _,
      hlater hlt _ hgrows, ?_, ?_⟩
    · rw [htest, decide_eq_true hlt]
    · exact fun _ u' hu' => hlater hlt u' (hgrows.trans hu')
    · rw [hcount, identityMaps, mapAll_cons] at hlast
      exact hlast
  · have hzero : rounds t stop = 0 := by
      have htn := UInt64.le_iff_toNat_le.mp (UInt64.not_lt.mp hlt)
      unfold rounds
      omega
    refine Or.inl ⟨(t, u), ?_, ?_⟩
    · rw [htest, decide_eq_false hlt]
    · rw [hzero] at hlast
      exact hlast

/-- A loop whose bound stays the same is the sequence of its calls. -/
theorem mapIdentity_eq (ptm : PageTableManager) (start : UInt64) {s s₀ : Machine}
    (hstop : stop.toNat ≤ 2 ^ 48) (hbound : bound s = some (stop, s₀))
    (hagain : start < stop → ∀ u, Grows s₀ u → bound u = some (stop, u)) :
    ∃ t, ∀ fuel, rounds start stop < fuel → mapIdentity bound ptm fuel start s =
      some (t, mapAll ptm (identityMaps start (rounds start stop)) s₀) := by
  obtain ⟨⟨t, s'⟩, hs', hrun⟩ := whileFuel_total _ _ (roundsLeft_step hstop) _ (start, s)
    ⟨rfl, s₀, hbound, hagain, rfl⟩
  refine ⟨t, fun fuel hfuel => ?_⟩
  rw [mapIdentity, hrun fuel hfuel, ← hs']

end Loop

/-! ## The walk of an identity mapping -/

/-- The physical address of a virtual one, by the walk of the processor. -/
def physAddr (ram : ByteMemory) (pml4 a : UInt64) : Option UInt64 :=
  (translate ram pml4 a).map fun e => e.target + a % 4096

/-- Calls that map pages of the 48-bit address space to themselves. -/
def Identity (maps : List (UInt64 × UInt64)) : Prop :=
  ∀ vp ∈ maps, vp.2 = vp.1 ∧ vp.1.toNat < 2 ^ 48

theorem lastMap_some {maps : List (UInt64 × UInt64)} {a : UInt64} {vp : UInt64 × UInt64}
    (h : lastMap maps a = some vp) : vp ∈ maps ∧ pageKey vp.1 = pageKey a := by
  refine ⟨List.mem_reverse.mp (List.mem_of_find?_eq_some h), ?_⟩
  simpa using List.find?_some h

theorem lastMap_isSome {maps : List (UInt64 × UInt64)} {a : UInt64} {vp : UInt64 × UInt64}
    (hmem : vp ∈ maps) (hkey : pageKey vp.1 = pageKey a) : ∃ vp', lastMap maps a = some vp' := by
  refine Option.isSome_iff_exists.mp (List.find?_isSome.mpr ⟨vp, List.mem_reverse.mpr hmem, ?_⟩)
  simpa using hkey

/-- An entry for the page of a 48-bit address leads to this address. -/
theorem MapsTo.target_add {e : PageDirEntry} {v a : UInt64} (h : MapsTo e v)
    (hv : v.toNat < 2 ^ 48) (hkey : pageKey v = pageKey a) :
    (e.target + a % 4096).toNat = a.toNat % 2 ^ 48 := by
  have htarget : e.target.toNat = v.toNat / 4096 * 4096 := by
    rw [target_eq, h.address, frameAddr_toNat, frameOf_toNat]
  have hoff : (a % 4096).toNat = a.toNat % 4096 := UInt64.toNat_mod a 4096
  unfold pageKey at hkey
  rw [UInt64.toNat_add, htarget, hoff]
  omega

/-- Under an identity mapping an address translates to its low 48 bits. -/
theorem physAddr_of_identity {ram : ByteMemory} {pml4 a b : UInt64}
    {maps : List (UInt64 × UInt64)} (hmaps : Identity maps)
    (hwalk : WalkFinds ram pml4 a (lastMap maps a)) (hb : physAddr ram pml4 a = some b) :
    b.toNat = a.toNat % 2 ^ 48 := by
  rw [physAddr, Option.map_eq_some_iff] at hb
  obtain ⟨e, he, rfl⟩ := hb
  rcases hlast : lastMap maps a with _ | vp <;> rw [hlast] at hwalk
  · rw [hwalk] at he
    cases he
  · obtain ⟨hmem, hkey⟩ := lastMap_some hlast
    obtain ⟨e', he', hto⟩ := hwalk
    rw [he] at he'
    injection he' with heq
    subst heq
    rw [(hmaps vp hmem).1] at hto
    exact hto.target_add (hmaps vp hmem).2 hkey

/-- An address whose page is mapped translates to itself. -/
theorem physAddr_eq_self {ram : ByteMemory} {pml4 a : UInt64} {maps : List (UInt64 × UInt64)}
    (hmaps : Identity maps) (hwalk : WalkFinds ram pml4 a (lastMap maps a))
    (ha : a.toNat < 2 ^ 48) {vp : UInt64 × UInt64} (hmem : vp ∈ maps)
    (hkey : pageKey vp.1 = pageKey a) : physAddr ram pml4 a = some a := by
  obtain ⟨vp', hlast⟩ := lastMap_isSome hmem hkey
  have hsome : ∃ b, physAddr ram pml4 a = some b := by
    rw [hlast] at hwalk
    obtain ⟨e, he, _⟩ := hwalk
    exact ⟨_, by rw [physAddr, he]; rfl⟩
  obtain ⟨b, hb⟩ := hsome
  have hself := physAddr_of_identity hmaps hwalk hb
  rw [Nat.mod_eq_of_lt ha] at hself
  rw [hb, UInt64.toNat_inj.mp hself]

/-! ## The state after the loops -/

theorem getMemSize_some {mmap n z memSize : UInt64} {s s' : Machine}
    (h : getMemSize mmap n z s = some (memSize, s')) : s' = s.withSize memSize := by
  unfold getMemSize at h
  split at h
  · injection h with h
    injection h with hsize hs
    subst hsize hs
    rfl
  · rw [Option.map_eq_some_iff] at h
    obtain ⟨t, ht, heq⟩ := h
    injection heq with hsize hs
    subst hsize hs
    rw [(addPass_eq ht).2]
    rfl

theorem totalMem_some {info : BootInfo} {memSize : UInt64} {s s' : Machine}
    (h : totalMem info s = some (memSize, s')) : s' = s.withSize memSize := by
  unfold totalMem at h
  split at h
  · cases h
  · exact getMemSize_some h

/-- Once it is not zero, the memory size is not added up again. -/
theorem totalMem_again {info : BootInfo} {memSize : UInt64} {s s' u : Machine}
    (h : totalMem info s = some (memSize, s')) (hpos : 0 < memSize)
    (hu : u.memInfo.memSizeBytes = memSize) : totalMem info u = some (memSize, u) := by
  unfold totalMem at h ⊢
  split at h
  · cases h
  · rename_i hz
    rw [if_neg hz, getMemSize, if_pos (by rw [hu]; exact hpos), hu]

theorem lockPages_grows (addr numPages : UInt64) (s : Machine) :
    Grows s (s.lockPages addr numPages) := by
  have hmarks := lockPages_marks addr numPages s
  refine ⟨hmarks.memBitMap, hmarks.field_keep MemDesc.memSizeBytes_lock, ?_⟩
  rw [hmarks.requested]

/-- The calls of the first loop. -/
def memMaps (memSize : UInt64) : List (UInt64 × UInt64) := identityMaps 0 (rounds 0 memSize)

/-- The calls of the second loop. -/
def fbMaps (info : BootInfo) : List (UInt64 × UInt64) :=
  identityMaps info.baseAddress
    (rounds info.baseAddress (info.baseAddress + (info.bufferSize + 0x1000)))

/-- The state between the loops, with the framebuffer locked. -/
def fbLocked (info : BootInfo) (memSize pml4 : UInt64) (s : Machine) : Machine :=
  (mapAll { pml4 := pml4 } (memMaps memSize) s).lockPages info.baseAddress
    ((info.bufferSize + 0x1000) / 0x1000 + 1)

/-- The state after the loops. -/
def identityMapped (info : BootInfo) (memSize pml4 : UInt64) (s : Machine) : Machine :=
  mapAll { pml4 := pml4 } (fbMaps info) (fbLocked info memSize pml4 s)

section SetUp

variable {info : BootInfo} {memSize : UInt64} {s s₁ : Machine}

/-- The framebuffer with its slack page ends below 2^48. -/
def FbBelow (info : BootInfo) : Prop :=
  info.baseAddress.toNat + info.bufferSize.toNat + 0x1000 ≤ 2 ^ 48

instance (info : BootInfo) : Decidable (FbBelow info) := inferInstanceAs (Decidable (_ ≤ _))

theorem FbBelow.fbSize_toNat (h : FbBelow info) :
    (info.bufferSize + 0x1000).toNat = info.bufferSize.toNat + 4096 := by
  unfold FbBelow at h
  exact add_page_toNat (by omega)

theorem FbBelow.fbEnd_toNat (h : FbBelow info) :
    (info.baseAddress + (info.bufferSize + 0x1000)).toNat =
      info.baseAddress.toNat + info.bufferSize.toNat + 4096 := by
  rw [UInt64.toNat_add, h.fbSize_toNat]
  unfold FbBelow at h
  omega

theorem FbBelow.fbEnd_le (h : FbBelow info) :
    (info.baseAddress + (info.bufferSize + 0x1000)).toNat ≤ 2 ^ 48 := by
  rw [h.fbEnd_toNat]
  exact h

/-- The set-up returns, with the calls of the two loops made. -/
theorem setUpPaging_eq (hsize : totalMem info s.makePml4.2 = some (memSize, s₁))
    (hmem : memSize.toNat ≤ 2 ^ 48) (hfb : FbBelow info) {fuel : Nat} (hfuel : 2 ^ 36 < fuel) :
    setUpPaging fuel info s =
      some (s.makePml4.1, identityMapped info memSize s.makePml4.1 s₁) := by
  have hfew : ∀ start stop : UInt64, stop.toNat ≤ 2 ^ 48 → rounds start stop < fuel := by
    intro start stop hstop
    unfold rounds
    omega
  have hend := hfb.fbEnd_le
  have hagain : 0 < memSize → ∀ u, Grows s₁ u → totalMem info u = some (memSize, u) := by
    intro hpos u hu
    refine totalMem_again hsize hpos ?_
    rw [hu.memSizeBytes, totalMem_some hsize]
    rfl
  obtain ⟨t₁, hloop₁⟩ := mapIdentity_eq { pml4 := s.makePml4.1 } 0 hmem hsize hagain
  have hbound : (fun u : Machine => some (info.baseAddress + (info.bufferSize + 0x1000), u))
      (fbLocked info memSize s.makePml4.1 s₁) =
      some (info.baseAddress + (info.bufferSize + 0x1000),
        fbLocked info memSize s.makePml4.1 s₁) := rfl
  obtain ⟨t₂, hloop₂⟩ := mapIdentity_eq { pml4 := s.makePml4.1 } info.baseAddress hend hbound
    fun _ _ _ => rfl
  unfold setUpPaging
  simp only [initPageTableManager, hloop₁ fuel (hfew _ _ hmem), Option.bind_eq_bind,
    Option.bind_some]
  have hrun := hloop₂ fuel (hfew _ _ hend)
  rw [fbLocked, memMaps] at hrun
  rw [hrun, Option.bind_some]
  rfl

/-! ### What the tables map -/

theorem identity_memMaps (hmem : memSize.toNat ≤ 2 ^ 48) : Identity (memMaps memSize) := by
  intro vp hvp
  obtain ⟨i, _, hlt, hself⟩ := (mem_identityMaps_rounds hmem).mp hvp
  exact ⟨hself, by omega⟩

theorem identity_fbMaps (hfb : FbBelow info) : Identity (fbMaps info) := by
  have hend := hfb.fbEnd_le
  intro vp hvp
  obtain ⟨i, _, hlt, hself⟩ := (mem_identityMaps_rounds hend).mp hvp
  exact ⟨hself, by omega⟩

/-- The pages of the first loop. -/
theorem exists_mem_memMaps_iff (hmem : memSize.toNat ≤ 2 ^ 48) {k : Nat} :
    (∃ vp ∈ memMaps memSize, pageKey vp.1 = k) ↔ 4096 * k < memSize.toNat := by
  constructor
  · rintro ⟨vp, hvp, rfl⟩
    obtain ⟨i, hi, hlt, _⟩ := (mem_identityMaps_rounds hmem).mp hvp
    rw [show (0 : UInt64).toNat = 0 from rfl] at hi
    unfold pageKey
    omega
  · intro hk
    have hv : (UInt64.ofNat (4096 * k)).toNat = 4096 * k := ofNat_toNat_of_lt (by omega)
    refine ⟨(UInt64.ofNat (4096 * k), UInt64.ofNat (4096 * k)),
      (mem_identityMaps_rounds hmem).mpr ⟨k, ?_, ?_, rfl⟩, ?_⟩
    · rw [hv, Nat.mul_comm]
      exact (Nat.zero_add _).symm
    · rw [hv]
      exact hk
    · rw [pageKey, hv]
      omega

/-- The first loop maps the page of every address below the memory size. -/
theorem exists_mem_memMaps (hmem : memSize.toNat ≤ 2 ^ 48) {a : UInt64} (ha : a < memSize) :
    ∃ vp ∈ memMaps memSize, pageKey vp.1 = pageKey a := by
  have hlt := UInt64.lt_iff_toNat_lt.mp ha
  refine (exists_mem_memMaps_iff hmem).mpr ?_
  unfold pageKey
  omega

/-- An address of the framebuffer, as a number. -/
theorem FbBelow.toNat_bounds (hfb : FbBelow info) {a : UInt64}
    (ha : InRange info.baseAddress info.bufferSize.toNat a) :
    info.baseAddress.toNat ≤ a.toNat ∧
      a.toNat < info.baseAddress.toNat + info.bufferSize.toNat := by
  obtain ⟨k, hk, hk', rfl⟩ := exists_offset_of_inRange ha
  unfold FbBelow at hfb
  rw [toNat_add_ofNat, Nat.mod_eq_of_lt (by omega)]
  omega

/-- The pages of the second loop. -/
theorem exists_mem_fbMaps_iff (hfb : FbBelow info) {k : Nat} :
    (∃ vp ∈ fbMaps info, pageKey vp.1 = k) ↔ pageOf info.baseAddress ≤ k ∧
      4096 * (k - pageOf info.baseAddress) < info.bufferSize.toNat + 4096 := by
  have hend := hfb.fbEnd_toNat
  have hle := hfb.fbEnd_le
  rw [pageOf_eq]
  constructor
  · rintro ⟨vp, hvp, rfl⟩
    obtain ⟨i, hi, hlt, _⟩ := (mem_identityMaps_rounds hle).mp hvp
    unfold pageKey
    omega
  · rintro ⟨hlo, hhi⟩
    -- the round that steps into page `k`
    obtain ⟨i, rfl⟩ := Nat.exists_eq_add_of_le hlo
    have hv : (UInt64.ofNat (info.baseAddress.toNat + i * 4096)).toNat =
        info.baseAddress.toNat + i * 4096 := ofNat_toNat_of_lt (by omega)
    refine ⟨(UInt64.ofNat (info.baseAddress.toNat + i * 4096),
      UInt64.ofNat (info.baseAddress.toNat + i * 4096)),
      (mem_identityMaps_rounds hle).mpr ⟨i, hv, ?_, rfl⟩, ?_⟩
    · rw [hv, hend]
      omega
    · rw [pageKey, hv]
      omega

/-- The second loop maps the page of every address of the framebuffer: the
slack page makes up for a base in the middle of a page. -/
theorem exists_mem_fbMaps (hfb : FbBelow info) {a : UInt64}
    (ha : InRange info.baseAddress info.bufferSize.toNat a) :
    ∃ vp ∈ fbMaps info, pageKey vp.1 = pageKey a := by
  obtain ⟨hlo, hhi⟩ := hfb.toNat_bounds ha
  have hend := hfb.fbEnd_toNat
  have hle := hfb.fbEnd_le
  rw [exists_mem_fbMaps_iff hfb, pageOf_eq]
  unfold pageKey
  omega

/-- The locked range holds every page of the framebuffer. -/
theorem covers_fb (hfb : FbBelow info) {a : UInt64}
    (ha : InRange info.baseAddress info.bufferSize.toNat a) :
    Covers info.baseAddress ((info.bufferSize + 0x1000) / 0x1000 + 1).toNat (pageOf a) := by
  obtain ⟨hlo, hhi⟩ := hfb.toNat_bounds ha
  have hpages : ((info.bufferSize + 0x1000) / 0x1000 + 1).toNat =
      (info.bufferSize.toNat + 4096) / 4096 + 1 := by
    rw [UInt64.toNat_add, UInt64.toNat_div, hfb.fbSize_toNat]
    unfold FbBelow at hfb
    simp only [UInt64.reduceToNat]
    omega
  unfold FbBelow at hfb
  rw [covers_iff_of_le _ (by rw [pageOf_eq, hpages]; omega), pageOf_eq, pageOf_eq, hpages]
  omega

/-! ### The tables -/

theorem requested_makePml4 (s : Machine) :
    s.makePml4.2.requested = s.requested ++ [s.makePml4.1] :=
  requested_requestPage s

theorem makePml4_aligned (s : Machine) : s.makePml4.1.toNat % 4096 = 0 :=
  requestPage_aligned s

theorem bytes_makePml4 {a : UInt64} (ha : InRange s.makePml4.1 4096 a) :
    s.makePml4.2.ram.bytes a = 0 :=
  bytes_fill_of_inRange _ _ ha

theorem framesSince_eq_cons {s s₁ s' : Machine} {f : UInt64}
    (h : s₁.requested = s.requested ++ [f]) (hpre : s₁.requested <+: s'.requested) :
    framesSince s.requested.length s' = f :: framesSince s₁.requested.length s' := by
  obtain ⟨l, hl⟩ := hpre
  rw [framesSince, framesSince, ← hl, List.drop_left, h, List.append_assoc, List.drop_left]
  rfl

/-- The two loops build the tables of their calls, and the lock of the
framebuffer stays. -/
theorem identityMapped_built (hsize : totalMem info s.makePml4.2 = some (memSize, s₁))
    (hfresh : Fresh
      (framesSince s.requested.length (identityMapped info memSize s.makePml4.1 s₁))
      (identityMapped info memSize s.makePml4.1 s₁)) :
    Built s.makePml4.1 s₁.requested.length (memMaps memSize ++ fbMaps info)
      (identityMapped info memSize s.makePml4.1 s₁) ∧
    ∀ p, p < (identityMapped info memSize s.makePml4.1 s₁).bits →
      Covers info.baseAddress ((info.bufferSize + 0x1000) / 0x1000 + 1).toNat p →
      (identityMapped info memSize s.makePml4.1 s₁).marked p = true := by
  have hs₁ := totalMem_some hsize
  have haligned := makePml4_aligned s
  -- the three stages after the PML4
  let u := mapAll { pml4 := s.makePml4.1 } (memMaps memSize) s₁
  have hgrows₁ : Grows s₁ u := mapAll_grows _ _ _
  have hlock : Marks true MemDesc.lock _ u (fbLocked info memSize s.makePml4.1 s₁) :=
    lockPages_marks info.baseAddress ((info.bufferSize + 0x1000) / 0x1000 + 1) u
  have hgrows₂ : Grows u (fbLocked info memSize s.makePml4.1 s₁) := lockPages_grows _ _ _
  have hgrows₃ : Grows (fbLocked info memSize s.makePml4.1 s₁)
      (identityMapped info memSize s.makePml4.1 s₁) := mapAll_grows _ _ _
  have hrequested : s₁.requested = s.requested ++ [s.makePml4.1] := by
    rw [hs₁]
    exact requested_makePml4 s
  rw [framesSince_eq_cons hrequested
    (hgrows₁.trans (hgrows₂.trans hgrows₃)).requested] at hfresh
  have hfresh₁ := Fresh.of_grows [s.makePml4.1] (hgrows₂.trans hgrows₃) hfresh
  have hstart : Built s.makePml4.1 s₁.requested.length [] s₁ := by
    refine built_of_zeroed haligned fun a ha => ?_
    rw [hs₁]
    exact bytes_makePml4 ha
  have hbuilt₁ := (hstart.mapAll haligned (Nat.le_refl _) hfresh₁).1
  have hbuilt₂ := hbuilt₁.of_marks haligned hfresh₁ hlock
  have hbase : s₁.requested.length ≤ (fbLocked info memSize s.makePml4.1 s₁).requested.length :=
    (hgrows₁.trans hgrows₂).requested.length_le
  obtain ⟨hbuilt₃, hmarked⟩ := hbuilt₂.mapAll haligned hbase hfresh
  refine ⟨hbuilt₃, fun p hp hcov => hmarked p ?_ ?_⟩
  · exact lt_of_lt_of_eq hp hgrows₃.bits_eq
  · refine hlock.marked_of_covered (Nat.lt_of_lt_of_le ?_ (bits_le_reach _)) hcov
    exact lt_of_lt_of_eq hp (hgrows₂.trans hgrows₃).bits_eq

/-- The address space of the kernel is the identity.  With a memory size of at
most 2^48 and a framebuffer below 2^48, `kmain` loads `cr3`; and if every page
requested for the tables was fresh, then the memory and the framebuffer are
mapped to themselves, no address of the 48-bit address space is mapped to
another one, and the pages of the framebuffer are marked. -/
theorem kmain_identity {kernelStart kernelEnd : UInt64} {s₀ : Machine}
    (hmemory : setUpMemory info kernelStart kernelEnd s = some s₀)
    (hsize : totalMem info s₀.makePml4.2 = some (memSize, s₁))
    (hmem : memSize.toNat ≤ 2 ^ 48) (hfb : FbBelow info) :
    ∃ cr3 s',
      (∀ fuel, 2 ^ 36 < fuel →
        kmain fuel info kernelStart kernelEnd s = some (cr3, s')) ∧
      (Fresh (framesSince s₀.requested.length s') s' →
        (∀ a, a < memSize ∨ InRange info.baseAddress info.bufferSize.toNat a →
          physAddr s'.ram cr3 a = some a) ∧
        (∀ a b, physAddr s'.ram cr3 a = some b → b.toNat = a.toNat % 2 ^ 48) ∧
        (∀ a, InRange info.baseAddress info.bufferSize.toNat a → pageOf a < s'.bits →
          s'.marked (pageOf a) = true)) := by
  refine ⟨s₀.makePml4.1, identityMapped info memSize s₀.makePml4.1 s₁, fun fuel hfuel => ?_,
    fun hfresh => ?_⟩
  · rw [kmain, hmemory]
    exact setUpPaging_eq hsize hmem hfb hfuel
  obtain ⟨hbuilt, hmarked⟩ := identityMapped_built hsize hfresh
  have hidentity : Identity (memMaps memSize ++ fbMaps info) := by
    intro vp hvp
    rcases List.mem_append.mp hvp with hvp | hvp
    · exact identity_memMaps hmem vp hvp
    · exact identity_fbMaps hfb vp hvp
  refine ⟨?_, fun a b hb => physAddr_of_identity hidentity (hbuilt.walk a) hb,
    fun a ha hbits => hmarked _ hbits (covers_fb hfb ha)⟩
  rintro a (ha | ha)
  · obtain ⟨vp, hvp, hkey⟩ := exists_mem_memMaps hmem ha
    have hlt := UInt64.lt_iff_toNat_lt.mp ha
    exact physAddr_eq_self hidentity (hbuilt.walk a) (by omega)
      (List.mem_append_left _ hvp) hkey
  · obtain ⟨vp, hvp, hkey⟩ := exists_mem_fbMaps hfb ha
    have hlt := (hfb.toNat_bounds ha).2
    unfold FbBelow at hfb
    exact physAddr_eq_self hidentity (hbuilt.walk a) (by omega)
      (List.mem_append_right _ hvp) hkey

end SetUp

/-- A memory of one page, and a framebuffer that starts in the middle of page 5
and ends in page 6. -/
def sampleInfo : BootInfo where
  baseAddress := 0x5800
  bufferSize := 0x900
  mmap := 0x100000
  mmapSize := 48
  mmapDescSize := 48

/-- A map of one conventional page at 2 MiB, where the bitmap goes. -/
def sampleBoot : Machine :=
  boot (sampleRam [{ type := 7, physAddr := 0x200000, numPages := 1 }])

/-- The last page of the framebuffer is mapped, and marked. -/
theorem kmain_identity_sample :
    ∃ cr3 s', kmain (2 ^ 36 + 1) sampleInfo 0 0x10 sampleBoot = some (cr3, s') ∧
      physAddr s'.ram cr3 0x60ff = some 0x60ff ∧ s'.marked 6 = true := by
  have heval : ((setUpMemory sampleInfo 0 0x10 sampleBoot).bind fun s₀ =>
      (totalMem sampleInfo s₀.makePml4.2).map fun ms =>
        let s' := identityMapped sampleInfo ms.1 s₀.makePml4.1 ms.2
        (ms.1, framesSince s₀.requested.length s', s'.memInfo.memBitMap)) =
      some (0x1000, [0x1000, 0x2000, 0x3000, 0x4000], { size := 1, buffer := 0x200000 }) := by
    decide +kernel
  rw [Option.bind_eq_some_iff] at heval
  obtain ⟨s₀, hmemory, heval⟩ := heval
  rw [Option.map_eq_some_iff] at heval
  obtain ⟨⟨memSize, s₁⟩, hsize, heval⟩ := heval
  simp only [Prod.mk.injEq] at heval
  obtain ⟨rfl, hframes, hbitmap⟩ := heval
  obtain ⟨cr3, s', hrun, hidentity⟩ := kmain_identity hmemory hsize (by decide) (by decide)
  have hs' : some (cr3, s') = some (s₀.makePml4.1,
      identityMapped sampleInfo 0x1000 s₀.makePml4.1 s₁) := by
    rw [← hrun (2 ^ 36 + 1) (by decide), kmain, hmemory]
    exact setUpPaging_eq hsize (by decide) (by decide) (by decide)
  injection hs' with hs'
  injection hs' with hcr3 hs'
  have hfresh : Fresh (framesSince s₀.requested.length s') s' := by
    rw [hs', hframes]
    refine ⟨by decide, fun f hf => ?_⟩
    rw [hbitmap]
    have hbelow : ∀ f ∈ [(0x1000 : UInt64), 0x2000, 0x3000, 0x4000],
        f.toNat + 4096 ≤ (0x200000 : UInt64).toNat := by simp
    exact disjoint_of_toNat_le (hbelow f hf) (by decide)
  obtain ⟨hmapped, _, hmarked⟩ := hidentity hfresh
  refine ⟨cr3, s', hrun _ (by decide), hmapped _ (Or.inr (by decide)),
    hmarked 0x60ff (by decide) ?_⟩
  rw [bits, hs', hbitmap]
  decide

end Machine

end BbnOS
