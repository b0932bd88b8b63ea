import BbnOS.Mem.PageOps
import BbnOS.Paging.Frames

/-!
# The page-table builder

The tables of one builder are the frames that it has requested, and the PML4.
`Tables` is its invariant: the tables form a radix tree in which no frame is
used twice, and they are among these frames.  As long as the frames are fresh
(`Fresh`), one step of the descent keeps the invariant and changes no
translation (`getNextPageTable_spec`), and one call of
`pageTableManagerMapMemory` changes the translation of one page only
(`pageTableManagerMapMemory_spec`).

`mapMemory_refines` follows for every sequence of calls: the tables are the
finite map from pages to frames that the calls describe.
-/

namespace BbnOS

open ByteMemory RadixTable

namespace Machine

/-! ## What the builder does to the allocator -/

/-- The frames requested after the first `base` ones. -/
def framesSince (base : Nat) (s : Machine) : List UInt64 := s.requested.drop base

/-- The bitmap stays where it is, and requests are added to the history. -/
structure Grows (s s' : Machine) : Prop where
  memBitMap : s'.memInfo.memBitMap = s.memInfo.memBitMap
  memSizeBytes : s'.memInfo.memSizeBytes = s.memInfo.memSizeBytes
  requested : s.requested <+: s'.requested

theorem Grows.refl (s : Machine) : Grows s s := ⟨rfl, rfl, List.prefix_refl _⟩

theorem Grows.trans {s s' s'' : Machine} (h : Grows s s') (h' : Grows s' s'') : Grows s s'' :=
  ⟨h'.memBitMap.trans h.memBitMap, h'.memSizeBytes.trans h.memSizeBytes,
    h.requested.trans h'.requested⟩

theorem Grows.bits_eq {s s' : Machine} (h : Grows s s') : s'.bits = s.bits := by
  rw [bits, h.memBitMap]
  rfl

/-- A list of page frames, no two of which are the same and none of which
holds a byte that the bitmap functions may touch. -/
structure Fresh (fs : List UInt64) (s : Machine) : Prop where
  nodup : fs.Nodup
  apart : ∀ f ∈ fs, Disjoint f 4096 s.memInfo.memBitMap.buffer
    (s.memInfo.memBitMap.size.toNat + 1)

/-- The frames of an earlier state come first. -/
theorem framesSince_of_grows {s s' : Machine} (base : Nat) (h : Grows s s') :
    framesSince base s <+: framesSince base s' := by
  obtain ⟨l, hl⟩ := h.requested
  refine ⟨l.drop (base - s.requested.length), ?_⟩
  rw [framesSince, framesSince, ← hl, List.drop_append]

/-- The frames of an earlier state are fresh when those of a later one are. -/
theorem Fresh.of_grows {s s' : Machine} (fs : List UInt64) {base : Nat} (h : Grows s s')
    (hfresh : Fresh (fs ++ framesSince base s') s') : Fresh (fs ++ framesSince base s) s := by
  have hsub := (List.Sublist.refl fs).append (framesSince_of_grows base h).sublist
  refine ⟨hfresh.nodup.sublist hsub, fun f hf => ?_⟩
  rw [← h.memBitMap]
  exact hfresh.apart f (hsub.subset hf)

theorem bytes_requestPage {s : Machine} {a : UInt64} (ha : ¬ s.memInfo.memBitMap.touched a) :
    s.requestPage.2.ram.bytes a = s.ram.bytes a :=
  (requestPage_locks s).bytes a ha

theorem requestPage_grows (s : Machine) : Grows s s.requestPage.2 where
  memBitMap := (requestPage_locks s).memBitMap
  memSizeBytes := (requestPage_locks s).field_keep MemDesc.memSizeBytes_lock
  requested := ⟨_, (requested_requestPage s).symm⟩

/-- A request sets bits only. -/
theorem marked_requestPage {s : Machine} {p : Nat} (hp : p < s.bits) (hmark : s.marked p = true) :
    s.requestPage.2.marked p = true := by
  have hreach : p < s.reach := Nat.lt_of_lt_of_le hp s.bits_le_reach
  by_cases hcov : ∃ q, s.firstClear = some q ∧ p = pageOf (UInt64.ofNat q * 4096)
  · exact (requestPage_locks s).marked_of_covered hreach hcov
  · exact ((requestPage_locks s).marked_of_not_covered hreach hcov).trans hmark

/-- A request sets the bit of the page it returns only. -/
theorem marked_of_marked_requestPage {s : Machine} {p : Nat} (hp : p < s.bits)
    (hmark : s.requestPage.2.marked p = true) :
    s.marked p = true ∨ pageOf s.requestPage.1 = p := by
  have hreach : p < s.reach := Nat.lt_of_lt_of_le hp s.bits_le_reach
  by_cases hcov : ∃ q, s.firstClear = some q ∧ p = pageOf (UInt64.ofNat q * 4096)
  · obtain ⟨q, hq, hpq⟩ := hcov
    rw [requestPage_fst hq]
    exact Or.inr hpq.symm
  · exact Or.inl (((requestPage_locks s).marked_of_not_covered hreach hcov).symm.trans hmark)

/-- A bit depends on the bytes that the bitmap functions touch. -/
theorem marked_congr {s : Machine} {ram : ByteMemory} {p : Nat} (hp : p < s.bits)
    (h : ∀ a, s.memInfo.memBitMap.touched a → ram.bytes a = s.ram.bytes a) :
    ({ s with ram := ram } : Machine).marked p = s.marked p :=
  BitMap.bit_congr h (Nat.lt_of_lt_of_le hp s.bits_le_reach)

/-! ## One step of the descent -/

/-- The state after a new table was put behind the entry at `pde`. -/
def newPageTable (pde : UInt64) (s : Machine) : Machine :=
  let ram := s.requestPage.2.ram.fill s.requestPage.1 4096 0
  { s.requestPage.2 with
    ram := PageDirEntry.write ram pde ((PageDirEntry.read ram pde).mapTo s.requestPage.1) }

/-- What `getNextPageTable` can do: it follows a present entry, or it puts a
new table behind an entry that is not present. -/
theorem getNextPageTable_cases (pde : UInt64) (s : Machine) :
    ((PageDirEntry.read s.ram pde).present = true ∧
      getNextPageTable pde s = ((PageDirEntry.read s.ram pde).target, s)) ∨
    ((PageDirEntry.read s.ram pde).present = false ∧
      getNextPageTable pde s = (s.requestPage.1, newPageTable pde s)) := by
  unfold getNextPageTable
  cases hpresent : (PageDirEntry.read s.ram pde).present
  · refine Or.inr ⟨rfl, ?_⟩
    simp only [hpresent, Bool.false_eq_true, if_false]
    rfl
  · refine Or.inl ⟨rfl, ?_⟩
    simp only [hpresent, if_true]

theorem newPageTable_grows (pde : UInt64) (s : Machine) : Grows s (newPageTable pde s) :=
  ⟨(requestPage_grows s).memBitMap, (requestPage_grows s).memSizeBytes,
    (requestPage_grows s).requested⟩

theorem getNextPageTable_grows (pde : UInt64) (s : Machine) :
    Grows s (getNextPageTable pde s).2 := by
  rcases getNextPageTable_cases pde s with ⟨_, heq⟩ | ⟨_, heq⟩ <;> rw [heq]
  · exact Grows.refl s
  · exact newPageTable_grows pde s

/-- The tables form a radix tree in frames of the builder. -/
structure Tables (pml4 : UInt64) (base : Nat) (s : Machine) : Prop where
  separated : Separated next 3 (ent s.ram) (frameOf pml4)
  owned : ∀ n, Reached next 3 (ent s.ram) (frameOf pml4) n →
    frameAddr n ∈ pml4 :: framesSince base s

/-- What one step keeps: the tables, the translations, and the set bits. -/
structure Descends (pml4 : UInt64) (base : Nat) (s s' : Machine) : Prop where
  tables : Tables pml4 base s'
  leaves : ∀ path i, path.length = 3 →
    leaf next (ent s'.ram) (frameOf pml4) path i = leaf next (ent s.ram) (frameOf pml4) path i
  marked : ∀ p, p < s.bits → s.marked p = true → s'.marked p = true

theorem Descends.trans {pml4 : UInt64} {base : Nat} {s s' s'' : Machine} (hgrows : Grows s s')
    (h : Descends pml4 base s s') (h' : Descends pml4 base s' s'') :
    Descends pml4 base s s'' where
  tables := h'.tables
  leaves := fun path i hpath => (h'.leaves path i hpath).trans (h.leaves path i hpath)
  marked := fun p hp hmark => by
    refine h'.marked p ?_ (h.marked p hp hmark)
    rw [hgrows.bits_eq]
    exact hp

section Step

variable {pml4 : UInt64} {base : Nat} {s : Machine} {path : List (Fin 512)} {f : BitVec 52}
  {i : Fin 512}

/-- A fresh frame holds no byte that the bitmap functions touch. -/
theorem Fresh.not_inRange {s' : Machine} {fs : List UInt64} (hfresh : Fresh fs s')
    (hgrows : Grows s s') {n : BitVec 52} (hn : frameAddr n ∈ fs) {a : UInt64}
    (ha : s.memInfo.memBitMap.touched a) : ¬ InRange (frameAddr n) 4096 a := by
  intro hin
  refine hfresh.apart _ hn a hin ?_
  rw [hgrows.memBitMap]
  exact ha

theorem frameAddr_requestPage (s : Machine) :
    frameAddr (frameOf s.requestPage.1) = s.requestPage.1 :=
  frameAddr_frameOf (requestPage_aligned s)

theorem framesSince_newPageTable (pde : UInt64) (hbase : base ≤ s.requested.length) :
    framesSince base (newPageTable pde s) = framesSince base s ++ [s.requestPage.1] := by
  rw [framesSince, framesSince, ← List.drop_append_of_le_length hbase, ← requested_requestPage]
  rfl

/-- The memory after a new table, by frames. -/
theorem ram_newPageTable (pde : UInt64) (s : Machine) :
    (newPageTable pde s).ram =
      PageDirEntry.write (s.requestPage.2.ram.fill (frameAddr (frameOf s.requestPage.1)) 4096 0)
        pde ((PageDirEntry.read
          (s.requestPage.2.ram.fill (frameAddr (frameOf s.requestPage.1)) 4096 0)
          pde).mapTo s.requestPage.1) := by
  rw [frameAddr_requestPage]
  rfl

/-- The entry refers to the new table. -/
theorem next_newPageTable_self :
    next (ent (newPageTable (slot f i) s).ram f i) = some (frameOf s.requestPage.1) := by
  rw [ram_newPageTable, ent_write_self]
  rfl

section New

variable (ht : Tables pml4 base s) (hbase : base ≤ s.requested.length)
  (hfresh : Fresh (pml4 :: framesSince base (newPageTable (slot f i) s))
    (newPageTable (slot f i) s))

include ht hbase hfresh

/-- The requested frame is no table yet. -/
theorem not_reached_requestPage :
    ¬ Reached next 3 (ent s.ram) (frameOf pml4) (frameOf s.requestPage.1) := by
  intro hreached
  have hin := ht.owned _ hreached
  have hnodup := hfresh.nodup
  rw [framesSince_newPageTable _ hbase, ← List.cons_append, List.nodup_append] at hnodup
  rw [frameAddr_requestPage] at hin
  exact hnodup.2.2 _ hin _ (List.mem_singleton_self _) rfl

/-- The tables are apart from the bitmap. -/
theorem table_not_inRange {g : BitVec 52} (hg : Reached next 3 (ent s.ram) (frameOf pml4) g)
    {a : UInt64} (ha : s.memInfo.memBitMap.touched a) : ¬ InRange (frameAddr g) 4096 a := by
  refine hfresh.not_inRange (newPageTable_grows _ s) ?_ ha
  rw [framesSince_newPageTable _ hbase, ← List.cons_append]
  exact List.mem_append_left _ (ht.owned g hg)

/-- A new table changes no entry of the tables but the one it is put behind. -/
theorem newPageTable_keeps : Keeps next 3 (ent s.ram)
    (ent (newPageTable (slot f i) s).ram) (frameOf pml4) f i := by
  intro g hg j hgj
  have hne : g ≠ frameOf s.requestPage.1 := by
    intro heq
    subst heq
    exact not_reached_requestPage ht hbase hfresh hg
  rw [ram_newPageTable, ent_write_of_ne _ _ hgj, ent_fill_of_ne _ hne]
  exact ent_congr (fun a ha => bytes_requestPage fun hin =>
    table_not_inRange ht hbase hfresh hg hin ha) j

/-- A new table changes no bit, but for the request. -/
theorem marked_newPageTable_eq (hf : Reached next 3 (ent s.ram) (frameOf pml4) f) {p : Nat}
    (hp : p < s.bits) :
    (newPageTable (slot f i) s).marked p = s.requestPage.2.marked p := by
  rw [← (requestPage_grows s).bits_eq] at hp
  refine marked_congr hp fun a ha => ?_
  rw [(requestPage_grows s).memBitMap] at ha
  rw [bytes_write_of_not_inRange _ i _ (table_not_inRange ht hbase hfresh hf ha),
    bytes_fill_of_not_inRange]
  rw [← frameAddr_requestPage s]
  refine hfresh.not_inRange (newPageTable_grows _ s) ?_ ha
  rw [framesSince_newPageTable _ hbase, frameAddr_requestPage]
  simp

/-- A new table sets bits only. -/
theorem marked_newPageTable (hf : Reached next 3 (ent s.ram) (frameOf pml4) f) {p : Nat}
    (hp : p < s.bits) (hmark : s.marked p = true) :
    (newPageTable (slot f i) s).marked p = true :=
  (marked_newPageTable_eq ht hbase hfresh hf hp).trans (marked_requestPage hp hmark)

/-- The new table is empty. -/
theorem next_newPageTable_new (hf : Reached next 3 (ent s.ram) (frameOf pml4) f) (j : Fin 512) :
    next (ent (newPageTable (slot f i) s).ram (frameOf s.requestPage.1) j) = none := by
  rw [ram_newPageTable, ent_write_of_ne, next_ent_fill]
  intro ⟨heq, _⟩
  refine not_reached_requestPage ht hbase hfresh ?_
  rw [heq]
  exact hf

/-- A new table behind an empty entry leaves the tables of all other paths alone. -/
theorem table_newPageTable_of_ne (hp : table next (ent s.ram) (frameOf pml4) path = some f)
    (hlen : path.length < 3) (hempty : next (ent s.ram f i) = none) {q : List (Fin 512)}
    (hq : q.length ≤ 3) (hne : q ≠ path ++ [i]) :
    table next (ent (newPageTable (slot f i) s).ram) (frameOf pml4) q =
      table next (ent s.ram) (frameOf pml4) q :=
  table_link_of_ne ht.separated hp hlen hempty (newPageTable_keeps ht hbase hfresh)
    next_newPageTable_self (next_newPageTable_new ht hbase hfresh ⟨path, hlen.le, hp⟩) hq hne

/-- A new table behind an entry that is not present. -/
theorem newPageTable_spec (hp : table next (ent s.ram) (frameOf pml4) path = some f)
    (hlen : path.length < 3) (habsent : (ent s.ram f i).present = false) :
    Descends pml4 base s (newPageTable (slot f i) s) ∧
      table next (ent (newPageTable (slot f i) s).ram) (frameOf pml4) (path ++ [i]) =
        some (frameOf s.requestPage.1) := by
  have hreached : Reached next 3 (ent s.ram) (frameOf pml4) f := ⟨path, hlen.le, hp⟩
  have hunreached := not_reached_requestPage ht hbase hfresh
  have hkeep := newPageTable_keeps ht hbase hfresh
  have hempty : next (ent s.ram f i) = none := next_eq_none.mpr habsent
  have hnew := next_newPageTable_self (s := s) (f := f) (i := i)
  have hzero := next_newPageTable_new ht hbase hfresh hreached
  refine ⟨⟨⟨?_, ?_⟩, ?_, ?_⟩, ?_⟩
  · exact separated_link ht.separated hp hlen hempty hkeep hnew hzero hunreached
  · intro g hg
    rw [framesSince_newPageTable _ hbase, ← List.cons_append]
    rcases reached_link ht.separated hp hlen hempty hkeep hnew hzero hg with rfl | hold
    · rw [frameAddr_requestPage]
      simp
    · exact List.mem_append_left _ (ht.owned g hold)
  · intro q j hq
    exact leaf_link ht.separated hp hlen hempty hkeep hnew hzero hq
  · intro p hp' hmark
    exact marked_newPageTable ht hbase hfresh hreached hp' hmark
  · exact table_link_self ht.separated hp hlen hkeep hnew

end New

theorem Descends.refl (ht : Tables pml4 base s) : Descends pml4 base s s :=
  ⟨ht, fun _ _ _ => rfl, fun _ _ h => h⟩

/-- One step of the descent: it leads to the table of the longer path, and
changes no translation. -/
theorem getNextPageTable_spec (ht : Tables pml4 base s) (hbase : base ≤ s.requested.length)
    (hp : table next (ent s.ram) (frameOf pml4) path = some f) (hlen : path.length < 3)
    (hfresh : Fresh (pml4 :: framesSince base (getNextPageTable (slot f i) s).2)
      (getNextPageTable (slot f i) s).2) :
    Descends pml4 base s (getNextPageTable (slot f i) s).2 ∧
      ∃ g, (getNextPageTable (slot f i) s).1 = frameAddr g ∧
        table next (ent (getNextPageTable (slot f i) s).2.ram) (frameOf pml4) (path ++ [i]) =
          some g := by
  rcases getNextPageTable_cases (slot f i) s with ⟨hpresent, heq⟩ | ⟨habsent, heq⟩
  · rw [heq]
    refine ⟨Descends.refl ht, (ent s.ram f i).address, rfl, ?_⟩
    have hnext : next (ent s.ram f i) = some (ent s.ram f i).address := if_pos hpresent
    rw [table_concat, hp, Option.bind_some, hnext]
  · rw [heq] at hfresh ⊢
    obtain ⟨hdescends, htable⟩ := newPageTable_spec ht hbase hfresh hp hlen habsent
    exact ⟨hdescends, frameOf s.requestPage.1, (frameAddr_requestPage s).symm, htable⟩

end Step

/-! ## One call of the builder -/

/-- The state after the entry of the last level was stored. -/
def storeEntry (pde physMem : UInt64) (s : Machine) : Machine :=
  { s with ram := PageDirEntry.write s.ram pde ((PageDirEntry.read s.ram pde).mapTo physMem) }

theorem storeEntry_grows (pde physMem : UInt64) (s : Machine) :
    Grows s (storeEntry pde physMem s) :=
  ⟨rfl, rfl, List.prefix_refl _⟩

/-- The first step of the descent, with the table of the page directory
pointers. -/
def firstTable (ptm : PageTableManager) (virtMem : UInt64) (s : Machine) : UInt64 × Machine :=
  getNextPageTable (entryAddr ptm.pml4 (UInt64.ofNat (indexBits virtMem 39))) s

/-- The second step of the descent, with the page directory. -/
def secondTable (ptm : PageTableManager) (virtMem : UInt64) (s : Machine) : UInt64 × Machine :=
  getNextPageTable
    (entryAddr (firstTable ptm virtMem s).1 (UInt64.ofNat (indexBits virtMem 30)))
    (firstTable ptm virtMem s).2

/-- The third step of the descent, with the page table. -/
def thirdTable (ptm : PageTableManager) (virtMem : UInt64) (s : Machine) : UInt64 × Machine :=
  getNextPageTable
    (entryAddr (secondTable ptm virtMem s).1 (UInt64.ofNat (indexBits virtMem 21)))
    (secondTable ptm virtMem s).2

/-- One call is three steps of the descent and the store. -/
theorem pageTableManagerMapMemory_eq (ptm : PageTableManager) (virtMem physMem : UInt64)
    (s : Machine) :
    pageTableManagerMapMemory ptm virtMem physMem s =
      storeEntry
        (entryAddr (thirdTable ptm virtMem s).1 (UInt64.ofNat (indexBits virtMem 12))) physMem
        (thirdTable ptm virtMem s).2 := by
  unfold pageTableManagerMapMemory
  rw [initPageMapIndexer_eq]
  rfl

section Grows

variable (ptm : PageTableManager) (virtMem physMem : UInt64) (s : Machine)

theorem firstTable_grows : Grows s (firstTable ptm virtMem s).2 :=
  getNextPageTable_grows _ _

theorem secondTable_grows : Grows (firstTable ptm virtMem s).2 (secondTable ptm virtMem s).2 :=
  getNextPageTable_grows _ _

theorem thirdTable_grows : Grows (secondTable ptm virtMem s).2 (thirdTable ptm virtMem s).2 :=
  getNextPageTable_grows _ _

theorem tables_grow : Grows s (thirdTable ptm virtMem s).2 :=
  ((firstTable_grows ptm virtMem s).trans (secondTable_grows ptm virtMem s)).trans
    (thirdTable_grows ptm virtMem s)

theorem pageTableManagerMapMemory_grows :
    Grows s (pageTableManagerMapMemory ptm virtMem physMem s) := by
  rw [pageTableManagerMapMemory_eq]
  exact (tables_grow ptm virtMem s).trans (storeEntry_grows _ _ _)

end Grows

/-- The entry maps to the frame of an address, and may be written to. -/
structure MapsTo (e : PageDirEntry) (physMem : UInt64) : Prop where
  address : e.address = frameOf physMem
  present : e.present = true
  readWrite : e.readWrite = true

theorem mapsTo_mapTo (e : PageDirEntry) (physMem : UInt64) : MapsTo (e.mapTo physMem) physMem :=
  ⟨rfl, rfl, rfl⟩

/-- What one call changes: the translation of the page of `virtMem`. -/
structure Maps (pml4 : UInt64) (base : Nat) (virtMem physMem : UInt64) (s s' : Machine) :
    Prop where
  tables : Tables pml4 base s'
  mapped : ∃ e, leaf next (ent s'.ram) (frameOf pml4) (pathOf virtMem) (indexBits virtMem 12) =
    some e ∧ MapsTo e physMem
  others : ∀ path i, path.length = 3 → ¬ (path = pathOf virtMem ∧ i = indexBits virtMem 12) →
    leaf next (ent s'.ram) (frameOf pml4) path i = leaf next (ent s.ram) (frameOf pml4) path i
  marked : ∀ p, p < s.bits → s.marked p = true → s'.marked p = true

section Call

variable {ptm : PageTableManager} {base : Nat} {s : Machine} {virtMem physMem : UInt64}

/-- The store of the last level, in the table that the path of the address
leads to. -/
theorem storeEntry_maps (physMem : UInt64) {g : BitVec 52} (ht : Tables ptm.pml4 base s)
    (hg : table next (ent s.ram) (frameOf ptm.pml4) (pathOf virtMem) = some g)
    (hfresh : Fresh (ptm.pml4 :: framesSince base s) s) :
    Maps ptm.pml4 base virtMem physMem s
      (storeEntry (slot g (indexBits virtMem 12)) physMem s) := by
  have hkeep : Keeps next 3 (ent s.ram)
      (ent (storeEntry (slot g (indexBits virtMem 12)) physMem s).ram) (frameOf ptm.pml4) g
      (indexBits virtMem 12) :=
    fun h _ j hj => ent_write_of_ne _ _ hj
  have hself : ent (storeEntry (slot g (indexBits virtMem 12)) physMem s).ram g
      (indexBits virtMem 12) = (ent s.ram g (indexBits virtMem 12)).mapTo physMem :=
    ent_write_self _ _ _ _
  have hlen : (pathOf virtMem).length = 3 := length_pathOf virtMem
  refine ⟨⟨?_, ?_⟩, ⟨_, ?_, mapsTo_mapTo (ent s.ram g (indexBits virtMem 12)) physMem⟩, ?_, ?_⟩
  · exact separated_store ht.separated hg hlen hkeep
  · exact fun n hn => ht.owned n (reached_store ht.separated hg hlen hkeep hn)
  · rw [leaf_store_self ht.separated hg hlen hkeep (by rw [hself]; rfl), hself]
  · exact fun path i hpath hne => leaf_store_of_ne ht.separated hg hlen hkeep hpath hne
  · intro p hp hmark
    refine (marked_congr hp fun a ha => ?_).trans hmark
    refine bytes_write_of_not_inRange _ _ _ ?_
    exact hfresh.not_inRange (Grows.refl s) (ht.owned g ⟨_, hlen.le, hg⟩) ha

theorem firstTable_eq (haligned : ptm.pml4.toNat % 4096 = 0) :
    firstTable ptm virtMem s =
      getNextPageTable (slot (frameOf ptm.pml4) (indexBits virtMem 39)) s := by
  rw [firstTable, slot, frameAddr_frameOf haligned]

theorem secondTable_eq {g : BitVec 52} (hg : (firstTable ptm virtMem s).1 = frameAddr g) :
    secondTable ptm virtMem s =
      getNextPageTable (slot g (indexBits virtMem 30)) (firstTable ptm virtMem s).2 := by
  rw [secondTable, hg]
  rfl

theorem thirdTable_eq {g : BitVec 52} (hg : (secondTable ptm virtMem s).1 = frameAddr g) :
    thirdTable ptm virtMem s =
      getNextPageTable (slot g (indexBits virtMem 21)) (secondTable ptm virtMem s).2 := by
  rw [thirdTable, hg]
  rfl

/-- The first step of the descent. -/
theorem firstTable_spec (haligned : ptm.pml4.toNat % 4096 = 0) (ht : Tables ptm.pml4 base s)
    (hbase : base ≤ s.requested.length)
    (hfresh : Fresh (ptm.pml4 :: framesSince base (firstTable ptm virtMem s).2)
      (firstTable ptm virtMem s).2) :
    Descends ptm.pml4 base s (firstTable ptm virtMem s).2 ∧
      ∃ g, (firstTable ptm virtMem s).1 = frameAddr g ∧
        table next (ent (firstTable ptm virtMem s).2.ram) (frameOf ptm.pml4)
          [indexBits virtMem 39] = some g := by
  rw [firstTable_eq haligned] at hfresh ⊢
  exact getNextPageTable_spec ht hbase table_nil (Nat.succ_pos 2) hfresh

/-- The first two steps. -/
theorem secondTable_spec (haligned : ptm.pml4.toNat % 4096 = 0) (ht : Tables ptm.pml4 base s)
    (hbase : base ≤ s.requested.length)
    (hfresh : Fresh (ptm.pml4 :: framesSince base (secondTable ptm virtMem s).2)
      (secondTable ptm virtMem s).2) :
    Descends ptm.pml4 base s (secondTable ptm virtMem s).2 ∧
      ∃ g, (secondTable ptm virtMem s).1 = frameAddr g ∧
        table next (ent (secondTable ptm virtMem s).2.ram) (frameOf ptm.pml4)
          [indexBits virtMem 39, indexBits virtMem 30] = some g := by
  have hgrows := firstTable_grows ptm virtMem s
  have hfresh₁ := Fresh.of_grows [ptm.pml4] (secondTable_grows ptm virtMem s) hfresh
  obtain ⟨hd, g, hg, htable⟩ := firstTable_spec haligned ht hbase hfresh₁
  rw [secondTable_eq hg] at hfresh ⊢
  obtain ⟨hd', hg'⟩ := getNextPageTable_spec hd.tables (hbase.trans hgrows.requested.length_le)
    htable (Nat.lt_of_sub_eq_succ rfl) hfresh
  exact ⟨hd.trans hgrows hd', hg'⟩

/-- The three steps of the descent: they lead to the table of the last level,
and change no translation. -/
theorem thirdTable_spec (haligned : ptm.pml4.toNat % 4096 = 0) (ht : Tables ptm.pml4 base s)
    (hbase : base ≤ s.requested.length)
    (hfresh : Fresh (ptm.pml4 :: framesSince base (thirdTable ptm virtMem s).2)
      (thirdTable ptm virtMem s).2) :
    Descends ptm.pml4 base s (thirdTable ptm virtMem s).2 ∧
      ∃ g, (thirdTable ptm virtMem s).1 = frameAddr g ∧
        table next (ent (thirdTable ptm virtMem s).2.ram) (frameOf ptm.pml4) (pathOf virtMem) =
          some g := by
  have hgrows := (firstTable_grows ptm virtMem s).trans (secondTable_grows ptm virtMem s)
  have hfresh₂ := Fresh.of_grows [ptm.pml4] (thirdTable_grows ptm virtMem s) hfresh
  obtain ⟨hd, g, hg, htable⟩ := secondTable_spec haligned ht hbase hfresh₂
  rw [thirdTable_eq hg] at hfresh ⊢
  obtain ⟨hd', hg'⟩ := getNextPageTable_spec hd.tables (hbase.trans hgrows.requested.length_le)
    htable (Nat.lt_of_sub_eq_succ rfl) hfresh
  exact ⟨hd.trans hgrows hd', hg'⟩

/-- One call of `pageTableManagerMapMemory`. -/
theorem pageTableManagerMapMemory_spec (haligned : ptm.pml4.toNat % 4096 = 0)
    (ht : Tables ptm.pml4 base s) (hbase : base ≤ s.requested.length)
    (hfresh : Fresh
      (ptm.pml4 :: framesSince base (pageTableManagerMapMemory ptm virtMem physMem s))
      (pageTableManagerMapMemory ptm virtMem physMem s)) :
    Maps ptm.pml4 base virtMem physMem s (pageTableManagerMapMemory ptm virtMem physMem s) := by
  rw [pageTableManagerMapMemory_eq] at hfresh ⊢
  have hfresh₃ := Fresh.of_grows [ptm.pml4] (storeEntry_grows _ _ _) hfresh
  obtain ⟨hdescends, g, hg, htable⟩ := thirdTable_spec haligned ht hbase hfresh₃
  have hstore := storeEntry_maps physMem hdescends.tables htable hfresh₃
  rw [slot, ← hg] at hstore
  refine ⟨hstore.tables, hstore.mapped, fun path i hpath hne => ?_, fun p hp hmark => ?_⟩
  · rw [hstore.others path i hpath hne]
    exact hdescends.leaves path i hpath
  · refine hstore.marked p ?_ (hdescends.marked p hp hmark)
    rw [(tables_grow ptm virtMem s).bits_eq]
    exact hp

end Call

/-! ## Sequences of calls -/

/-- A sequence of calls `pageTableManagerMapMemory(ptm, v, p)`. -/
def mapAll (ptm : PageTableManager) (maps : List (UInt64 × UInt64)) (s : Machine) : Machine :=
  maps.foldl (fun s vp => pageTableManagerMapMemory ptm vp.1 vp.2 s) s

/-- The last call whose virtual address is in the virtual page of `a`. -/
def lastMap (maps : List (UInt64 × UInt64)) (a : UInt64) : Option (UInt64 × UInt64) :=
  maps.reverse.find? fun vp => pageKey vp.1 = pageKey a

theorem mapAll_concat (ptm : PageTableManager) (maps : List (UInt64 × UInt64))
    (vp : UInt64 × UInt64) (s : Machine) :
    mapAll ptm (maps ++ [vp]) s = pageTableManagerMapMemory ptm vp.1 vp.2 (mapAll ptm maps s) := by
  simp [mapAll]

theorem mapAll_grows (ptm : PageTableManager) (maps : List (UInt64 × UInt64)) (s : Machine) :
    Grows s (mapAll ptm maps s) := by
  induction maps using List.reverseRecOn with
  | nil => exact Grows.refl s
  | append_singleton maps vp ih =>
    rw [mapAll_concat]
    exact ih.trans (pageTableManagerMapMemory_grows _ _ _ _)

/-- Further calls only add to the history. -/
theorem mapAll_grows_of_initial (ptm : PageTableManager) {before maps : List (UInt64 × UInt64)}
    (h : before <+: maps) (s : Machine) : Grows (mapAll ptm before s) (mapAll ptm maps s) := by
  obtain ⟨after, rfl⟩ := h
  rw [mapAll, mapAll, List.foldl_append]
  exact mapAll_grows ptm after (mapAll ptm before s)

theorem lastMap_concat (maps : List (UInt64 × UInt64)) (vp : UInt64 × UInt64) (a : UInt64) :
    lastMap (maps ++ [vp]) a = if pageKey vp.1 = pageKey a then some vp else lastMap maps a := by
  rw [lastMap, List.reverse_append, List.reverse_singleton, List.singleton_append,
    List.find?_cons]
  split <;> simp_all [lastMap]

/-- The walk of `a` finds the entry of a call, or none when there is no call. -/
def WalkFinds (ram : ByteMemory) (pml4 a : UInt64) : Option (UInt64 × UInt64) → Prop
  | some vp => ∃ e, translate ram pml4 a = some e ∧ MapsTo e vp.2
  | none => translate ram pml4 a = none

section Run

variable {ptm : PageTableManager} {base : Nat} {s : Machine}

/-- One call changes the walk of its own virtual page only. -/
theorem Maps.walk {virtMem physMem : UInt64} {s' : Machine} (haligned : ptm.pml4.toNat % 4096 = 0)
    (h : Maps ptm.pml4 base virtMem physMem s s') (a : UInt64) :
    (pageKey virtMem = pageKey a →
      WalkFinds s'.ram ptm.pml4 a (some (virtMem, physMem))) ∧
    (pageKey virtMem ≠ pageKey a →
      translate s'.ram ptm.pml4 a = translate s.ram ptm.pml4 a) := by
  constructor
  · intro hkey
    obtain ⟨hpath, hindex⟩ := pageKey_eq_iff.mp hkey
    rw [WalkFinds, translate_eq_leaf _ haligned, ← hpath, ← hindex]
    exact h.mapped
  · intro hkey
    rw [translate_eq_leaf _ haligned, translate_eq_leaf _ haligned]
    refine h.others _ _ (length_pathOf a) fun heq => hkey ?_
    exact pageKey_eq_iff.mpr ⟨heq.1.symm, heq.2.symm⟩

/-- The tables after the calls `maps`: they form a tree, and every walk finds
the last call for its virtual page. -/
structure Built (pml4 : UInt64) (base : Nat) (maps : List (UInt64 × UInt64)) (s : Machine) :
    Prop where
  tables : Tables pml4 base s
  walk : ∀ a, WalkFinds s.ram pml4 a (lastMap maps a)

/-- The entries of a cleared PML4 are empty. -/
theorem next_of_zeroed {pml4 : UInt64} (haligned : pml4.toNat % 4096 = 0)
    (hzero : ∀ a, InRange pml4 4096 a → s.ram.bytes a = 0) (i : Fin 512) :
    next (ent s.ram (frameOf pml4) i) = none := by
  have hfill : ent s.ram (frameOf pml4) i =
      ent (s.ram.fill (frameAddr (frameOf pml4)) 4096 0) (frameOf pml4) i := by
    refine ent_congr (fun a ha => ?_) i
    rw [bytes_fill_of_inRange _ _ ha]
    rw [frameAddr_frameOf haligned] at ha
    exact hzero a ha
  rw [hfill, next_ent_fill]

/-- A cleared PML4 is the empty tree. -/
theorem built_of_zeroed {pml4 : UInt64} (haligned : pml4.toNat % 4096 = 0)
    (hzero : ∀ a, InRange pml4 4096 a → s.ram.bytes a = 0) :
    Built pml4 s.requested.length [] s := by
  have hempty := next_of_zeroed haligned hzero
  refine ⟨⟨separated_of_empty hempty, fun n hn => ?_⟩, fun a => ?_⟩
  · rw [reached_of_empty hempty hn, frameAddr_frameOf haligned]
    exact List.mem_cons_self
  · exact (translate_eq_leaf _ haligned a).trans
      (leaf_of_table_none (table_of_empty hempty (by simp [pathOf])))

/-- The walk of an address finds the same before and after a step that keeps
the translation. -/
theorem WalkFinds.congr {ram ram' : ByteMemory} {pml4 a : UInt64}
    {found : Option (UInt64 × UInt64)} (h : WalkFinds ram pml4 a found)
    (heq : translate ram' pml4 a = translate ram pml4 a) : WalkFinds ram' pml4 a found := by
  cases found with
  | none => exact heq.trans h
  | some vp =>
    obtain ⟨e, he, hto⟩ := h
    exact ⟨e, heq.trans he, hto⟩

/-- One more call. -/
theorem Built.concat {maps : List (UInt64 × UInt64)} {vp : UInt64 × UInt64}
    (h : Built ptm.pml4 base maps s) (haligned : ptm.pml4.toNat % 4096 = 0)
    (hbase : base ≤ s.requested.length)
    (hfresh : Fresh
      (ptm.pml4 :: framesSince base (pageTableManagerMapMemory ptm vp.1 vp.2 s))
      (pageTableManagerMapMemory ptm vp.1 vp.2 s)) :
    Built ptm.pml4 base (maps ++ [vp]) (pageTableManagerMapMemory ptm vp.1 vp.2 s) := by
  have hmaps := pageTableManagerMapMemory_spec haligned h.tables hbase hfresh
  refine ⟨hmaps.tables, fun a => ?_⟩
  rw [lastMap_concat]
  split
  · rename_i hkey
    exact (hmaps.walk haligned a).1 hkey
  · rename_i hkey
    exact (h.walk a).congr ((hmaps.walk haligned a).2 hkey)

/-- A sequence of further calls. -/
theorem Built.mapAll {before maps : List (UInt64 × UInt64)} (h : Built ptm.pml4 base before s)
    (haligned : ptm.pml4.toNat % 4096 = 0) (hbase : base ≤ s.requested.length)
    (hfresh : Fresh (ptm.pml4 :: framesSince base (mapAll ptm maps s)) (mapAll ptm maps s)) :
    Built ptm.pml4 base (before ++ maps) (mapAll ptm maps s) ∧
      ∀ p, p < s.bits → s.marked p = true → (mapAll ptm maps s).marked p = true := by
  induction maps using List.reverseRecOn with
  | nil =>
    rw [List.append_nil]
    exact ⟨h, fun _ _ hmark => hmark⟩
  | append_singleton maps vp ih =>
    rw [mapAll_concat] at hfresh ⊢
    have hgrows := mapAll_grows ptm maps s
    have hfresh' := Fresh.of_grows [ptm.pml4] (pageTableManagerMapMemory_grows _ _ _ _) hfresh
    obtain ⟨hbuilt, hmarked⟩ := ih hfresh'
    have hbase' := hbase.trans hgrows.requested.length_le
    refine ⟨?_, fun p hp hmark => ?_⟩
    · rw [← List.append_assoc]
      exact hbuilt.concat haligned hbase' hfresh
    · refine (pageTableManagerMapMemory_spec haligned hbuilt.tables hbase' hfresh).marked p ?_
        (hmarked p hp hmark)
      rw [hgrows.bits_eq]
      exact hp

/-- A step that stores nothing but bits of the bitmap keeps the tables. -/
theorem Built.of_marks {maps : List (UInt64 × UInt64)} {pml4 : UInt64} {s' : Machine}
    {value : Bool} {account : MemDesc → MemDesc} {cov : Nat → Prop}
    (h : Built pml4 base maps s) (haligned : pml4.toNat % 4096 = 0)
    (hfresh : Fresh (pml4 :: framesSince base s) s) (hmarks : Marks value account cov s s') :
    Built pml4 base maps s' := by
  have hent : ∀ g, Reached next 3 (ent s.ram) (frameOf pml4) g → ∀ j,
      ent s'.ram g j = ent s.ram g j := fun g hg j =>
    ent_congr (fun a ha => hmarks.bytes a fun hin =>
      hfresh.not_inRange (Grows.refl s) (h.tables.owned g hg) hin ha) j
  refine ⟨⟨separated_congr hent h.tables.separated, fun n hn => ?_⟩, fun a => ?_⟩
  · rw [framesSince, hmarks.requested]
    exact h.tables.owned n ((reached_congr hent).mp hn)
  · refine (h.walk a).congr ?_
    rw [translate_eq_leaf _ haligned, translate_eq_leaf _ haligned,
      leaf_congr hent (length_pathOf a).le]

/-- The builder refines a finite map.  After any sequence of calls that starts
with a cleared PML4, and in which every requested frame is fresh, the walk of
any address finds the frame of the last call for its virtual page, present and
writable, and no entry when there is none.  No call changes the walk of
another virtual page. -/
theorem mapMemory_refines {maps : List (UInt64 × UInt64)}
    (haligned : ptm.pml4.toNat % 4096 = 0)
    (hzero : ∀ a, InRange ptm.pml4 4096 a → s.ram.bytes a = 0)
    (hfresh : Fresh (ptm.pml4 :: framesSince s.requested.length (mapAll ptm maps s))
      (mapAll ptm maps s)) :
    (∀ a, WalkFinds (mapAll ptm maps s).ram ptm.pml4 a (lastMap maps a)) ∧
    ∀ before vp, before ++ [vp] <+: maps → ∀ a, pageKey vp.1 ≠ pageKey a →
      translate (mapAll ptm (before ++ [vp]) s).ram ptm.pml4 a =
        translate (mapAll ptm before s).ram ptm.pml4 a := by
  have hstart := built_of_zeroed haligned hzero
  refine ⟨(hstart.mapAll haligned (Nat.le_refl _) hfresh).1.walk, ?_⟩
  intro before vp hpre a hkey
  have hfresh₁ := Fresh.of_grows [ptm.pml4] (mapAll_grows_of_initial ptm hpre s) hfresh
  rw [mapAll_concat] at hfresh₁ ⊢
  have hfresh₀ := Fresh.of_grows [ptm.pml4] (pageTableManagerMapMemory_grows _ _ _ _) hfresh₁
  have htables := (hstart.mapAll haligned (Nat.le_refl _) hfresh₀).1.tables
  have hbase := (mapAll_grows ptm before s).requested.length_le
  exact ((pageTableManagerMapMemory_spec haligned htables hbase hfresh₁).walk haligned a).2 hkey

end Run

/-- A machine with a bitmap of sixteen pages at 1 MiB, in which page 0 is taken. -/
def sampleMachine : Machine where
  ram := ⟨fun a => if a = 0x100000 then 0x80 else 0⟩
  memInfo :=
    { memBitMap := { size := 2, buffer := 0x100000 }
      freeMemory := 0xf000
      reservedMemory := 0
      usedMemory := 0x1000
      memSizeBytes := 0x10000 }
  initialized := true
  requested := []

theorem sampleMachine_zeroed (a : UInt64) (ha : InRange 0x8000 4096 a) :
    sampleMachine.ram.bytes a = 0 := by
  refine if_neg ?_
  intro heq
  subst heq
  exact absurd ha (by decide)

/-- A page of the second region of 2 MiB, mapped with three new tables. -/
theorem mapMemory_refines_sample :
    WalkFinds (mapAll { pml4 := 0x8000 } [(0x200000, 0x5000)] sampleMachine).ram 0x8000 0x200abc
      (some (0x200000, 0x5000)) := by
  have hlast : lastMap [(0x200000, 0x5000)] 0x200abc = some (0x200000, 0x5000) := by
    decide +kernel
  have hrequested : framesSince sampleMachine.requested.length
      (mapAll { pml4 := 0x8000 } [(0x200000, 0x5000)] sampleMachine) =
      [0x1000, 0x2000, 0x3000] := by decide +kernel
  rw [← hlast]
  refine (mapMemory_refines (by decide) sampleMachine_zeroed ⟨?_, fun f hf => ?_⟩).1 0x200abc
  · rw [hrequested]
    decide
  · rw [(mapAll_grows _ _ _).memBitMap]
    rw [hrequested] at hf
    have hbelow : ∀ f ∈ [(0x8000 : UInt64), 0x1000, 0x2000, 0x3000],
        f.toNat + 4096 ≤ (0x100000 : UInt64).toNat := by simp
    exact disjoint_of_toNat_le (hbelow f hf) (by decide)

end Machine

end BbnOS
