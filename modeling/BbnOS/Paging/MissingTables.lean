import BbnOS.Paging.Mapping

/-!
# Mapping without a free page

A call of `pageTableManagerMapMemory` follows three entries (`descent`), and
requests a page for the table behind each one that is not present (`missing`).
`stores` lists the ranges of memory that the call stores to.

`Intact` is what such a call should leave alone.  But nothing looks at the
answer of `requestPage`: without a free page the answer is the null pointer,
physical page 0 gets cleared, and the entry is marked present with address 0
(`null_of_no_page`).  So no call that runs out of pages leaves the address space
intact (`not_intact_of_no_page`).
-/

namespace BbnOS

open ByteMemory

namespace Machine

/-! ## The stores of a call -/

/-- A range of memory: its first address and its length. -/
structure Stored where
  base : UInt64
  length : Nat

/-- The byte of the bitmap in which `requestPage` locks the page it finds. -/
def requestStores (s : Machine) : List Stored :=
  match s.firstClear with
  | none => []
  | some p => [⟨s.memInfo.memBitMap.buffer + UInt64.ofNat p * 4096 / 4096 / 8, 1⟩]

/-- An entry that a call follows, with the state in which it does. -/
structure Visit where
  pde : UInt64
  state : Machine

/-- The three entries that a call follows. -/
def descent (ptm : PageTableManager) (virtMem : UInt64) (s : Machine) : List Visit :=
  [⟨entryAddr ptm.pml4 (UInt64.ofNat (indexBits virtMem 39)), s⟩,
    ⟨entryAddr (firstTable ptm virtMem s).1 (UInt64.ofNat (indexBits virtMem 30)),
      (firstTable ptm virtMem s).2⟩,
    ⟨entryAddr (secondTable ptm virtMem s).1 (UInt64.ofNat (indexBits virtMem 21)),
      (secondTable ptm virtMem s).2⟩]

namespace Visit

/-- The entry is not present, so that the call needs a table. -/
def isMissing (v : Visit) : Bool := !(PageDirEntry.read v.state.ram v.pde).present

/-- The entry after the visit. -/
def entryAfter (v : Visit) : PageDirEntry :=
  PageDirEntry.read (getNextPageTable v.pde v.state).2.ram v.pde

/-- The stores of `getNextPageTable`: those of the request, `memset`, and the entry. -/
def stores (v : Visit) : List Stored :=
  if v.isMissing then v.state.requestStores ++ [⟨v.state.requestPage.1, 4096⟩, ⟨v.pde, 8⟩]
  else []

end Visit

/-- The visits of entries that are not present. -/
def missing (ptm : PageTableManager) (virtMem : UInt64) (s : Machine) : List Visit :=
  (descent ptm virtMem s).filter Visit.isMissing

/-- The stores of a call. -/
def stores (ptm : PageTableManager) (virtMem : UInt64) (s : Machine) : List Stored :=
  (descent ptm virtMem s).flatMap Visit.stores ++
    [⟨entryAddr (thirdTable ptm virtMem s).1 (UInt64.ofNat (indexBits virtMem 12)), 8⟩]

theorem bytes_requestPage_of_not_stored {s : Machine} {a : UInt64}
    (ha : ∀ r ∈ s.requestStores, ¬ InRange r.base r.length a) :
    s.requestPage.2.ram.bytes a = s.ram.bytes a := by
  rcases requestPage_cases s with ⟨p, hp, _, hs⟩ | ⟨_, _, hs⟩
  · rw [requestStores, hp] at ha
    have hne := ha _ List.mem_cons_self
    rw [hs]
    show (s.lockPage (UInt64.ofNat p * 4096)).ram.bytes a = s.ram.bytes a
    rcases changePage_cases true MemDesc.lock (UInt64.ofNat p * 4096) s with
      ⟨_, _, heq⟩ | ⟨_, heq⟩
    · rw [lockPage, heq]
      refine bytes_bitmapSetVal_of_ne s.ram _ true fun hat => hne ?_
      rw [hat, InRange, sub_self]
      exact Nat.one_pos
    · rw [lockPage, heq]
  · rw [hs]

/-- A visit stores nowhere else. -/
theorem bytes_getNextPageTable_of_not_stored {v : Visit} {a : UInt64}
    (ha : ∀ r ∈ v.stores, ¬ InRange r.base r.length a) :
    (getNextPageTable v.pde v.state).2.ram.bytes a = v.state.ram.bytes a := by
  rcases getNextPageTable_cases v.pde v.state with ⟨_, heq⟩ | ⟨habsent, heq⟩
  · rw [heq]
  · have hmissing : v.isMissing = true := by rw [Visit.isMissing, habsent]; rfl
    rw [Visit.stores, if_pos hmissing] at ha
    rw [heq, newPageTable]
    show (PageDirEntry.write _ _ _).bytes a = _
    rw [PageDirEntry.write, bytes_write64_of_not_inRange _ _ (ha ⟨v.pde, 8⟩ (by simp)),
      bytes_fill_of_not_inRange _ _ (ha ⟨v.state.requestPage.1, 4096⟩ (by simp))]
    exact bytes_requestPage_of_not_stored fun r hr => ha r (List.mem_append_left _ hr)

/-- A call stores nowhere else. -/
theorem bytes_mapMemory_of_not_stored {ptm : PageTableManager} {virtMem physMem : UInt64}
    {s : Machine} {a : UInt64} (ha : ∀ r ∈ stores ptm virtMem s, ¬ InRange r.base r.length a) :
    (pageTableManagerMapMemory ptm virtMem physMem s).ram.bytes a = s.ram.bytes a := by
  have hvisit : ∀ v ∈ descent ptm virtMem s,
      (getNextPageTable v.pde v.state).2.ram.bytes a = v.state.ram.bytes a :=
    fun v hv => bytes_getNextPageTable_of_not_stored fun r hr =>
      ha r (List.mem_append_left _ (List.mem_flatMap.mpr ⟨v, hv, hr⟩))
  have hlast := ha _ (List.mem_append_right _ (List.mem_singleton_self _))
  rw [pageTableManagerMapMemory_eq, storeEntry]
  show (PageDirEntry.write _ _ _).bytes a = _
  rw [PageDirEntry.write, bytes_write64_of_not_inRange _ _ hlast]
  rw [descent, List.forall_mem_cons, List.forall_mem_cons, List.forall_mem_singleton] at hvisit
  exact (hvisit.2.2.trans hvisit.2.1).trans hvisit.1

/-! ## Running out of pages -/

/-- The frame at address 0. -/
def PageZero (a : UInt64) : Prop := a.toNat < 4096

/-- What a call that runs out of pages should leave alone: no entry becomes
present with a table that `requestPage` has not supplied, nothing is stored to
page 0, and every address that is mapped stays mapped as it is. -/
structure Intact (ptm : PageTableManager) (virtMem physMem : UInt64) (s : Machine) : Prop where
  supplied : ∀ v ∈ missing ptm virtMem s, v.entryAfter.present = true →
    ∃ p, v.state.firstClear = some p ∧ v.entryAfter.target = UInt64.ofNat p * 4096
  pageZero : ∀ r ∈ stores ptm virtMem s, ∀ a, InRange r.base r.length a → ¬ PageZero a
  translations : ∀ a e, translate s.ram ptm.pml4 a = some e →
    translate (pageTableManagerMapMemory ptm virtMem physMem s).ram ptm.pml4 a = some e

/-- What `getNextPageTable` does at a missing entry without a free page: it
clears page 0, and the entry becomes present with address 0. -/
theorem null_of_no_page {v : Visit} (hmissing : v.isMissing = true)
    (hfull : v.state.firstClear = none) :
    (⟨NULL, 4096⟩ : Stored) ∈ v.stores ∧ v.entryAfter.present = true ∧
      v.entryAfter.target = NULL := by
  have hnull : v.state.requestPage.1 = NULL := (requestPage_of_firstClear_none hfull).1
  have habsent : (PageDirEntry.read v.state.ram v.pde).present = false := by
    rw [Visit.isMissing, Bool.not_eq_true'] at hmissing
    exact hmissing
  have hafter : ∃ e : PageDirEntry, v.entryAfter = e.mapTo NULL := by
    rcases getNextPageTable_cases v.pde v.state with ⟨hpresent, _⟩ | ⟨_, heq⟩
    · rw [habsent] at hpresent
      cases hpresent
    · refine ⟨PageDirEntry.read (v.state.requestPage.2.ram.fill NULL 4096 0) v.pde, ?_⟩
      rw [Visit.entryAfter, heq, newPageTable, hnull, PageDirEntry.write, PageDirEntry.read,
        read64_write64_self, PageDirEntry.ofWord_toWord]
  obtain ⟨e, he⟩ := hafter
  refine ⟨?_, ?_, ?_⟩
  · rw [Visit.stores, if_pos hmissing, hnull]
    exact List.mem_append_right _ List.mem_cons_self
  · rw [he]
    rfl
  · rw [he]
    rfl

/-- Whenever a call needs a page at a point where `requestPage` has none, at
whichever of the three levels, it does not leave the address space intact. -/
theorem not_intact_of_no_page {ptm : PageTableManager} {virtMem physMem : UInt64} {s : Machine}
    (h : ∃ v ∈ missing ptm virtMem s, v.state.firstClear = none) :
    ¬ Intact ptm virtMem physMem s := by
  obtain ⟨v, hv, hfull⟩ := h
  obtain ⟨hdescent, hmissing⟩ := List.mem_filter.mp hv
  obtain ⟨hstored, _, _⟩ := null_of_no_page hmissing hfull
  intro hintact
  have hin : (⟨NULL, 4096⟩ : Stored) ∈ stores ptm virtMem s :=
    List.mem_append_left _ (List.mem_flatMap.mpr ⟨v, hdescent, hstored⟩)
  exact hintact.pageZero _ hin NULL (by decide) (show NULL.toNat < 4096 by decide)

/-- A machine with a bitmap of sixteen pages at 1 MiB, all of which are taken. -/
def fullMachine : Machine where
  ram := ⟨fun a => if a = 0x100000 ∨ a = 0x100001 then 0xff else 0⟩
  memInfo :=
    { memBitMap := { size := 2, buffer := 0x100000 }
      freeMemory := 0
      reservedMemory := 0
      usedMemory := 0x10000
      memSizeBytes := 0x10000 }
  initialized := true
  requested := []

/-- With an empty PML4 the first level already needs a page. -/
theorem no_page_fullMachine :
    ∃ v ∈ missing { pml4 := 0x8000 } 0x200000 fullMachine, v.state.firstClear = none := by
  have hmissing : Visit.isMissing ⟨entryAddr 0x8000 (UInt64.ofNat (indexBits 0x200000 39)),
      fullMachine⟩ = true := by decide +kernel
  have hfull : fullMachine.firstClear = none := by decide +kernel
  exact ⟨_, List.mem_filter.mpr ⟨List.mem_cons_self, hmissing⟩, hfull⟩

/-- On a machine without a free page, a call clears page 0. -/
theorem not_intact_fullMachine :
    (∃ v ∈ missing { pml4 := 0x8000 } 0x200000 fullMachine, v.state.firstClear = none) ∧
      ¬ Intact { pml4 := 0x8000 } 0x200000 0x5000 fullMachine := by
  refine ⟨no_page_fullMachine, fun hintact => ?_⟩
  have hmissing : Visit.isMissing ⟨entryAddr 0x8000 (UInt64.ofNat (indexBits 0x200000 39)),
      fullMachine⟩ = true := by decide +kernel
  obtain ⟨hstored, _, _⟩ := null_of_no_page hmissing (by decide +kernel)
  have hin : (⟨NULL, 4096⟩ : Stored) ∈ stores { pml4 := 0x8000 } 0x200000 fullMachine :=
    List.mem_append_left _ (List.mem_flatMap.mpr ⟨_, List.mem_cons_self, hstored⟩)
  exact hintact.pageZero _ hin NULL (by decide) (show NULL.toNat < 4096 by decide)

/-- The same machine. -/
theorem not_intact_of_no_page_fullMachine :
    ¬ Intact { pml4 := 0x8000 } 0x200000 0x5000 fullMachine :=
  not_intact_of_no_page no_page_fullMachine

end Machine

end BbnOS
