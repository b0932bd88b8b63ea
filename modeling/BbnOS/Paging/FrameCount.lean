import BbnOS.Paging.Mapping
import Mathlib.Data.Finset.Card
import Mathlib.Logic.Function.Basic

/-!
# The frames of the page tables

Every path of indices that a mapped address follows gets one table, and one
frame for it.  `Census` is the invariant of the builder: `paths` are the paths
that lead to a table, and the requested frames are these tables, with none left
over.  One step of the descent adds one path (`Census.descend`), whether or not
its table is there already.

The paths of `k` indices are as many as the values of the `9 * k` bits below
bit 48 of the mapped addresses (`card_levelPaths`).  With the invariant this
counts the frames of every sequence of calls (`usesFramesNeeded`).
-/

namespace BbnOS

open ByteMemory RadixTable

/-! ## The bits of an address -/

/-- Bits 47 to `lo` of a virtual address. -/
def addressBits (lo : Nat) (v : UInt64) : Nat := v.toNat / 2 ^ lo % 2 ^ (48 - lo)

/-- The number of values that bits 47 to `lo` of the mapped addresses take. -/
def distinctBits (lo : Nat) (maps : List (UInt64 × UInt64)) : Nat :=
  (maps.map fun vp => addressBits lo vp.1).toFinset.card

/-- The number of tables below the PML4 that the mapped addresses need. -/
def tablesNeeded (maps : List (UInt64 × UInt64)) : Nat :=
  distinctBits 39 maps + distinctBits 30 maps + distinctBits 21 maps

/-- The paths of `k` indices that the mapped addresses follow. -/
def levelPaths (k : Nat) (maps : List (UInt64 × UInt64)) : Finset (List (Fin 512)) :=
  (maps.map fun vp => (pathOf vp.1).take k).toFinset

/-- All paths that lead to a table. -/
def tablePaths (maps : List (UInt64 × UInt64)) : Finset (List (Fin 512)) :=
  levelPaths 1 maps ∪ (levelPaths 2 maps ∪ levelPaths 3 maps)

theorem mem_levelPaths {k : Nat} {maps : List (UInt64 × UInt64)} {q : List (Fin 512)} :
    q ∈ levelPaths k maps ↔ ∃ vp ∈ maps, (pathOf vp.1).take k = q := by
  rw [levelPaths, List.mem_toFinset, List.mem_map]

theorem levelPaths_concat (k : Nat) (maps : List (UInt64 × UInt64)) (vp : UInt64 × UInt64) :
    levelPaths k (maps ++ [vp]) = insert ((pathOf vp.1).take k) (levelPaths k maps) := by
  apply Finset.ext
  intro q
  rw [Finset.mem_insert, mem_levelPaths, mem_levelPaths]
  simp only [List.mem_append, List.mem_singleton]
  constructor
  · intro ⟨up, hup, hq⟩
    rcases hup with hup | hup
    · exact Or.inr ⟨up, hup, hq⟩
    · rw [hup] at hq
      exact Or.inl hq.symm
  · intro hq
    rcases hq with hq | ⟨up, hup, hq⟩
    · exact ⟨vp, Or.inr rfl, hq.symm⟩
    · exact ⟨up, Or.inl hup, hq⟩

/-- One more call adds the three paths of its address. -/
theorem tablePaths_concat (maps : List (UInt64 × UInt64)) (vp : UInt64 × UInt64) :
    tablePaths (maps ++ [vp]) =
      insert ((pathOf vp.1).take 3) (insert ((pathOf vp.1).take 2)
        (insert ((pathOf vp.1).take 1) (tablePaths maps))) := by
  rw [tablePaths, levelPaths_concat, levelPaths_concat, levelPaths_concat, tablePaths,
    Finset.insert_union, Finset.insert_union, Finset.union_insert, Finset.union_insert,
    Finset.union_insert, Finset.insert_comm ((pathOf vp.1).take 1),
    Finset.insert_comm ((pathOf vp.1).take 1), Finset.insert_comm ((pathOf vp.1).take 2)]

/-- The paths of a mapped address lead to tables. -/
theorem take_mem_tablePaths {maps : List (UInt64 × UInt64)} {vp : UInt64 × UInt64}
    (h : vp ∈ maps) {k : Nat} (hk : k = 3 ∨ k = 2 ∨ k = 1) :
    (pathOf vp.1).take k ∈ tablePaths maps := by
  have hlevel : (pathOf vp.1).take k ∈ levelPaths k maps := mem_levelPaths.mpr ⟨vp, h, rfl⟩
  rw [tablePaths, Finset.mem_union, Finset.mem_union]
  rcases hk with rfl | rfl | rfl
  · exact Or.inr (Or.inr hlevel)
  · exact Or.inr (Or.inl hlevel)
  · exact Or.inl hlevel

theorem length_of_mem_levelPaths {k : Nat} (hk : k ≤ 3) {maps : List (UInt64 × UInt64)}
    {q : List (Fin 512)} (hq : q ∈ levelPaths k maps) : q.length = k := by
  obtain ⟨vp, _, rfl⟩ := mem_levelPaths.mp hq
  rw [List.length_take, length_pathOf]
  exact Nat.min_eq_left hk

/-- Paths of different lengths are different. -/
theorem disjoint_levelPaths {j k : Nat} (hj : j ≤ 3) (hk : k ≤ 3) (hne : j ≠ k)
    (maps : List (UInt64 × UInt64)) : Disjoint (levelPaths j maps) (levelPaths k maps) := by
  rw [Finset.disjoint_left]
  intro q hqj hqk
  exact hne ((length_of_mem_levelPaths hj hqj).symm.trans (length_of_mem_levelPaths hk hqk))

/-- The first `k` indices of an address are the `9 * k` bits below bit 48. -/
theorem take_pathOf_eq_iff {k : Nat} (hk : k ≤ 3) {v w : UInt64} :
    (pathOf v).take k = (pathOf w).take k ↔
      addressBits (48 - 9 * k) v = addressBits (48 - 9 * k) w := by
  have hcases : k = 0 ∨ k = 1 ∨ k = 2 ∨ k = 3 := by omega
  simp only [pathOf, indexBits, addressBits]
  rcases hcases with rfl | rfl | rfl | rfl
  · simp [Nat.mod_one]
  · simp
  · simp
    omega
  · simp
    omega

/-- A list has no more values of `g` than of an `f` that determines `g`. -/
private theorem card_map_le_of_factors {α β γ : Type} [DecidableEq β] [DecidableEq γ]
    [Inhabited γ] {f : α → β} {g : α → γ} (l : List α) (h : g.FactorsThrough f) :
    (l.map g).toFinset.card ≤ (l.map f).toFinset.card := by
  have himage : (l.map g).toFinset = (l.map f).toFinset.image (Function.extend f g default) := by
    apply Finset.ext
    intro c
    simp [h.extend_apply]
  rw [himage]
  exact Finset.card_image_le

theorem card_levelPaths {k : Nat} (hk : k ≤ 3) (maps : List (UInt64 × UInt64)) :
    (levelPaths k maps).card = distinctBits (48 - 9 * k) maps := by
  apply Nat.le_antisymm
  · exact card_map_le_of_factors maps fun _ _ h => (take_pathOf_eq_iff hk).mpr h
  · exact card_map_le_of_factors maps fun _ _ h => (take_pathOf_eq_iff hk).mp h

/-- There is one path for every table that is needed. -/
theorem card_tablePaths (maps : List (UInt64 × UInt64)) :
    (tablePaths maps).card = tablesNeeded maps := by
  have h₁₂ := disjoint_levelPaths (j := 1) (k := 2) (by omega) (by omega) (by omega) maps
  have h₁₃ := disjoint_levelPaths (j := 1) (k := 3) (by omega) (by omega) (by omega) maps
  have h₂₃ := disjoint_levelPaths (j := 2) (k := 3) (by omega) (by omega) (by omega) maps
  rw [tablePaths, Finset.card_union_of_disjoint (Finset.disjoint_union_right.mpr ⟨h₁₂, h₁₃⟩),
    Finset.card_union_of_disjoint h₂₃, card_levelPaths (by omega), card_levelPaths (by omega),
    card_levelPaths (by omega), ← Nat.add_assoc]
  rfl

namespace Machine

/-! ## The frames that the calls are answered with -/

/-- Every request of the calls is answered with a fresh frame: no two frames are
the same, none is the PML4, a page of the bitmap or `NULL`, and each was free
before the calls. -/
structure Supplied (pml4 : UInt64) (s s' : Machine) : Prop where
  fresh : Fresh (pml4 :: framesSince s.requested.length s') s'
  ne_null : NULL ∉ framesSince s.requested.length s'
  free : ∀ f ∈ framesSince s.requested.length s', s.marked (pageOf f) = false

/-- What holds of the later frames holds of the earlier ones. -/
theorem Supplied.of_grows {pml4 : UInt64} {s₀ s s' : Machine} (h : Grows s s')
    (hs : Supplied pml4 s₀ s') : Supplied pml4 s₀ s := by
  have hsub := (framesSince_of_grows s₀.requested.length h).subset
  exact ⟨Fresh.of_grows [pml4] h hs.fresh, fun hnull => hs.ne_null (hsub hnull),
    fun f hf => hs.free f (hsub hf)⟩

/-- The pages that were set since `s₀` are those of the requested frames, and
these went to the used memory. -/
structure Accounted (s₀ s : Machine) : Prop where
  aligned : ∀ f ∈ framesSince s₀.requested.length s, f.toNat % 4096 = 0
  marked : ∀ p, p < s.bits → s.marked p = true →
    s₀.marked p = true ∨ ∃ f ∈ framesSince s₀.requested.length s, pageOf f = p
  used : s.memInfo.usedMemory =
    s₀.memInfo.usedMemory + UInt64.ofNat (4096 * (framesSince s₀.requested.length s).length)

theorem Accounted.refl (s : Machine) : Accounted s s := by
  have hnil : framesSince s.requested.length s = [] := List.drop_length
  refine ⟨?_, fun p _ hmark => Or.inl hmark, ?_⟩
  · rw [hnil]
    simp
  · rw [hnil]
    simp

/-- Two frames on the same page are the same. -/
theorem eq_of_pageOf_eq {a b : UInt64} (ha : a.toNat % 4096 = 0) (hb : b.toNat % 4096 = 0)
    (h : pageOf a = pageOf b) : a = b := by
  rw [pageOf_eq, pageOf_eq] at h
  rw [← UInt64.toNat_inj]
  omega

/-- A fresh frame was found on a page of the address space: on a page above it
the loop finds a page again that is already taken. -/
theorem Accounted.lt_of_fresh {s₀ s : Machine} {p : Nat} (h : Accounted s₀ s)
    (hp : s.firstClear = some p) (hfree : s₀.marked (pageOf s.requestPage.1) = false)
    (hnew : s.requestPage.1 ∉ framesSince s₀.requested.length s) : p < 2 ^ 52 := by
  obtain ⟨hlt, _, hbelow⟩ := firstClear_eq_some_iff.mp hp
  by_contra hge
  have hpage : pageOf s.requestPage.1 < p := Nat.lt_of_lt_of_le (pageOf_lt _) (Nat.not_lt.mp hge)
  have hbits : pageOf s.requestPage.1 < s.bits :=
    Nat.lt_trans hpage (Nat.lt_of_lt_of_le hlt s.scanned_le)
  rcases h.marked _ hbits (hbelow _ hpage) with hold | ⟨f, hf, hpf⟩
  · rw [hfree] at hold
    cases hold
  · rw [eq_of_pageOf_eq (h.aligned f hf) (requestPage_aligned s) hpf] at hf
    exact hnew hf

section Step

variable {pml4 : UInt64} {s₀ s : Machine} {path : List (Fin 512)} {f : BitVec 52} {i : Fin 512}

section New

variable (h : Accounted s₀ s) (hgrows : Grows s₀ s) (ht : Tables pml4 s₀.requested.length s)
  (hf : Reached next 3 (ent s.ram) (frameOf pml4) f)
  (hs : Supplied pml4 s₀ (newPageTable (slot f i) s))

include h hgrows hs

/-- The page of a new table goes to the used memory. -/
theorem Accounted.used_newPageTable :
    (newPageTable (slot f i) s).memInfo.usedMemory = s.memInfo.usedMemory + 4096 := by
  have hframes := framesSince_newPageTable (s := s) (slot f i) hgrows.requested.length_le
  have hmem : s.requestPage.1 ∈ framesSince s₀.requested.length (newPageTable (slot f i) s) := by
    rw [hframes]
    simp
  have hnodup := hs.fresh.nodup
  rw [hframes, ← List.cons_append, List.nodup_append] at hnodup
  have hnew : s.requestPage.1 ∉ framesSince s₀.requested.length s := fun hin =>
    hnodup.2.2 _ (List.mem_cons_of_mem _ hin) _ (List.mem_singleton_self _) rfl
  rcases hp : s.firstClear with _ | p
  · rw [(requestPage_of_firstClear_none hp).1] at hmem
    exact absurd hmem hs.ne_null
  · have hlt := h.lt_of_fresh hp (hs.free _ hmem) hnew
    have hinfo : (newPageTable (slot f i) s).memInfo = s.memInfo.lock :=
      (requestPage_of_firstClear hp hlt).2.2
    rw [hinfo, MemDesc.usedMemory_lock]

include ht hf

/-- A new table takes one page. -/
theorem Accounted.add : Accounted s₀ (newPageTable (slot f i) s) := by
  have hbase := hgrows.requested.length_le
  have hframes := framesSince_newPageTable (s := s) (slot f i) hbase
  constructor
  · intro g hg
    rw [hframes, List.mem_append, List.mem_singleton] at hg
    rcases hg with hg | hg
    · exact h.aligned g hg
    · rw [hg]
      exact requestPage_aligned s
  · intro p hp hmark
    rw [(newPageTable_grows (slot f i) s).bits_eq] at hp
    rw [marked_newPageTable_eq ht hbase hs.fresh hf hp] at hmark
    rw [hframes]
    rcases marked_of_marked_requestPage hp hmark with hold | hnew
    · rcases h.marked p hp hold with hold | ⟨g, hg, hpg⟩
      · exact Or.inl hold
      · exact Or.inr ⟨g, List.mem_append_left _ hg, hpg⟩
    · exact Or.inr ⟨s.requestPage.1, by simp, hnew⟩
  · rw [h.used_newPageTable hgrows hs, h.used, hframes, List.length_append,
      List.length_singleton, Nat.mul_add, UInt64.ofNat_add, UInt64.add_assoc]
    rfl

end New

/-- The store of the last level changes no bit and takes no page. -/
theorem Accounted.store {g : BitVec 52} (h : Accounted s₀ s)
    (ht : Tables pml4 s₀.requested.length s)
    (hg : Reached next 3 (ent s.ram) (frameOf pml4) g)
    (hfresh : Fresh (pml4 :: framesSince s₀.requested.length s) s) (physMem : UInt64) :
    Accounted s₀ (storeEntry (slot g i) physMem s) := by
  refine ⟨h.aligned, fun p hp hmark => h.marked p hp ?_, h.used⟩
  have hsame : (storeEntry (slot g i) physMem s).marked p = s.marked p :=
    marked_congr hp fun a ha => bytes_write_of_not_inRange _ _ _
      (hfresh.not_inRange (Grows.refl s) (ht.owned g hg) ha)
  exact hsame.symm.trans hmark

/-! ## The census of the tables -/

/-- The paths of `paths` are those that lead to a table below the PML4, and
the requested frames are these tables. -/
structure Census (pml4 : UInt64) (s₀ : Machine) (paths : Finset (List (Fin 512))) (s : Machine) :
    Prop where
  grows : Grows s₀ s
  tables : Tables pml4 s₀.requested.length s
  accounted : Accounted s₀ s
  reached : ∀ q, q ≠ [] → q.length ≤ 3 →
    ((table next (ent s.ram) (frameOf pml4) q).isSome = true ↔ q ∈ paths)
  bounded : ∀ q ∈ paths, q ≠ [] ∧ q.length ≤ 3
  frames : ∀ a ∈ framesSince s₀.requested.length s,
    ∃ q ∈ paths, table next (ent s.ram) (frameOf pml4) q = some (frameOf a)
  count : (framesSince s₀.requested.length s).length = paths.card

variable {paths : Finset (List (Fin 512))}

/-- A new table adds its path. -/
theorem Census.add (h : Census pml4 s₀ paths s)
    (hp : table next (ent s.ram) (frameOf pml4) path = some f) (hlen : path.length < 3)
    (habsent : (ent s.ram f i).present = false)
    (hs : Supplied pml4 s₀ (newPageTable (slot f i) s)) :
    Census pml4 s₀ (insert (path ++ [i]) paths) (newPageTable (slot f i) s) := by
  have hbase := h.grows.requested.length_le
  have hempty : next (ent s.ram f i) = none := next_eq_none.mpr habsent
  have hframes := framesSince_newPageTable (s := s) (slot f i) hbase
  obtain ⟨hdescends, hself⟩ := newPageTable_spec h.tables hbase hs.fresh hp hlen habsent
  have hother : ∀ q : List (Fin 512), q.length ≤ 3 → q ≠ path ++ [i] →
      table next (ent (newPageTable (slot f i) s).ram) (frameOf pml4) q =
        table next (ent s.ram) (frameOf pml4) q := fun q hq hne =>
    table_newPageTable_of_ne h.tables hbase hs.fresh hp hlen hempty hq hne
  have hne : path ++ [i] ≠ [] := by simp
  have hlen' : (path ++ [i]).length ≤ 3 := by
    rw [List.length_append]
    exact hlen
  have hnew : path ++ [i] ∉ paths := by
    intro hin
    have hsome := (h.reached _ hne hlen').mpr hin
    rw [table_concat, hp, Option.bind_some, hempty] at hsome
    cases hsome
  refine ⟨h.grows.trans (newPageTable_grows _ s), hdescends.tables, ?_, ?_, ?_, ?_, ?_⟩
  · exact h.accounted.add h.grows h.tables ⟨path, hlen.le, hp⟩ hs
  · intro q hq hlenq
    rw [Finset.mem_insert]
    by_cases heq : q = path ++ [i]
    · rw [heq, hself]
      simp
    · rw [hother q hlenq heq, h.reached q hq hlenq]
      simp [heq]
  · intro q hq
    rcases Finset.mem_insert.mp hq with heq | hq
    · rw [heq]
      exact ⟨hne, hlen'⟩
    · exact h.bounded q hq
  · intro a ha
    rw [hframes, List.mem_append, List.mem_singleton] at ha
    rcases ha with ha | ha
    · obtain ⟨q, hq, htable⟩ := h.frames a ha
      refine ⟨q, Finset.mem_insert_of_mem hq, ?_⟩
      rw [hother q (h.bounded q hq).2, htable]
      intro heq
      rw [heq] at hq
      exact hnew hq
    · rw [ha]
      exact ⟨path ++ [i], Finset.mem_insert_self _ _, hself⟩
  · rw [hframes, List.length_append, List.length_singleton, h.count,
      Finset.card_insert_of_notMem hnew]

/-- One step of the descent adds the path that it follows.  Where the table is
present, the path is there already. -/
theorem Census.descend (h : Census pml4 s₀ paths s)
    (hp : table next (ent s.ram) (frameOf pml4) path = some f) (hlen : path.length < 3)
    (hs : Supplied pml4 s₀ (getNextPageTable (slot f i) s).2) :
    Census pml4 s₀ (insert (path ++ [i]) paths) (getNextPageTable (slot f i) s).2 := by
  rcases getNextPageTable_cases (slot f i) s with ⟨hpresent, heq⟩ | ⟨habsent, heq⟩
  · have hlen' : (path ++ [i]).length ≤ 3 := by
      rw [List.length_append]
      exact hlen
    have hin : path ++ [i] ∈ paths := by
      refine (h.reached _ (by simp) hlen').mp ?_
      rw [table_concat, hp, Option.bind_some, isSome_next]
      exact hpresent
    rw [heq, Finset.insert_eq_of_mem hin]
    exact h
  · rw [heq] at hs ⊢
    exact h.add hp hlen habsent hs

/-- The store of the last level changes no table. -/
theorem Census.store {g : BitVec 52} (h : Census pml4 s₀ paths s)
    (hp : table next (ent s.ram) (frameOf pml4) path = some g) (hlen : path.length = 3)
    (hfresh : Fresh (pml4 :: framesSince s₀.requested.length s) s) (physMem : UInt64) :
    Census pml4 s₀ paths (storeEntry (slot g i) physMem s) := by
  have hkeep : Keeps next 3 (ent s.ram) (ent (storeEntry (slot g i) physMem s).ram)
      (frameOf pml4) g i := fun m _ j hj => ent_write_of_ne _ _ hj
  have htable : ∀ q : List (Fin 512), q.length ≤ 3 →
      table next (ent (storeEntry (slot g i) physMem s).ram) (frameOf pml4) q =
        table next (ent s.ram) (frameOf pml4) q := fun q hq =>
    table_store h.tables.separated hp hlen hkeep hq
  refine ⟨h.grows.trans (storeEntry_grows _ _ _), ⟨?_, ?_⟩, ?_, ?_, h.bounded, ?_, h.count⟩
  · exact separated_store h.tables.separated hp hlen hkeep
  · exact fun n hn => h.tables.owned n (reached_store h.tables.separated hp hlen hkeep hn)
  · exact h.accounted.store h.tables ⟨path, hlen.le, hp⟩ hfresh physMem
  · intro q hq hlenq
    rw [htable q hlenq]
    exact h.reached q hq hlenq
  · intro a ha
    obtain ⟨q, hq, hqa⟩ := h.frames a ha
    exact ⟨q, hq, (htable q (h.bounded q hq).2).trans hqa⟩

end Step

/-! ## One call, and sequences of calls -/

section Call

variable {ptm : PageTableManager} {s₀ s : Machine} {paths : Finset (List (Fin 512))}
  {virtMem physMem : UInt64}

/-- One call adds the three paths of its address. -/
theorem Census.call (haligned : ptm.pml4.toNat % 4096 = 0) (h : Census ptm.pml4 s₀ paths s)
    (hs : Supplied ptm.pml4 s₀ (pageTableManagerMapMemory ptm virtMem physMem s)) :
    Census ptm.pml4 s₀
      (insert ((pathOf virtMem).take 3) (insert ((pathOf virtMem).take 2)
        (insert ((pathOf virtMem).take 1) paths)))
      (pageTableManagerMapMemory ptm virtMem physMem s) := by
  have hbase := h.grows.requested.length_le
  rw [pageTableManagerMapMemory_eq] at hs ⊢
  have hs₃ := hs.of_grows (storeEntry_grows _ _ _)
  have hs₂ := hs₃.of_grows (thirdTable_grows ptm virtMem s)
  have hs₁ := hs₂.of_grows (secondTable_grows ptm virtMem s)
  obtain ⟨_, g₁, hg₁, htable₁⟩ := firstTable_spec haligned h.tables hbase hs₁.fresh
  obtain ⟨_, g₂, hg₂, htable₂⟩ := secondTable_spec haligned h.tables hbase hs₂.fresh
  obtain ⟨_, g₃, hg₃, htable₃⟩ := thirdTable_spec haligned h.tables hbase hs₃.fresh
  have h₁ : Census ptm.pml4 s₀ (insert ((pathOf virtMem).take 1) paths)
      (firstTable ptm virtMem s).2 := by
    rw [firstTable_eq haligned] at hs₁ ⊢
    exact h.descend table_nil (Nat.succ_pos 2) hs₁
  have h₂ : Census ptm.pml4 s₀ (insert ((pathOf virtMem).take 2)
      (insert ((pathOf virtMem).take 1) paths)) (secondTable ptm virtMem s).2 := by
    rw [secondTable_eq hg₁] at hs₂ ⊢
    exact h₁.descend htable₁ (show 1 < 3 by omega) hs₂
  have h₃ : Census ptm.pml4 s₀ (insert ((pathOf virtMem).take 3)
      (insert ((pathOf virtMem).take 2) (insert ((pathOf virtMem).take 1) paths)))
      (thirdTable ptm virtMem s).2 := by
    rw [thirdTable_eq hg₂] at hs₃ ⊢
    exact h₂.descend htable₂ (show 2 < 3 by omega) hs₃
  rw [hg₃]
  exact h₃.store htable₃ (length_pathOf virtMem) hs₃.fresh physMem

/-- A cleared PML4 has no tables below it. -/
theorem census_of_zeroed (haligned : ptm.pml4.toNat % 4096 = 0)
    (hzero : ∀ a, InRange ptm.pml4 4096 a → s.ram.bytes a = 0) :
    Census ptm.pml4 s ∅ s := by
  have hnil : framesSince s.requested.length s = [] := List.drop_length
  refine ⟨Grows.refl s, (built_of_zeroed haligned hzero).tables, Accounted.refl s, ?_, ?_, ?_, ?_⟩
  · intro q hq _
    rw [table_of_empty (next_of_zeroed haligned hzero) hq]
    simp
  · simp
  · rw [hnil]
    simp
  · rw [hnil]
    rfl

/-- The tables after a sequence of calls are those of the paths of its addresses. -/
theorem census_mapAll (haligned : ptm.pml4.toNat % 4096 = 0)
    (hzero : ∀ a, InRange ptm.pml4 4096 a → s.ram.bytes a = 0)
    {maps : List (UInt64 × UInt64)} (hs : Supplied ptm.pml4 s (mapAll ptm maps s)) :
    Census ptm.pml4 s (tablePaths maps) (mapAll ptm maps s) := by
  induction maps using List.reverseRecOn with
  | nil => exact census_of_zeroed haligned hzero
  | append_singleton maps vp ih =>
    rw [mapAll_concat] at hs ⊢
    rw [tablePaths_concat]
    exact (ih (hs.of_grows (pageTableManagerMapMemory_grows _ _ _ _))).call haligned hs

end Call

/-! ## The frames that a sequence of calls uses -/

/-- Entry `l.2` of the table in frame `l.1` is present and refers to the table
at `a`.  The tables of the last level refer to pages and not to tables. -/
structure LinksTo (ram : ByteMemory) (pml4 : UInt64) (l : BitVec 52 × Fin 512) (a : UInt64) :
    Prop where
  path : ∃ p : List (Fin 512), p.length < 3 ∧
    table next (ent ram) (frameOf pml4) p = some l.1
  present : (ent ram l.1 l.2).present = true
  target : (ent ram l.1 l.2).target = a

/-- What the calls `maps` use: as many frames as there are tables to build,
all different, each of them linked from one entry. -/
structure UsesFramesNeeded (ptm : PageTableManager) (maps : List (UInt64 × UInt64))
    (s : Machine) : Prop where
  count : (framesSince s.requested.length (mapAll ptm maps s)).length = tablesNeeded maps
  used : (mapAll ptm maps s).memInfo.usedMemory =
    s.memInfo.usedMemory + UInt64.ofNat (4096 * tablesNeeded maps)
  distinct : (ptm.pml4 :: framesSince s.requested.length (mapAll ptm maps s)).Nodup
  linked : ∀ a ∈ framesSince s.requested.length (mapAll ptm maps s),
    ∃! l, LinksTo (mapAll ptm maps s).ram ptm.pml4 l a
  root : ∀ l, ¬ LinksTo (mapAll ptm maps s).ram ptm.pml4 l ptm.pml4

section Links

variable {pml4 : UInt64} {s₀ s : Machine} {paths : Finset (List (Fin 512))}

/-- An entry links the table of a path of one index more. -/
theorem LinksTo.exists_table {ram : ByteMemory} {l : BitVec 52 × Fin 512} {a : UInt64}
    (h : LinksTo ram pml4 l a) :
    ∃ path : List (Fin 512), path.length < 3 ∧
      table next (ent ram) (frameOf pml4) path = some l.1 ∧
      table next (ent ram) (frameOf pml4) (path ++ [l.2]) = some (frameOf a) := by
  obtain ⟨path, hlen, hpath⟩ := h.path
  refine ⟨path, hlen, hpath, ?_⟩
  have hnext : next (ent ram l.1 l.2) = some (ent ram l.1 l.2).address := if_pos h.present
  rw [table_concat, hpath, Option.bind_some, hnext, ← h.target, target_eq,
    frameOf_frameAddr]

theorem existsUnique_linksTo (h : Census pml4 s₀ paths s) {a : UInt64}
    (ha : a ∈ framesSince s₀.requested.length s) : ∃! l, LinksTo s.ram pml4 l a := by
  obtain ⟨q, hq, htable⟩ := h.frames a ha
  obtain ⟨hne, hlenq⟩ := h.bounded q hq
  obtain ⟨path, i, rfl⟩ := (List.eq_nil_or_concat' q).resolve_left hne
  have hlen : path.length < 3 := by
    rw [List.length_append, List.length_singleton] at hlenq
    exact hlenq
  have htable' := htable
  rw [table_concat, Option.bind_eq_some_iff] at htable'
  obtain ⟨g, hg, hnext⟩ := htable'
  have hpresent : (ent s.ram g i).present = true := by
    rw [← isSome_next, hnext]
    rfl
  have haddress : (ent s.ram g i).address = frameOf a := by
    rw [next, if_pos hpresent] at hnext
    exact Option.some.inj hnext
  refine ⟨(g, i), ⟨⟨path, hlen, hg⟩, hpresent, ?_⟩, ?_⟩
  · show (ent s.ram g i).target = a
    rw [target_eq, haddress, frameAddr_frameOf (h.accounted.aligned a ha)]
  · intro l hl
    obtain ⟨path', hlen', hl₁, hl₂⟩ := hl.exists_table
    have hsame := h.tables.separated _ _ _ (by rw [List.length_append]; exact hlen')
      hlenq hl₂ htable
    obtain ⟨hpath, hindex⟩ := List.append_inj' hsame rfl
    rw [hpath, hg] at hl₁
    exact Prod.ext (Option.some.inj hl₁).symm (List.singleton_inj.mp hindex)

theorem not_linksTo_root (h : Census pml4 s₀ paths s) (l : BitVec 52 × Fin 512) :
    ¬ LinksTo s.ram pml4 l pml4 := by
  intro hl
  obtain ⟨path, hlen, _, htable⟩ := hl.exists_table
  have hsame := h.tables.separated _ [] _ (by rw [List.length_append]; exact hlen)
    (Nat.zero_le 3) htable table_nil
  simp at hsame

end Links

section Run

variable {ptm : PageTableManager} {s : Machine} {maps : List (UInt64 × UInt64)}

/-- Mapping a page that was mapped before requests no frame. -/
theorem requested_of_mapped (haligned : ptm.pml4.toNat % 4096 = 0)
    (hzero : ∀ a, InRange ptm.pml4 4096 a → s.ram.bytes a = 0) {vp : UInt64 × UInt64}
    (hs : Supplied ptm.pml4 s (mapAll ptm (maps ++ [vp]) s))
    (hmapped : ∃ up ∈ maps, pageKey up.1 = pageKey vp.1) :
    (mapAll ptm (maps ++ [vp]) s).requested = (mapAll ptm maps s).requested := by
  obtain ⟨up, hup, hkey⟩ := hmapped
  have hpath : pathOf up.1 = pathOf vp.1 := (pageKey_eq_iff.mp hkey).1
  have hafter := census_mapAll haligned hzero hs
  rw [mapAll_concat] at hs hafter ⊢
  have hgrows := pageTableManagerMapMemory_grows ptm vp.1 vp.2 (mapAll ptm maps s)
  have hbefore := census_mapAll haligned hzero (hs.of_grows hgrows)
  have hcard := hafter.count
  rw [tablePaths_concat, ← hpath,
    Finset.insert_eq_of_mem (take_mem_tablePaths hup (Or.inr (Or.inr rfl))),
    Finset.insert_eq_of_mem (take_mem_tablePaths hup (Or.inr (Or.inl rfl))),
    Finset.insert_eq_of_mem (take_mem_tablePaths hup (Or.inl rfl)),
    ← hbefore.count, framesSince, framesSince, List.length_drop, List.length_drop] at hcard
  have hlen := hbefore.grows.requested.length_le
  have hlen' := hafter.grows.requested.length_le
  exact (hgrows.requested.eq_of_length (by omega)).symm

/-- In every sequence of calls that is supplied with fresh frames, the builder
uses the frames it needs, and none for a page that is mapped already. -/
theorem usesFramesNeeded (haligned : ptm.pml4.toNat % 4096 = 0)
    (hzero : ∀ a, InRange ptm.pml4 4096 a → s.ram.bytes a = 0)
    (hs : Supplied ptm.pml4 s (mapAll ptm maps s)) :
    UsesFramesNeeded ptm maps s ∧
    ∀ before vp, before ++ [vp] <+: maps → (∃ up ∈ before, pageKey up.1 = pageKey vp.1) →
      (mapAll ptm (before ++ [vp]) s).requested = (mapAll ptm before s).requested := by
  have h := census_mapAll haligned hzero hs
  have hcount : (framesSince s.requested.length (mapAll ptm maps s)).length =
      tablesNeeded maps := h.count.trans (card_tablePaths maps)
  refine ⟨⟨hcount, ?_, hs.fresh.nodup, ?_, ?_⟩, ?_⟩
  · rw [h.accounted.used, hcount]
  · exact fun a ha => existsUnique_linksTo h ha
  · exact not_linksTo_root h
  · intro before vp hpre hmapped
    exact requested_of_mapped haligned hzero (hs.of_grows (mapAll_grows_of_initial ptm hpre s))
      hmapped

/-- Three frames for the first page, and none when it is mapped again. -/
theorem usesFramesNeeded_sample :
    UsesFramesNeeded { pml4 := 0x8000 } [(0x200000, 0x5000), (0x200abc, 0x6000)] sampleMachine ∧
    (mapAll { pml4 := 0x8000 } [(0x200000, 0x5000), (0x200abc, 0x6000)] sampleMachine).requested =
      (mapAll { pml4 := 0x8000 } [(0x200000, 0x5000)] sampleMachine).requested := by
  have hrequested : framesSince sampleMachine.requested.length
      (mapAll { pml4 := 0x8000 } [(0x200000, 0x5000), (0x200abc, 0x6000)] sampleMachine) =
      [0x1000, 0x2000, 0x3000] := by decide +kernel
  have hsupplied : Supplied 0x8000 sampleMachine
      (mapAll { pml4 := 0x8000 } [(0x200000, 0x5000), (0x200abc, 0x6000)] sampleMachine) := by
    refine ⟨⟨?_, fun f hf => ?_⟩, ?_, ?_⟩
    · rw [hrequested]
      decide
    · rw [(mapAll_grows _ _ _).memBitMap]
      rw [hrequested] at hf
      have hbelow : ∀ f ∈ [(0x8000 : UInt64), 0x1000, 0x2000, 0x3000],
          f.toNat + 4096 ≤ (0x100000 : UInt64).toNat := by simp
      exact disjoint_of_toNat_le (hbelow f hf) (by decide)
    · rw [hrequested]
      decide
    · rw [hrequested, List.forall_mem_cons, List.forall_mem_cons, List.forall_mem_singleton]
      exact ⟨by decide +kernel, by decide +kernel, by decide +kernel⟩
  have h := @usesFramesNeeded { pml4 := 0x8000 } sampleMachine _ (by decide) sampleMachine_zeroed
    hsupplied
  exact ⟨h.1, h.2 [(0x200000, 0x5000)] (0x200abc, 0x6000) (List.prefix_refl _)
    ⟨_, List.mem_singleton_self _, by decide +kernel⟩⟩

end Run

end Machine

end BbnOS
