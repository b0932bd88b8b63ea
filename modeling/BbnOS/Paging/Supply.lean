import BbnOS.Paging.FrameCount

/-!
# Page tables in the frames of the allocator

`Mapping` takes the requested frames to be fresh.  Here they are the ones that
`requestPage` finds in the bitmap, and it is the state of the allocator that makes
them fresh: the pages of the bitmap and of the tables are marked, and there are at
least as many clear pages as tables to build.

`Supplying` is this invariant, and `Tracking` says besides which pages are marked.  A
call of the builder keeps both (`Tracking.call`), and so does a lock of other pages
between the calls (`Tracking.lock`), where the pages to be locked are not counted as
clear from the start.  Apart from the bitmap the calls write to frames alone, each of
which was clear when they began, and was the lowest clear page when it was taken: so
with enough clear pages below a bound all frames are below it (`Tracking.below`).
-/

namespace BbnOS

open ByteMemory RadixTable

namespace Machine

/-- The clear pages that are not in `F`, whether or not there is memory behind them. -/
def spare (F : Nat → Prop) [DecidablePred F] (s : Machine) : Finset Nat :=
  (Finset.range s.bits).filter fun p => s.marked p = false ∧ ¬ F p

/-- The paths of `T` that lead to a table. -/
def builtPaths (pml4 : UInt64) (T : Finset (List (Fin 512))) (s : Machine) :
    Finset (List (Fin 512)) :=
  T.filter fun q => (table next (ent s.ram) (frameOf pml4) q).isSome = true

/-- The pages that hold a byte of the bitmap are marked. -/
def BitmapTaken (s : Machine) : Prop :=
  ∀ a, s.memInfo.memBitMap.touched a → pageOf a < s.bits → s.marked (pageOf a) = true

/-- The frame is a marked page. -/
def FrameTaken (s : Machine) (f : UInt64) : Prop :=
  f.toNat % 4096 = 0 ∧ pageOf f < s.bits ∧ s.marked (pageOf f) = true

/-- What the builder of the tables of `T` keeps, from the state `start` on, in which
the PML4 is there. -/
structure Supplying (pml4 : UInt64) (F : Nat → Prop) [DecidablePred F]
    (T : Finset (List (Fin 512))) (start s : Machine) : Prop where
  grows : Grows start s
  tables : Tables pml4 start.requested.length s
  fresh : Fresh (pml4 :: framesSince start.requested.length s) s
  bitmap : BitmapTaken s
  taken : ∀ f ∈ pml4 :: framesSince start.requested.length s, FrameTaken s f
  kept : ∀ p, p < s.bits → start.marked p = true → s.marked p = true
  free : ∀ f ∈ framesSince start.requested.length s, start.marked (pageOf f) = false
  lowest : ∀ f ∈ framesSince start.requested.length s, ∀ p, p < pageOf f → s.marked p = true
  reached : ∀ q, q ≠ [] → q.length ≤ 3 →
    (table next (ent s.ram) (frameOf pml4) q).isSome = true → q ∈ T
  count : (framesSince start.requested.length s).length = (builtPaths pml4 T s).card
  enough : T.card ≤ (spare F s).card + (framesSince start.requested.length s).length
  bytes : ∀ a, ¬ s.memInfo.memBitMap.touched a →
    (∀ f ∈ pml4 :: framesSince start.requested.length s, ¬ InRange f 4096 a) →
    s.ram.bytes a = start.ram.bytes a

/-- The same, and the pages that were marked since `start` are those of the frames and
pages of `F`. -/
structure Tracking (pml4 : UInt64) (F : Nat → Prop) [DecidablePred F]
    (T : Finset (List (Fin 512))) (start s : Machine) : Prop
    extends Supplying pml4 F T start s where
  only : ∀ p, p < s.bits → s.marked p = true → start.marked p = true ∨ F p ∨
    ∃ f ∈ framesSince start.requested.length s, pageOf f = p

section Frames

variable {s : Machine} {p : Nat} {a f : UInt64}

/-- The address of a page that the search finds. -/
theorem requestPage_found (hn : s.Narrow) (hp : s.firstClear = some p) :
    p < s.bits ∧ s.marked p = false ∧ pageOf s.requestPage.1 = p ∧
      s.requestPage.1.toNat = 4096 * p := by
  obtain ⟨hlt, hclear, _⟩ := (firstClear_eq_some hn).mp hp
  have haddr := (requestPage_of_firstClear hp (Nat.lt_of_lt_of_le hlt hn)).1
  refine ⟨hlt, hclear, ?_, haddr⟩
  rw [pageOf_eq, haddr, Nat.mul_div_cancel_left p (by decide)]

/-- A request marks the page that the search finds, and no other one. -/
theorem marked_requestPage_iff (hn : s.Narrow) (hp : s.firstClear = some p) {q : Nat}
    (hq : q < s.bits) : s.requestPage.2.marked q = true ↔ q = p ∨ s.marked q = true := by
  have hpage := pageOf_ofNat_mul (Nat.lt_of_lt_of_le ((firstClear_eq_some hn).mp hp).1 hn)
  have hcov : (∃ r, s.firstClear = some r ∧ q = pageOf (UInt64.ofNat r * 4096)) ↔ q = p := by
    simp only [hp, Option.some.injEq, exists_eq_left', hpage]
  have hmarks := (requestPage_locks s).marked_iff hq
  rw [hcov] at hmarks
  refine hmarks.trans ?_
  by_cases hqp : q = p
  · simp only [hqp, true_and, not_true, false_and, or_false, true_or]
  · simp only [hqp, false_and, not_false_eq_true, true_and, false_or]

/-- The bytes of a frame are those of its page. -/
theorem pageOf_of_inRange (hf : f.toNat % 4096 = 0) (ha : InRange f 4096 a) :
    pageOf a = pageOf f := by
  obtain ⟨k, hk, _, rfl⟩ := exists_offset_of_inRange ha
  have hlt := f.toNat_lt
  rw [pageOf_eq, pageOf_eq, toNat_add_ofNat, Nat.mod_eq_of_lt (by omega)]
  omega

/-- A clear page holds no byte of the bitmap. -/
theorem BitmapTaken.disjoint (h : s.BitmapTaken) (hf : f.toNat % 4096 = 0)
    (hlt : pageOf f < s.bits) (hclear : s.marked (pageOf f) = false) :
    Disjoint f 4096 s.memInfo.memBitMap.buffer (s.memInfo.memBitMap.size.toNat + 1) := by
  intro a ha htouched
  have hpage := pageOf_of_inRange hf ha
  have hmarked := h a htouched (by rw [hpage]; exact hlt)
  rw [hpage, hclear] at hmarked
  cases hmarked

theorem requestPage_disjoint (hn : s.Narrow) (hb : s.BitmapTaken) (hp : s.firstClear = some p) :
    Disjoint s.requestPage.1 4096 s.memInfo.memBitMap.buffer
      (s.memInfo.memBitMap.size.toNat + 1) := by
  obtain ⟨hlt, hclear, hpage, _⟩ := requestPage_found hn hp
  exact hb.disjoint (requestPage_aligned s) (by rw [hpage]; exact hlt) (by rw [hpage]; exact hclear)

end Frames

section Step

variable {pml4 : UInt64} {F : Nat → Prop} [DecidablePred F] {T : Finset (List (Fin 512))}
  {start s : Machine} {path : List (Fin 512)} {f : BitVec 52} {i : Fin 512}

theorem Supplying.narrow (h : Supplying pml4 F T start s) (hn : start.Narrow) : s.Narrow :=
  hn.of_eq h.grows.memBitMap

/-- As long as a table of `T` is missing, there is a page for it. -/
theorem Supplying.exists_clear (h : Supplying pml4 F T start s) (hn : start.Narrow)
    {q : List (Fin 512)} (hq : q ∈ T)
    (hmissing : table next (ent s.ram) (frameOf pml4) q = none) :
    ∃ p, s.firstClear = some p := by
  have hlt : (builtPaths pml4 T s).card < T.card := by
    refine Finset.card_lt_card ((Finset.filter_ssubset).mpr ⟨q, hq, ?_⟩)
    rw [hmissing]
    exact Bool.false_ne_true
  have henough := h.enough
  rw [h.count] at henough
  obtain ⟨p, hp⟩ := Finset.card_pos.mp (show 0 < (spare F s).card by omega)
  obtain ⟨hrange, hclear, _⟩ := Finset.mem_filter.mp hp
  rcases hfirst : s.firstClear with _ | r
  · have hall := (firstClear_eq_none (h.narrow hn)).mp hfirst p (Finset.mem_range.mp hrange)
    rw [hclear] at hall
    cases hall
  · exact ⟨r, rfl⟩

section New

variable (h : Supplying pml4 F T start s) (hn : start.Narrow)
  {p : Nat} (hp : s.firstClear = some p)

include h hn hp

/-- The requested frame is fresh. -/
theorem Supplying.fresh_newPageTable :
    Fresh (pml4 :: framesSince start.requested.length (newPageTable (slot f i) s))
      (newPageTable (slot f i) s) := by
  obtain ⟨hlt, hclear, hpage, haddr⟩ := requestPage_found (h.narrow hn) hp
  have haligned : s.requestPage.1.toNat % 4096 = 0 := requestPage_aligned s
  rw [framesSince_newPageTable _ h.grows.requested.length_le, ← List.cons_append]
  constructor
  · rw [List.nodup_append]
    refine ⟨h.fresh.nodup, List.nodup_singleton _, fun g hg g' hg' heq => ?_⟩
    rw [heq, List.mem_singleton.mp hg'] at hg
    have hmarked := (h.taken _ hg).2.2
    rw [hpage, hclear] at hmarked
    cases hmarked
  · intro g hg
    rw [(newPageTable_grows (slot f i) s).memBitMap]
    rcases List.mem_append.mp hg with hg | hg
    · exact h.fresh.apart g hg
    · rw [List.mem_singleton.mp hg]
      exact h.bitmap.disjoint haligned (by rw [hpage]; exact hlt) (by rw [hpage]; exact hclear)

variable (ht : path.length < 3) (hpath : table next (ent s.ram) (frameOf pml4) path = some f)

include ht hpath

/-- The bits after a new table. -/
theorem Supplying.marked_newPageTable_iff {q : Nat} (hq : q < s.bits) :
    (newPageTable (slot f i) s).marked q = true ↔ q = p ∨ s.marked q = true := by
  rw [marked_newPageTable_eq h.tables h.grows.requested.length_le
    (h.fresh_newPageTable hn hp) ⟨path, ht.le, hpath⟩ hq]
  exact marked_requestPage_iff (h.narrow hn) hp hq

/-- The new table is one more of those that were to be built. -/
theorem Supplying.builtPaths_newPageTable (hT : ∀ q ∈ T, q.length ≤ 3)
    (hempty : next (ent s.ram f i) = none) (hmem : path ++ [i] ∈ T) :
    builtPaths pml4 T (newPageTable (slot f i) s) =
        insert (path ++ [i]) (builtPaths pml4 T s) ∧
      path ++ [i] ∉ builtPaths pml4 T s := by
  have hfresh := h.fresh_newPageTable (f := f) (i := i) hn hp
  have hself := (newPageTable_spec h.tables h.grows.requested.length_le hfresh hpath ht
    (next_eq_none.mp hempty)).2
  have hold : table next (ent s.ram) (frameOf pml4) (path ++ [i]) = none := by
    rw [table_concat, hpath, Option.bind_some, hempty]
  constructor
  · ext q
    rw [builtPaths, builtPaths, Finset.mem_insert, Finset.mem_filter, Finset.mem_filter]
    by_cases hq : q = path ++ [i]
    · rw [hq, hself]
      exact iff_of_true ⟨hmem, rfl⟩ (Or.inl rfl)
    · rw [or_iff_right hq]
      refine and_congr_right fun hqT => ?_
      rw [table_newPageTable_of_ne h.tables h.grows.requested.length_le hfresh hpath ht hempty
        (hT q hqT) hq]
  · intro hin
    have hsome := (Finset.mem_filter.mp hin).2
    rw [hold] at hsome
    cases hsome

end New

/-- A new table for a path of `T`. -/
theorem Supplying.add (h : Supplying pml4 F T start s) (hn : start.Narrow)
    (hT : ∀ q ∈ T, q.length ≤ 3) (hpath : table next (ent s.ram) (frameOf pml4) path = some f)
    (ht : path.length < 3) (habsent : (ent s.ram f i).present = false)
    (hmem : path ++ [i] ∈ T) : Supplying pml4 F T start (newPageTable (slot f i) s) := by
  have hempty : next (ent s.ram f i) = none := next_eq_none.mpr habsent
  obtain ⟨p, hp⟩ := h.exists_clear hn hmem
    (by rw [table_concat, hpath, Option.bind_some, hempty])
  obtain ⟨hlt, hclear, hpage, _⟩ := requestPage_found (h.narrow hn) hp
  have hbase := h.grows.requested.length_le
  have hgrows := newPageTable_grows (slot f i) s
  have hfresh := h.fresh_newPageTable (f := f) (i := i) hn hp
  have hframes := framesSince_newPageTable (s := s) (slot f i) hbase
  have hreached : Reached next 3 (ent s.ram) (frameOf pml4) f := ⟨path, ht.le, hpath⟩
  obtain ⟨hdescends, hself⟩ := newPageTable_spec h.tables hbase hfresh hpath ht habsent
  have hmarked : ∀ q, q < s.bits →
      ((newPageTable (slot f i) s).marked q = true ↔ q = p ∨ s.marked q = true) :=
    fun q hq => h.marked_newPageTable_iff hn hp ht hpath hq
  obtain ⟨hbuilt, hnew⟩ := h.builtPaths_newPageTable hn hp ht hpath hT hempty hmem
  constructor
  case grows => exact h.grows.trans hgrows
  case tables => exact hdescends.tables
  case fresh => exact hfresh
  case bitmap =>
    intro a ha hbits
    rw [hgrows.memBitMap] at ha
    rw [hgrows.bits_eq] at hbits
    exact hdescends.marked _ hbits (h.bitmap a ha hbits)
  case taken =>
    intro g hg
    rw [hframes, ← List.cons_append] at hg
    rw [FrameTaken, hgrows.bits_eq]
    rcases List.mem_append.mp hg with hg | hg
    · obtain ⟨haligned, hbits, hmark⟩ := h.taken g hg
      exact ⟨haligned, hbits, hdescends.marked _ hbits hmark⟩
    · rw [List.mem_singleton.mp hg, hpage]
      exact ⟨requestPage_aligned s, hlt, (hmarked p hlt).mpr (Or.inl rfl)⟩
  case kept =>
    intro q hq hmark
    rw [hgrows.bits_eq] at hq
    exact hdescends.marked q hq (h.kept q hq hmark)
  case free =>
    intro g hg
    rw [hframes] at hg
    rcases List.mem_append.mp hg with hg | hg
    · exact h.free g hg
    · rw [List.mem_singleton.mp hg, hpage]
      refine Bool.eq_false_iff.mpr fun hmark => ?_
      rw [h.kept p hlt hmark] at hclear
      cases hclear
  case lowest =>
    intro g hg q hq
    rw [hframes] at hg
    rcases List.mem_append.mp hg with hg | hg
    · have hbits : q < s.bits :=
        hq.trans (h.taken g (List.mem_cons_of_mem _ hg)).2.1
      exact hdescends.marked q hbits (h.lowest g hg q hq)
    · rw [List.mem_singleton.mp hg, hpage] at hq
      have hbelow := ((firstClear_eq_some (h.narrow hn)).mp hp).2.2 q hq
      exact hdescends.marked q (hq.trans hlt) hbelow
  case reached =>
    intro q hne hlen hsome
    by_cases hq : q = path ++ [i]
    · rw [hq]
      exact hmem
    · rw [table_newPageTable_of_ne h.tables hbase hfresh hpath ht hempty hlen hq] at hsome
      exact h.reached q hne hlen hsome
  case count =>
    rw [hframes, hbuilt, Finset.card_insert_of_notMem hnew, List.length_append, h.count,
      List.length_singleton]
  case enough =>
    have hsub : spare F s ⊆ insert p (spare F (newPageTable (slot f i) s)) := by
      intro q hq
      obtain ⟨hrange, hqclear, hqF⟩ := Finset.mem_filter.mp hq
      have hqlt := Finset.mem_range.mp hrange
      by_cases hqp : q = p
      · exact Finset.mem_insert.mpr (Or.inl hqp)
      · refine Finset.mem_insert_of_mem (Finset.mem_filter.mpr ⟨?_, ?_, hqF⟩)
        · rw [hgrows.bits_eq]
          exact hrange
        · refine Bool.eq_false_iff.mpr fun hmark => ?_
          rcases (hmarked q hqlt).mp hmark with heq | hold
          · exact hqp heq
          · rw [hold] at hqclear
            cases hqclear
    have hcard := (Finset.card_le_card hsub).trans (Finset.card_insert_le _ _)
    have henough := h.enough
    rw [hframes, List.length_append, List.length_singleton]
    omega
  case bytes =>
    intro a ha hout
    rw [hgrows.memBitMap] at ha
    rw [hframes, ← List.cons_append] at hout
    have hf : ¬ InRange (frameAddr f) 4096 a :=
      hout _ (List.mem_append_left _ (h.tables.owned f hreached))
    have hnewframe : ¬ InRange (frameAddr (frameOf s.requestPage.1)) 4096 a := by
      rw [frameAddr_requestPage]
      exact hout _ (List.mem_append_right _ (List.mem_singleton_self _))
    rw [ram_newPageTable, bytes_write_of_not_inRange _ i _ hf,
      bytes_fill_of_not_inRange _ _ hnewframe, bytes_requestPage ha]
    exact h.bytes a ha fun g hg => hout g (List.mem_append_left _ hg)

/-- The frame of a new table is the one page that it marks. -/
theorem Tracking.add (h : Tracking pml4 F T start s) (hn : start.Narrow)
    (hT : ∀ q ∈ T, q.length ≤ 3) (hpath : table next (ent s.ram) (frameOf pml4) path = some f)
    (ht : path.length < 3) (habsent : (ent s.ram f i).present = false)
    (hmem : path ++ [i] ∈ T) : Tracking pml4 F T start (newPageTable (slot f i) s) := by
  have hsupply := h.toSupplying.add hn hT hpath ht habsent hmem
  have hbase := h.grows.requested.length_le
  refine ⟨hsupply, fun p hp hmark => ?_⟩
  rw [(newPageTable_grows (slot f i) s).bits_eq] at hp
  rw [marked_newPageTable_eq h.tables hbase hsupply.fresh ⟨path, ht.le, hpath⟩ hp] at hmark
  rw [framesSince_newPageTable (slot f i) hbase]
  rcases marked_of_marked_requestPage hp hmark with hold | hnew
  · refine (h.only p hp hold).imp_right (Or.imp_right ?_)
    rintro ⟨g, hg, hpage⟩
    exact ⟨g, List.mem_append_left _ hg, hpage⟩
  · exact Or.inr (Or.inr ⟨_, List.mem_append_right _ (List.mem_singleton_self _), hnew⟩)

/-- One step of the descent. -/
theorem Tracking.descend (h : Tracking pml4 F T start s) (hn : start.Narrow)
    (hT : ∀ q ∈ T, q.length ≤ 3) (hpath : table next (ent s.ram) (frameOf pml4) path = some f)
    (ht : path.length < 3) (hmem : path ++ [i] ∈ T) :
    Tracking pml4 F T start (getNextPageTable (slot f i) s).2 := by
  rcases getNextPageTable_cases (slot f i) s with ⟨_, heq⟩ | ⟨habsent, heq⟩ <;> rw [heq]
  · exact h
  · exact h.add hn hT hpath ht habsent hmem

/-- A step that requests nothing, keeps the tables, and marks at most pages of `F`. -/
theorem Supplying.of_quiet {s' : Machine} (h : Supplying pml4 F T start s) (hgrows : Grows s s')
    (hrequested : s'.requested = s.requested)
    (htables : Tables pml4 start.requested.length s')
    (htable : ∀ q : List (Fin 512), q.length ≤ 3 →
      table next (ent s'.ram) (frameOf pml4) q = table next (ent s.ram) (frameOf pml4) q)
    (hT : ∀ q ∈ T, q.length ≤ 3)
    (hmarked : ∀ q, q < s.bits → s.marked q = true → s'.marked q = true)
    (hspare : ∀ q, q < s.bits → ¬ F q → s'.marked q = true → s.marked q = true)
    (hbytes : ∀ a, ¬ s.memInfo.memBitMap.touched a →
      (∀ f ∈ pml4 :: framesSince start.requested.length s, ¬ InRange f 4096 a) →
      s'.ram.bytes a = s.ram.bytes a) : Supplying pml4 F T start s' := by
  have hframes : framesSince start.requested.length s' =
      framesSince start.requested.length s := by rw [framesSince, framesSince, hrequested]
  have hbuilt : builtPaths pml4 T s' = builtPaths pml4 T s := by
    refine Finset.filter_congr fun q hq => ?_
    rw [htable q (hT q hq)]
  have hclear : spare F s' = spare F s := by
    rw [spare, spare, hgrows.bits_eq]
    refine Finset.filter_congr fun q hq => ?_
    have hlt := Finset.mem_range.mp hq
    rw [← Bool.not_eq_true, ← Bool.not_eq_true]
    constructor
    · intro h
      exact ⟨fun hmark => h.1 (hmarked q hlt hmark), h.2⟩
    · intro h
      exact ⟨fun hmark => h.1 (hspare q hlt h.2 hmark), h.2⟩
  constructor
  case grows => exact h.grows.trans hgrows
  case tables => exact htables
  case fresh =>
    rw [hframes]
    refine ⟨h.fresh.nodup, fun f hf => ?_⟩
    rw [hgrows.memBitMap]
    exact h.fresh.apart f hf
  case bitmap =>
    intro a ha hbits
    rw [hgrows.memBitMap] at ha
    rw [hgrows.bits_eq] at hbits
    exact hmarked _ hbits (h.bitmap a ha hbits)
  case taken =>
    intro f hf
    rw [hframes] at hf
    obtain ⟨haligned, hbits, hmark⟩ := h.taken f hf
    rw [FrameTaken, hgrows.bits_eq]
    exact ⟨haligned, hbits, hmarked _ hbits hmark⟩
  case kept =>
    intro q hq hmark
    rw [hgrows.bits_eq] at hq
    exact hmarked q hq (h.kept q hq hmark)
  case free =>
    rw [hframes]
    exact h.free
  case lowest =>
    intro f hf q hq
    rw [hframes] at hf
    have hbits : q < s.bits := hq.trans (h.taken f (List.mem_cons_of_mem _ hf)).2.1
    exact hmarked q hbits (h.lowest f hf q hq)
  case reached =>
    intro q hne hlen hsome
    rw [htable q hlen] at hsome
    exact h.reached q hne hlen hsome
  case count => rw [hframes, hbuilt, h.count]
  case enough =>
    rw [hframes, hclear]
    exact h.enough
  case bytes =>
    intro a ha hout
    rw [hgrows.memBitMap] at ha
    rw [hframes] at hout
    exact (hbytes a ha hout).trans (h.bytes a ha hout)

/-- The store of the last level changes no bit. -/
theorem Supplying.marked_storeEntry {g : BitVec 52} (h : Supplying pml4 F T start s)
    (hg : Reached next 3 (ent s.ram) (frameOf pml4) g) (physMem : UInt64) {q : Nat}
    (hq : q < s.bits) : (storeEntry (slot g i) physMem s).marked q = s.marked q :=
  marked_congr hq fun _ ha => bytes_write_of_not_inRange _ _ _
    (h.fresh.not_inRange (Grows.refl s) (h.tables.owned g hg) ha)

/-- The store of the last level. -/
theorem Supplying.store {g : BitVec 52} (h : Supplying pml4 F T start s)
    (hT : ∀ q ∈ T, q.length ≤ 3)
    (hpath : table next (ent s.ram) (frameOf pml4) path = some g) (hlen : path.length = 3)
    (physMem : UInt64) : Supplying pml4 F T start (storeEntry (slot g i) physMem s) := by
  have hkeep : Keeps next 3 (ent s.ram) (ent (storeEntry (slot g i) physMem s).ram)
      (frameOf pml4) g i := fun m _ j hj => ent_write_of_ne _ _ hj
  have hreached : Reached next 3 (ent s.ram) (frameOf pml4) g := ⟨path, hlen.le, hpath⟩
  have howned := h.tables.owned g hreached
  have hmarked := fun q (hq : q < s.bits) =>
    h.marked_storeEntry (i := i) hreached physMem hq
  refine h.of_quiet (storeEntry_grows _ _ _) rfl ⟨?_, ?_⟩ (fun q hq => ?_) hT ?_ ?_ ?_
  · exact separated_store h.tables.separated hpath hlen hkeep
  · exact fun n hn => h.tables.owned n (reached_store h.tables.separated hpath hlen hkeep hn)
  · exact table_store h.tables.separated hpath hlen hkeep hq
  · exact fun q hq hmark => (hmarked q hq).trans hmark
  · exact fun q hq _ hmark => (hmarked q hq).symm.trans hmark
  · exact fun a _ hout => bytes_write_of_not_inRange _ _ _ (hout _ howned)

theorem Tracking.store {g : BitVec 52} (h : Tracking pml4 F T start s)
    (hT : ∀ q ∈ T, q.length ≤ 3)
    (hpath : table next (ent s.ram) (frameOf pml4) path = some g) (hlen : path.length = 3)
    (physMem : UInt64) : Tracking pml4 F T start (storeEntry (slot g i) physMem s) := by
  refine ⟨h.toSupplying.store hT hpath hlen physMem, fun p hp hmark => ?_⟩
  refine h.only p hp ?_
  rw [← h.marked_storeEntry ⟨path, hlen.le, hpath⟩ physMem hp]
  exact hmark

/-- A lock of pages that were not counted as clear. -/
theorem Supplying.lock {s' : Machine} {cov : Nat → Prop} (h : Supplying pml4 F T start s)
    (hT : ∀ q ∈ T, q.length ≤ 3) (hmarks : Marks true MemDesc.lock cov s s')
    (hcov : ∀ p, cov p → F p) : Supplying pml4 F T start s' := by
  have hent : ∀ g, Reached next 3 (ent s.ram) (frameOf pml4) g → ∀ j,
      ent s'.ram g j = ent s.ram g j := fun g hg j =>
    ent_congr (fun a ha => hmarks.bytes a fun hin =>
      h.fresh.not_inRange (Grows.refl s) (h.tables.owned g hg) hin ha) j
  have hgrows : Grows s s' := by
    refine ⟨hmarks.memBitMap, hmarks.field_keep MemDesc.memSizeBytes_lock, ?_⟩
    rw [hmarks.requested]
  have htables : Tables pml4 start.requested.length s' := by
    refine ⟨separated_congr hent h.tables.separated, fun n hn => ?_⟩
    rw [framesSince, hmarks.requested]
    exact h.tables.owned n ((reached_congr hent).mp hn)
  refine h.of_quiet hgrows hmarks.requested htables (fun q hq => table_congr hent hq) hT ?_ ?_ ?_
  · intro q hq hmark
    refine (hmarks.marked_iff hq).mpr ?_
    by_cases hc : cov q
    · exact Or.inl ⟨hc, rfl⟩
    · exact Or.inr ⟨hc, hmark⟩
  · intro q hq hF hmark
    rcases (hmarks.marked_iff hq).mp hmark with ⟨hc, _⟩ | ⟨_, hold⟩
    · exact absurd (hcov q hc) hF
    · exact hold
  · exact fun a ha _ => hmarks.bytes a ha

theorem Tracking.lock {s' : Machine} {cov : Nat → Prop} (h : Tracking pml4 F T start s)
    (hT : ∀ q ∈ T, q.length ≤ 3) (hmarks : Marks true MemDesc.lock cov s s')
    (hcov : ∀ p, cov p → F p) : Tracking pml4 F T start s' := by
  refine ⟨h.toSupplying.lock hT hmarks hcov, fun p hp hmark => ?_⟩
  rw [hmarks.bits_eq] at hp
  rw [framesSince, hmarks.requested]
  rcases (hmarks.marked_iff hp).mp hmark with ⟨hc, _⟩ | ⟨_, hold⟩
  · exact Or.inr (Or.inl (hcov p hc))
  · exact h.only p hp hold

end Step

section Call

variable {ptm : PageTableManager} {F : Nat → Prop} [DecidablePred F]
  {T : Finset (List (Fin 512))} {start s : Machine} {virtMem : UInt64}

/-- One call of the builder. -/
theorem Tracking.call (h : Tracking ptm.pml4 F T start s) (hn : start.Narrow)
    (haligned : ptm.pml4.toNat % 4096 = 0) (hT : ∀ q ∈ T, q.length ≤ 3)
    (hmem : ∀ k, k = 3 ∨ k = 2 ∨ k = 1 → (pathOf virtMem).take k ∈ T) (physMem : UInt64) :
    Tracking ptm.pml4 F T start (pageTableManagerMapMemory ptm virtMem physMem s) := by
  have hbase := h.grows.requested.length_le
  have h₁ : Tracking ptm.pml4 F T start (firstTable ptm virtMem s).2 := by
    rw [firstTable_eq haligned]
    exact h.descend hn hT table_nil (Nat.succ_pos 2) (hmem 1 (Or.inr (Or.inr rfl)))
  obtain ⟨_, g₁, hg₁, htable₁⟩ := firstTable_spec haligned h.tables hbase h₁.fresh
  have h₂ : Tracking ptm.pml4 F T start (secondTable ptm virtMem s).2 := by
    rw [secondTable_eq hg₁]
    exact h₁.descend hn hT htable₁ (show 1 < 3 by omega) (hmem 2 (Or.inr (Or.inl rfl)))
  obtain ⟨_, g₂, hg₂, htable₂⟩ := secondTable_spec haligned h.tables hbase h₂.fresh
  have h₃ : Tracking ptm.pml4 F T start (thirdTable ptm virtMem s).2 := by
    rw [thirdTable_eq hg₂]
    exact h₂.descend hn hT htable₂ (show 2 < 3 by omega) (hmem 3 (Or.inl rfl))
  obtain ⟨_, g₃, hg₃, htable₃⟩ := thirdTable_spec haligned h.tables hbase h₃.fresh
  rw [pageTableManagerMapMemory_eq, hg₃]
  exact h₃.store hT htable₃ (length_pathOf virtMem) physMem

/-- A sequence of calls whose tables are in `T`. -/
theorem Tracking.mapAll (ptm : PageTableManager) (h : Tracking ptm.pml4 F T start s)
    (hn : start.Narrow) (haligned : ptm.pml4.toNat % 4096 = 0) (hT : ∀ q ∈ T, q.length ≤ 3)
    {maps : List (UInt64 × UInt64)} (hmaps : tablePaths maps ⊆ T) :
    Tracking ptm.pml4 F T start (mapAll ptm maps s) := by
  induction maps using List.reverseRecOn with
  | nil => exact h
  | append_singleton maps vp ih =>
    rw [mapAll_concat]
    have hsub : tablePaths maps ⊆ T := by
      refine Finset.Subset.trans ?_ hmaps
      rw [tablePaths_concat]
      exact ((Finset.subset_insert _ _).trans (Finset.subset_insert _ _)).trans
        (Finset.subset_insert _ _)
    exact (ih hsub).call hn haligned hT
      (fun k hk => hmaps (take_mem_tablePaths (List.mem_append_right _ (List.mem_singleton_self vp))
        hk)) vp.2

end Call

section Pages

variable {pml4 : UInt64} {F : Nat → Prop} [DecidablePred F] {T : Finset (List (Fin 512))}
  {start s : Machine} {S : Finset Nat}

/-- Pages that were clear and are marked are pages of frames. -/
theorem Tracking.subset_frames (h : Tracking pml4 F T start s)
    (hS : ∀ q ∈ S, q < s.bits ∧ start.marked q = false ∧ ¬ F q)
    (hmark : ∀ q ∈ S, s.marked q = true) :
    S ⊆ ((framesSince start.requested.length s).map pageOf).toFinset := by
  intro q hq
  obtain ⟨hlt, hclear, hF⟩ := hS q hq
  rcases h.only q hlt (hmark q hq) with hold | hin | ⟨f, hf, hpage⟩
  · rw [hclear] at hold
    cases hold
  · exact absurd hin hF
  · exact List.mem_toFinset.mpr (List.mem_map.mpr ⟨f, hf, hpage⟩)

/-- Of more pages than there are frames, one is still clear. -/
theorem Tracking.exists_clear (h : Tracking pml4 F T start s)
    (hS : ∀ q ∈ S, q < s.bits ∧ start.marked q = false ∧ ¬ F q)
    (hcard : (framesSince start.requested.length s).length < S.card) :
    ∃ q ∈ S, s.marked q = false := by
  by_contra hall
  have hmark : ∀ q ∈ S, s.marked q = true := by
    intro q hq
    rw [← Bool.not_eq_false]
    exact fun hfalse => hall ⟨q, hq, hfalse⟩
  have hle := (Finset.card_le_card (h.subset_frames hS hmark)).trans (List.toFinset_card_le _)
  rw [List.length_map] at hle
  omega

/-- With at least as many clear pages below `top` as there are frames, no frame is
above it: the search takes the lowest page first. -/
theorem Tracking.below (h : Tracking pml4 F T start s) {top : Nat}
    (hS : ∀ q ∈ S, q < s.bits ∧ start.marked q = false ∧ ¬ F q)
    (htop : ∀ q ∈ S, q < top)
    (hcard : (framesSince start.requested.length s).length ≤ S.card)
    {f : UInt64} (hf : f ∈ framesSince start.requested.length s) : pageOf f < top := by
  by_contra hge
  have hsub := h.subset_frames hS fun q hq =>
    h.lowest f hf q (Nat.lt_of_lt_of_le (htop q hq) (Nat.le_of_not_lt hge))
  have hout : pageOf f ∉ S := fun hin => hge (htop _ hin)
  have hin : pageOf f ∈ ((framesSince start.requested.length s).map pageOf).toFinset :=
    List.mem_toFinset.mpr (List.mem_map_of_mem hf)
  have hlt : S.card < ((framesSince start.requested.length s).map pageOf).toFinset.card :=
    Finset.card_lt_card ((Finset.ssubset_iff_of_subset hsub).mpr ⟨_, hin, hout⟩)
  have hle := List.toFinset_card_le ((framesSince start.requested.length s).map pageOf)
  rw [List.length_map] at hle
  omega

end Pages

end Machine

end BbnOS
