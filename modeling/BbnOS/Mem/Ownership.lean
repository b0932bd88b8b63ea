import BbnOS.Mem.Accounting

/-!
# Reserved pages and held pages

The bitmap has one bit for each page, but a set bit has two meanings: the page
was reserved by `readEFIMemoryMap`, or it is held by a caller of `lockPages` or
`requestPage`.  The two are told apart by the history of the calls only.  Here
the history is a set of pages next to the state: `heldAfter` is what one call
does to it.

`Owned` is the invariant: the set bits are the reserved pages and the held
ones, and `usedMemory` counts the held ones.  `freePages` keeps it as long as
it covers no reserved page (`StepOk`), since `_FreePage` itself makes no
difference between the two.
-/

namespace BbnOS

open ByteMemory Marking
open scoped UInt64.CommRing

namespace Machine

/-- The calls that other files can make.  `ReservePages` is static. -/
def PageOp.Exported : PageOp → Prop
  | reservePages _ _ => False
  | _ => True

/-- The pages of the buffer whose bit an update sets. -/
noncomputable def takenPages (s : Machine) (cov : Nat → Prop) : Finset Nat :=
  changed (Finset.range s.bits) true cov s.marked

/-- The pages that are held after a call. -/
noncomputable def heldAfter (s : Machine) (held : Finset Nat) : PageOp → Finset Nat
  | .requestPage => held ∪ s.takenPages s.Returns
  | .lockPages addr numPages => held ∪ s.takenPages (Covers addr numPages.toNat)
  | .freePages addr numPages => held.filter fun p => ¬ Covers addr numPages.toNat p
  | .reservePages _ _ => held

/-- The pages that are held after a sequence of calls. -/
noncomputable def heldRun (s : Machine) (held : Finset Nat) : List PageOp → Finset Nat
  | [] => held
  | op :: ops => heldRun (s.call op) (s.heldAfter held op) ops

theorem heldRun_concat (s : Machine) (held : Finset Nat) (ops : List PageOp) (op : PageOp) :
    s.heldRun held (ops ++ [op]) = (s.calls ops).heldAfter (s.heldRun held ops) op := by
  induction ops generalizing s held with
  | nil => rfl
  | cons op' ops ih => exact ih (s.call op') (s.heldAfter held op')

/-- The call frees no reserved page, and changes the bit of no stray page. -/
def StepOk (res : Finset Nat) (s : Machine) : PageOp → Prop
  | .requestPage => True
  | .lockPages addr numPages =>
    ∀ p, Covers addr numPages.toNat p → s.Stray p → s.marked p = true
  | .freePages addr numPages =>
    (∀ p, Covers addr numPages.toNat p → p ∉ res) ∧
      ∀ p, Covers addr numPages.toNat p → s.Stray p → s.marked p = false
  | .reservePages _ _ => False

/-- Reserved memory stays reserved: the reserved pages have their bits set, so
that no request returns them, `reservedMemory` has the value `amount`, and
`usedMemory` counts the held pages. -/
structure Kept (res held : Finset Nat) (amount : UInt64) (s : Machine) : Prop where
  marked : ∀ p ∈ res, s.marked p = true
  reservedMemory : s.memInfo.reservedMemory = amount
  usedMemory : s.memInfo.usedMemory = UInt64.ofNat (4096 * held.card)

/-- The set bits are the reserved pages and, apart from them, the held ones. -/
structure Owned (res held : Finset Nat) (amount : UInt64) (s : Machine) : Prop
    extends Kept res held amount s where
  disjoint : Disjoint res held
  marked_iff : ∀ p, p < s.bits → (s.marked p = true ↔ p ∈ res ∨ p ∈ held)
  res_lt : ∀ p ∈ res, p < s.bits
  held_lt : ∀ p ∈ held, p < s.bits

section Steps

variable {res held : Finset Nat} {amount : UInt64} {cov : Nat → Prop} {s s' : Machine}

theorem mem_takenPages {p : Nat} :
    p ∈ s.takenPages cov ↔ p < s.bits ∧ cov p ∧ s.marked p ≠ true := by
  rw [takenPages, mem_changed, Finset.mem_range]

/-- A call that sets bits adds the pages it takes to those that are set. -/
theorem Marks.marked_iff_taken {account : MemDesc → MemDesc} (h : Marks true account cov s s')
    {p : Nat} (hp : p < s.bits) :
    s'.marked p = true ↔ s.marked p = true ∨ p ∈ s.takenPages cov := by
  rw [mem_takenPages, h.marked_iff hp]
  by_cases hcov : cov p
  · simp only [hp, hcov, true_and, not_true, false_and, or_false, true_iff]
    exact em _
  · simp only [hcov, false_and, and_false, or_false, false_or, not_false_iff, true_and]

/-- A page that a call takes was not owned. -/
theorem Owned.not_mem_of_taken (hs : s.Owned res held amount) {p : Nat}
    (hp : p ∈ s.takenPages cov) : p ∉ res ∧ p ∉ held := by
  obtain ⟨hlt, _, hmark⟩ := mem_takenPages.mp hp
  rw [ne_eq, hs.marked_iff p hlt, not_or] at hmark
  exact hmark

/-! ### Taking pages -/

/-- `usedMemory` after a call that locks pages. -/
theorem Owned.usedMemory_lock (hs : s.Owned res held amount)
    (h : Marks true MemDesc.lock cov s s') :
    s'.memInfo.usedMemory = UInt64.ofNat (4096 *
      ((held ∪ s.takenPages cov).card + (changed s.strays true cov s.marked).card)) := by
  have hcard : (held ∪ s.takenPages cov).card = held.card + (s.takenPages cov).card := by
    refine Finset.card_union_of_disjoint (Finset.disjoint_right.mpr fun p hp => ?_)
    exact (hs.not_mem_of_taken hp).2
  rw [h.field_move MemDesc.usedMemory_lock, hs.usedMemory, card_changed_reach, hcard,
    takenPages]
  simp only [Nat.mul_add, UInt64.ofNat_add, UInt64.ofNat_mul, UInt64.reduceOfNat]
  ring

/-- A call that locks pages keeps the invariant if it changes no stray bit. -/
theorem Owned.lock (hs : s.Owned res held amount) (h : Marks true MemDesc.lock cov s s')
    (hstray : (changed s.strays true cov s.marked).card = 0) :
    s'.Owned res (held ∪ s.takenPages cov) amount where
  marked := fun p hp => (h.marked_iff_taken (hs.res_lt p hp)).mpr (Or.inl (hs.marked p hp))
  reservedMemory := by
    rw [h.field_keep MemDesc.reservedMemory_lock]
    exact hs.reservedMemory
  usedMemory := by
    rw [hs.usedMemory_lock h, hstray, Nat.add_zero]
  disjoint := by
    rw [Finset.disjoint_union_right]
    refine ⟨hs.disjoint, Finset.disjoint_right.mpr fun p hp => ?_⟩
    exact (hs.not_mem_of_taken hp).1
  marked_iff := by
    intro p hp
    rw [h.bits_eq] at hp
    rw [h.marked_iff_taken hp, hs.marked_iff p hp, Finset.mem_union, or_assoc]
  res_lt := by
    rw [h.bits_eq]
    exact hs.res_lt
  held_lt := by
    rw [h.bits_eq]
    intro p hp
    rcases Finset.mem_union.mp hp with hp | hp
    · exact hs.held_lt p hp
    · exact (mem_takenPages.mp hp).1

/-- A call that reserves pages adds them to the reserved ones. -/
theorem Owned.reserve (hs : s.Owned res held amount)
    (h : Marks true MemDesc.reserve cov s s') :
    s'.Owned (res ∪ s.takenPages cov) held s'.memInfo.reservedMemory where
  marked := by
    intro p hp
    rcases Finset.mem_union.mp hp with hp | hp
    · exact (h.marked_iff_taken (hs.res_lt p hp)).mpr (Or.inl (hs.marked p hp))
    · exact (h.marked_iff_taken (mem_takenPages.mp hp).1).mpr (Or.inr hp)
  reservedMemory := rfl
  usedMemory := by
    rw [h.field_keep MemDesc.usedMemory_reserve]
    exact hs.usedMemory
  disjoint := by
    rw [Finset.disjoint_union_left]
    refine ⟨hs.disjoint, Finset.disjoint_left.mpr fun p hp => ?_⟩
    exact (hs.not_mem_of_taken hp).2
  marked_iff := by
    intro p hp
    rw [h.bits_eq] at hp
    rw [h.marked_iff_taken hp, hs.marked_iff p hp, Finset.mem_union, or_right_comm]
  res_lt := by
    rw [h.bits_eq]
    intro p hp
    rcases Finset.mem_union.mp hp with hp | hp
    · exact hs.res_lt p hp
    · exact (mem_takenPages.mp hp).1
  held_lt := by
    rw [h.bits_eq]
    exact hs.held_lt

/-! ### Freeing pages -/

/-- The bits of the buffer that a `freePages` call clears, when it covers no
reserved page: those of the held pages that it covers. -/
theorem Owned.changed_free [DecidablePred cov] (hs : s.Owned res held amount)
    (hres : ∀ p, cov p → p ∉ res) :
    changed (Finset.range s.bits) false cov s.marked = held.filter cov := by
  apply Finset.ext
  intro p
  rw [mem_changed, Finset.mem_range, Finset.mem_filter, ne_eq, Bool.not_eq_false]
  constructor
  · rintro ⟨hlt, hcov, hmark⟩
    exact ⟨((hs.marked_iff p hlt).mp hmark).resolve_left (hres p hcov), hcov⟩
  · rintro ⟨hp, hcov⟩
    have hlt := hs.held_lt p hp
    exact ⟨hlt, hcov, (hs.marked_iff p hlt).mpr (Or.inr hp)⟩

/-- `usedMemory` after a `freePages` call that covers no reserved page. -/
theorem Owned.usedMemory_free [DecidablePred cov] (hs : s.Owned res held amount)
    (h : Marks false MemDesc.free cov s s') (hres : ∀ p, cov p → p ∉ res) :
    s'.memInfo.usedMemory +
        UInt64.ofNat (4096 * (changed s.strays false cov s.marked).card) =
      UInt64.ofNat (4096 * (held.filter fun p => ¬ cov p).card) := by
  have hcard : held.card = (held.filter cov).card + (held.filter fun p => ¬ cov p).card :=
    (Finset.card_filter_add_card_filter_not cov).symm
  have hmove : ∀ m : MemDesc, m.free.usedMemory = m.usedMemory + (-4096) := fun m => by
    simp only [MemDesc.free]
    ring
  rw [h.field_move hmove, hs.usedMemory, card_changed_reach,
    hs.changed_free hres, hcard]
  simp only [Nat.mul_add, UInt64.ofNat_add, UInt64.ofNat_mul, UInt64.reduceOfNat]
  ring

/-- A `freePages` call keeps the invariant if it covers no reserved page and
changes no stray bit. -/
theorem Owned.free [DecidablePred cov] (hs : s.Owned res held amount)
    (h : Marks false MemDesc.free cov s s') (hres : ∀ p, cov p → p ∉ res)
    (hstray : (changed s.strays false cov s.marked).card = 0) :
    s'.Owned res (held.filter fun p => ¬ cov p) amount where
  marked := by
    intro p hp
    have hreach : p < s.reach := Nat.lt_of_lt_of_le (hs.res_lt p hp) s.bits_le_reach
    rw [h.marked_of_not_covered hreach fun hcov => hres p hcov hp]
    exact hs.marked p hp
  reservedMemory := by
    rw [h.field_keep MemDesc.reservedMemory_free]
    exact hs.reservedMemory
  usedMemory := by
    have hused := hs.usedMemory_free h hres
    rw [hstray, Nat.mul_zero] at hused
    rw [← hused]
    exact (add_zero _).symm
  disjoint := Finset.disjoint_of_subset_right (Finset.filter_subset _ _) hs.disjoint
  marked_iff := by
    intro p hp
    rw [h.bits_eq] at hp
    rw [Finset.mem_filter, h.marked_iff hp, hs.marked_iff p hp]
    by_cases hcov : cov p
    · simp only [hcov, hres p hcov, not_true, false_and, and_false, or_false,
        Bool.false_eq_true]
    · simp only [hcov, not_false_iff, true_and, and_true, false_and, false_or]
  res_lt := by
    rw [h.bits_eq]
    exact hs.res_lt
  held_lt := by
    rw [h.bits_eq]
    intro p hp
    exact hs.held_lt p (Finset.mem_filter.mp hp).1

/-! ### One call -/

private theorem no_stray_returned (h : s.Narrow) :
    (changed s.strays true s.Returns s.marked).card = 0 :=
  card_changed_eq_zero.mpr fun _ hp hret =>
    absurd ((firstClear_eq_some h).mp hret).1 (Nat.not_lt.mpr (mem_strays.mp hp).1)

/-- The history of `requestPage` does not enter the invariant. -/
theorem owned_of_requested {l : List UInt64}
    (h : ({ s with requested := l } : Machine).Owned res held amount) :
    s.Owned res held amount :=
  ⟨⟨h.marked, h.reservedMemory, h.usedMemory⟩, h.disjoint, h.marked_iff, h.res_lt, h.held_lt⟩

/-- One call that is in order keeps the invariant. -/
theorem Owned.call (hs : s.Owned res held amount) (hnarrow : s.Narrow) {op : PageOp}
    (hok : s.StepOk res op) : (s.call op).Owned res (s.heldAfter held op) amount := by
  cases op with
  | requestPage =>
    refine owned_of_requested (l := s.requested) ?_
    exact hs.lock (requestPage_marks hnarrow) (no_stray_returned hnarrow)
  | lockPages addr numPages =>
    refine hs.lock (lockPages_marks addr numPages s) (card_changed_eq_zero.mpr ?_)
    intro p hp hcov
    exact hok p hcov (mem_strays.mp hp)
  | freePages addr numPages =>
    refine hs.free (freePages_marks addr numPages s) hok.1 (card_changed_eq_zero.mpr ?_)
    intro p hp hcov
    exact hok.2 p hcov (mem_strays.mp hp)
  | reservePages addr numPages => exact hok.elim

/-- One call that is not in order breaks what is to be kept. -/
theorem Owned.stepOk_of_kept (hs : s.Owned res held amount) {op : PageOp}
    (hexported : op.Exported) (hkept : (s.call op).Kept res (s.heldAfter held op) amount) :
    s.StepOk res op := by
  cases op with
  | requestPage => trivial
  | lockPages addr numPages =>
    have hused := hs.usedMemory_lock (lockPages_marks addr numPages s)
    have hzero := (ofNat_pages_add_eq (card_changed_strays_le s true _)).mp
      (hused.symm.trans hkept.usedMemory)
    intro p hcov hstray
    exact card_changed_eq_zero.mp hzero p (mem_strays.mpr hstray) hcov
  | freePages addr numPages =>
    have hmarks := freePages_marks addr numPages s
    have hres : ∀ p, Covers addr numPages.toNat p → p ∉ res := by
      intro p hcov hp
      have hreach : p < s.reach := Nat.lt_of_lt_of_le (hs.res_lt p hp) s.bits_le_reach
      have hset := hkept.marked p hp
      have hclear : (s.freePages addr numPages).marked p = false :=
        hmarks.marked_of_covered hreach hcov
      exact absurd (hset.symm.trans hclear) (by decide)
    have hused := hs.usedMemory_free hmarks hres
    rw [show (s.freePages addr numPages).memInfo.usedMemory = _ from hkept.usedMemory,
      ← UInt64.ofNat_add, ← Nat.mul_add] at hused
    have hzero := (ofNat_pages_add_eq (card_changed_strays_le s false _)).mp hused
    refine ⟨hres, fun p hcov hstray => ?_⟩
    exact card_changed_eq_zero.mp hzero p (mem_strays.mpr hstray) hcov
  | reservePages addr numPages => exact hexported.elim

end Steps

/-! ## Runs -/

/-- A run whose calls are all in order keeps the invariant. -/
theorem Owned.calls {res held : Finset Nat} {amount : UInt64} {s : Machine}
    (hs : s.Owned res held amount) (hnarrow : s.Narrow) {ops : List PageOp}
    (hok : ∀ before op, before ++ [op] <+: ops → (s.calls before).StepOk res op) :
    (s.calls ops).Owned res (s.heldRun held ops) amount := by
  induction ops using List.reverseRecOn with
  | nil => exact hs
  | append_singleton ops op ih =>
    have howned := ih fun before op' hpre => hok before op' (hpre.trans (List.prefix_append _ _))
    rw [calls_append, heldRun_concat]
    exact howned.call (narrow_calls hnarrow ops) (hok ops op (List.prefix_refl _))

/-- A run keeps what is to be kept in all of its states if and only if all of
its calls are in order. -/
theorem kept_run_iff {res held : Finset Nat} {amount : UInt64} {s : Machine}
    (hs : s.Owned res held amount) (hnarrow : s.Narrow) {ops : List PageOp}
    (hexported : ∀ op ∈ ops, op.Exported) :
    (∀ before, before <+: ops → (s.calls before).Kept res (s.heldRun held before) amount) ↔
      ∀ before op, before ++ [op] <+: ops → (s.calls before).StepOk res op := by
  constructor
  · intro hkept
    induction ops using List.reverseRecOn with
    | nil =>
      intro before op hpre
      simp at hpre
    | append_singleton ops op ih =>
      have hok := ih (fun op' hop' => hexported op' (List.mem_append_left _ hop'))
        fun before hpre => hkept before (hpre.trans (List.prefix_append _ _))
      intro before op' hpre
      rcases List.prefix_concat_iff.mp hpre with heq | hpre'
      · obtain ⟨rfl, hop⟩ := List.append_inj' heq rfl
        obtain rfl : op' = op := List.singleton_inj.mp hop
        have hlast := hkept _ (List.prefix_refl _)
        rw [calls_append, heldRun_concat] at hlast
        exact (hs.calls hnarrow hok).stepOk_of_kept (hexported op' (by simp)) hlast
      · exact hok before op' hpre'
  · intro hok before hpre
    exact (hs.calls hnarrow fun before' op hpre' => hok before' op (hpre'.trans hpre)).toKept

/-! ## After `readEFIMemoryMap` -/

/-- The pages of the bitmap, which `readEFIMemoryMap` locks. -/
noncomputable def bitmapPages (ram : ByteMemory) (ds : List EfiMemoryDescriptor) : Finset Nat :=
  (cleared ram ds).takenPages (LockCover ds)

/-- The pages that `readEFIMemoryMap` reserves: those that its reserve pass
visits while their bit is clear. -/
noncomputable def reservedPages (ram : ByteMemory) (mmap mmapSize z : UInt64) : Finset Nat :=
  (locked ram (mapOf ram mmap mmapSize z)).takenPages
    (PassCover mmap z (locked ram (mapOf ram mmap mmapSize z)) (mmapSize / z).toNat)

theorem owned_cleared (ram : ByteMemory) (ds : List EfiMemoryDescriptor) :
    (cleared ram ds).Owned ∅ ∅ 0 where
  marked := by simp
  reservedMemory := by simp only [cleared]
  usedMemory := by simp [cleared]
  disjoint := Finset.disjoint_empty_left _
  marked_iff := by
    intro p hp
    simp [marked_cleared ram ds hp]
  res_lt := by simp
  held_lt := by simp

/-- After the first call of `readEFIMemoryMap` the pages of the bitmap are held
and the others with a set bit are reserved, if no stray bit gets set. -/
theorem owned_readEFIMemoryMap {ram : ByteMemory} {mmap mmapSize z : UInt64} {s s' : Machine}
    (hboot : AtBoot ram mmap mmapSize z s)
    (h : readEFIMemoryMap mmap mmapSize z s = some s')
    (hstray : ∀ p, ClearStray ram (mapOf ram mmap mmapSize z) p →
      ¬ LockCover (mapOf ram mmap mmapSize z) p) :
    s'.Owned (reservedPages ram mmap mmapSize z) (bitmapPages ram (mapOf ram mmap mmapSize z))
      s'.memInfo.reservedMemory := by
  have hlock := (owned_cleared ram (mapOf ram mmap mmapSize z)).lock
    (locked_marks ram (mapOf ram mmap mmapSize z)) (by
      rw [card_changed_eq_zero]
      intro p hp hcov
      by_contra hclear
      exact hstray p (clearStray_iff.mpr ⟨mem_strays.mp hp, hclear⟩) hcov)
  have hreserve := hlock.reserve (readEFIMemoryMap_stages hboot h)
  rw [Finset.empty_union, Finset.empty_union] at hreserve
  exact hreserve

/-- When `usedMemory` counts the pages of the bitmap, no stray page was locked. -/
theorem not_lockCover_of_usedMemory {ram : ByteMemory} {mmap mmapSize z : UInt64}
    {s s' : Machine} (hboot : AtBoot ram mmap mmapSize z s)
    (h : readEFIMemoryMap mmap mmapSize z s = some s')
    (hused : s'.memInfo.usedMemory =
      UInt64.ofNat (4096 * (bitmapPages ram (mapOf ram mmap mmapSize z)).card)) {p : Nat}
    (hp : ClearStray ram (mapOf ram mmap mmapSize z) p) :
    ¬ LockCover (mapOf ram mmap mmapSize z) p := by
  have hlock := (owned_cleared ram (mapOf ram mmap mmapSize z)).usedMemory_lock
    (locked_marks ram (mapOf ram mmap mmapSize z))
  rw [(readEFIMemoryMap_stages hboot h).field_keep MemDesc.usedMemory_reserve, hlock,
    Finset.empty_union] at hused
  have hzero := (ofNat_pages_add_eq (card_changed_strays_le _ true _)).mp hused
  obtain ⟨hstray, hclear⟩ := clearStray_iff.mp hp
  intro hcov
  exact hclear (card_changed_eq_zero.mp hzero p (mem_strays.mpr hstray) hcov)

/-- What is kept, in terms of requests and of the size in bytes. -/
theorem Kept.consequences {res held : Finset Nat} {amount : UInt64} {s : Machine}
    (hs : s.Kept res held amount) (hnarrow : s.Narrow) :
    (∀ p ∈ res, ¬ s.Returns p) ∧
      (held.card < 2 ^ 52 → s.memInfo.usedMemory.toNat = 4096 * held.card) := by
  constructor
  · intro p hp hret
    have hclear := ((firstClear_eq_some hnarrow).mp hret).2.1
    exact absurd ((hs.marked p hp).symm.trans hclear) (by decide)
  · intro hcard
    rw [hs.usedMemory, ofNat_toNat_of_lt (by omega)]

/-- Reserved memory stays reserved in all states of a run of `requestPage`,
`lockPages` and `freePages` calls if and only if the bitmap itself was placed
without a stray page, no `freePages` call covers a reserved page, and no call
changes the bit of a stray page. -/
theorem reserved_kept_iff {ram : ByteMemory} {mmap mmapSize mmapDescSize : UInt64}
    {s s₀ : Machine} (hboot : AtBoot ram mmap mmapSize mmapDescSize s)
    (hread : readEFIMemoryMap mmap mmapSize mmapDescSize s = some s₀)
    {ops : List PageOp} (hexported : ∀ op ∈ ops, op.Exported) :
    ((∀ before, before <+: ops →
        (s₀.calls before).Kept (reservedPages ram mmap mmapSize mmapDescSize)
          (s₀.heldRun (bitmapPages ram (mapOf ram mmap mmapSize mmapDescSize)) before)
          s₀.memInfo.reservedMemory) ↔
      (∀ p, ClearStray ram (mapOf ram mmap mmapSize mmapDescSize) p →
        ¬ LockCover (mapOf ram mmap mmapSize mmapDescSize) p) ∧
      ∀ before op, before ++ [op] <+: ops →
        (s₀.calls before).StepOk (reservedPages ram mmap mmapSize mmapDescSize) op) ∧
    (∀ before held, (s₀.calls before).Kept (reservedPages ram mmap mmapSize mmapDescSize) held
        s₀.memInfo.reservedMemory →
      (∀ p ∈ reservedPages ram mmap mmapSize mmapDescSize, ¬ (s₀.calls before).Returns p) ∧
      (held.card < 2 ^ 52 →
        (s₀.calls before).memInfo.usedMemory.toNat = 4096 * held.card)) := by
  have hnarrow := narrow_of_readEFIMemoryMap hboot hread
  refine ⟨⟨fun hkept => ?_, fun ⟨hstray, hok⟩ => ?_⟩, fun before held hkept => ?_⟩
  · have hused := (hkept [] List.nil_prefix).usedMemory
    have hstray : ∀ p, ClearStray ram (mapOf ram mmap mmapSize mmapDescSize) p →
        ¬ LockCover (mapOf ram mmap mmapSize mmapDescSize) p :=
      fun p hp => not_lockCover_of_usedMemory hboot hread hused hp
    have howned := owned_readEFIMemoryMap hboot hread hstray
    exact ⟨hstray, (kept_run_iff howned hnarrow hexported).mp hkept⟩
  · have howned := owned_readEFIMemoryMap hboot hread hstray
    exact (kept_run_iff howned hnarrow hexported).mpr hok
  · exact hkept.consequences (narrow_calls hnarrow before)

/-- A map with sixteen pages, of which the upper eight are loader data. -/
def loaderRam : ByteMemory := sampleRam [⟨7, 0, 8⟩, ⟨2, 0x8000, 8⟩]

theorem mapOf_loaderRam :
    mapOf loaderRam 0x100000 96 48 = [⟨7, 0, 8⟩, ⟨2, 0x8000, 8⟩] := by decide +kernel

theorem mem_reservedPages_loaderRam : 8 ∈ reservedPages loaderRam 0x100000 96 48 := by
  have hclear : (locked loaderRam [⟨7, 0, 8⟩, ⟨2, 0x8000, 8⟩]).marked 8 = false := by
    decide +kernel
  have hapart : ArrayApart 0x100000 96 (mapOf loaderRam 0x100000 96 48) := by
    rw [mapOf_loaderRam]
    exact (disjoint_of_toNat_le (by decide +kernel) (by decide)).symm
  rw [reservedPages, mem_takenPages, passCover_of_arrayApart (by decide) hapart,
    mapOf_loaderRam, bits_locked, hclear]
  refine ⟨by decide +kernel, ⟨⟨2, 0x8000, 8⟩, by simp, by decide, ?_⟩, by decide⟩
  exact ⟨0, by decide, by decide⟩

theorem one_not_mem_reservedPages_loaderRam :
    1 ∉ reservedPages loaderRam 0x100000 96 48 := by
  have hapart : ArrayApart 0x100000 96 (mapOf loaderRam 0x100000 96 48) := by
    rw [mapOf_loaderRam]
    exact (disjoint_of_toNat_le (by decide +kernel) (by decide)).symm
  rw [reservedPages, mem_takenPages, passCover_of_arrayApart (by decide) hapart, mapOf_loaderRam]
  have hnone : ¬ ReserveCover [⟨7, 0, 8⟩, ⟨2, 0x8000, 8⟩] 1 := by decide +kernel
  exact fun h => hnone h.2.1

/-- Freeing a page of loader data clears its bit. -/
theorem not_kept_of_freePages :
    ∃ s₀, readEFIMemoryMap 0x100000 96 48 (boot loaderRam) = some s₀ ∧
      8 ∈ reservedPages loaderRam 0x100000 96 48 ∧
      (s₀.calls [.freePages 0x8000 1]).marked 8 = false ∧
      ∀ held amount, ¬ (s₀.calls [.freePages 0x8000 1]).Kept
        (reservedPages loaderRam 0x100000 96 48) held amount := by
  have heval : ((readEFIMemoryMap 0x100000 96 48 (boot loaderRam)).map fun s =>
      (s.calls [.freePages 0x8000 1]).marked 8) = some false := by decide +kernel
  obtain ⟨s₀, hread, hclear⟩ := Option.map_eq_some_iff.mp heval
  refine ⟨s₀, hread, mem_reservedPages_loaderRam, hclear, fun held amount hkept => ?_⟩
  exact absurd ((hkept.marked 8 mem_reservedPages_loaderRam).symm.trans hclear) (by decide)

/-- Freeing a page that was requested is in order, and keeps the reserved pages. -/
theorem reserved_kept_sample :
    ∃ s₀, readEFIMemoryMap 0x100000 96 48 (boot loaderRam) = some s₀ ∧
      (∀ p, ClearStray loaderRam [⟨7, 0, 8⟩, ⟨2, 0x8000, 8⟩] p →
        ¬ LockCover [⟨7, 0, 8⟩, ⟨2, 0x8000, 8⟩] p) ∧
      (∀ before op, before ++ [op] <+: [.requestPage, .freePages 0x1000 1] →
        (s₀.calls before).StepOk (reservedPages loaderRam 0x100000 96 48) op) ∧
      ∀ before, before <+: [.requestPage, .freePages 0x1000 1] →
        (s₀.calls before).Kept (reservedPages loaderRam 0x100000 96 48)
          (s₀.heldRun (bitmapPages loaderRam [⟨7, 0, 8⟩, ⟨2, 0x8000, 8⟩]) before)
          s₀.memInfo.reservedMemory := by
  have heval : ((readEFIMemoryMap 0x100000 96 48 (boot loaderRam)).map fun s =>
      (s.calls [.requestPage]).bits) = some 24 := by decide +kernel
  obtain ⟨s₀, hread, hbits⟩ := Option.map_eq_some_iff.mp heval
  have hkept := (@reserved_kept_iff loaderRam 0x100000 96 48 _ _ AtBoot.initial hread
    [.requestPage, .freePages 0x1000 1] (by
      intro op hop
      rcases List.mem_pair.mp hop with rfl | rfl
      · trivial
      · trivial)).1
  rw [mapOf_loaderRam] at hkept
  have hstray : ∀ p, ClearStray loaderRam [⟨7, 0, 8⟩, ⟨2, 0x8000, 8⟩] p →
      ¬ LockCover [⟨7, 0, 8⟩, ⟨2, 0x8000, 8⟩] p := by
    rintro p ⟨hlo, hhi, _⟩
    have hsize : bitmapSize [⟨7, 0, 8⟩, ⟨2, 0x8000, 8⟩] = 3 := by decide +kernel
    have hnone : ∀ p, p < 32 → 24 ≤ p → ¬ LockCover [⟨7, 0, 8⟩, ⟨2, 0x8000, 8⟩] p := by
      decide +kernel
    rw [hsize, show (3 : UInt64).toNat = 3 from rfl] at hlo hhi
    exact hnone p hhi hlo
  have hpage : ∀ p, Covers 0x1000 (1 : UInt64).toNat p → p = 1 := by
    intro p hp
    have hone := (covers_iff_of_le p (by decide)).mp hp
    rw [show pageOf 0x1000 = 1 from by decide, show (1 : UInt64).toNat = 1 from rfl] at hone
    omega
  have hsteps : ∀ before op, before ++ [op] <+: [.requestPage, .freePages 0x1000 1] →
      (s₀.calls before).StepOk (reservedPages loaderRam 0x100000 96 48) op := by
    intro before op hpre
    rcases before with _ | ⟨op', _ | ⟨_, before⟩⟩
    · obtain ⟨rfl, _⟩ := List.cons_prefix_cons.mp hpre
      trivial
    · obtain ⟨rfl, hrest⟩ := List.cons_prefix_cons.mp hpre
      obtain ⟨rfl, _⟩ := List.cons_prefix_cons.mp hrest
      refine ⟨fun p hp => ?_, fun p hp hout => ?_⟩
      · rw [hpage p hp]
        exact one_not_mem_reservedPages_loaderRam
      · rw [hpage p hp] at hout
        have hle := hout.1
        rw [hbits] at hle
        omega
    · have hlen := hpre.length_le
      simp at hlen
  exact ⟨s₀, hread, hstray, hsteps, hkept.mpr ⟨hstray, hsteps⟩⟩

end Machine

end BbnOS
