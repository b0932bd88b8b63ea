import BbnOS.Lib.FirstFit
import BbnOS.Lib.Marking
import BbnOS.Mem.Machine
import Mathlib.Logic.Function.Iterate

/-!
# What the page functions do to the bitmap

`Marks` is the effect of every function that stores one value for a set of
pages: the covered pages within the guard of the bitmap get the value, the
counters move once for each page whose bit changes, and memory outside the
bitmap stays as it is.  `changePage_marks` is the single page,
`changePages_marks` the loop, and `Marks.trans` composes two calls, so that a
sequence of calls is again one `Marks`.

`requestPage_cases` says what `requestPage` can do, and `firstClear_eq_some`
which page it takes.

The last part connects the allocator with the first-fit pool of
`Lib.FirstFit`: `Machine.pool` is the pool of the pages of the buffer, and
`pool_call` says that each call is an operation of that pool.
-/

namespace BbnOS

open ByteMemory Loop Marking

/-! ## Pages of an address range -/

/-- The page of an address. -/
def pageOf (a : UInt64) : Nat := (a / 4096).toNat

/-- `p` is one of the `n` pages that a call visits from `addr` up.  The
addresses wrap as the additions of the source do. -/
def Covers (addr : UInt64) (n p : Nat) : Prop :=
  ∃ i, i < n ∧ pageOf (addr + UInt64.ofNat i * 4096) = p

instance (addr : UInt64) (n p : Nat) : Decidable (Covers addr n p) :=
  inferInstanceAs (Decidable (∃ i, i < n ∧ _))

theorem pageOf_eq (a : UInt64) : pageOf a = a.toNat / 4096 := by
  rw [pageOf, UInt64.toNat_div]
  rfl

theorem pageOf_lt (a : UInt64) : pageOf a < 2 ^ 52 := by
  have := a.toNat_lt
  rw [pageOf_eq]
  omega

/-- The pages of a range follow one another, modulo the address space. -/
theorem pageOf_offset (addr : UInt64) (i : Nat) :
    pageOf (addr + UInt64.ofNat i * 4096) = (pageOf addr + i) % 2 ^ 52 := by
  have := addr.toNat_lt
  rw [pageOf_eq, pageOf_eq, UInt64.toNat_add, UInt64.toNat_mul, UInt64.toNat_ofNat']
  simp only [UInt64.reduceToNat]
  omega

theorem covers_iff (addr : UInt64) (n p : Nat) :
    Covers addr n p ↔ ∃ i, i < n ∧ (pageOf addr + i) % 2 ^ 52 = p := by
  unfold Covers
  simp only [pageOf_offset]

/-- Without wrap the pages of a range are an interval. -/
theorem covers_iff_of_le {addr : UInt64} {n : Nat} (p : Nat)
    (h : pageOf addr + n ≤ 2 ^ 52) :
    Covers addr n p ↔ pageOf addr ≤ p ∧ p < pageOf addr + n := by
  rw [covers_iff]
  constructor
  · rintro ⟨i, hi, rfl⟩
    rw [Nat.mod_eq_of_lt (by omega)]
    omega
  · rintro ⟨hlo, hhi⟩
    refine ⟨p - pageOf addr, by omega, ?_⟩
    rw [Nat.mod_eq_of_lt (by omega)]
    omega

theorem Covers.lt {addr : UInt64} {n p : Nat} (h : Covers addr n p) : p < 2 ^ 52 := by
  obtain ⟨i, _, rfl⟩ := h
  exact pageOf_lt _

theorem covers_zero (addr : UInt64) (p : Nat) : ¬ Covers addr 0 p := by
  rintro ⟨i, hi, _⟩
  exact Nat.not_lt_zero i hi

theorem covers_succ (addr : UInt64) (n p : Nat) :
    Covers addr (n + 1) p ↔
      Covers addr n p ∨ p = pageOf (addr + UInt64.ofNat n * 4096) := by
  constructor
  · rintro ⟨i, hi, hp⟩
    rcases Nat.lt_succ_iff_lt_or_eq.mp hi with hlt | rfl
    · exact Or.inl ⟨i, hlt, hp⟩
    · exact Or.inr hp.symm
  · rintro (⟨i, hi, hp⟩ | rfl)
    · exact ⟨i, Nat.lt_succ_of_lt hi, hp⟩
    · exact ⟨n, Nat.lt_succ_self n, rfl⟩

/-- The address of a page number is on that page. -/
theorem pageOf_ofNat_mul {p : Nat} (hp : p < 2 ^ 52) :
    pageOf (UInt64.ofNat p * 4096) = p := by
  have hzero := pageOf_offset 0 p
  rw [zero_add, show pageOf 0 = 0 from rfl, Nat.zero_add, Nat.mod_eq_of_lt hp] at hzero
  exact hzero

/-- A field of the counters that an account leaves alone. -/
theorem MemDesc.iterate_keep {α : Type} {account : MemDesc → MemDesc} {field : MemDesc → α}
    (h : ∀ m, field (account m) = field m) (k : Nat) (m : MemDesc) :
    field (account^[k] m) = field m := by
  induction k with
  | zero => rfl
  | succ k ih => rw [Function.iterate_succ_apply', h, ih]

namespace Machine

/-- The page indices that pass the guard of the bitmap functions. -/
def reach (s : Machine) : Nat := s.memInfo.memBitMap.reach

/-- The page indices that the buffer has a bit for. -/
def bits (s : Machine) : Nat := s.memInfo.memBitMap.bits

/-- The bit of a page. -/
def marked (s : Machine) (p : Nat) : Bool := s.memInfo.memBitMap.bit s.ram p

theorem bits_le_reach (s : Machine) : s.bits ≤ s.reach :=
  s.memInfo.memBitMap.bits_le_reach

/-- The effect of storing `value` for the pages of `cov`. -/
structure Marks (value : Bool) (account : MemDesc → MemDesc) (cov : Nat → Prop)
    (s s' : Machine) : Prop where
  update : Update (Finset.range s.reach) value cov s.marked s'.marked
  memInfo : s'.memInfo =
    account^[(changed (Finset.range s.reach) value cov s.marked).card] s.memInfo
  memBitMap : s'.memInfo.memBitMap = s.memInfo.memBitMap
  bytes : ∀ a, ¬ s.memInfo.memBitMap.touched a → s'.ram.bytes a = s.ram.bytes a
  initialized : s'.initialized = s.initialized
  requested : s'.requested = s.requested

section Marks

variable {value : Bool} {account : MemDesc → MemDesc} {cov cov' : Nat → Prop}
  {s s' s'' : Machine}

theorem Marks.reach_eq (h : Marks value account cov s s') : s'.reach = s.reach := by
  unfold reach
  rw [h.memBitMap]

theorem Marks.bits_eq (h : Marks value account cov s s') : s'.bits = s.bits := by
  unfold bits
  rw [h.memBitMap]

theorem Marks.refl (value : Bool) (account : MemDesc → MemDesc) (s : Machine) :
    Marks value account (fun _ => False) s s where
  update := Update.refl _ _ _
  memInfo := by rw [changed_false]; rfl
  memBitMap := rfl
  bytes := fun _ _ => rfl
  initialized := rfl
  requested := rfl

theorem Marks.congr (h : Marks value account cov s s') (hcov : ∀ q, cov' q ↔ cov q) :
    Marks value account cov' s s' :=
  { h with
    update := h.update.congr hcov
    memInfo := by rw [changed_congr fun q _ => hcov q]; exact h.memInfo }

/-- Two calls that store the same value are one. -/
theorem Marks.trans (h : Marks value account cov s s') (h' : Marks value account cov' s' s'') :
    Marks value account (fun q => cov q ∨ cov' q) s s'' where
  update := h.update.trans (by rw [← h.reach_eq]; exact h'.update)
  memInfo := by
    rw [card_changed_trans h.update, Nat.add_comm, Function.iterate_add_apply, ← h.memInfo,
      ← h.reach_eq]
    exact h'.memInfo
  memBitMap := h'.memBitMap.trans h.memBitMap
  bytes := by
    intro a ha
    rw [h'.bytes a (by rw [h.memBitMap]; exact ha), h.bytes a ha]
  initialized := h'.initialized.trans h.initialized
  requested := h'.requested.trans h.requested

theorem Marks.marked_of_covered (h : Marks value account cov s s') {q : Nat}
    (hq : q < s.reach) (hcov : cov q) : s'.marked q = value :=
  h.update.covered q (Finset.mem_range.mpr hq) hcov

theorem Marks.marked_of_not_covered (h : Marks value account cov s s') {q : Nat}
    (hq : q < s.reach) (hcov : ¬ cov q) : s'.marked q = s.marked q :=
  h.update.kept q (Finset.mem_range.mpr hq) hcov

/-- The pages of the buffer whose bits are set after the call. -/
theorem Marks.marked_iff (h : Marks value account cov s s') {q : Nat} (hq : q < s.bits) :
    s'.marked q = true ↔ cov q ∧ value = true ∨ ¬ cov q ∧ s.marked q = true := by
  have hreach : q < s.reach := Nat.lt_of_lt_of_le hq s.bits_le_reach
  by_cases hcov : cov q
  · rw [h.marked_of_covered hreach hcov]
    simp only [hcov, true_and, not_true, false_and, or_false]
  · rw [h.marked_of_not_covered hreach hcov]
    simp only [hcov, not_false_iff, true_and, false_and, false_or]

/-- A field of the counters that the account leaves alone. -/
theorem Marks.field_keep {α : Type} (h : Marks value account cov s s')
    {field : MemDesc → α} (hkeep : ∀ m, field (account m) = field m) :
    field s'.memInfo = field s.memInfo := by
  rw [h.memInfo]
  exact MemDesc.iterate_keep hkeep _ _

end Marks

/-- A page function that changes no bit changes nothing. -/
private theorem marks_of_unchanged {value : Bool} (account : MemDesc → MemDesc) {p : Nat}
    {s : Machine} (h : p < s.reach → s.marked p = value) :
    Marks value account (fun q => q = p) s s where
  update := by
    refine ⟨?_, fun _ _ _ => rfl⟩
    rintro q hq rfl
    exact h (Finset.mem_range.mp hq)
  memInfo := by
    have hempty : changed (Finset.range s.reach) value (fun q => q = p) s.marked = ∅ := by
      rw [Finset.eq_empty_iff_forall_notMem]
      intro q hq
      obtain ⟨hlt, rfl, hne⟩ := mem_changed.mp hq
      exact hne (h (Finset.mem_range.mp hlt))
    rw [hempty]
    rfl
  memBitMap := rfl
  bytes := fun _ _ => rfl
  initialized := rfl
  requested := rfl

/-- What one page function does: it stores the bit and moves the counters, or
it leaves the state alone. -/
theorem changePage_cases (value : Bool) (account : MemDesc → MemDesc) (addr : UInt64)
    (s : Machine) :
    (pageOf addr < s.reach ∧ s.marked (pageOf addr) ≠ value ∧
      changePage value account addr s =
        { s with
          ram := (bitmapSetVal s.ram s.memInfo.memBitMap (addr / 4096) value).2
          memInfo := account s.memInfo }) ∨
    ((pageOf addr < s.reach → s.marked (pageOf addr) = value) ∧
      changePage value account addr s = s) := by
  have hget : bitmapGetVal s.ram s.memInfo.memBitMap (addr / 4096) =
      (decide (pageOf addr < s.reach) && s.marked (pageOf addr)) :=
    bitmapGetVal_eq s.ram s.memInfo.memBitMap (addr / 4096)
  by_cases hin : pageOf addr < s.reach
  · rw [decide_eq_true hin, Bool.true_and] at hget
    by_cases hbit : s.marked (pageOf addr) = value
    · refine Or.inr ⟨fun _ => hbit, ?_⟩
      simp only [changePage, hget, hbit, if_true]
    · refine Or.inl ⟨hin, hbit, ?_⟩
      have hset : bitmapSetVal s.ram s.memInfo.memBitMap (addr / 4096) value =
          (true, (bitmapSetVal s.ram s.memInfo.memBitMap (addr / 4096) value).2) :=
        Prod.ext (bitmapSetVal_fst s.ram value hin) rfl
      simp only [changePage, hget, hbit, if_false]
      rw [hset]
  · refine Or.inr ⟨fun h => absurd h hin, ?_⟩
    have hset : bitmapSetVal s.ram s.memInfo.memBitMap (addr / 4096) value = (false, s.ram) :=
      bitmapSetVal_of_reach_le s.ram value hin
    simp only [changePage, hset]
    split <;> rfl

section ChangePages

variable {account : MemDesc → MemDesc}

/-- The effect of one page function. -/
theorem changePage_marks (value : Bool) (hacc : ∀ m, (account m).memBitMap = m.memBitMap)
    (addr : UInt64) (s : Machine) :
    Marks value account (fun q => q = pageOf addr) s (changePage value account addr s) := by
  rcases changePage_cases value account addr s with ⟨hin, hne, heq⟩ | ⟨hsame, heq⟩
  · have hmark : ∀ q, q < s.reach → (changePage value account addr s).marked q =
        if q = pageOf addr then value else s.marked q := by
      intro q hq
      rw [heq, marked, hacc]
      exact bit_bitmapSetVal s.ram value hin (Nat.lt_of_lt_of_le hq s.memInfo.memBitMap.reach_le)
    have hchanged : changed (Finset.range s.reach) value (fun q => q = pageOf addr) s.marked =
        {pageOf addr} := by
      apply Finset.ext
      intro q
      rw [mem_changed, Finset.mem_singleton, Finset.mem_range]
      constructor
      · exact fun h => h.2.1
      · intro heq
        subst heq
        exact ⟨hin, rfl, hne⟩
    constructor
    · constructor
      · intro q hq hcov
        rw [hmark q (Finset.mem_range.mp hq), if_pos hcov]
      · intro q hq hcov
        rw [hmark q (Finset.mem_range.mp hq), if_neg hcov]
    · rw [hchanged, heq, Finset.card_singleton]
      rfl
    · rw [heq]
      exact hacc s.memInfo
    · intro a ha
      rw [heq]
      exact bytes_bitmapSetVal_of_not_touched s.ram _ value ha
    · rw [heq]
    · rw [heq]
  · rw [heq]
    exact marks_of_unchanged account hsame

/-- The effect of a page function over a range. -/
theorem changePages_marks (value : Bool) (hacc : ∀ m, (account m).memBitMap = m.memBitMap)
    (addr numPages : UInt64) (s : Machine) :
    Marks value account (Covers addr numPages.toNat) s
      (changePages (changePage value account) addr numPages s) := by
  unfold changePages
  refine forUpto_induct (fun i t => Marks value account (Covers addr i) s t) ?_ ?_
  · exact (Marks.refl value account s).congr fun q => by simp [covers_zero addr q]
  · intro i t _ ht
    exact (ht.trans (changePage_marks value hacc _ t)).congr fun q => covers_succ addr i q

end ChangePages

theorem reservePages_marks (addr numPages : UInt64) (s : Machine) :
    Marks true MemDesc.reserve (Covers addr numPages.toNat) s
      (s.reservePages addr numPages) :=
  changePages_marks true MemDesc.memBitMap_reserve addr numPages s

theorem freePages_marks (addr numPages : UInt64) (s : Machine) :
    Marks false MemDesc.free (Covers addr numPages.toNat) s (s.freePages addr numPages) :=
  changePages_marks false MemDesc.memBitMap_free addr numPages s

theorem lockPages_marks (addr numPages : UInt64) (s : Machine) :
    Marks true MemDesc.lock (Covers addr numPages.toNat) s (s.lockPages addr numPages) :=
  changePages_marks true MemDesc.memBitMap_lock addr numPages s

/-! ## Requesting a page -/

/-- The buffer has bits for page numbers of 64-bit addresses only. -/
def Narrow (s : Machine) : Prop := s.bits ≤ 2 ^ 52

theorem Narrow.of_eq {s s' : Machine} (h : s.Narrow)
    (hbm : s'.memInfo.memBitMap = s.memInfo.memBitMap) : s'.Narrow := by
  unfold Narrow bits at *
  rwa [hbm]

/-- The page indices that the loop of `requestPage` visits.  Its bound is a
product of 64-bit words. -/
def scanned (s : Machine) : Nat := (s.memInfo.memBitMap.size * 8).toNat

theorem scanned_eq (s : Machine) : s.scanned = s.bits % 2 ^ 64 := by
  rw [scanned, UInt64.toNat_mul, Nat.mul_comm]
  rfl

theorem scanned_le (s : Machine) : s.scanned ≤ s.bits := by
  rw [scanned_eq]
  exact Nat.mod_le _ _

theorem Narrow.scanned_eq {s : Machine} (h : s.Narrow) : s.scanned = s.bits := by
  unfold Narrow at h
  rw [Machine.scanned_eq]
  exact Nat.mod_eq_of_lt (by omega)

private theorem bitmapGetVal_ofNat {s : Machine} {p : Nat} (hp : p < s.scanned) :
    bitmapGetVal s.ram s.memInfo.memBitMap (UInt64.ofNat p) = s.marked p := by
  have hlt : s.scanned < 2 ^ 64 := (s.memInfo.memBitMap.size * 8).toNat_lt
  have hp64 : (UInt64.ofNat p).toNat = p := ofNat_toNat_of_lt (by omega)
  have hreach : p < s.memInfo.memBitMap.reach :=
    Nat.lt_of_lt_of_le hp (s.scanned_le.trans s.bits_le_reach)
  rw [bitmapGetVal_eq, hp64, decide_eq_true hreach, Bool.true_and]
  rfl

/-- The loop of `requestPage` leaves at the least page whose bit is clear, if
it visits it. -/
theorem firstClear_eq_some_iff {s : Machine} {p : Nat} :
    s.firstClear = some p ↔
      p < s.scanned ∧ s.marked p = false ∧ ∀ q, q < p → s.marked q = true := by
  rw [firstClear, ← scanned, List.find?_eq_some_iff_getElem]
  constructor
  · rintro ⟨hp, i, hi, hip, hbefore⟩
    rw [List.length_range] at hi
    rw [List.getElem_range] at hip
    subst hip
    rw [bitmapGetVal_ofNat hi] at hp
    refine ⟨hi, by simpa using hp, fun q hq => ?_⟩
    have hq' := hbefore q hq
    rw [List.getElem_range, bitmapGetVal_ofNat (by omega)] at hq'
    simpa using hq'
  · rintro ⟨hlt, hclear, hbefore⟩
    rw [bitmapGetVal_ofNat hlt]
    refine ⟨by simp [hclear], p, by rw [List.length_range]; exact hlt, List.getElem_range _, ?_⟩
    intro q hq
    rw [List.getElem_range, bitmapGetVal_ofNat (by omega)]
    simp [hbefore q hq]

theorem firstClear_eq_none_iff {s : Machine} :
    s.firstClear = none ↔ ∀ p, p < s.scanned → s.marked p = true := by
  rw [firstClear, ← scanned, List.find?_eq_none]
  constructor
  · intro hall p hp
    have := hall p (List.mem_range.mpr hp)
    rw [bitmapGetVal_ofNat hp] at this
    simpa using this
  · intro hall p hp
    have hp' := List.mem_range.mp hp
    rw [bitmapGetVal_ofNat hp']
    simp [hall p hp']

/-- The loop of `requestPage` leaves at the least page whose bit is clear. -/
theorem firstClear_eq_some {s : Machine} (h : s.Narrow) {p : Nat} :
    s.firstClear = some p ↔
      p < s.bits ∧ s.marked p = false ∧ ∀ q, q < p → s.marked q = true := by
  rw [firstClear_eq_some_iff, h.scanned_eq]

theorem firstClear_eq_none {s : Machine} (h : s.Narrow) :
    s.firstClear = none ↔ ∀ p, p < s.bits → s.marked p = true := by
  rw [firstClear_eq_none_iff, h.scanned_eq]

/-- What `requestPage` can do. -/
theorem requestPage_cases (s : Machine) :
    (∃ p, s.firstClear = some p ∧ s.requestPage.1 = UInt64.ofNat p * 4096 ∧
      s.requestPage.2 =
        { s.lockPage (UInt64.ofNat p * 4096) with
          requested := s.requested ++ [UInt64.ofNat p * 4096] }) ∨
    (s.firstClear = none ∧ s.requestPage.1 = NULL ∧
      s.requestPage.2 = { s with requested := s.requested ++ [NULL] }) := by
  unfold requestPage
  split
  · rename_i p hp
    refine Or.inl ⟨p, hp, rfl, ?_⟩
    have hreq : (s.lockPage (UInt64.ofNat p * 4096)).requested = s.requested :=
      (changePage_marks true MemDesc.memBitMap_lock _ s).requested
    simp only [hreq]
  · rename_i hp
    exact Or.inr ⟨hp, rfl, rfl⟩

/-- Without a page that the loop finds, the answer is `NULL`. -/
theorem requestPage_of_firstClear_none {s : Machine} (h : s.firstClear = none) :
    s.requestPage.1 = NULL ∧ s.requestPage.2.ram = s.ram ∧
      s.requestPage.2.memInfo = s.memInfo := by
  rcases requestPage_cases s with ⟨p, hp, _, _⟩ | ⟨_, haddr, hs⟩
  · rw [h] at hp
    cases hp
  · rw [haddr, hs]
    exact ⟨rfl, rfl, rfl⟩

theorem requestPage_fst {s : Machine} {p : Nat} (h : s.firstClear = some p) :
    s.requestPage.1 = UInt64.ofNat p * 4096 := by
  rcases requestPage_cases s with ⟨q, hq, haddr, _⟩ | ⟨hnone, _, _⟩
  · rw [h] at hq
    rw [haddr, Option.some.inj hq]
  · rw [h] at hnone
    cases hnone

/-- A page that the address space has is locked when the loop finds it: its bit
is stored, and it goes from the free to the used memory. -/
theorem requestPage_of_firstClear {s : Machine} {p : Nat} (h : s.firstClear = some p)
    (hp : p < 2 ^ 52) :
    s.requestPage.1.toNat = 4096 * p ∧
    s.requestPage.2.ram =
      (bitmapSetVal s.ram s.memInfo.memBitMap (UInt64.ofNat p) true).2 ∧
    s.requestPage.2.memInfo = s.memInfo.lock := by
  obtain ⟨hlt, hclear, _⟩ := firstClear_eq_some_iff.mp h
  have haddr : (UInt64.ofNat p * 4096).toNat = 4096 * p := by
    rw [UInt64.toNat_mul, ofNat_toNat_of_lt (by omega)]
    simp only [UInt64.reduceToNat]
    omega
  have hindex : UInt64.ofNat p * 4096 / 4096 = UInt64.ofNat p := by
    rw [← UInt64.toNat_inj, UInt64.toNat_div, haddr, ofNat_toNat_of_lt (by omega)]
    simp only [UInt64.reduceToNat]
    omega
  have hpage : pageOf (UInt64.ofNat p * 4096) = p := pageOf_ofNat_mul hp
  have hreach : p < s.reach := Nat.lt_of_lt_of_le hlt (s.scanned_le.trans s.bits_le_reach)
  have hlock : s.lockPage (UInt64.ofNat p * 4096) =
      { s with
        ram := (bitmapSetVal s.ram s.memInfo.memBitMap (UInt64.ofNat p) true).2
        memInfo := s.memInfo.lock } := by
    rcases changePage_cases true MemDesc.lock (UInt64.ofNat p * 4096) s with
      ⟨_, _, heq⟩ | ⟨hsame, _⟩
    · rw [lockPage, heq, hindex]
    · rw [hpage, hclear] at hsame
      exact absurd (hsame hreach) (by decide)
  rcases requestPage_cases s with ⟨q, hq, hfst, hsnd⟩ | ⟨hnone, _, _⟩
  · rw [h] at hq
    obtain rfl := Option.some.inj hq
    rw [hfst, hsnd, hlock]
    exact ⟨haddr, rfl, rfl⟩
  · rw [h] at hnone
    cases hnone

/-- `requestPage` sets the bit of the page that its loop finds, and no other
one. -/
theorem requestPage_locks (s : Machine) :
    Marks true MemDesc.lock
      (fun q => ∃ p, s.firstClear = some p ∧ q = pageOf (UInt64.ofNat p * 4096)) s
      { s.requestPage.2 with requested := s.requested } := by
  rcases requestPage_cases s with ⟨p, hp, _, hs⟩ | ⟨hp, _, hs⟩
  · have hlock := changePage_marks true MemDesc.memBitMap_lock (UInt64.ofNat p * 4096) s
    have heq : ({ s.requestPage.2 with requested := s.requested } : Machine) =
        s.lockPage (UInt64.ofNat p * 4096) := by
      have hreq : (s.lockPage (UInt64.ofNat p * 4096)).requested = s.requested := hlock.requested
      rw [hs, ← hreq]
    rw [heq]
    refine hlock.congr fun q => ?_
    simp only [hp, Option.some.injEq, exists_eq_left']
  · rw [hs]
    refine (Marks.refl true MemDesc.lock s).congr fun q => ?_
    simp only [hp, reduceCtorEq, false_and, exists_false]

theorem requested_requestPage (s : Machine) :
    s.requestPage.2.requested = s.requested ++ [s.requestPage.1] := by
  rcases requestPage_cases s with ⟨p, _, haddr, hs⟩ | ⟨_, haddr, hs⟩ <;> rw [haddr, hs]

/-- `requestPage` returns the start of a page. -/
theorem requestPage_aligned (s : Machine) : s.requestPage.1.toNat % 4096 = 0 := by
  rcases requestPage_cases s with ⟨p, _, haddr, _⟩ | ⟨_, haddr, _⟩
  · rw [haddr, UInt64.toNat_mul]
    simp only [UInt64.reduceToNat]
    omega
  · rw [haddr]
    rfl

end Machine

end BbnOS
