import BbnOS.Mem.Init

/-!
# The allocator as a first-fit pool

`Machine.pool` is what the bitmap stands for: a pool of the pages that the
buffer has a bit for, of which those with a set bit are in use.  The page
functions are the operations of that pool (`pool_call`), and the loop of
`requestPage` takes the page that the pool hands out (`pool_request`).

So the safety of the pool carries over to every sequence of calls: a page that
is in use is not returned before a call of `freePages` covers it.
-/

namespace BbnOS

open FirstFit Marking

namespace Machine

/-- The pool of the pages of the buffer. -/
def pool (s : Machine) : Pool Nat where
  frames := Finset.range s.bits
  inUse := withMark (Finset.range s.bits) true s.marked
  inUse_subset := Finset.filter_subset _ _

@[simp] theorem mem_inUse_pool {s : Machine} {p : Nat} :
    p ∈ s.pool.inUse ↔ p < s.bits ∧ s.marked p = true := by
  simp [pool]

@[simp] theorem mem_frames_pool {s : Machine} {p : Nat} :
    p ∈ s.pool.frames ↔ p < s.bits := by
  simp [pool]

namespace PageOp

/-- The operation of the pool that a call performs. -/
def toPool : PageOp → Op Nat
  | requestPage => .request
  | reservePages addr numPages => .hold {q | Covers addr numPages.toNat q}
  | freePages addr numPages => .release {q | Covers addr numPages.toNat q}
  | lockPages addr numPages => .hold {q | Covers addr numPages.toNat q}

/-- The call is a `freePages` call that covers page `p`. -/
def Frees (op : PageOp) (p : Nat) : Prop :=
  ∃ addr numPages, op = freePages addr numPages ∧ Covers addr numPages.toNat p

end PageOp

/-- `requestPage` leaves its loop with page `p`, so that it returns the
address of `p`.  The address of page 0 is the null pointer. -/
def Returns (s : Machine) (p : Nat) : Prop := s.firstClear = some p

/-- The call sets the bit of page `p`: `requestPage` returns `p`, or one of
the other two functions covers it. -/
def Takes (s : Machine) (op : PageOp) (p : Nat) : Prop :=
  match op with
  | .requestPage => s.Returns p
  | .reservePages addr numPages => Covers addr numPages.toNat p ∧ p < s.bits
  | .lockPages addr numPages => Covers addr numPages.toNat p ∧ p < s.bits
  | .freePages _ _ => False

/-! ## The simulation -/

/-- The loop of `requestPage` takes the page that the pool hands out. -/
theorem pool_request {s : Machine} (h : s.Narrow) : s.pool.request = s.firstClear := by
  rcases hclear : s.firstClear with _ | p
  · rw [Pool.request_eq_none]
    intro p hp
    rw [mem_frames_pool] at hp
    exact mem_inUse_pool.mpr ⟨hp, (firstClear_eq_none h).mp hclear p hp⟩
  · obtain ⟨hp, hbit, hbefore⟩ := (firstClear_eq_some h).mp hclear
    rw [Pool.request_eq_some]
    refine ⟨by simp [hp, hbit], fun q hq => ?_⟩
    by_contra hlt
    rw [Pool.mem_free, mem_inUse_pool, mem_frames_pool] at hq
    exact hq.2 ⟨hq.1, hbefore q (Nat.lt_of_not_le hlt)⟩

/-- Setting the bits of a set of pages holds them. -/
theorem Marks.pool_hold {account : MemDesc → MemDesc} {cov : Nat → Prop} {s s' : Machine}
    (h : Marks true account cov s s') : s'.pool = s.pool.hold {q | cov q} := by
  refine Pool.ext (by simp only [pool, h.bits_eq, Pool.frames_hold]) ?_
  apply Finset.ext
  intro q
  rw [Pool.mem_inUse_hold, mem_inUse_pool, mem_inUse_pool, mem_frames_pool, h.bits_eq,
    and_congr_right fun hq => h.marked_iff hq]
  by_cases hcov : cov q
  · simp only [hcov, not_true, false_and, or_false, Set.mem_ofPred_eq, and_true]
    exact (or_iff_right_of_imp And.left).symm
  · simp [hcov]

/-- Clearing the bits of a set of pages releases them. -/
theorem Marks.pool_release {account : MemDesc → MemDesc} {cov : Nat → Prop} {s s' : Machine}
    (h : Marks false account cov s s') : s'.pool = s.pool.release {q | cov q} := by
  refine Pool.ext (by simp only [pool, h.bits_eq, Pool.frames_release]) ?_
  apply Finset.ext
  intro q
  rw [Pool.mem_inUse_release, mem_inUse_pool, mem_inUse_pool, h.bits_eq,
    and_congr_right fun hq => h.marked_iff hq]
  by_cases hcov : cov q <;> simp [hcov]

/-- `requestPage` locks the page it returns and no other one. -/
theorem requestPage_marks {s : Machine} (h : s.Narrow) :
    Marks true MemDesc.lock (fun q => s.Returns q) s
      { s.requestPage.2 with requested := s.requested } := by
  refine (requestPage_locks s).congr fun q => ?_
  constructor
  · intro hq
    have hq52 : q < 2 ^ 52 := Nat.lt_of_lt_of_le ((firstClear_eq_some h).mp hq).1 h
    exact ⟨q, hq, (pageOf_ofNat_mul hq52).symm⟩
  · rintro ⟨p, hp, rfl⟩
    have hp52 : p < 2 ^ 52 := Nat.lt_of_lt_of_le ((firstClear_eq_some h).mp hp).1 h
    rw [pageOf_ofNat_mul hp52]
    exact hp

/-- Every call is an operation of the pool. -/
theorem pool_call {s : Machine} (h : s.Narrow) (op : PageOp) :
    (s.call op).pool = s.pool.step op.toPool := by
  cases op with
  | requestPage =>
    have hpool := (requestPage_marks h).pool_hold
    simp only [PageOp.toPool, Pool.step, pool_request h]
    exact hpool
  | reservePages addr numPages => exact (reservePages_marks addr numPages s).pool_hold
  | freePages addr numPages => exact (freePages_marks addr numPages s).pool_release
  | lockPages addr numPages => exact (lockPages_marks addr numPages s).pool_hold

/-- A call leaves the size and the place of the bitmap alone. -/
theorem memBitMap_call {s : Machine} (h : s.Narrow) (op : PageOp) :
    (s.call op).memInfo.memBitMap = s.memInfo.memBitMap := by
  cases op with
  | requestPage => exact (requestPage_marks h).memBitMap
  | reservePages addr numPages => exact (reservePages_marks addr numPages s).memBitMap
  | freePages addr numPages => exact (freePages_marks addr numPages s).memBitMap
  | lockPages addr numPages => exact (lockPages_marks addr numPages s).memBitMap

theorem narrow_call {s : Machine} (h : s.Narrow) (op : PageOp) : (s.call op).Narrow :=
  h.of_eq (memBitMap_call h op)

theorem memBitMap_calls {s : Machine} (h : s.Narrow) (ops : List PageOp) :
    (s.calls ops).memInfo.memBitMap = s.memInfo.memBitMap := by
  induction ops generalizing s with
  | nil => rfl
  | cons op ops ih => rw [calls_cons, ih (narrow_call h op), memBitMap_call h op]

theorem narrow_calls {s : Machine} (h : s.Narrow) (ops : List PageOp) : (s.calls ops).Narrow :=
  h.of_eq (memBitMap_calls h ops)

theorem bits_calls {s : Machine} (h : s.Narrow) (ops : List PageOp) :
    (s.calls ops).bits = s.bits := by
  rw [bits, memBitMap_calls h ops]
  rfl

/-- A sequence of calls is a run of the pool. -/
theorem pool_calls {s : Machine} (h : s.Narrow) (ops : List PageOp) :
    (s.calls ops).pool = s.pool.run (ops.map PageOp.toPool) := by
  induction ops generalizing s with
  | nil => rfl
  | cons op ops ih =>
    rw [calls_cons, ih (narrow_call h op), pool_call h op]
    rfl

/-! ## No page is returned twice -/

/-- A call that releases a page in the pool is a `freePages` call. -/
theorem frees_of_release {ops : List PageOp} {ps : Set Nat} {p : Nat}
    (h : Op.release ps ∈ ops.map PageOp.toPool) (hp : p ∈ ps) :
    ∃ op ∈ ops, op.Frees p := by
  obtain ⟨op, hop, heq⟩ := List.mem_map.mp h
  refine ⟨op, hop, ?_⟩
  cases op with
  | freePages addr numPages =>
    injection heq with heq
    subst heq
    exact ⟨addr, numPages, rfl, hp⟩
  | requestPage => cases heq
  | reservePages addr numPages => cases heq
  | lockPages addr numPages => cases heq

/-- A page whose bit is set is not returned after calls that do not free it. -/
theorem frees_of_returns {s : Machine} (h : s.Narrow) {ops : List PageOp} {p : Nat}
    (hp : p < s.bits) (hmark : s.marked p = true) (hret : (s.calls ops).Returns p) :
    ∃ op ∈ ops, op.Frees p := by
  have hreq : (s.pool.run (ops.map PageOp.toPool)).request = some p := by
    rw [← pool_calls h, pool_request (narrow_calls h ops)]
    exact hret
  obtain ⟨ps, hps, hin⟩ := Pool.not_requested_again (mem_inUse_pool.mpr ⟨hp, hmark⟩) hreq
  exact frees_of_release hps hin

/-- A call that takes a page of the buffer sets its bit. -/
theorem marked_of_takes {s : Machine} (h : s.Narrow) {op : PageOp} {p : Nat}
    (htake : s.Takes op p) : p < s.bits ∧ (s.call op).marked p = true := by
  cases op with
  | requestPage =>
    have hp : p < s.bits := ((firstClear_eq_some h).mp htake).1
    refine ⟨hp, ?_⟩
    exact (requestPage_marks h).marked_of_covered
      (Nat.lt_of_lt_of_le hp s.bits_le_reach) htake
  | reservePages addr numPages =>
    refine ⟨htake.2, (reservePages_marks addr numPages s).marked_of_covered ?_ htake.1⟩
    exact Nat.lt_of_lt_of_le htake.2 s.bits_le_reach
  | lockPages addr numPages =>
    refine ⟨htake.2, (lockPages_marks addr numPages s).marked_of_covered ?_ htake.1⟩
    exact Nat.lt_of_lt_of_le htake.2 s.bits_le_reach
  | freePages addr numPages => exact htake.elim

/-- A page that one call takes is not returned later without a `freePages`
call in between. -/
theorem frees_of_takes_of_returns {s : Machine} (h : s.Narrow) {op : PageOp}
    {ops : List PageOp} {p : Nat} (htake : s.Takes op p)
    (hret : (s.calls (op :: ops)).Returns p) : ∃ op' ∈ ops, op'.Frees p := by
  obtain ⟨hp, hmark⟩ := marked_of_takes h htake
  refine frees_of_returns (narrow_call h op) ?_ hmark hret
  rw [bits, memBitMap_call h op]
  exact hp

/-- A returned address that is not null is the address of the page taken. -/
theorem returns_of_requestPage {s : Machine} {a : UInt64} (h : s.Narrow)
    (hret : s.requestPage.1 = a) (hnull : a ≠ NULL) : s.Returns (pageOf a) := by
  rcases requestPage_cases s with ⟨p, hp, haddr, _⟩ | ⟨_, haddr, _⟩
  · rw [← hret, haddr, pageOf_ofNat_mul]
    · exact hp
    · exact Nat.lt_of_lt_of_le ((firstClear_eq_some h).mp hp).1 h
  · exact absurd (hret.symm.trans haddr) hnull

/-- No frame is handed out twice.  After `readEFIMemoryMap`, whatever calls
follow in whatever order, a page that one call has taken, or whose bit
`readEFIMemoryMap` itself has set, is returned by a later `requestPage` only
if a `freePages` call between the two covers it.  In particular two calls of
`requestPage` return different addresses unless the first one was freed. -/
theorem requestPage_no_double {ram : ByteMemory} {mmap mmapSize mmapDescSize : UInt64}
    {s s₀ : Machine} (hboot : AtBoot ram mmap mmapSize mmapDescSize s)
    (hread : readEFIMemoryMap mmap mmapSize mmapDescSize s = some s₀) :
    (∀ before op between p, (s₀.calls before).Takes op p →
      (s₀.calls (before ++ op :: between)).Returns p → ∃ op' ∈ between, op'.Frees p) ∧
    (∀ between p, p < s₀.bits → s₀.marked p = true →
      (s₀.calls between).Returns p → ∃ op' ∈ between, op'.Frees p) ∧
    (∀ before between a, (s₀.calls before).requestPage.1 = a → a ≠ NULL →
      (s₀.calls (before ++ .requestPage :: between)).requestPage.1 = a →
      ∃ op' ∈ between, op'.Frees (pageOf a)) := by
  have hnarrow := narrow_of_readEFIMemoryMap hboot hread
  refine ⟨?_, ?_, ?_⟩
  · intro before op between p htake hret
    rw [calls_append] at hret
    exact frees_of_takes_of_returns (narrow_calls hnarrow before) htake hret
  · intro between p hp hmark hret
    exact frees_of_returns hnarrow hp hmark hret
  · intro before between a hfirst hnull hsecond
    have hsecond' := returns_of_requestPage (narrow_calls hnarrow _) hsecond hnull
    rw [calls_append] at hsecond'
    have hfirst' := returns_of_requestPage (narrow_calls hnarrow before) hfirst hnull
    have htake : (s₀.calls before).Takes .requestPage (pageOf a) := hfirst'
    exact frees_of_takes_of_returns (narrow_calls hnarrow before) htake hsecond'

/-- Page 1 comes back from the third call because the second one freed it. -/
theorem requestPage_no_double_sample :
    ∃ s₀, readEFIMemoryMap 0x100000 96 48
        (boot (sampleRam [⟨7, 0, 8⟩, ⟨2, 0x8000, 8⟩])) = some s₀ ∧
      s₀.Returns 1 ∧ (s₀.calls [.requestPage, .freePages 0x1000 1]).Returns 1 ∧
      ∃ op ∈ [PageOp.freePages 0x1000 1], op.Frees 1 := by
  have heval : ((readEFIMemoryMap 0x100000 96 48
      (boot (sampleRam [⟨7, 0, 8⟩, ⟨2, 0x8000, 8⟩]))).map fun s =>
        (s.firstClear, (s.calls [.requestPage, .freePages 0x1000 1]).firstClear)) =
      some (some 1, some 1) := by decide +kernel
  obtain ⟨s₀, hread, hpair⟩ := Option.map_eq_some_iff.mp heval
  obtain ⟨hfirst, hsecond⟩ := Prod.mk.inj hpair
  refine ⟨s₀, hread, hfirst, hsecond, ?_⟩
  exact (requestPage_no_double AtBoot.initial hread).1 [] .requestPage
    [.freePages 0x1000 1] 1 hfirst hsecond

end Machine

end BbnOS
