import Mathlib.Algebra.BigOperators.Group.List.Lemmas
import Mathlib.Data.List.Induction
import Mathlib.Tactic.Common

/-!
# Cutting a stream into frames

A receiver gets a stream item by item and cuts it into frames of `N` items.  A
frame starts with an item that `opens` one, and consists of this item and the
next `N - 1` ones.  A complete frame waits until it is taken, and the items
that arrive meanwhile belong to no frame.

The frames are given by their places in the stream, so that two frames with
the same items are told apart.  `Receiver` carries that a frame that was taken
is complete.

When the sender sends packets of `N` items, a frame is a packet if it starts
at a multiple of `N` (`exists_packet`).  The receiver does not know where the
packets start.  `Fits` says of a run that it guessed right at every start, and
`fits_iff_opened` that this is so when every frame is a packet.
-/

namespace Framing

variable {α : Type}

/-- The `N` items of a stream from place `n` on. -/
def frame (N : Nat) (stream : List α) (n : Nat) : List α := (stream.drop n).take N

/-- A receiver: the items received, the start of the current frame, and the
starts of the frames taken. -/
structure Receiver (α : Type) (N : Nat) where
  received : List α
  start : Option Nat
  taken : List Nat
  start_lt : ∀ n, start = some n → n < received.length
  taken_le : ∀ n ∈ taken, n + N ≤ received.length

/-- What may happen to a receiver. -/
inductive Action (α : Type) where
  | receive (a : α)
  | take

/-! ## Frames of a stream -/

/-- A complete frame stays the same when more items arrive. -/
theorem frame_append {N n : Nat} {stream : List α} (h : n + N ≤ stream.length) (rest : List α) :
    frame N (stream ++ rest) n = frame N stream n := by
  rw [frame, frame, List.drop_append_of_le_length (by omega), List.take_append_of_le_length]
  rw [List.length_drop]
  omega

/-- The items of a stream of packets at a multiple of the packet length are a
packet. -/
theorem exists_packet {N : Nat} {stream : List α} {packets : List (List α)}
    (hlen : ∀ p ∈ packets, p.length = N) (hpre : stream <+: packets.flatten) {n : Nat}
    (hle : n + N ≤ stream.length) (hmod : n % N = 0) (hpos : 0 < N) :
    packets[n / N]? = some (frame N stream n) := by
  have hlengths : packets.map List.length = List.replicate packets.length N := by
    refine List.eq_replicate_iff.mpr ⟨List.length_map _, fun k hk => ?_⟩
    obtain ⟨p, hp, rfl⟩ := List.mem_map.mp hk
    exact hlen p hp
  have hsum : ∀ i, i ≤ packets.length → ((packets.map List.length).take i).sum = i * N := by
    intro i hi
    rw [hlengths, List.take_replicate, List.sum_replicate_nat, Nat.min_eq_left hi]
  have htotal : packets.flatten.length = packets.length * N := by
    rw [List.length_flatten, hlengths, List.sum_replicate_nat]
  obtain ⟨q, rfl⟩ : ∃ q, n = q * N :=
    ⟨n / N, (Nat.div_mul_cancel (Nat.dvd_of_mod_eq_zero hmod)).symm⟩
  have hq : q < packets.length := by
    have hlt : q * N < packets.length * N := by
      have := hpre.length_le
      omega
    exact Nat.lt_of_mul_lt_mul_right hlt
  obtain ⟨rest, hrest⟩ := hpre
  have hslice := List.drop_take_succ_flatten_eq_getElem packets q hq
  rw [hsum _ (Nat.succ_le_of_lt hq), hsum _ hq.le, ← hrest] at hslice
  rw [Nat.mul_div_cancel _ hpos, List.getElem?_eq_getElem hq, ← hslice, ← frame_append hle rest,
    frame, List.take_drop, Nat.succ_mul, Nat.add_comm]

/-! ## The receiver -/

namespace Receiver

variable {N : Nat} (opens : α → Bool)

/-- The receiver before the first item. -/
def init : Receiver α N where
  received := []
  start := none
  taken := []
  start_lt := by simp
  taken_le := by simp

/-- The start of the current frame after an item. -/
def nextStart (r : Receiver α N) (a : α) : Option Nat :=
  match r.start with
  | some n => some n
  | none => if opens a then some r.received.length else none

/-- One more item. -/
def receive (r : Receiver α N) (a : α) : Receiver α N where
  received := r.received ++ [a]
  start := r.nextStart opens a
  taken := r.taken
  start_lt := by
    intro n hn
    rw [List.length_append, List.length_singleton]
    unfold nextStart at hn
    split at hn
    · rename_i m hm
      obtain rfl := Option.some.inj hn
      exact Nat.lt_succ_of_lt (r.start_lt m hm)
    · split at hn
      · obtain rfl := Option.some.inj hn
        exact Nat.lt_succ_self _
      · cases hn
  taken_le := by
    intro n hn
    rw [List.length_append]
    exact Nat.le_add_right_of_le (r.taken_le n hn)

theorem start_receive_some {r : Receiver α N} {n : Nat} (h : r.start = some n) (a : α) :
    (r.receive opens a).start = some n := by
  simp [receive, nextStart, h]

theorem start_receive_none {r : Receiver α N} (h : r.start = none) (a : α) :
    (r.receive opens a).start = if opens a then some r.received.length else none := by
  simp [receive, nextStart, h]

/-- The current frame is complete. -/
def Complete (r : Receiver α N) (n : Nat) : Prop := r.start = some n ∧ n + N ≤ r.received.length

/-- Take the current frame, which is complete. -/
def takeFrame (r : Receiver α N) {n : Nat} (h : r.Complete n) : Receiver α N where
  received := r.received
  start := none
  taken := r.taken ++ [n]
  start_lt := by simp
  taken_le := by
    intro m hm
    rcases List.mem_append.mp hm with hm | hm
    · exact r.taken_le m hm
    · obtain rfl := List.mem_singleton.mp hm
      exact h.2

/-- Take the current frame if it is complete. -/
def take (r : Receiver α N) : Receiver α N :=
  match hstart : r.start with
  | some n => if hle : n + N ≤ r.received.length then r.takeFrame ⟨hstart, hle⟩ else r
  | none => r

/-- One action. -/
def step (r : Receiver α N) : Action α → Receiver α N
  | .receive a => r.receive opens a
  | .take => r.take

/-- A sequence of actions from the first item on. -/
def run (acts : List (Action α)) : Receiver α N := acts.foldl (step opens) init

/-- The starts of all frames: those taken, and the current one. -/
def opened (r : Receiver α N) : List Nat := r.taken ++ r.start.toList

/-- A receiver takes the current frame, or there is no complete one. -/
theorem take_cases (r : Receiver α N) :
    (∃ n, ∃ h : r.Complete n, r.take = r.takeFrame h) ∨ ((∀ n, ¬ r.Complete n) ∧ r.take = r) := by
  unfold take
  split
  · rename_i n hstart
    split
    · rename_i hle
      exact Or.inl ⟨n, ⟨hstart, hle⟩, rfl⟩
    · rename_i hle
      refine Or.inr ⟨fun m hm => hle ?_, rfl⟩
      obtain rfl := Option.some.inj (hstart.symm.trans hm.1)
      exact hm.2
  · rename_i hstart
    refine Or.inr ⟨fun m hm => ?_, rfl⟩
    rw [Complete, hstart] at hm
    cases hm.1

/-- Taking a frame changes no start. -/
@[simp] theorem opened_take (r : Receiver α N) : r.take.opened = r.opened := by
  rcases r.take_cases with ⟨n, h, heq⟩ | ⟨_, heq⟩
  · rw [heq, opened, opened, takeFrame, h.1]
    simp
  · rw [heq]

/-- An item starts a frame when there is no current one and it opens one. -/
theorem opened_receive (r : Receiver α N) (a : α) :
    (r.receive opens a).opened =
      if r.start = none ∧ opens a = true then r.opened ++ [r.received.length] else r.opened := by
  have hstarts : (r.receive opens a).opened =
      r.taken ++ (r.receive opens a).start.toList := rfl
  rw [hstarts, opened]
  rcases hstart : r.start with _ | n
  · rw [start_receive_none opens hstart]
    by_cases ha : opens a = true <;> simp [ha]
  · rw [start_receive_some opens hstart]
    simp

@[simp] theorem run_concat (acts : List (Action α)) (act : Action α) :
    (run opens (acts ++ [act]) : Receiver α N) = (run opens acts).step opens act := by
  simp [run]

/-- In a run every frame starts at a multiple of `N`. -/
def Fits (N : Nat) (acts : List (Action α)) : Prop :=
  ∀ before a, before ++ [Action.receive a] <+: acts →
    (run opens before : Receiver α N).start = none → opens a = true →
    (run opens before : Receiver α N).received.length % N = 0

theorem fits_concat (acts : List (Action α)) (act : Action α) :
    Fits opens N (acts ++ [act]) ↔ Fits opens N acts ∧
      ∀ a, act = .receive a → (run opens acts : Receiver α N).start = none → opens a = true →
        (run opens acts : Receiver α N).received.length % N = 0 := by
  constructor
  · intro h
    refine ⟨fun before a hpre => h before a (hpre.trans (List.prefix_append _ _)), ?_⟩
    rintro a rfl
    exact h acts a (List.prefix_refl _)
  · rintro ⟨hacts, hact⟩ before a hpre
    rcases List.prefix_concat_iff.mp hpre with heq | hpre
    · obtain ⟨rfl, hlast⟩ := List.append_inj' heq rfl
      exact hact a (List.singleton_inj.mp hlast).symm
    · exact hacts before a hpre

/-- A run fits when all its frames start at multiples of `N`. -/
theorem fits_iff_opened (acts : List (Action α)) :
    Fits opens N acts ↔ ∀ n ∈ (run opens acts : Receiver α N).opened, n % N = 0 := by
  induction acts using List.reverseRecOn with
  | nil =>
    refine ⟨fun _ n hn => absurd hn List.not_mem_nil, fun _ before a hpre => ?_⟩
    exact absurd (List.prefix_nil.mp hpre) (by simp)
  | append_singleton acts act ih =>
    rw [fits_concat, ih, run_concat]
    cases act with
    | take => simp [step]
    | receive a =>
      rw [step, opened_receive]
      split
      · rename_i hopens
        rw [List.forall_mem_append, List.forall_mem_singleton]
        refine and_congr_right fun _ => ⟨fun h => h a rfl hopens.1 hopens.2, ?_⟩
        rintro h _ ⟨rfl⟩ _ _
        exact h
      · rename_i hopens
        refine ⟨fun h => h.1, fun h => ⟨h, ?_⟩⟩
        rintro b heq hstart hb
        obtain rfl := Action.receive.inj heq
        exact absurd ⟨hstart, hb⟩ hopens

/-- In a run that fits, every frame taken starts at a multiple of `N`. -/
theorem taken_of_fits {acts : List (Action α)} (h : Fits opens N acts) :
    ∀ n ∈ (run opens acts : Receiver α N).taken, n % N = 0 := fun n hn =>
  (fits_iff_opened opens acts).mp h n (List.mem_append_left _ hn)

/-- A run that leaves no frame behind fits when every frame taken starts at a
multiple of `N`. -/
theorem fits_of_taken {acts : List (Action α)}
    (hnone : (run opens acts : Receiver α N).start = none)
    (h : ∀ n ∈ (run opens acts : Receiver α N).taken, n % N = 0) : Fits opens N acts := by
  rw [fits_iff_opened, opened, hnone, Option.toList_none, List.append_nil]
  exact h

end Receiver

end Framing
