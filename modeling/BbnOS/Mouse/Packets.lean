import BbnOS.Lib.Framing
import BbnOS.Mouse.Driver

/-!
# The packets of the mouse

A run is any sequence of interrupts, each with a byte of the mouse, and of
calls of `ProcessMousePacket`.  `Trace` is the run with a record: for every
byte of `mousePacket` its place in the stream of bytes, and the packets that
were consumed.

The driver is a receiver in the sense of `Lib.Framing` (`follows_run`), with
frames of three bytes, and this says which bytes a consumed packet consists
of.  The driver finds the first byte of a packet by bit 3 alone, which the
other bytes may have set as well.  It mixes packets when it takes such a byte
for a first one (`unmixed_iff`), which happens after the bytes before it were
dropped.
-/

namespace BbnOS

open Framing

namespace Mouse

/-! ## Runs -/

/-- An interrupt with a byte of the mouse, or a call of `ProcessMousePacket`. -/
inductive Event where
  | interrupt (data : UInt8)
  | process
  deriving DecidableEq

/-- One event. -/
def step (fbInfo : FbInfo) (m : Mouse) : Event → Mouse
  | .interrupt data => handlePS2Mouse data m
  | .process => processMousePacket fbInfo m

/-- A run from the start of the kernel on. -/
def run (fbInfo : FbInfo) (events : List Event) : Mouse := events.foldl (step fbInfo) init

/-- The byte of an interrupt. -/
def Event.data : Event → Option UInt8
  | .interrupt data => some data
  | .process => none

/-- The bytes delivered in a run. -/
def delivered (events : List Event) : List UInt8 := events.filterMap Event.data

/-! ## Runs with a record -/

/-- A packet that was consumed: its bytes, and their places in the stream. -/
structure Consumed where
  bytes : List UInt8
  places : List Nat
  deriving DecidableEq

/-- A run with the places of the bytes in `mousePacket`, and the packets
consumed. -/
structure Trace where
  mouse : Mouse
  received : List UInt8
  places : Vector Nat 4
  consumed : List Consumed

namespace Trace

def init : Trace where
  mouse := Mouse.init
  received := []
  places := #v[0, 0, 0, 0]
  consumed := []

/-- An interrupt: the place of the byte is recorded where the byte is stored. -/
def interrupt (data : UInt8) (t : Trace) : Trace where
  mouse := handlePS2Mouse data t.mouse
  received := t.received ++ [data]
  places :=
    match slotFor data t.mouse with
    | some i => t.places.set i t.received.length
    | none => t.places
  consumed := t.consumed

/-- The packet in `mousePacket`, its first three bytes. -/
def packet (t : Trace) : Consumed where
  bytes := t.mouse.mousePacket.toList.take 3
  places := t.places.toList.take 3

/-- A call of `ProcessMousePacket`, which consumes a packet that is ready. -/
def process (fbInfo : FbInfo) (t : Trace) : Trace where
  mouse := processMousePacket fbInfo t.mouse
  received := t.received
  places := t.places
  consumed := if t.mouse.mousePacketReady then t.consumed ++ [t.packet] else t.consumed

def step (fbInfo : FbInfo) (t : Trace) : Event → Trace
  | .interrupt data => t.interrupt data
  | .process => t.process fbInfo

end Trace

/-- The record of a run. -/
def trace (fbInfo : FbInfo) (events : List Event) : Trace :=
  events.foldl (Trace.step fbInfo) Trace.init

theorem trace_concat (fbInfo : FbInfo) (events : List Event) (e : Event) :
    trace fbInfo (events ++ [e]) = (trace fbInfo events).step fbInfo e := by
  simp [trace]

/-- The record does not change the run. -/
theorem mouse_trace (fbInfo : FbInfo) (events : List Event) :
    (trace fbInfo events).mouse = run fbInfo events := by
  induction events using List.reverseRecOn with
  | nil => rfl
  | append_singleton events e ih =>
    rw [trace_concat, run, List.foldl_append, ← run, ← ih]
    cases e <;> rfl

theorem received_trace (fbInfo : FbInfo) (events : List Event) :
    (trace fbInfo events).received = delivered events := by
  induction events using List.reverseRecOn with
  | nil => rfl
  | append_singleton events e ih =>
    rw [trace_concat, delivered, List.filterMap_append, ← delivered, ← ih]
    cases e with
    | interrupt data => rfl
    | process => exact (List.append_nil _).symm

/-! ## The driver as a receiver -/

/-- The action of an event on the receiver. -/
def Event.action : Event → Action UInt8
  | .interrupt data => .receive data
  | .process => .take

/-- The number of bytes from the start of the current frame on. -/
def countOf (r : Receiver UInt8 3) : Nat :=
  match r.start with
  | some n => r.received.length - n
  | none => 0

theorem countOf_none {r : Receiver UInt8 3} (h : r.start = none) : countOf r = 0 := by
  rw [countOf, h]

theorem countOf_some {r : Receiver UInt8 3} {n : Nat} (h : r.start = some n) :
    countOf r = r.received.length - n := by
  rw [countOf, h]

/-- The driver has the bytes of the current frame, and has consumed the frames
taken. -/
structure Follows (t : Trace) (r : Receiver UInt8 3) : Prop where
  received : t.received = r.received
  phase : (t.mouse.mouseCycle, t.mouse.mousePacketReady) = phase (countOf r)
  held : ∀ n, r.start = some n → ∀ i, i < 3 → n + i < r.received.length →
    t.places[i]? = some (n + i) ∧ t.mouse.mousePacket[i]? = r.received[n + i]?
  consumed : t.consumed = r.taken.map fun n => ⟨frame 3 r.received n, [n, n + 1, n + 2]⟩

theorem follows_init : Follows Trace.init Receiver.init where
  received := rfl
  phase := rfl
  held := by
    intro n hn
    cases hn
  consumed := rfl

section Step

variable {t : Trace} {r : Receiver UInt8 3}

theorem Follows.start_none (h : Follows t r) :
    r.start = none ↔ t.mouse.mouseCycle = 0 ∧ t.mouse.mousePacketReady = false := by
  rw [← Prod.mk.injEq, h.phase, phase_eq_zero]
  rcases hstart : r.start with _ | n
  · simp [countOf_none hstart]
  · have hlt := r.start_lt n hstart
    rw [countOf_some hstart]
    simp
    omega

/-- The frames that were taken stay as they are. -/
theorem Follows.consumed_append (h : Follows t r) (data : UInt8) :
    t.consumed = r.taken.map fun n =>
      ⟨frame 3 (r.received ++ [data]) n, [n, n + 1, n + 2]⟩ := by
  rw [h.consumed]
  refine List.map_congr_left fun n hn => ?_
  rw [frame_append (r.taken_le n hn)]

/-- A byte that is dropped. -/
theorem follows_drop (h : Follows t r) {data : UInt8}
    (hdrop : 3 ≤ countOf r ∨ countOf r = 0 ∧ isFirst data = false) :
    Follows (t.interrupt data) (r.receive isFirst data) := by
  obtain ⟨hslot, hsame⟩ := handlePS2Mouse_drop data h.phase hdrop
  have hplaces : (t.interrupt data).places = t.places := by
    rw [Trace.interrupt, hslot]
  have hmouse : (t.interrupt data).mouse = t.mouse := hsame
  have hreceived : (r.receive isFirst data).received = r.received ++ [data] := rfl
  rcases hstart : r.start with _ | n
  · have hnext : (r.receive isFirst data).start = none := by
      have hfirst : isFirst data = false := by simpa [countOf_none hstart] using hdrop
      rw [Receiver.start_receive_none isFirst hstart, hfirst]
      rfl
    refine ⟨by rw [hreceived, ← h.received]; rfl, ?_, ?_, h.consumed_append data⟩
    · rw [hmouse, h.phase, countOf_none hstart, countOf_none hnext]
    · intro n hn
      rw [hnext] at hn
      cases hn
  · have hnext := Receiver.start_receive_some isFirst hstart data
    have hlt := r.start_lt n hstart
    have hcount := countOf_some hstart
    have hfull : n + 3 ≤ r.received.length := by omega
    refine ⟨by rw [hreceived, ← h.received]; rfl, ?_, ?_, h.consumed_append data⟩
    · have hmore : 3 ≤ countOf r ∧ 3 ≤ countOf (r.receive isFirst data) := by
        rw [countOf_some hnext, hcount, hreceived, List.length_append, List.length_singleton]
        omega
      rw [hmouse, h.phase, phase, phase, if_neg (by omega), if_neg (by omega)]
    · intro m hm i hi _
      obtain rfl : n = m := Option.some.inj (hnext.symm.trans hm)
      have hold := h.held n hstart i hi (by omega)
      rw [hplaces, hmouse, hreceived, List.getElem?_append_left (by omega)]
      exact hold

/-- The frame that a byte belongs to when it continues a frame or opens one. -/
theorem exists_start_receive {data : UInt8} (hfirst : countOf r = 0 → isFirst data = true) :
    ∃ n, (r.receive isFirst data).start = some n ∧ n + countOf r = r.received.length ∧
      (0 < countOf r → r.start = some n) := by
  rcases hstart : r.start with _ | n
  · have hzero := countOf_none hstart
    refine ⟨r.received.length, ?_, by omega, fun hpos => by omega⟩
    rw [Receiver.start_receive_none isFirst hstart, if_pos (hfirst hzero)]
  · have hlt := r.start_lt n hstart
    refine ⟨n, Receiver.start_receive_some isFirst hstart data, ?_, fun _ => rfl⟩
    rw [countOf_some hstart]
    omega

/-- A byte that is stored. -/
theorem follows_store (h : Follows t r) {data : UInt8} (hcount : countOf r < 3)
    (hfirst : countOf r = 0 → isFirst data = true) :
    Follows (t.interrupt data) (r.receive isFirst data) := by
  obtain ⟨hslot, hphase⟩ := handlePS2Mouse_store data h.phase hcount hfirst
  have hplaces : (t.interrupt data).places =
      t.places.set (countOf r) t.received.length := by
    rw [Trace.interrupt, hslot]
  have hpacket : (t.interrupt data).mouse.mousePacket =
      t.mouse.mousePacket.set (countOf r) data := by
    rw [Trace.interrupt, mousePacket_handlePS2Mouse, hslot]
  have hreceived : (r.receive isFirst data).received = r.received ++ [data] := rfl
  obtain ⟨n, hnext, hplace, hold⟩ := exists_start_receive hfirst
  refine ⟨by rw [hreceived, ← h.received]; rfl, ?_, ?_, h.consumed_append data⟩
  · have hone : countOf (r.receive isFirst data) = countOf r + 1 := by
      rw [countOf_some hnext, hreceived, List.length_append, List.length_singleton]
      omega
    rw [hone]
    exact hphase
  · intro m hm i hi hlt
    obtain rfl : n = m := Option.some.inj (hnext.symm.trans hm)
    rw [hreceived, List.length_append, List.length_singleton] at hlt
    rw [hplaces, hpacket, hreceived, Vector.getElem?_set, Vector.getElem?_set, h.received]
    rcases Nat.lt_or_eq_of_le (show i ≤ countOf r by omega) with hlt | rfl
    · rw [if_neg (by omega), if_neg (by omega), List.getElem?_append_left (by omega)]
      exact h.held n (hold (by omega)) i hi (by omega)
    · rw [if_pos rfl, if_pos rfl, hplace]
      exact ⟨rfl, List.getElem?_concat_length.symm⟩

theorem follows_interrupt (h : Follows t r) (data : UInt8) :
    Follows (t.interrupt data) (r.receive isFirst data) := by
  by_cases hdrop : 3 ≤ countOf r ∨ countOf r = 0 ∧ isFirst data = false
  · exact follows_drop h hdrop
  · refine follows_store h (by omega) fun hzero => ?_
    by_contra hdata
    exact hdrop (Or.inr ⟨hzero, by simpa using hdata⟩)

/-- The packet in `mousePacket` is the current frame when this is complete. -/
theorem Follows.packet_eq (h : Follows t r) {n : Nat} (hcomplete : r.Complete n) :
    t.packet = ⟨frame 3 r.received n, [n, n + 1, n + 2]⟩ := by
  obtain ⟨hstart, hle⟩ := hcomplete
  have hheld := fun i (hi : i < 3) => h.held n hstart i hi (by omega)
  rw [Trace.packet]
  congr 1
  · apply List.ext_getElem?
    intro i
    rw [frame, List.getElem?_take, List.getElem?_take, List.getElem?_drop, Vector.getElem?_toList]
    by_cases hi : i < 3
    · rw [if_pos hi, if_pos hi, (hheld i hi).2]
    · rw [if_neg hi, if_neg hi]
  · apply List.ext_getElem?
    intro i
    rw [List.getElem?_take, Vector.getElem?_toList]
    by_cases hi : i < 3
    · rw [if_pos hi, (hheld i hi).1]
      rcases i with _ | _ | _ | i
      · rfl
      · rfl
      · rfl
      · omega
    · rw [if_neg hi, List.getElem?_eq_none]
      exact Nat.not_lt.mp hi

theorem follows_process (fbInfo : FbInfo) (h : Follows t r) :
    Follows (t.process fbInfo) r.take := by
  rcases r.take_cases with ⟨n, hcomplete, htake⟩ | ⟨hnone, htake⟩ <;> rw [htake]
  · have hcount := countOf_some hcomplete.1
    have hle := hcomplete.2
    have hphase := h.phase
    rw [phase, if_neg (by omega), Prod.mk.injEq] at hphase
    obtain ⟨hcycle, hready⟩ := hphase
    obtain ⟨hcycle', hready'⟩ := processMousePacket_ready fbInfo hready
    refine ⟨h.received, ?_, ?_, ?_⟩
    · rw [Prod.ext_iff]
      exact ⟨hcycle'.trans hcycle, hready'⟩
    · intro m hm
      cases hm
    · rw [Trace.process, if_pos hready, h.consumed, h.packet_eq hcomplete, Receiver.takeFrame,
        List.map_append, List.map_singleton]
  · have hready : t.mouse.mousePacketReady = false := by
      by_contra hready
      rw [Bool.not_eq_false] at hready
      have hcount : 3 ≤ countOf r := by
        rw [← phase_ready, ← h.phase]
        exact hready
      rcases hstart : r.start with _ | n
      · rw [countOf_none hstart] at hcount
        omega
      · have hlt := r.start_lt n hstart
        rw [countOf_some hstart] at hcount
        exact hnone n ⟨hstart, by omega⟩
    have hsame : t.process fbInfo = t := by
      rw [Trace.process, processMousePacket_not_ready fbInfo hready, hready]
      rfl
    rw [hsame]
    exact h

end Step

/-- The driver is a receiver along every run. -/
theorem follows_run (fbInfo : FbInfo) (events : List Event) :
    Follows (trace fbInfo events) (Receiver.run isFirst (events.map Event.action)) := by
  induction events using List.reverseRecOn with
  | nil => exact follows_init
  | append_singleton events e ih =>
    rw [trace_concat, List.map_append, List.map_singleton, Receiver.run_concat]
    cases e with
    | interrupt data => exact follows_interrupt ih data
    | process => exact follows_process fbInfo ih

/-! ## Packets sent and packets consumed -/

/-- A packet that the mouse sends. -/
structure Packet where
  first : UInt8
  second : UInt8
  third : UInt8
  isFirst_first : isFirst first = true

def Packet.bytes (p : Packet) : List UInt8 := [p.first, p.second, p.third]

/-- The bytes of a consumed packet are those of one packet that was sent. -/
def Whole (packets : List Packet) (c : Consumed) : Prop :=
  ∃ k p, packets[k]? = some p ∧ c.bytes = p.bytes ∧ c.places = [3 * k, 3 * k + 1, 3 * k + 2]

/-- Every packet that was consumed in a run is one that was sent. -/
def Unmixed (fbInfo : FbInfo) (packets : List Packet) (events : List Event) : Prop :=
  ∀ c ∈ (trace fbInfo events).consumed, Whole packets c

/-- No byte but the first of a packet is taken for a first byte: none arrives
with bit 3 set while no packet is being collected and none is ready. -/
def Aligned (fbInfo : FbInfo) (events : List Event) : Prop :=
  ∀ before data, before ++ [Event.interrupt data] <+: events →
    (run fbInfo before).mouseCycle = 0 → (run fbInfo before).mousePacketReady = false →
    isFirst data = true → (delivered before).length % 3 = 0

/-- The receiver has no current frame when no packet is collected or ready. -/
theorem start_run (fbInfo : FbInfo) (events : List Event) :
    (Receiver.run isFirst (events.map Event.action) : Receiver UInt8 3).start = none ↔
      (run fbInfo events).mouseCycle = 0 ∧ (run fbInfo events).mousePacketReady = false := by
  rw [(follows_run fbInfo events).start_none, mouse_trace]

theorem received_run (fbInfo : FbInfo) (events : List Event) :
    (Receiver.run isFirst (events.map Event.action) : Receiver UInt8 3).received =
      delivered events := by
  rw [← (follows_run fbInfo events).received, received_trace]

theorem aligned_iff_fits (fbInfo : FbInfo) (events : List Event) :
    Aligned fbInfo events ↔ Receiver.Fits isFirst 3 (events.map Event.action) := by
  constructor
  · rintro h acts data ⟨rest, hrest⟩ hstart hdata
    obtain ⟨events', _, rfl, hevents', _⟩ := List.map_eq_append_iff.mp hrest.symm
    obtain ⟨before, last, rfl, rfl, hlast⟩ := List.map_eq_append_iff.mp hevents'
    obtain ⟨e, rfl, he⟩ := List.map_eq_singleton_iff.mp hlast
    cases e with
    | process => cases he
    | interrupt data' =>
      obtain rfl := Action.receive.inj he
      obtain ⟨hcycle, hready⟩ := (start_run fbInfo before).mp hstart
      rw [received_run fbInfo]
      exact h before data' (List.prefix_append _ _) hcycle hready hdata
  · intro h before data hpre hcycle hready hdata
    have hacts := hpre.map Event.action
    rw [List.map_append] at hacts
    rw [← received_run fbInfo]
    exact h _ data hacts ((start_run fbInfo before).mpr ⟨hcycle, hready⟩) hdata

/-- A frame that starts at a multiple of three is a packet. -/
theorem whole_of_frame {packets : List Packet} {r : Receiver UInt8 3}
    (hsent : r.received <+: packets.flatMap Packet.bytes) {n : Nat} (hn : n ∈ r.taken)
    (hmod : n % 3 = 0) : Whole packets ⟨frame 3 r.received n, [n, n + 1, n + 2]⟩ := by
  have hlen : ∀ p ∈ packets.map Packet.bytes, p.length = 3 := by
    intro p hp
    obtain ⟨q, _, rfl⟩ := List.mem_map.mp hp
    rfl
  rw [List.flatMap_def] at hsent
  have hpacket := exists_packet hlen hsent (r.taken_le n hn) hmod (by decide)
  rw [List.getElem?_map, Option.map_eq_some_iff] at hpacket
  obtain ⟨p, hp, hbytes⟩ := hpacket
  refine ⟨n / 3, p, hp, hbytes.symm, ?_⟩
  rw [Nat.mul_div_cancel' (Nat.dvd_of_mod_eq_zero hmod)]

/-- The mouse driver does not mix packets in a run in which it takes no other
byte for the first one of a packet.  Conversely, a run that takes another byte
for a first one mixes packets, once the packet begun with it is consumed. -/
theorem unmixed_iff {fbInfo : FbInfo} {packets : List Packet} {events : List Event}
    (hsent : delivered events <+: packets.flatMap Packet.bytes) :
    (Aligned fbInfo events → Unmixed fbInfo packets events) ∧
    ((run fbInfo events).mouseCycle = 0 → (run fbInfo events).mousePacketReady = false →
      Unmixed fbInfo packets events → Aligned fbInfo events) := by
  have hconsumed := (follows_run fbInfo events).consumed
  rw [aligned_iff_fits]
  constructor
  · intro hfits c hc
    rw [hconsumed] at hc
    obtain ⟨n, hn, rfl⟩ := List.mem_map.mp hc
    refine whole_of_frame ?_ hn (Receiver.taken_of_fits isFirst hfits n hn)
    rw [received_run fbInfo]
    exact hsent
  · intro hcycle hready hunmixed
    refine Receiver.fits_of_taken isFirst ((start_run fbInfo events).mpr ⟨hcycle, hready⟩) ?_
    intro n hn
    obtain ⟨k, _, _, _, hplaces⟩ := hunmixed ⟨_, [n, n + 1, n + 2]⟩ (by
      rw [hconsumed]
      exact List.mem_map_of_mem hn)
    have hfirst : n = 3 * k := (List.cons.inj hplaces).1
    omega

/-- Two packets, each consumed before the next one is sent. -/
theorem unmixed_sample :
    Unmixed ⟨640, 480⟩ [⟨0x08, 0x01, 0x02, rfl⟩, ⟨0x09, 0x08, 0x03, rfl⟩]
      [.interrupt 0x08, .interrupt 0x01, .interrupt 0x02, .process,
        .interrupt 0x09, .interrupt 0x08, .interrupt 0x03, .process] := by
  refine (unmixed_iff (by decide)).1 ((aligned_iff_fits _ _).mpr ?_)
  rw [Receiver.fits_iff_opened]
  decide +kernel

/-- The second packet begins to arrive before the first one is consumed.  Its
first byte is dropped, and its second byte is taken for a first one. -/
theorem not_unmixed_of_late_process :
    ¬ ∀ (fbInfo : FbInfo) (packets : List Packet) (events : List Event),
      delivered events <+: packets.flatMap Packet.bytes → Unmixed fbInfo packets events := by
  intro h
  have hmixed := h ⟨640, 480⟩
    [⟨0x08, 0x01, 0x02, rfl⟩, ⟨0x08, 0x08, 0x03, rfl⟩, ⟨0x09, 0x04, 0x05, rfl⟩]
    [.interrupt 0x08, .interrupt 0x01, .interrupt 0x02, .interrupt 0x08, .process,
      .interrupt 0x08, .interrupt 0x03, .interrupt 0x09, .process] (by decide)
    ⟨[0x08, 0x03, 0x09], [4, 5, 6]⟩ (by decide +kernel)
  obtain ⟨k, _, _, _, hplaces⟩ := hmixed
  have hfirst : 4 = 3 * k := (List.cons.inj hplaces).1
  omega

end Mouse

end BbnOS
