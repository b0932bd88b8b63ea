import BbnOS.Mouse.Packets
import Mathlib.Data.UInt

/-!
# How the mouse moves

A packet holds two displacements, each a sign bit and a byte of a 9-bit
two's-complement number.  `Position.move` is the movement they stand for,
clamped to the screen.

`ProcessMousePacket` goes wrong in two ways.  A coordinate below zero wraps, as
it is unsigned, so it lands at the far edge of the screen and not at the near
one.  And the negation `256 - byte` of a zero byte is 256, which a byte does not
hold, so the displacement -256 is taken for 0.  `moved_iff` is the exact
condition for one packet, and `positions_iff` for a sequence of packets.
-/

namespace BbnOS

namespace Mouse

/-! ## The movement that a packet stands for -/

/-- A place on the screen. -/
structure Position where
  x : Nat
  y : Nat
  deriving DecidableEq

/-- The 9-bit two's-complement number of a sign bit and a byte. -/
def displacement (sign : Bool) (byte : UInt8) : Int :=
  if sign then byte.toNat - 256 else byte.toNat

/-- The nearest of the coordinates `0`, …, `extent - 1`. -/
def nearest (extent : Nat) (v : Int) : Nat :=
  if v < 0 then 0 else min v.toNat (extent - 1)

namespace Packet

def xSign (p : Packet) : Bool := p.first &&& ps2XSign != 0

def ySign (p : Packet) : Bool := p.first &&& ps2YSign != 0

/-- The overflow bits are clear. -/
def Plain (p : Packet) : Prop :=
  p.first &&& ps2XOverflow = 0 ∧ p.first &&& ps2YOverflow = 0

end Packet

/-- The position after a packet, clamped to the screen.  The y coordinate grows
downwards. -/
def Position.move (fbInfo : FbInfo) (pos : Position) (p : Packet) : Position where
  x := nearest fbInfo.width.toNat (pos.x + displacement p.xSign p.second)
  y := nearest fbInfo.height.toNat (pos.y - displacement p.ySign p.third)

/-- The position after a sequence of packets. -/
def Position.moveAll (fbInfo : FbInfo) (pos : Position) (ps : List Packet) : Position :=
  ps.foldl (Position.move fbInfo) pos

/-- The position is on the screen. -/
def Position.OnScreen (fbInfo : FbInfo) (pos : Position) : Prop :=
  pos.x < fbInfo.width.toNat ∧ pos.y < fbInfo.height.toNat

/-! ## The movement of the driver -/

/-- The position that the driver keeps. -/
def position (m : Mouse) : Position where
  x := m.mousePosX.toNat
  y := m.mousePosY.toNat

/-- The interrupts of the three bytes of a packet. -/
def receive (m : Mouse) (p : Packet) : Mouse :=
  handlePS2Mouse p.third (handlePS2Mouse p.second (handlePS2Mouse p.first m))

/-- A packet arrives and is consumed. -/
def consume (fbInfo : FbInfo) (m : Mouse) (p : Packet) : Mouse :=
  processMousePacket fbInfo (receive m p)

/-- Packets arrive and are consumed one after the other. -/
def consumeAll (fbInfo : FbInfo) (m : Mouse) (ps : List Packet) : Mouse :=
  ps.foldl (consume fbInfo) m

/-- The displacement that `ProcessMousePacket` takes a sign bit and a byte
for. -/
def driverShift (sign : Bool) (byte : UInt8) : Int :=
  if sign then -1 * (UInt8.ofNat (256 - byte.toNat)).toNat else byte.toNat

theorem driverShift_eq (sign : Bool) (byte : UInt8) :
    driverShift sign byte =
      if sign = true ∧ byte.toNat = 0 then 0 else displacement sign byte := by
  have hlt := byte.toNat_lt
  unfold driverShift displacement
  rw [UInt8.toNat_ofNat']
  cases sign
  · simp
  · simp only [if_true, true_and]
    split <;> omega

theorem driverShift_bounds (sign : Bool) (byte : UInt8) :
    -256 < driverShift sign byte ∧ driverShift sign byte < 256 := by
  have hlt := byte.toNat_lt
  unfold driverShift
  rw [UInt8.toNat_ofNat']
  split <;> omega

/-- What `ProcessMousePacket` does to the position. -/
theorem processMousePacket_pos (fbInfo : FbInfo) {m : Mouse} {first second third : UInt8}
    (hready : m.mousePacketReady = true) (hfirst : m.mousePacket[0]? = some first)
    (hsecond : m.mousePacket[1]? = some second) (hthird : m.mousePacket[2]? = some third)
    (hx : first &&& ps2XOverflow = 0) (hy : first &&& ps2YOverflow = 0) :
    (processMousePacket fbInfo m).mousePosX =
        clamp (m.mousePosX + UInt64.ofInt (driverShift (first &&& ps2XSign != 0) second))
          fbInfo.width ∧
      (processMousePacket fbInfo m).mousePosY =
        clamp (m.mousePosY + UInt64.ofInt (-driverShift (first &&& ps2YSign != 0) third))
          fbInfo.height := by
  obtain ⟨_, rfl⟩ := Vector.getElem?_eq_some_iff.mp hfirst
  obtain ⟨_, rfl⟩ := Vector.getElem?_eq_some_iff.mp hsecond
  obtain ⟨_, rfl⟩ := Vector.getElem?_eq_some_iff.mp hthird
  unfold processMousePacket driverShift
  by_cases hxs : m.mousePacket[0] &&& ps2XSign = 0 <;>
    by_cases hys : m.mousePacket[0] &&& ps2YSign = 0 <;>
    simp [hready, hx, hy, hxs, hys, UInt64.ofInt_neg, sub_eq_add_neg]

/-- Where `clamp` puts a coordinate that moves by less than 256: a coordinate
below zero is at the far edge. -/
theorem clamp_cases {pos : UInt64} {extent : UInt32} {k : Int}
    (hpos : pos.toNat < extent.toNat) (hk : -256 < k ∧ k < 256) :
    (pos.toNat + k < 0 ∧ (clamp (pos + UInt64.ofInt k) extent).toNat = extent.toNat - 1) ∨
    (0 ≤ pos.toNat + k ∧ pos.toNat + k < extent.toNat ∧
      (clamp (pos + UInt64.ofInt k) extent).toNat = pos.toNat + k) ∨
    (extent.toNat ≤ pos.toNat + k ∧
      (clamp (pos + UInt64.ofInt k) extent).toNat = extent.toNat - 1) := by
  have hextent := extent.toNat_lt
  have hone : (1 : UInt32) ≤ extent := by
    rw [UInt32.le_iff_toNat_le, UInt32.toNat_one]
    omega
  have hlast : (extent - 1).toUInt64.toNat = extent.toNat - 1 := by
    rw [UInt32.toNat_toUInt64, UInt32.toNat_sub_of_le _ _ hone, UInt32.toNat_one]
  have hsum : ((pos + UInt64.ofInt k).toNat : Int) = (pos.toNat + k) % 2 ^ 64 := by
    rw [UInt64.toNat_add, UInt64.ofInt, UInt64.toNat_ofNat']
    omega
  rw [clamp, if_neg UInt64.not_lt_zero]
  by_cases hpast : pos + UInt64.ofInt k > (extent - 1).toUInt64
  · have hgt := UInt64.lt_iff_toNat_lt.mp hpast
    rw [if_pos hpast, hlast]
    rw [hlast] at hgt
    omega
  · have hle := UInt64.le_iff_toNat_le.mp (UInt64.not_lt.mp hpast)
    rw [if_neg hpast]
    rw [hlast] at hle
    omega

theorem nearest_cases {extent : Nat} (h : 0 < extent) (v : Int) :
    (v < 0 ∧ nearest extent v = 0) ∨ (0 ≤ v ∧ v < extent ∧ nearest extent v = v) ∨
      (extent ≤ v ∧ nearest extent v = extent - 1) := by
  unfold nearest
  split <;> omega

/-- A coordinate that moves as it should is right if and only if it does not go
below zero, or has only one place to be. -/
theorem clamp_eq_nearest_iff {pos : UInt64} {extent : UInt32} {k : Int}
    (hpos : pos.toNat < extent.toNat) (hk : -256 < k ∧ k < 256) :
    (clamp (pos + UInt64.ofInt k) extent).toNat = nearest extent.toNat (pos.toNat + k) ↔
      0 ≤ pos.toNat + k ∨ extent.toNat = 1 := by
  have hland := clamp_cases hpos hk
  have hnear := @nearest_cases extent.toNat (by omega) (pos.toNat + k)
  constructor
  · intro h
    omega
  · intro h
    omega

/-- A coordinate that stays where it is, and should move, is right at the edge only. -/
theorem clamp_stay_iff {pos : UInt64} {extent : UInt32} {v : Int}
    (hpos : pos.toNat < extent.toNat) :
    (clamp (pos + UInt64.ofInt 0) extent).toNat = nearest extent.toNat (pos.toNat + v) ↔
      (v < 0 → pos.toNat = 0) ∧ (0 < v → pos.toNat + 1 = extent.toNat) := by
  have hland := @clamp_cases pos extent 0 hpos (by decide)
  have hnear := @nearest_cases extent.toNat (by omega) (pos.toNat + v)
  constructor
  · intro h
    omega
  · intro h
    omega

/-- The x coordinate is right if and only if a move to the left that is not a
full -256 stays on the screen, and a full one starts at the left edge.  A screen
of one column is right for every shorter move. -/
theorem clamp_x_iff {pos : UInt64} {extent : UInt32} (sign : Bool) (byte : UInt8)
    (hpos : pos.toNat < extent.toNat) :
    (clamp (pos + UInt64.ofInt (driverShift sign byte)) extent).toNat =
        nearest extent.toNat (pos.toNat + displacement sign byte) ↔
      (sign = true → byte.toNat ≠ 0 → 256 ≤ pos.toNat + byte.toNat ∨ extent.toNat = 1) ∧
      (sign = true → byte.toNat = 0 → pos.toNat = 0) := by
  have hbounds := driverShift_bounds sign byte
  have hshift := driverShift_eq sign byte
  by_cases hfull : sign = true ∧ byte.toNat = 0
  · rw [if_pos hfull] at hshift
    obtain ⟨rfl, hzero⟩ := hfull
    rw [hshift, displacement, if_pos rfl, hzero, clamp_stay_iff hpos]
    simp
  · rw [if_neg hfull] at hshift
    rw [hshift] at hbounds ⊢
    rw [clamp_eq_nearest_iff hpos hbounds]
    cases sign with
    | false =>
      rw [displacement, if_neg Bool.false_ne_true]
      refine iff_of_true (Or.inl (by omega)) (by simp)
    | true =>
      have hne : byte.toNat ≠ 0 := fun h => hfull ⟨rfl, h⟩
      simp only [displacement, if_true, hne, ne_eq, not_false_iff, true_implies, false_implies,
        and_true]
      exact or_congr_left (by omega)

/-- The y coordinate is right if and only if a move up stays on the screen, and
a full move down starts at the lower edge.  A screen of one row is right for
every move up. -/
theorem clamp_y_iff {pos : UInt64} {extent : UInt32} (sign : Bool) (byte : UInt8)
    (hpos : pos.toNat < extent.toNat) :
    (clamp (pos + UInt64.ofInt (-driverShift sign byte)) extent).toNat =
        nearest extent.toNat (pos.toNat - displacement sign byte) ↔
      (sign = false → byte.toNat ≤ pos.toNat ∨ extent.toNat = 1) ∧
      (sign = true → byte.toNat = 0 → pos.toNat + 1 = extent.toNat) := by
  have hlt := byte.toNat_lt
  have hbounds := driverShift_bounds sign byte
  have hshift := driverShift_eq sign byte
  rw [sub_eq_add_neg]
  by_cases hfull : sign = true ∧ byte.toNat = 0
  · rw [if_pos hfull] at hshift
    obtain ⟨rfl, hzero⟩ := hfull
    rw [hshift, displacement, if_pos rfl, hzero, neg_zero, clamp_stay_iff hpos]
    simp
  · rw [if_neg hfull] at hshift
    rw [hshift] at hbounds ⊢
    rw [clamp_eq_nearest_iff hpos (by omega)]
    cases sign with
    | false =>
      simp only [displacement, Bool.false_eq_true, if_false, true_implies, false_implies,
        and_true]
      exact or_congr_left (by omega)
    | true =>
      have hne : byte.toNat ≠ 0 := fun h => hfull ⟨rfl, h⟩
      rw [displacement, if_pos rfl]
      exact iff_of_true (Or.inl (by omega)) (by simp [hne])

/-! ## Packets one after the other -/

/-- The packets that `ProcessMousePacket` handles right at a position: a move to
the left or up stays on the screen, and a displacement of -256 would not change
the coordinate. -/
structure Packet.Exact (fbInfo : FbInfo) (pos : Position) (p : Packet) : Prop where
  left : p.xSign = true → p.second.toNat ≠ 0 →
    256 ≤ pos.x + p.second.toNat ∨ fbInfo.width.toNat = 1
  fullLeft : p.xSign = true → p.second.toNat = 0 → pos.x = 0
  up : p.ySign = false → p.third.toNat ≤ pos.y ∨ fbInfo.height.toNat = 1
  fullDown : p.ySign = true → p.third.toNat = 0 → pos.y + 1 = fbInfo.height.toNat

/-- No packet is being collected, and none is ready. -/
def Idle (m : Mouse) : Prop := m.mouseCycle = 0 ∧ m.mousePacketReady = false

/-- A packet that arrives at an idle driver is complete. -/
theorem receive_idle {m : Mouse} (h : Idle m) (p : Packet) :
    (receive m p).mouseCycle = 0 ∧ (receive m p).mousePacketReady = true ∧
      (receive m p).mousePacket[0]? = some p.first ∧
      (receive m p).mousePacket[1]? = some p.second ∧
      (receive m p).mousePacket[2]? = some p.third ∧ position (receive m p) = position m := by
  have hfirst : p.first &&& 0b00001000 ≠ 0 := by simpa [isFirst] using p.isFirst_first
  simp [receive, handlePS2Mouse, h.1, h.2, hfirst, position]

section Consume

variable {fbInfo : FbInfo} {m : Mouse}

theorem consume_idle (h : Idle m) (p : Packet) : Idle (consume fbInfo m p) := by
  obtain ⟨hcycle, hready, _⟩ := receive_idle h p
  obtain ⟨hkeep, hclear⟩ := processMousePacket_ready fbInfo hready
  exact ⟨hkeep.trans hcycle, hclear⟩

theorem consumeAll_idle (h : Idle m) (ps : List Packet) : Idle (consumeAll fbInfo m ps) := by
  induction ps generalizing m with
  | nil => exact h
  | cons p ps ih => exact ih (consume_idle h p)

theorem Position.move_onScreen {pos : Position} (h : pos.OnScreen fbInfo) (p : Packet) :
    (pos.move fbInfo p).OnScreen fbInfo := by
  have hx := @nearest_cases fbInfo.width.toNat (Nat.zero_lt_of_lt h.1)
    (pos.x + displacement p.xSign p.second)
  have hy := @nearest_cases fbInfo.height.toNat (Nat.zero_lt_of_lt h.2)
    (pos.y - displacement p.ySign p.third)
  have hwidth := h.1
  have hheight := h.2
  constructor
  · simp only [Position.move]
    omega
  · simp only [Position.move]
    omega

theorem Position.moveAll_onScreen {pos : Position} (h : pos.OnScreen fbInfo) (ps : List Packet) :
    (pos.moveAll fbInfo ps).OnScreen fbInfo := by
  induction ps generalizing pos with
  | nil => exact h
  | cons p ps ih => exact ih (Position.move_onScreen h p)

/-- One packet moves the position as it says if and only if it is `Exact`
there. -/
theorem consume_move_iff (hidle : Idle m) (hscreen : (position m).OnScreen fbInfo) {p : Packet}
    (hplain : p.Plain) :
    position (consume fbInfo m p) = (position m).move fbInfo p ↔
      p.Exact fbInfo (position m) := by
  obtain ⟨_, hready, hfirst, hsecond, hthird, hpos⟩ := receive_idle hidle p
  obtain ⟨hposX, hposY⟩ := Position.mk.inj hpos
  have hmoved :=
    processMousePacket_pos fbInfo hready hfirst hsecond hthird hplain.1 hplain.2
  rw [UInt64.toNat_inj.mp hposX, UInt64.toNat_inj.mp hposY] at hmoved
  have hx := clamp_x_iff p.xSign p.second hscreen.1
  have hy := clamp_y_iff p.ySign p.third hscreen.2
  rw [consume, position, Position.move, Position.mk.injEq, hmoved.1, hmoved.2]
  refine Iff.trans (and_congr hx hy) ?_
  constructor
  · exact fun h => ⟨h.1.1, h.1.2, h.2.1, h.2.2⟩
  · exact fun h => ⟨⟨h.left, h.fullLeft⟩, h.up, h.fullDown⟩

/-- Along a sequence of packets the position is right at every point if and only
if every packet is `Exact` at the position it meets. -/
theorem positions_iff (hidle : Idle m) (hscreen : (position m).OnScreen fbInfo)
    {packets : List Packet} (hplain : ∀ p ∈ packets, p.Plain) :
    (∀ done, done <+: packets →
        position (consumeAll fbInfo m done) = (position m).moveAll fbInfo done) ↔
      ∀ done p, done ++ [p] <+: packets →
        p.Exact fbInfo ((position m).moveAll fbInfo done) := by
  have hstep : ∀ done p, done ++ [p] <+: packets →
      position (consumeAll fbInfo m done) = (position m).moveAll fbInfo done →
      (position (consumeAll fbInfo m (done ++ [p])) =
          (position m).moveAll fbInfo (done ++ [p]) ↔
        p.Exact fbInfo ((position m).moveAll fbInfo done)) := by
    intro done p hpre heq
    have hp : p.Plain := hplain p (hpre.subset (by simp))
    have honto : (position (consumeAll fbInfo m done)).OnScreen fbInfo := by
      rw [heq]
      exact Position.moveAll_onScreen hscreen done
    rw [consumeAll, Position.moveAll, List.foldl_append, List.foldl_append]
    have hone := consume_move_iff (consumeAll_idle hidle done) honto hp
    rw [heq] at hone
    exact hone
  constructor
  · intro hall done p hpre
    have hshort : done <+: packets := (List.prefix_append done [p]).trans hpre
    exact (hstep done p hpre (hall done hshort)).mp (hall _ hpre)
  · intro hexact done
    induction done using List.reverseRecOn with
    | nil => exact fun _ => rfl
    | append_singleton done p ih =>
      intro hpre
      have hshort : done <+: packets := (List.prefix_append done [p]).trans hpre
      exact (hstep done p hpre (ih hshort)).mpr (hexact done p hpre)

end Consume

theorem onScreen_init : (position init).OnScreen ⟨640, 480⟩ := ⟨by decide, by decide⟩

/-- From the corner, one step to the left goes to the right edge. -/
theorem not_moved_at_edge :
    ¬ ∀ (fbInfo : FbInfo) (m : Mouse) (packets : List Packet), Idle m →
      (position m).OnScreen fbInfo → (∀ p ∈ packets, p.Plain) →
      position (consumeAll fbInfo m packets) = (position m).moveAll fbInfo packets := by
  intro h
  have hcorner := h ⟨640, 480⟩ init [⟨0x18, 0xff, 0x00, rfl⟩] ⟨rfl, rfl⟩ onScreen_init
    (List.forall_mem_singleton.mpr ⟨rfl, rfl⟩)
  have hedge : position (consumeAll ⟨640, 480⟩ init [⟨0x18, 0xff, 0x00, rfl⟩]) = ⟨639, 0⟩ := by
    decide +kernel
  rw [hedge] at hcorner
  exact absurd hcorner (by decide +kernel)

-- a displacement of -256, from the middle of the screen
example : position (consumeAll ⟨640, 480⟩ { init with mousePosX := 300 }
    [⟨0x18, 0x00, 0x00, rfl⟩]) = ⟨300, 0⟩ := by decide +kernel

/-- To the right and down, and back to the left. -/
def samplePackets : List Packet := [⟨0x28, 0x20, 0xf0, rfl⟩, ⟨0x18, 0xf0, 0x08, rfl⟩]

/-- Both packets are exact where they arrive, and the position is right all the way. -/
theorem positions_sample :
    (∀ done p, done ++ [p] <+: samplePackets →
      p.Exact ⟨640, 480⟩ ((position init).moveAll ⟨640, 480⟩ done)) ∧
    ∀ done, done <+: samplePackets →
      position (consumeAll ⟨640, 480⟩ init done) =
        (position init).moveAll ⟨640, 480⟩ done := by
  have hexact : ∀ done p, done ++ [p] <+: samplePackets →
      p.Exact ⟨640, 480⟩ ((position init).moveAll ⟨640, 480⟩ done) := by
    intro done p hpre
    rcases done with _ | ⟨p', _ | ⟨p'', done⟩⟩
    · obtain ⟨rfl, _⟩ := List.cons_prefix_cons.mp hpre
      exact ⟨by decide, by decide, by decide, by decide⟩
    · obtain ⟨rfl, hrest⟩ := List.cons_prefix_cons.mp hpre
      obtain ⟨rfl, _⟩ := List.cons_prefix_cons.mp hrest
      exact ⟨by decide, by decide, by decide, by decide⟩
    · have hlen := hpre.length_le
      simp [samplePackets] at hlen
  exact ⟨hexact, (positions_iff ⟨rfl, rfl⟩ onScreen_init
    (List.forall_mem_cons.mpr ⟨⟨rfl, rfl⟩, List.forall_mem_singleton.mpr ⟨rfl, rfl⟩⟩)).mpr hexact⟩

end Mouse

end BbnOS
