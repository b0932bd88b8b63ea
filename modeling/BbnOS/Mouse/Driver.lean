import Mathlib.Tactic.Common

/-!
# The PS/2 mouse of `mouse.c`

The interrupt handler passes every byte of the mouse to `handlePS2Mouse`, which
collects the bytes of a packet in `mousePacket` and then sets
`mousePacketReady`.  The main loop of `kmain` calls `ProcessMousePacket`, which
moves the cursor and clears the flag.  The drawing of the cursor is left out,
as it reads nothing but the new position.

`handlePS2Mouse_store` and `handlePS2Mouse_drop` say what a byte does, by the
number of bytes that the packet has already (`phase`).
-/

namespace BbnOS

/-- The fields of `fb_info` that `ProcessMousePacket` reads. -/
structure FbInfo where
  width : UInt32
  height : UInt32

/-- The statics of `mouse.c`. -/
structure Mouse where
  mouseCycle : UInt8
  mousePacket : Vector UInt8 4
  mousePacketReady : Bool
  mousePosX : UInt64
  mousePosY : UInt64
  deriving DecidableEq

def ps2XSign : UInt8 := 0b00010000
def ps2YSign : UInt8 := 0b00100000
def ps2XOverflow : UInt8 := 0b01000000
def ps2YOverflow : UInt8 := 0b10000000

namespace Mouse

/-- The mouse when the kernel starts. -/
def init : Mouse where
  mouseCycle := 0
  mousePacket := #v[0, 0, 0, 0]
  mousePacketReady := false
  mousePosX := 0
  mousePosY := 0

/-- `handlePS2Mouse`. -/
def handlePS2Mouse (data : UInt8) (m : Mouse) : Mouse :=
  if m.mouseCycle = 0 then
    if m.mousePacketReady then m
    else if data &&& 0b00001000 = 0 then m
    else
      { m with
        mousePacket := m.mousePacket.set 0 data
        mouseCycle := m.mouseCycle + 1 }
  else if m.mouseCycle = 1 then
    if m.mousePacketReady then m
    else
      { m with
        mousePacket := m.mousePacket.set 1 data
        mouseCycle := m.mouseCycle + 1 }
  else if m.mouseCycle = 2 then
    if m.mousePacketReady then m
    else
      { m with
        mousePacket := m.mousePacket.set 2 data
        mousePacketReady := true
        mouseCycle := 0 }
  else m

/-- The last part of `ProcessMousePacket`, for one coordinate.  The first test
never succeeds, as the coordinates are unsigned. -/
def clamp (pos : UInt64) (extent : UInt32) : UInt64 :=
  if pos < 0 then 0
  else if pos > (extent - 1).toUInt64 then (extent - 1).toUInt64
  else pos

/-- `ProcessMousePacket`. -/
def processMousePacket (fbInfo : FbInfo) (m : Mouse) : Mouse :=
  if m.mousePacketReady = false then m
  else
    let xNeg : Int := if m.mousePacket[0] &&& ps2XSign ≠ 0 then -1 else 1
    let yNeg : Int := if m.mousePacket[0] &&& ps2YSign ≠ 0 then -1 else 1
    let yOver := m.mousePacket[0] &&& ps2YOverflow != 0
    let xOver := m.mousePacket[0] &&& ps2XOverflow != 0
    let mousePacket :=
      if xNeg = -1 then m.mousePacket.set 1 (UInt8.ofNat (256 - m.mousePacket[1].toNat))
      else m.mousePacket
    let mousePacket :=
      if yNeg = -1 then mousePacket.set 2 (UInt8.ofNat (256 - mousePacket[2].toNat))
      else mousePacket
    let mousePosX := m.mousePosX + UInt64.ofInt (xNeg * mousePacket[1].toNat)
    let mousePosX := if xOver then mousePosX + UInt64.ofInt (xNeg * 255) else mousePosX
    let mousePosY := m.mousePosY - UInt64.ofInt (yNeg * mousePacket[2].toNat)
    let mousePosY := if yOver then mousePosY - UInt64.ofInt (yNeg * 255) else mousePosY
    { mouseCycle := m.mouseCycle
      mousePacket := mousePacket
      mousePacketReady := false
      mousePosX := clamp mousePosX fbInfo.width
      mousePosY := clamp mousePosY fbInfo.height }

/-! ## What the calls do -/

/-- The check of `handlePS2Mouse` for the first byte of a packet. -/
def isFirst (data : UInt8) : Bool := data &&& 0b00001000 != 0

/-- The slot of `mousePacket` that a call of `handlePS2Mouse` stores its byte
in, if any. -/
def slotFor (data : UInt8) (m : Mouse) : Option (Fin 4) :=
  if m.mousePacketReady then none
  else if m.mouseCycle = 0 then if isFirst data then some 0 else none
  else if m.mouseCycle = 1 then some 1
  else if m.mouseCycle = 2 then some 2
  else none

theorem mousePacket_handlePS2Mouse (data : UInt8) (m : Mouse) :
    (handlePS2Mouse data m).mousePacket =
      match slotFor data m with
      | some i => m.mousePacket.set i data
      | none => m.mousePacket := by
  unfold handlePS2Mouse slotFor isFirst
  by_cases hready : m.mousePacketReady = true
  · simp [hready]
  · by_cases hzero : m.mouseCycle = 0
    · by_cases hbit : data &&& 0b00001000 = 0 <;> simp [hready, hzero, hbit]
    · by_cases hone : m.mouseCycle = 1
      · simp [hready, hone]
      · by_cases htwo : m.mouseCycle = 2 <;> simp [hready, hzero, hone, htwo]

/-- `mouseCycle` and `mousePacketReady` when `count` bytes of a packet have
arrived. -/
def phase (count : Nat) : UInt8 × Bool :=
  if count < 3 then (UInt8.ofNat count, false) else (0, true)

theorem phase_eq_zero {count : Nat} : phase count = (0, false) ↔ count = 0 := by
  unfold phase
  constructor
  · intro h
    split at h
    · rename_i hlt
      have hzero : count % 256 = 0 := by
        simpa [← UInt8.toNat_inj] using congrArg Prod.fst h
      omega
    · cases h
  · intro heq
    subst heq
    rfl

theorem phase_ready {count : Nat} : (phase count).2 = true ↔ 3 ≤ count := by
  unfold phase
  split <;> simp <;> omega

section Handle

variable {m : Mouse} {count : Nat} (data : UInt8)
  (hphase : (m.mouseCycle, m.mousePacketReady) = phase count)

include hphase

/-- A byte that continues a packet, or opens one, is stored. -/
theorem handlePS2Mouse_store (hcount : count < 3) (hfirst : count = 0 → isFirst data = true) :
    slotFor data m = some ⟨count, by omega⟩ ∧
      ((handlePS2Mouse data m).mouseCycle, (handlePS2Mouse data m).mousePacketReady) =
        phase (count + 1) := by
  rw [phase, if_pos hcount, Prod.mk.injEq] at hphase
  obtain ⟨hcycle, hready⟩ := hphase
  rcases count with _ | _ | _ | count
  · have hdata := hfirst rfl
    have hbit : data &&& 0b00001000 ≠ 0 := by simpa [isFirst] using hdata
    simp [slotFor, handlePS2Mouse, hcycle, hready, hdata, hbit, phase]
  · simp [slotFor, handlePS2Mouse, hcycle, hready, phase]
  · simp [slotFor, handlePS2Mouse, hcycle, hready, phase]
  · omega

/-- A byte is dropped while a packet is ready, and when it opens none. -/
theorem handlePS2Mouse_drop (h : 3 ≤ count ∨ count = 0 ∧ isFirst data = false) :
    slotFor data m = none ∧ handlePS2Mouse data m = m := by
  rcases h with hcount | ⟨rfl, hdata⟩
  · rw [phase, if_neg (by omega), Prod.mk.injEq] at hphase
    simp [slotFor, handlePS2Mouse, hphase.1, hphase.2]
  · obtain ⟨hcycle, hready⟩ := Prod.mk.inj (hphase.trans (phase_eq_zero.mpr rfl))
    have hbit : data &&& 0b00001000 = 0 := by simpa [isFirst] using hdata
    simp [slotFor, handlePS2Mouse, hcycle, hready, hdata, hbit]

end Handle

/-- A packet that is ready is consumed, and the next one may be collected. -/
theorem processMousePacket_ready (fbInfo : FbInfo) {m : Mouse} (h : m.mousePacketReady = true) :
    (processMousePacket fbInfo m).mouseCycle = m.mouseCycle ∧
      (processMousePacket fbInfo m).mousePacketReady = false := by
  simp [processMousePacket, h]

theorem processMousePacket_not_ready (fbInfo : FbInfo) {m : Mouse}
    (h : m.mousePacketReady = false) : processMousePacket fbInfo m = m := by
  simp [processMousePacket, h]

end Mouse

end BbnOS
