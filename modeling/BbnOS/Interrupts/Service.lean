import BbnOS.Interrupts.Masks
import BbnOS.Keyboard.Driver
import BbnOS.Lib.PicService
import BbnOS.Lib.Runs
import BbnOS.Mouse.Packets

/-!
# The interrupts of the main loop

In its main loop the kernel calls `ProcessMousePacket`, and the keyboard and the mouse
interrupt it: a device raises its line, the processor accepts what the controllers have for
it, and the handler of the vector reads a byte, gives it to its driver and ends the
interrupt at the controllers.  The handlers run with interrupts off, since their gates are
interrupt gates.

`interrupts_served` says that the controllers, the vectors and the ends of interrupts come
down to two flags: the keyboard waits, the mouse waits, and the next interrupt is that of
the keyboard if it waits.  So every byte goes to the driver of its device, and the two
drivers run as they do alone.
-/

namespace BbnOS

open Pic8259 Runs Keyboard
open Mouse (handlePS2Mouse processMousePacket)

/-- The kernel in its main loop: the controllers, the lines with a request or in service,
the statics of both drivers and what `keyboardHandle` did so far. -/
structure Serving where
  pics : Pics
  services : Services
  keyboard : Keyboard
  actions : List KeyAction
  mouse : Mouse

namespace Serving

/-- `picSendEOI`, for the services as well. -/
def picSendEOI (irq : BitVec 32) (s : Serving) : Serving :=
  let services := if (8#32).sle irq then s.services.outb 0xA0 0x20 else s.services
  { s with pics := BbnOS.picSendEOI irq s.pics, services := services.outb 0x20 0x20 }

/-- `intHandlerKB`, with the byte of `inb(0x60)`. -/
def intHandlerKB (scancode : UInt8) (s : Serving) : Serving :=
  let (action, keyboard) := keyboardHandle scancode s.keyboard
  { s with keyboard := keyboard, actions := s.actions ++ [action] }.picSendEOI 1

/-- `intHandlePS2Mouse`, with the byte of `inb(0x60)`. -/
def intHandlePS2Mouse (mouseData : UInt8) (s : Serving) : Serving :=
  { s with mouse := handlePS2Mouse mouseData s.mouse }.picSendEOI 12

/-- The handler that `prepareInterrupts` assigned to a vector.  Those of the three
exceptions do not return. -/
def handler (v : UInt64) : Option (UInt8 → Serving → Serving) :=
  if v = picGetIntVector irqKeyboardInt then some intHandlerKB
  else if v = picGetIntVector irqPS2Mouse then some intHandlePS2Mouse
  else none

/-- A device raises its line, the processor accepts an interrupt, or the main loop calls
`ProcessMousePacket`.  An interrupt comes before or after such a call. -/
inductive Event where
  | raise (irq : Nat)
  | interrupt (data : UInt8)
  | process

/-- The byte of an interrupt. -/
def Event.data : Event → Option UInt8
  | .interrupt data => some data
  | _ => none

/-- One event.  There may be no interrupt to accept, or no handler that returns. -/
def step (fbInfo : FbInfo) (s : Serving) : Event → Option Serving
  | .raise irq => some { s with services := s.services.raise irq }
  | .interrupt data => do
    let irq ← s.services.pending s.pics
    let handle ← handler (UInt64.ofNat (Services.vectorOf s.pics irq).toNat)
    return handle data { s with services := s.services.acknowledge irq }
  | .process => some { s with mouse := processMousePacket fbInfo s.mouse }

/-- The kernel when it comes to its main loop.  The initialisation of the controllers ended
every service; any line of the master and of the slave may have a request. -/
def started (p : Pics) (master slave : Nat → Bool) : Serving where
  pics := prepareLines p
  services := ⟨⟨master, fun _ => false⟩, ⟨slave, fun _ => false⟩⟩
  keyboard := Keyboard.init
  actions := []
  mouse := Mouse.init

end Serving

/-! ## The two devices -/

/-- What is left of the kernel without its controllers. -/
structure Devices where
  keyboardWaits : Bool
  mouseWaits : Bool
  keyboard : Keyboard
  actions : List KeyAction
  mouse : Mouse

namespace Devices

open Serving (Event)

/-- The driver of the keyboard gets a byte. -/
def receiveKey (scancode : UInt8) (d : Devices) : Devices where
  keyboardWaits := false
  mouseWaits := d.mouseWaits
  keyboard := (keyboardHandle scancode d.keyboard).2
  actions := d.actions ++ [(keyboardHandle scancode d.keyboard).1]
  mouse := d.mouse

/-- The driver of the mouse gets a byte. -/
def receiveMouse (data : UInt8) (d : Devices) : Devices :=
  { d with mouseWaits := false, mouse := handlePS2Mouse data d.mouse }

/-- The keyboard comes before the mouse. -/
def step (fbInfo : FbInfo) (d : Devices) : Event → Option Devices
  | .raise irq => some { d with
      keyboardWaits := decide (irq = 1) || d.keyboardWaits
      mouseWaits := decide (irq = 12) || d.mouseWaits }
  | .interrupt data =>
    if d.keyboardWaits then some (d.receiveKey data)
    else if d.mouseWaits then some (d.receiveMouse data)
    else none
  | .process => some { d with mouse := processMousePacket fbInfo d.mouse }

/-- What an event is for the drivers. -/
def driverEvent (d : Devices) : Event → Devices → Option (UInt8 ⊕ Mouse.Event)
  | .raise _, _ => none
  | .interrupt data, _ => some (if d.keyboardWaits then .inl data else .inr (.interrupt data))
  | .process, _ => some (.inr .process)

/-- The events of both drivers in a run. -/
def driverEvents (fbInfo : FbInfo) (d : Devices) (events : List Event) :
    List (UInt8 ⊕ Mouse.Event) :=
  (labels (step fbInfo) driverEvent d events).filterMap id

/-- The byte of a driver event. -/
def byteOf : UInt8 ⊕ Mouse.Event → Option UInt8
  | .inl scancode => some scancode
  | .inr e => e.data

/-- The scan codes that the keyboard driver gets. -/
def scancodes (fbInfo : FbInfo) (d : Devices) (events : List Event) : List UInt8 :=
  (driverEvents fbInfo d events).filterMap Sum.getLeft?

/-- The events of the mouse driver. -/
def mouseEvents (fbInfo : FbInfo) (d : Devices) (events : List Event) : List Mouse.Event :=
  (driverEvents fbInfo d events).filterMap Sum.getRight?

end Devices

namespace Serving

/-- The two devices of a kernel with its controllers. -/
def devices (s : Serving) : Devices where
  keyboardWaits := s.services.master.irr 1
  mouseWaits := s.services.slave.irr 4
  keyboard := s.keyboard
  actions := s.actions
  mouse := s.mouse

/-- The controllers between two events: as `prepareInterrupts` left them, and no line in
service. -/
structure AtRest (s : Serving) : Prop where
  idle : s.services.Idle
  masked : ∀ j, s.pics.masked j = decide (j ∉ openLines)
  vector : ∀ irq < 16, Services.vectorOf s.pics irq = 0x20 + BitVec.ofNat 8 irq

theorem atRest_started (p : Pics) (master slave : Nat → Bool) :
    (started p master slave).AtRest := by
  obtain ⟨_, hmasked, hvector⟩ := prepareLines_eq p
  exact ⟨⟨fun _ => rfl, fun _ => rfl⟩, hmasked, fun irq hirq => hvector ⟨irq, hirq⟩⟩

variable {s : Serving}

/-- The registers of the controllers stay, and every service is over. -/
theorem AtRest.of_eq {s' : Serving} (h : s.AtRest) (hpics : s'.pics = s.pics)
    (hidle : s'.services.Idle) : s'.AtRest where
  idle := hidle
  masked := by
    rw [hpics]
    exact h.masked
  vector := by
    rw [hpics]
    exact h.vector

/-! ## One interrupt -/

theorem mem_openLines {j : Fin 16} : j ∈ openLines ↔ j.val ∈ [1, 2, 12] := by
  rw [openLines, List.mem_filter, decide_eq_true_eq]
  exact and_iff_right (List.mem_finRange j)

/-- A line is open if it is one of the three. -/
theorem AtRest.not_masked (h : s.AtRest) (j : Fin 16) :
    (!s.pics.masked j) = decide (j.val ∈ [1, 2, 12]) := by
  rw [h.masked, ← decide_not]
  exact decide_eq_decide.mpr (not_not.trans mem_openLines)

/-- The open lines of both chips: the keyboard and the slave, and the mouse. -/
theorem AtRest.unmasked_eq (h : s.AtRest) :
    Lines.unmasked s.pics.master.mask = [1, 2] ∧ Lines.unmasked s.pics.slave.mask = [4] := by
  constructor
  · have hbit : ∀ i ∈ List.range 8,
        (!s.pics.master.mask.getLsbD i) = decide (i ∈ [1, 2, 12]) := by
      intro i hi
      have hlt := List.mem_range.mp hi
      have hmask := h.not_masked ⟨i, by omega⟩
      rw [Pics.masked, if_pos hlt] at hmask
      exact hmask
    rw [Lines.unmasked, List.filter_congr hbit]
    decide
  · have hbit : ∀ i ∈ List.range 8,
        (!s.pics.slave.mask.getLsbD i) = decide (i + 8 ∈ [1, 2, 12]) := by
      intro i hi
      have hlt := List.mem_range.mp hi
      have hmask := h.not_masked ⟨i + 8, by omega⟩
      rw [Pics.masked, if_neg (Nat.not_lt.mpr (Nat.le_add_left 8 i)), Nat.add_sub_cancel] at hmask
      exact hmask
    rw [Lines.unmasked, List.filter_congr hbit]
    decide

/-- The processor gets the keyboard if it waits, and else the mouse. -/
theorem AtRest.pending_eq (h : s.AtRest) :
    s.services.pending s.pics =
      if s.devices.keyboardWaits then some 1
      else if s.devices.mouseWaits then some 12
      else none := by
  obtain ⟨hmaster, hslave⟩ := h.unmasked_eq
  have hint : s.services.slave.int s.pics.slave.mask =
      if s.services.slave.irr 4 then some 4 else none := by
    rw [Lines.int_eq_find h.idle.slave, hslave]
    rcases hirr : s.services.slave.irr 4 with _ | _ <;> simp [hirr]
  have hcascade : (s.services.cascade s.pics).Idle := h.idle.master
  rw [Services.pending, Lines.int_eq_find hcascade, hmaster, hint]
  unfold Services.cascade devices
  rw [hint]
  rcases hkey : s.services.master.irr 1 with _ | _
  · rcases hmouse : s.services.slave.irr 4 with _ | _ <;> simp [hkey]
  · simp [hkey]

/-- The processor calls the handler of the vector. -/
theorem step_interrupt {fbInfo : FbInfo} {irq : Nat} {handle : UInt8 → Serving → Serving}
    (hpending : s.services.pending s.pics = some irq)
    (hhandler : handler (UInt64.ofNat (Services.vectorOf s.pics irq).toNat) = some handle)
    (data : UInt8) :
    step fbInfo s (.interrupt data) =
      some (handle data { s with services := s.services.acknowledge irq }) := by
  rw [step, hpending, Option.bind_eq_bind, Option.bind_some, hhandler]
  rfl

/-- The handler of the keyboard ends its interrupt. -/
theorem devices_intHandlerKB (h : s.AtRest) (scancode : UInt8) :
    let s' := intHandlerKB scancode { s with services := s.services.acknowledge 1 }
    s'.devices = s.devices.receiveKey scancode ∧ s'.AtRest := by
  intro s'
  have hservices : s'.services = _ :=
    Services.outb_acknowledge_lt h.idle (show 1 < 8 by decide)
  refine ⟨?_, h.of_eq (picSendEOI_eq 1 s.pics) ?_⟩
  · unfold devices
    rw [hservices]
    rfl
  · rw [hservices]
    exact ⟨h.idle.master, h.idle.slave⟩

/-- So does the handler of the mouse, at both chips. -/
theorem devices_intHandlePS2Mouse (h : s.AtRest) (data : UInt8) :
    let s' := intHandlePS2Mouse data { s with services := s.services.acknowledge 12 }
    s'.devices = s.devices.receiveMouse data ∧ s'.AtRest := by
  intro s'
  have hservices : s'.services = _ :=
    Services.outb_acknowledge_ge h.idle (show 8 ≤ 12 by decide) (by decide)
  refine ⟨?_, h.of_eq (picSendEOI_eq 12 s.pics) ?_⟩
  · unfold devices
    rw [hservices]
    rfl
  · rw [hservices]
    exact ⟨h.idle.master, h.idle.slave⟩

/-- A new request. -/
theorem devices_raise (h : s.AtRest) (irq : Nat) :
    let s' := { s with services := s.services.raise irq }
    s'.devices = { s.devices with
      keyboardWaits := decide (irq = 1) || s.devices.keyboardWaits
      mouseWaits := decide (irq = 12) || s.devices.mouseWaits } ∧ s'.AtRest := by
  refine ⟨?_, h.idle.raise, h.masked, h.vector⟩
  unfold devices
  rw [Services.raise_master_irr _ (by decide), Services.raise_slave_irr _ (by decide)]

/-! ## Any run -/

/-- An event that leads to `s₁`. -/
theorem step_devices_of_some {fbInfo : FbInfo} {e : Event} {s₁ : Serving} {d : Devices}
    (hstep : step fbInfo s e = some s₁) (hs₁ : s₁.devices = d ∧ s₁.AtRest) :
    (step fbInfo s e).map devices = some d ∧ ∀ s', step fbInfo s e = some s' → s'.AtRest := by
  rw [hstep]
  refine ⟨congrArg some hs₁.1, fun s' hs' => ?_⟩
  rw [← Option.some.inj hs']
  exact hs₁.2

/-- Every event is one of the two devices. -/
theorem step_devices (fbInfo : FbInfo) (h : s.AtRest) (e : Event) :
    (step fbInfo s e).map devices = Devices.step fbInfo s.devices e ∧
      ∀ s', step fbInfo s e = some s' → s'.AtRest := by
  cases e with
  | raise irq => exact step_devices_of_some rfl (devices_raise h irq)
  | process => exact step_devices_of_some rfl ⟨rfl, h.idle, h.masked, h.vector⟩
  | interrupt data =>
    rw [Devices.step]
    rcases hkey : s.devices.keyboardWaits with _ | _
    · rcases hmouse : s.devices.mouseWaits with _ | _
      · have hstep : step fbInfo s (.interrupt data) = none := by
          rw [step, h.pending_eq, hkey, hmouse]
          rfl
        rw [hstep]
        refine ⟨rfl, fun s' hs' => ?_⟩
        cases hs'
      · have hpending : s.services.pending s.pics = some 12 := by
          rw [h.pending_eq, hkey, hmouse]
          rfl
        have hhandler : handler (UInt64.ofNat (Services.vectorOf s.pics 12).toNat) =
            some intHandlePS2Mouse := by
          rw [h.vector 12 (by decide)]
          rfl
        exact step_devices_of_some (step_interrupt hpending hhandler data)
          (devices_intHandlePS2Mouse h data)
    · have hpending : s.services.pending s.pics = some 1 := by
        rw [h.pending_eq, hkey]
        rfl
      have hhandler : handler (UInt64.ofNat (Services.vectorOf s.pics 1).toNat) =
          some intHandlerKB := by
        rw [h.vector 1 (by decide)]
        rfl
      exact step_devices_of_some (step_interrupt hpending hhandler data)
        (devices_intHandlerKB h data)

/-- The processor finds a handler for every interrupt that it gets. -/
theorem AtRest.isSome_interrupt (h : s.AtRest) (fbInfo : FbInfo) (data : UInt8) :
    (step fbInfo s (.interrupt data)).isSome = (s.services.pending s.pics).isSome := by
  rw [← Option.isSome_map, (step_devices fbInfo h _).1, h.pending_eq, Devices.step]
  split_ifs <;> rfl

end Serving

namespace Devices

open Serving (Event)

variable {fbInfo : FbInfo} {d d' : Devices} {events : List Event}

/-- What a driver event does to the driver of the keyboard. -/
def keyboardStep (k : Keyboard) : Option (UInt8 ⊕ Mouse.Event) → Keyboard
  | some (.inl scancode) => (keyboardHandle scancode k).2
  | _ => k

/-- What a driver event does to the driver of the mouse. -/
def mouseStep (fbInfo : FbInfo) (m : Mouse) : Option (UInt8 ⊕ Mouse.Event) → Mouse
  | some (.inr e) => Mouse.step fbInfo m e
  | _ => m

/-- A step is one of the two drivers at most. -/
theorem drivers_step {e : Event} (hstep : step fbInfo d e = some d') :
    d'.keyboard = keyboardStep d.keyboard (driverEvent d e d') ∧
      d'.mouse = mouseStep fbInfo d.mouse (driverEvent d e d') := by
  cases e with
  | raise irq =>
    rw [← Option.some.inj hstep]
    exact ⟨rfl, rfl⟩
  | process =>
    rw [← Option.some.inj hstep]
    exact ⟨rfl, rfl⟩
  | interrupt data =>
    unfold step at hstep
    unfold driverEvent
    dsimp only at hstep ⊢
    split_ifs at hstep with hkey hmouse
    · rw [← Option.some.inj hstep, if_pos hkey]
      exact ⟨rfl, rfl⟩
    · rw [← Option.some.inj hstep, if_neg hkey]
      exact ⟨rfl, rfl⟩

theorem foldl_keyboardStep (l : List (Option (UInt8 ⊕ Mouse.Event))) (k : Keyboard) :
    l.foldl keyboardStep k = handleAll ((l.filterMap id).filterMap Sum.getLeft?) k := by
  induction l generalizing k with
  | nil => rfl
  | cons e l ih =>
    rw [List.foldl_cons, ih]
    rcases e with _ | _ | _ <;> rfl

theorem foldl_mouseStep (l : List (Option (UInt8 ⊕ Mouse.Event))) (m : Mouse) :
    l.foldl (mouseStep fbInfo) m =
      ((l.filterMap id).filterMap Sum.getRight?).foldl (Mouse.step fbInfo) m := by
  induction l generalizing m with
  | nil => rfl
  | cons e l ih =>
    rw [List.foldl_cons, ih]
    rcases e with _ | _ | _ <;> rfl

/-- Each driver runs as it does alone. -/
theorem drivers_run (hrun : run (step fbInfo) d events = some d') :
    d'.keyboard = handleAll (scancodes fbInfo d events) d.keyboard ∧
      d'.mouse = (mouseEvents fbInfo d events).foldl (Mouse.step fbInfo) d.mouse :=
  ⟨(eq_foldl_labels (f := Devices.keyboard) (fun _ _ _ hs => (drivers_step hs).1) hrun).trans
      (foldl_keyboardStep _ _),
    (eq_foldl_labels (f := Devices.mouse) (fun _ _ _ hs => (drivers_step hs).2) hrun).trans
      (foldl_mouseStep _ _)⟩

/-- Every byte goes to one driver. -/
theorem bytes_run (hrun : run (step fbInfo) d events = some d') :
    (driverEvents fbInfo d events).filterMap byteOf = events.filterMap Event.data := by
  induction events generalizing d with
  | nil => rfl
  | cons e events ih =>
    rw [run_cons, Option.bind_eq_some_iff] at hrun
    obtain ⟨d₁, hd₁, hrest⟩ := hrun
    have hlabels : labels (step fbInfo) driverEvent d (e :: events) =
        driverEvent d e d₁ :: labels (step fbInfo) driverEvent d₁ events :=
      labels_cons hd₁ events
    rw [driverEvents, hlabels, List.filterMap_cons, List.filterMap_cons, ← ih hrest]
    cases e with
    | raise irq => rfl
    | process => rfl
    | interrupt data =>
      have hevent : driverEvent d (.interrupt data) d₁ =
        some (if d.keyboardWaits then .inl data else .inr (.interrupt data)) := rfl
      rw [hevent]
      rcases d.keyboardWaits with _ | _ <;> rfl

end Devices

namespace Serving

/-- Whatever the firmware left in the controllers, whichever requests there are when the
main loop begins, and whatever comes then: the kernel goes through the same states as the
two devices with their flags; no line stays in service; every interrupt that the processor
gets has its handler; every byte goes to one driver; and each driver is where its own bytes
take it. -/
theorem interrupts_served (fbInfo : FbInfo) (p : Pics) (master slave : Nat → Bool)
    (events : List Event) :
    let s := started p master slave
    (run (step fbInfo) s events).map devices = run (Devices.step fbInfo) s.devices events ∧
      ∀ s', run (step fbInfo) s events = some s' →
        s'.services.Idle ∧
        (∀ data, (step fbInfo s' (.interrupt data)).isSome =
          (s'.services.pending s'.pics).isSome) ∧
        (Devices.driverEvents fbInfo s.devices events).filterMap Devices.byteOf =
          events.filterMap Event.data ∧
        s'.keyboard = handleAll (Devices.scancodes fbInfo s.devices events) Keyboard.init ∧
        s'.mouse = Mouse.run fbInfo (Devices.mouseEvents fbInfo s.devices events) := by
  intro s
  have hrest : s.AtRest := atRest_started p master slave
  have hkeeps : ∀ s e s', s.AtRest → step fbInfo s e = some s' → s'.AtRest :=
    fun s e s' h hs => (step_devices fbInfo h e).2 s' hs
  have hmap := run_map devices (fun s e h => (step_devices fbInfo h e).1) hkeeps hrest events
  refine ⟨hmap, fun s' hrun => ?_⟩
  have hrest' : s'.AtRest := run_invariant hkeeps hrest hrun
  rw [hrun, Option.map_some] at hmap
  obtain ⟨hkeyboard, hmouse⟩ := Devices.drivers_run hmap.symm
  exact ⟨hrest'.idle, hrest'.isSome_interrupt fbInfo, Devices.bytes_run hmap.symm, hkeyboard,
    hmouse⟩

/-- Both devices raise their lines, and the mouse first. -/
def sampleEvents : List Event :=
  [.raise 12, .raise 1, .interrupt 0x2A, .interrupt 0x08, .process]

/-- Controllers with every line masked. -/
def maskedPics : Pics where
  master := ⟨0xFF, 0x20, 0x04, false, true, .mask⟩
  slave := ⟨0xFF, 0x28, 0x02, false, true, .mask⟩

/-- The keyboard gets the first byte, and the mouse the second one. -/
theorem interrupts_served_sample :
    ∃ s', run (step ⟨640, 480⟩) (started maskedPics (fun _ => false) fun _ => false)
        sampleEvents = some s' ∧
      s'.services.Idle ∧ s'.keyboard = ⟨true, false, false⟩ ∧ s'.mouse.mouseCycle = 1 := by
  obtain ⟨hmap, hserved⟩ :=
    interrupts_served ⟨640, 480⟩ maskedPics (fun _ => false) (fun _ => false) sampleEvents
  rcases hrun : run (step ⟨640, 480⟩) (started maskedPics (fun _ => false) fun _ => false)
      sampleEvents with _ | s'
  · rw [hrun] at hmap
    cases hmap
  · obtain ⟨hidle, _, _, hkeyboard, hmouse⟩ := hserved s' hrun
    refine ⟨s', rfl, hidle, hkeyboard, ?_⟩
    rw [hmouse]
    rfl

end Serving

end BbnOS
