import BbnOS.Legacy.SavedContext
import BbnOS.Legacy.Nesting
import BbnOS.Lib.Interruption

/-!
# The stacks hold the contexts

The machine of `Context` against `Interruption`, in which a context is a value.
`Holds` is the relation: the frame of every PCB holds the context of its task,
`Below` says the same of the kernel stack and the handlers that wait, and `At`
what is true of an activation that stands at a place, with the label that
`save` pushed at `sp`.  `Control` relates the machine to the one of
`Interrupts`, of which the invariant `Inv` is known.

`Good` puts the three together; `ContextSteps` shows that a step keeps it.
-/

namespace BbnOS

namespace Legacy

namespace Context

open WordStack Interruption

/-- The contexts of the tasks and of the interrupted handlers. -/
abbrev Threads := Interruption.State Nat Registers

/-! ## Places -/

/-- The place of `Interrupts` at a place of the machine. -/
def Point.stage : Point → Stage
  | mask => .mask
  | sti => .sti
  | push | call | test => .handler
  | nextProc => .nextProc
  | wrapProc => .wrapProc
  | done | pop | store | cli => .cli
  | unmask => .unmask
  | ret => .ret
  | restart => .restart
  | restartReenter => .restartReenter

/-- The words that a routine has on the stack, above the label of `save`. -/
def Point.words : Point → Option Nat
  | mask | sti | push | store | cli | unmask | ret => some 0
  | call | pop => some 1
  | _ => none

/-- The places of `sys_call` up to the store of its result. -/
def Point.beforeStore : Point → Bool
  | sti | push | call | test | nextProc | wrapProc | done | pop | store => true
  | _ => false

/-- The places of a routine. -/
def Point.fits : Point → Routine → Bool
  | restart, _ | restartReenter, _ => true
  | _, .kmain => false
  | mask, .sysCall | unmask, .sysCall | store, .hwint _ => false
  | _, _ => true

/-- The label that `save` pushed for an activation above `fs`. -/
def Layout.label (L : Layout) : List Activation → UInt32
  | [] => L.restart
  | _ :: _ => L.restartReenter

/-- The frame that an activation above `fs` returns through. -/
def Layout.base (L : Layout) (current : Nat) (sp : UInt32) : List Activation → UInt32
  | [] => L.pcb current
  | _ :: _ => sp + 4

/-- The place of a pointer in the table. -/
def Layout.index (L : Layout) (p : UInt32) : Nat := (p - L.procTable).toNat / SIZEOF_PROCESS

/-! ## The relation -/

section Relation

variable (L : Layout) (m : Bytes) (current : Nat) (pending : Bool)

/-- The activation `f` above `fs` stands at its place with the registers `r`, and
the label of `save` is at `sp`. -/
structure At (fs : List Activation) (f : Activation) (r : Registers) (sp : UInt32) : Prop where
  cs : r.cs = SELECTOR_KERNEL_CS
  ss : r.ss = SELECTOR_KERNEL_DS
  fits : f.point.fits f.routine = true
  label : f.point ≠ .restart → f.point ≠ .restartReenter → load32 m sp = L.label fs
  words : ∀ n, f.point.words = some n → r.esp.toNat + 4 * n = sp.toNat
  inC : f.point.inC = true → f.called.esp.toNat + 8 = sp.toNat ∧
    load32 m f.called.esp = L.code f.routine .pop ∧ r.esp.toNat ≤ f.called.esp.toNat ∧
    f.called.esp.toNat ≤ r.esp.toNat + L.handlerRoom
  leave : f.point = .restartReenter → r.esp = L.base current sp fs
  esi : f.routine = .sysCall → f.point.beforeStore = true →
    (if f.point.inC then f.called.esi else r.esi) = L.base current sp fs
  pending : fs = [] → (pending = true ↔ f.routine = .sysCall ∧ f.point.beforeStore = true)

/-- The activations that wait with the contexts of a list lie on the kernel
stack, and `sp` is where the label of the next one goes. -/
inductive Below : List Activation → List Registers → UInt32 → Prop where
  | nil : Below [] [] (L.stackTop - 4)
  | cons {g : Activation} {gs : List Activation} {r : Registers} {rs : List Registers}
    {sp sp' : UInt32} (below : Below gs rs sp) (stands : At L m current pending gs g r sp)
    (enabled : g.point.stage.enabled = true) (flag : r.interruptFlag = true)
    (hsp : sp'.toNat + 68 = r.esp.toNat) (saved : savedInner m (sp' + 4) = r) :
    Below (g :: gs) (r :: rs) sp'

end Relation

/-- The context of a task. -/
def Registers.Outer (r : Registers) : Prop :=
  r.interruptFlag = true ∧ rpl r.cs ≠ rpl SELECTOR_KERNEL_CS

/-- The LDT selector that `kmain` gives the task `i`. -/
def ldtSelector (i : Nat) : UInt16 := 0x28 + UInt16.ofNat (8 * i)

/-- What `restart` loads for the task `current`. -/
structure Loaded (L : Layout) (k : Machine) (current : Nat) : Prop where
  sp0 : k.sp0 = L.pcb current + 72
  ldtr : k.ldtr = ldtSelector current
  pProcReady : k.pProcReady = L.pcb current

/-- The machine holds the contexts. -/
structure Holds (L : Layout) (k : Machine) (t : Threads) : Prop where
  current : t.current < MAX_THREAD
  live : k.registers.interruptFlag = true → t.live = k.registers
  ldt : ∀ i, i < MAX_THREAD → load16 k.memory (L.pcb i + 72) = ldtSelector i
  task : k.activations = [] → t.kernel = none ∧ k.registers.Outer ∧ Loaded L k t.current
  leaving : ∀ f, k.activations = [f] → f.point = .restartReenter → Loaded L k t.current
  tasks : ∀ i, i < MAX_THREAD → (k.activations = [] → i ≠ t.current) →
    savedOuter k.memory (L.pcb i) = t.tasks i ∧ (t.tasks i).Outer
  handler : ∀ f fs, k.activations = f :: fs → ∃ κ sp, t.kernel = some κ ∧
    Below L k.memory t.current κ.pending fs κ.interrupted sp ∧
    At L k.memory t.current κ.pending fs f k.registers sp

/-- The frame of `Interrupts` for an activation above `fs`. -/
def frame (fs : List Activation) (f : Activation) : Frame where
  routine := f.routine
  stage := f.point.stage
  label :=
    match fs with
    | [] => .restart
    | _ :: _ => .restartReenter

/-- The frames of `Interrupts`. -/
def frames : List Activation → List Frame
  | [] => []
  | f :: fs => frame fs f :: frames fs

/-- The machine is in the state `s` of `Interrupts`. -/
structure Control (L : Layout) (k : Machine) (s : Cpu) : Prop where
  port21 : k.port21 = s.port21
  counter : k.clockIntEnterTime = s.clockIntEnterTime
  proc : k.pProcReady = L.pcb s.pProcReady
  flag : k.registers.interruptFlag = s.interruptFlag
  frames : frames k.activations = s.frames

/-- What a step is to the contexts. -/
def event (L : Layout) (k : Machine) (a : Action) (k' : Machine) : Event Nat Registers :=
  match a with
  | .irq _ => .interrupt
  | .intSysCall => .call
  | .run r _ => .run r
  | .resume =>
    match k.activations with
    | [] => .run k'.registers
    | f :: _ =>
      match f.point with
      | .store => .amend (fun r => { r with eax := k.registers.eax }) k'.registers
      | .restart => .switch (L.index k.pProcReady)
      | .restartReenter => .resume
      | _ => .run k'.registers

/-! ## Addresses -/

section Addresses

variable {L : Layout}

theorem toNat_pcb {i : Nat} (hi : i ≤ MAX_THREAD) :
    (L.pcb i).toNat = L.procTable.toNat + SIZEOF_PROCESS * i := by
  have hlt := L.procTable_lt
  have hle := Nat.mul_le_mul_left SIZEOF_PROCESS hi
  rw [Nat.mul_comm MAX_THREAD] at hlt
  exact toNat_add_of_lt (by omega)

theorem pcb_succ (i : Nat) : L.pcb (i + 1) = L.pcb i + UInt32.ofNat SIZEOF_PROCESS := by
  rw [Layout.pcb, Layout.pcb, Nat.mul_succ, UInt32.ofNat_add, UInt32.add_assoc]

theorem index_pcb {i : Nat} (hi : i < MAX_THREAD) : L.index (L.pcb i) = i := by
  have hlt : SIZEOF_PROCESS * i < 2 ^ 32 := by
    have hmul := Nat.mul_le_mul_left SIZEOF_PROCESS (Nat.le_of_lt hi)
    exact Nat.lt_of_le_of_lt hmul (by decide)
  rw [Layout.index, Layout.pcb, add_sub_cancel_left, UInt32.toNat_ofNat', Nat.mod_eq_of_lt hlt,
    Nat.mul_div_cancel_left i (by decide)]

/-- What lies in the frame of a PCB, or is its LDT selector, lies in the table. -/
theorem inTable_of_pcb {i : Nat} (hi : i < MAX_THREAD) {a : UInt32}
    (hlo : (L.pcb i).toNat ≤ a.toNat) (hhi : a.toNat < (L.pcb i).toNat + SIZEOF_PROCESS) :
    L.InTable a := by
  rw [toNat_pcb (Nat.le_of_lt hi)] at hlo hhi
  have hmul := Nat.mul_le_mul_left SIZEOF_PROCESS (Nat.succ_le_of_lt hi)
  rw [Nat.mul_succ, Nat.mul_comm SIZEOF_PROCESS MAX_THREAD] at hmul
  constructor <;> omega

theorem pcb_le {i : Nat} (hi : i < MAX_THREAD) : (L.pcb i).toNat + SIZEOF_PROCESS < 2 ^ 32 := by
  have hlt := L.procTable_lt
  have hmul := Nat.mul_le_mul_left SIZEOF_PROCESS (Nat.succ_le_of_lt hi)
  rw [Nat.mul_succ, Nat.mul_comm SIZEOF_PROCESS MAX_THREAD] at hmul
  rw [toNat_pcb (Nat.le_of_lt hi)]
  omega

/-- Two PCBs do not meet. -/
theorem pcb_apart {i j : Nat} (hi : i < MAX_THREAD) (hj : j < MAX_THREAD) (hne : i ≠ j) :
    (L.pcb i).toNat + SIZEOF_PROCESS ≤ (L.pcb j).toNat ∨
      (L.pcb j).toNat + SIZEOF_PROCESS ≤ (L.pcb i).toNat := by
  rw [toNat_pcb (Nat.le_of_lt hi), toNat_pcb (Nat.le_of_lt hj)]
  rcases Nat.lt_or_gt_of_ne hne with hlt | hgt
  · have hmul := Nat.mul_le_mul_left SIZEOF_PROCESS (Nat.succ_le_of_lt hlt)
    rw [Nat.mul_succ] at hmul
    omega
  · have hmul := Nat.mul_le_mul_left SIZEOF_PROCESS (Nat.succ_le_of_lt hgt)
    rw [Nat.mul_succ] at hmul
    omega

/-- A PCB does not meet the kernel stack. -/
theorem pcb_apart_stack {i : Nat} (hi : i < MAX_THREAD) :
    (L.pcb i).toNat + SIZEOF_PROCESS ≤ L.stackSpace.toNat ∨
      L.stackTop.toNat ≤ (L.pcb i).toNat := by
  have hapart := L.apart
  have hmul := Nat.mul_le_mul_left SIZEOF_PROCESS (Nat.succ_le_of_lt hi)
  rw [Nat.mul_succ, Nat.mul_comm SIZEOF_PROCESS MAX_THREAD] at hmul
  rw [toNat_pcb (Nat.le_of_lt hi), L.toNat_stackTop]
  omega

/-- The kernel stack does not meet the table. -/
theorem not_inTable_of_stack {a : UInt32} (hlo : L.stackSpace.toNat ≤ a.toNat)
    (hhi : a.toNat < L.stackTop.toNat) : ¬ L.InTable a := by
  have hapart := L.apart
  rw [L.toNat_stackTop] at hhi
  rintro ⟨htable, hend⟩
  omega

end Addresses

/-! ## What lies where -/

section Places

variable {L : Layout} {m m' : Bytes} {current : Nat} {pending : Bool} {fs : List Activation}
  {f : Activation} {r : Registers} {rs : List Registers} {sp : UInt32}

/-- Where interrupts are enabled `esp` is below the label, by the room of a
handler at most. -/
theorem At.esp_bounds (h : At L m current pending fs f r sp)
    (henabled : f.point.stage.enabled = true) :
    r.esp.toNat ≤ sp.toNat ∧ sp.toNat ≤ r.esp.toNat + 8 + L.handlerRoom := by
  by_cases hC : f.point.inC = true
  · obtain ⟨hsp, _, hle, hge⟩ := h.inC hC
    omega
  · obtain ⟨n, hn, hle⟩ : ∃ n, f.point.words = some n ∧ n ≤ 1 := by
      cases hp : f.point <;> rw [hp] at henabled hC <;>
        first
        | exact ⟨_, rfl, by decide⟩
        | exact absurd henabled (by decide)
        | exact absurd rfl hC
    have hesp := h.words n hn
    omega

/-- A place with interrupts enabled is before the return of its routine. -/
theorem point_ne_of_enabled (henabled : f.point.stage.enabled = true) :
    f.point ≠ .restart ∧ f.point ≠ .restartReenter := by
  constructor <;> intro hp <;> rw [hp] at henabled <;> exact absurd henabled (by decide)

/-- The words that an activation depends on. -/
theorem At.congr (h : At L m current pending fs f r sp) (hsp : sp.toNat + 4 ≤ 2 ^ 32)
    (hlabel : ∀ a : UInt32, sp.toNat ≤ a.toNat → a.toNat < sp.toNat + 4 → m' a = m a)
    (hcalled : ∀ a : UInt32, f.point.inC = true → f.called.esp.toNat ≤ a.toNat →
      a.toNat < f.called.esp.toNat + 4 → m' a = m a) :
    At L m' current pending fs f r sp where
  cs := h.cs
  ss := h.ss
  fits := h.fits
  label := by
    intro hrestart hreenter
    rw [load32_congr hsp hlabel]
    exact h.label hrestart hreenter
  words := h.words
  inC := by
    intro hC
    obtain ⟨hesp, hreturn, hroom⟩ := h.inC hC
    refine ⟨hesp, ?_, hroom⟩
    rw [load32_congr (by omega) fun a hlo hhi => hcalled a hC hlo hhi]
    exact hreturn
  leave := h.leave
  esi := h.esi
  pending := h.pending

/-- The labels of the activations lie in the part of the stack that the depth
bounds. -/
theorem Below.sp_bounds (h : Below L m current pending fs rs sp) :
    sp.toNat + 4 ≤ L.stackTop.toNat ∧
      L.stackTop.toNat ≤ sp.toNat + 4 + fs.length * (76 + L.handlerRoom) := by
  induction h with
  | nil =>
    have htop := L.toNat_stackTop
    have hsub := toNat_sub_of_le (a := L.stackTop) (k := 4) (by omega)
    rw [show UInt32.ofNat 4 = 4 from rfl] at hsub
    omega
  | cons below stands enabled flag hsp saved ih =>
    have hesp := stands.esp_bounds enabled
    rw [List.length_cons, Nat.succ_mul]
    omega

/-- The waiting activations lie above the label of the running one. -/
theorem Below.congr (h : Below L m current pending fs rs sp)
    (hm : ∀ a : UInt32, sp.toNat + 4 ≤ a.toNat → a.toNat < L.stackTop.toNat → m' a = m a) :
    Below L m' current pending fs rs sp := by
  induction h with
  | nil => exact .nil
  | @cons g gs r rs sp sp' below stands enabled flag hsp saved ih =>
    have hbounds := below.sp_bounds
    have hesp := stands.esp_bounds enabled
    have htop := L.stackTop.toNat_lt
    have hframe := UInt32.toNat_add sp' 4
    rw [show (4 : UInt32).toNat = 4 from rfl] at hframe
    refine .cons (ih fun a hlo hhi => hm a (by omega) hhi) ?_ enabled flag hsp ?_
    · refine stands.congr (by omega) (fun a hlo hhi => hm a (by omega) (by omega)) ?_
      intro a hC hlo hhi
      obtain ⟨hcalled, _, hle, _⟩ := stands.inC hC
      exact hm a (by omega) (by omega)
    · rw [savedInner_congr (by omega) fun a hlo hhi => hm a (by omega) (by omega)]
      exact saved

end Places

/-! ## Entries -/

/-- The kernel stack has room for the open interrupts, each inside the C function of
another one, and for one C function below them. -/
def Layout.StackFits (L : Layout) (mask : BitVec 8) : Prop :=
  (openIrqs mask).length * (76 + L.handlerRoom) + (12 + L.handlerRoom) ≤ 2048

instance (L : Layout) (mask : BitVec 8) : Decidable (L.StackFits mask) :=
  inferInstanceAs (Decidable (_ ≤ _))

/-- The three machines together. -/
structure Good (L : Layout) (mask₀ : BitVec 8) (k : Machine) (t : Threads) (s : Cpu) : Prop where
  stackFits : L.StackFits mask₀
  inv : Inv mask₀ s
  control : Control L k s
  holds : Holds L k t

section Entries

variable {L : Layout} {mask₀ : BitVec 8} {k : Machine} {t : Threads} {s : Cpu}
  {routine : Routine}

theorem frames_eq_nil (h : Control L k s) : s.frames = [] ↔ k.activations = [] := by
  rw [← h.frames]
  cases k.activations with
  | nil => exact iff_of_true rfl rfl
  | cons f fs => exact iff_of_false (List.cons_ne_nil _ _) (List.cons_ne_nil _ _)

theorem length_frames (fs : List Activation) : (frames fs).length = fs.length := by
  induction fs with
  | nil => rfl
  | cons f fs ih => rw [frames, List.length_cons, List.length_cons, ih]

theorem Control.frames_cons {f : Activation} {fs : List Activation} (h : Control L k s)
    (hk : k.activations = f :: fs) : s.frames = frame fs f :: Context.frames fs := by
  rw [← h.frames, hk]
  rfl

/-- What an entry does to the control. -/
theorem Control.enter {k' : Machine} {p : UInt32} {st : Stack} (h : Control L k s)
    (hentered : Entered routine k p st k')
    (hlabel : s.clockIntEnterTime + 1 = 0 ↔ k.activations = []) :
    Control L k' (save routine (first routine).stage s) := by
  obtain ⟨f, hactivations, hroutine, hpoint⟩ := hentered.top
  refine ⟨?_, ?_, ?_, ?_, ?_⟩
  · rw [hentered.port21, h.port21]
    rfl
  · rw [hentered.counter, h.counter]
    rfl
  · rw [hentered.pProcReady, h.proc]
    rfl
  · exact hentered.interruptFlag
  · rw [frames_save, hactivations, ← h.frames]
    change frame k.activations f :: _ = _
    rw [frame.eq_def, entered, hroutine, hpoint]
    congr 2
    cases hfs : k.activations with
    | nil => exact (if_pos (hlabel.mpr hfs)).symm
    | cons g gs =>
      refine (if_neg fun hzero => ?_).symm
      rw [hlabel.mp hzero] at hfs
      cases hfs

theorem hwint_ne (irq : Fin 8) : Routine.hwint irq ≠ .kmain := by
  simp

theorem first_ne (routine : Routine) : first routine ≠ .restartReenter := by
  cases routine with
  | hwint irq => exact show Point.mask ≠ .restartReenter by decide
  | _ => decide

/-- A routine after its entry. -/
theorem at_first {k' : Machine} {p sp : UInt32} {f : Activation} {fs : List Activation}
    {current : Nat} {pending : Bool} (hroutine : routine ≠ .kmain)
    (hentered : Entered routine k p ⟨k'.memory, sp⟩ k') (hf : f.routine = routine)
    (hpoint : f.point = first routine) (hlabel : load32 k'.memory sp = L.label fs)
    (hbase : p = L.base current sp fs)
    (hpending : fs = [] → pending = decide (routine = .sysCall)) :
    At L k'.memory current pending fs f k'.registers sp := by
  have hesp : k'.registers.esp = sp := congrArg Stack.esp hentered.stack
  have hfirst : (first routine).words = some 0 ∧ (first routine).inC = false ∧
      (first routine).fits routine = true ∧
      (routine = .sysCall → (first routine).beforeStore = true) := by
    cases routine with
    | kmain => exact absurd rfl hroutine
    | hwint irq =>
      refine ⟨rfl, rfl, rfl, fun hsys => ?_⟩
      cases hsys
    | sysCall => exact ⟨rfl, rfl, rfl, fun _ => rfl⟩
  obtain ⟨hwords, hC, hfits, hstore⟩ := hfirst
  rw [← hpoint] at hwords hC hfits hstore
  constructor
  case cs => exact hentered.cs
  case ss => exact hentered.ss
  case fits => rw [hf]; exact hfits
  case label => exact fun _ _ => hlabel
  case words =>
    intro n hn
    rw [hwords] at hn
    rw [hesp, ← Option.some.inj hn]
    rfl
  case inC =>
    intro hC'
    rw [hC] at hC'
    cases hC'
  case leave => exact fun hleave => absurd (hpoint.symm.trans hleave) (first_ne routine)
  case esi =>
    intro _ _
    rw [hC, hentered.esi]
    exact hbase
  case pending =>
    intro hfs
    rw [hpending hfs, decide_eq_true_iff, hf]
    exact ⟨fun hsys => ⟨hsys, hstore hsys⟩, fun hsys => hsys.1⟩

/-- What an entry from the task `current` leaves of the PCBs. -/
theorem keep_pcb {m m' : Bytes} {current : Nat} (hcurrent : current < MAX_THREAD)
    (hm : ∀ a : UInt32, a.toNat < (L.pcb current).toNat ∨ (L.pcb current).toNat + 72 ≤ a.toNat →
      a.toNat + 4 < L.stackTop.toNat ∨ L.stackTop.toNat ≤ a.toNat → m' a = m a)
    {i : Nat} (hi : i < MAX_THREAD) {a : UInt32} (hlo : (L.pcb i).toNat ≤ a.toNat)
    (hhi : a.toNat < (L.pcb i).toNat + SIZEOF_PROCESS)
    (hout : i ≠ current ∨ (L.pcb i).toNat + 72 ≤ a.toNat) : m' a = m a := by
  have hsize : SIZEOF_PROCESS = 112 := rfl
  have htop := L.toNat_stackTop
  have hstack := pcb_apart_stack (L := L) hi
  have hsplit : a.toNat < (L.pcb current).toNat ∨ (L.pcb current).toNat + 72 ≤ a.toNat := by
    by_cases hne : i = current
    · subst hne
      omega
    · have hapart := pcb_apart (L := L) hi hcurrent hne
      omega
  exact hm a hsplit (by omega)

/-- What holds of the other PCBs, and of the LDT selectors, where only the frame of
the current task changes. -/
theorem Holds.others (h : Holds L k t) {m : Bytes}
    (hm : ∀ a : UInt32, a.toNat < (L.pcb t.current).toNat ∨
      (L.pcb t.current).toNat + 72 ≤ a.toNat →
      a.toNat + 4 < L.stackTop.toNat ∨ L.stackTop.toNat ≤ a.toNat → m a = k.memory a)
    {i : Nat} (hi : i < MAX_THREAD) :
    load16 m (L.pcb i + 72) = ldtSelector i ∧
      (i ≠ t.current → savedOuter m (L.pcb i) = savedOuter k.memory (L.pcb i)) := by
  have hsize : SIZEOF_PROCESS = 112 := rfl
  have hpcb := pcb_le (L := L) hi
  have hat := toNat_add_of_lt (a := L.pcb i) (k := 72) (by omega)
  rw [show UInt32.ofNat 72 = 72 from rfl] at hat
  constructor
  · rw [load16_congr (by omega) fun a hlo hhi =>
      keep_pcb h.current hm hi (by omega) (by omega) (Or.inr (by omega))]
    exact h.ldt i hi
  · intro hne
    exact savedOuter_congr (by omega) fun a hlo hhi =>
      keep_pcb h.current hm hi hlo (by omega) (Or.inl hne)

/-- A task is interrupted, or makes a system call. -/
theorem Good.enterTask (h : Good L mask₀ k t s) (hroutine : routine ≠ .kmain)
    (hk : k.activations = []) :
    ∃ k', k.enter L routine = some k' ∧
      Holds L k' (Interruption.enter (decide (routine = .sysCall)) t) ∧
      Control L k' (save routine (first routine).stage s) := by
  obtain ⟨hkernel, houter, hloaded⟩ := h.holds.task hk
  have hcurrent := h.holds.current
  have hsize : SIZEOF_PROCESS = 112 := rfl
  have hpcb := pcb_le (L := L) hcurrent
  have hstack := pcb_apart_stack (L := L) hcurrent
  have hcounter : s.clockIntEnterTime + 1 = 0 :=
    h.inv.counter_add_one_eq_zero_iff.mpr ((frames_eq_nil h.control).mpr hk)
  have hsp0 : k.sp0.toNat = (L.pcb t.current).toNat + 72 := by
    rw [hloaded.sp0]
    exact toNat_add_of_lt (k := 72) (by omega)
  obtain ⟨k', hk', hentered, hsaved, hlabel, hmemory⟩ := enterOuter (L := L) routine
    houter.2 hsp0 (by rw [h.control.counter]; exact hcounter) (by omega)
  refine ⟨k', hk', ?_, h.control.enter hentered (iff_of_true hcounter hk)⟩
  obtain ⟨f, hactivations, hfroutine, hpoint⟩ := hentered.top
  rw [Interruption.enter_task hkernel]
  constructor
  case current => exact hcurrent
  case live =>
    intro hflag
    rw [hentered.interruptFlag] at hflag
    exact absurd hflag Bool.false_ne_true
  case ldt => exact fun i hi => (h.holds.others hmemory hi).1
  case task =>
    intro hnil
    rw [hactivations] at hnil
    cases hnil
  case leaving =>
    intro f' hf' hleave
    rw [hactivations] at hf'
    rw [← (List.cons.inj hf').1, hpoint] at hleave
    exact absurd hleave (first_ne routine)
  case tasks =>
    intro i hi _
    by_cases hne : i = t.current
    · subst hne
      dsimp only
      rw [Function.update_self, h.holds.live houter.1]
      exact ⟨hsaved, houter⟩
    · dsimp only
      rw [Function.update_of_ne hne, (h.holds.others hmemory hi).2 hne]
      exact h.holds.tasks i hi fun _ => hne
  case handler =>
    intro f' fs hf'
    rw [hactivations, hk] at hf'
    obtain ⟨heq, hnil⟩ := List.cons.inj hf'
    subst heq hnil
    exact ⟨_, L.stackTop - 4, rfl, .nil,
      at_first hroutine hentered hfroutine hpoint hlabel rfl fun _ => rfl⟩

/-- What lies in the table stays where no byte of the table changes. -/
theorem Holds.table (h : Holds L k t) {m : Bytes}
    (hm : ∀ a : UInt32, L.InTable a → m a = k.memory a) {i : Nat} (hi : i < MAX_THREAD) :
    savedOuter m (L.pcb i) = savedOuter k.memory (L.pcb i) ∧
      load16 m (L.pcb i + 72) = ldtSelector i := by
  have hsize : SIZEOF_PROCESS = 112 := rfl
  have hpcb := pcb_le (L := L) hi
  have hat := toNat_add_of_lt (a := L.pcb i) (k := 72) (by omega)
  rw [show UInt32.ofNat 72 = 72 from rfl] at hat
  constructor
  · exact savedOuter_congr (by omega) fun a hlo hhi =>
      hm a (inTable_of_pcb hi (by omega) (by omega))
  · rw [load16_congr (by omega) fun a hlo hhi =>
      hm a (inTable_of_pcb hi (by omega) (by omega))]
    exact h.ldt i hi

/-- A handler is interrupted. -/
theorem Good.enterHandler (h : Good L mask₀ k t s) {irq : Fin 8} {f : Activation}
    {fs : List Activation} (hk : k.activations = f :: fs)
    (hflag : k.registers.interruptFlag = true)
    (hclear : s.port21.getLsbD irq.val = false) :
    ∃ k', k.enter L (.hwint irq) = some k' ∧ Holds L k' (Interruption.enter false t) ∧
      Control L k' (save (.hwint irq) .mask s) ∧
      (∃ f', k'.activations = f' :: k.activations) ∧
      ∀ a : UInt32, k.registers.esp.toNat ≤ a.toNat → k'.memory a = k.memory a := by
  obtain ⟨κ, sp, hkernel, hbelow, hat⟩ := h.holds.handler f fs hk
  have hon : s.interruptFlag = true := by rw [← h.control.flag]; exact hflag
  have hframes := h.control.frames_cons hk
  have henabled : f.point.stage.enabled = true :=
    h.inv.flag hon (frame fs f) (by rw [hframes]; rfl)
  -- the depth bounds how far down the stack the new frame lies
  have hnext := h.inv.irq hon hclear
  have hdepth := hnext.length_frames_le
  rw [frames_save, hframes, List.length_cons, List.length_cons, length_frames] at hdepth
  have hbounds := hbelow.sp_bounds
  have hesp := hat.esp_bounds henabled
  have htop := L.toNat_stackTop
  have hlt := L.stackSpace_lt
  have hroom := h.stackFits
  have hmul := Nat.mul_le_mul_right (76 + L.handlerRoom)
    (show fs.length + 1 ≤ (openIrqs mask₀).length by omega)
  rw [Nat.succ_mul] at hmul
  unfold Layout.StackFits at hroom
  obtain ⟨p, hp⟩ : ∃ p : UInt32, k.registers.esp.toNat = p.toNat + 64 := by
    refine ⟨k.registers.esp - UInt32.ofNat 64, ?_⟩
    rw [toNat_sub_of_le (by omega)]
    omega
  have hcounter : k.clockIntEnterTime + 1 ≠ 0 := by
    intro hzero
    rw [h.control.counter, h.inv.counter_add_one_eq_zero_iff, hframes] at hzero
    cases hzero
  obtain ⟨k', hk', hentered, hsaved, hlabel, hmemory⟩ := enterInner (L := L)
    (.hwint irq) hat.cs hat.ss hp (by omega) hcounter
  have hpsub := toNat_sub_of_le (a := p) (k := 4) (by omega)
  rw [show UInt32.ofNat 4 = 4 from rfl] at hpsub
  have htable : ∀ a : UInt32, L.InTable a → k'.memory a = k.memory a := by
    intro a ha
    by_cases hin : a.toNat < L.stackSpace.toNat ∨ L.stackTop.toNat ≤ a.toNat
    · exact hmemory a (by omega)
    · exact absurd ha (not_inTable_of_stack (by omega) (by omega))
  have habove : ∀ a : UInt32, k.registers.esp.toNat ≤ a.toNat → k'.memory a = k.memory a :=
    fun a ha => hmemory a (by omega)
  obtain ⟨f', hactivations, hfroutine, hpoint⟩ := hentered.top
  refine ⟨k', hk', ?_, h.control.enter hentered (iff_of_false ?_ ?_), ⟨f', hactivations⟩, habove⟩
  · rw [Interruption.enter_handler hkernel]
    constructor
    case current => exact h.holds.current
    case live =>
      intro hflag'
      rw [hentered.interruptFlag] at hflag'
      exact absurd hflag' Bool.false_ne_true
    case ldt => exact fun i hi => (h.holds.table htable hi).2
    case task =>
      intro hnil
      rw [hactivations] at hnil
      cases hnil
    case leaving =>
      intro f'' hf'' hleave
      rw [hactivations] at hf''
      rw [← (List.cons.inj hf'').1, hpoint] at hleave
      exact absurd hleave (first_ne _)
    case tasks =>
      intro i hi _
      rw [(h.holds.table htable hi).1]
      exact h.holds.tasks i hi fun hnil => absurd (hk.symm.trans hnil) (List.cons_ne_nil _ _)
    case handler =>
      intro f'' gs hf''
      rw [hactivations, hk] at hf''
      obtain ⟨heq, hgs⟩ := List.cons.inj hf''
      subst heq hgs
      rw [h.holds.live hflag]
      refine ⟨_, p - 4, rfl, .cons (hbelow.congr fun a hlo _ => habove a (by omega))
        (hat.congr (by omega) (fun a hlo _ => habove a (by omega)) fun a hC hlo _ => ?_)
        henabled hflag (by omega) ?_, ?_⟩
      · obtain ⟨_, _, hle, _⟩ := hat.inC hC
        exact habove a (by omega)
      · rw [sub_add_cancel]
        exact hsaved
      · exact at_first (hwint_ne irq) hentered hfroutine hpoint hlabel
          (sub_add_cancel p 4).symm fun hnil => absurd hnil (List.cons_ne_nil _ _)
  · rw [← h.control.counter]
    exact hcounter
  · rw [hk]
    exact List.cons_ne_nil _ _

end Entries

end Context

end Legacy

end BbnOS
