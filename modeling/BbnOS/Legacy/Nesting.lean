import BbnOS.Legacy.Interrupts
import Mathlib.Data.Fintype.Card
import Mathlib.Data.Fintype.List

/-!
# Nested interrupts are bracketed

`Inv` is the invariant of the interrupt paths.  `Nested` is its part about the
stack of frames: only the frame at the bottom was entered from a task, so it
alone carries the return address `restart`, every frame above it is a master
interrupt, and every frame that waits stands at a place where interrupts are
enabled.  With the mask bits this bounds the depth (`length_le_of_nested`), so
the 32-bit counter of `save` never comes around.

`inv_step` is what one step keeps, `inv_run` the invariant of every run from
the first `restart`, and `bracketed_run` reads the bracketing off it.
-/

namespace BbnOS

namespace Legacy

open Runs

/-! ## The frames on the stack -/

/-- The places at which interrupts are enabled. -/
def Stage.enabled : Stage → Bool
  | handler | nextProc | wrapProc | cli => true
  | _ => false

/-- The places between the two changes of the mask. -/
def Stage.masking : Stage → Bool
  | sti | handler | nextProc | wrapProc | cli | unmask => true
  | _ => false

/-- The places inside `clock_handler` before a statement that moves
`p_proc_ready`. -/
def Stage.movesProc : Stage → Bool
  | nextProc | wrapProc => true
  | _ => false

namespace Frame

/-- The interrupt of a frame. -/
def irq? (f : Frame) : Option (Fin 8) :=
  match f.routine with
  | .hwint irq => some irq
  | _ => none

/-- The interrupt that a frame keeps masked. -/
def active? (f : Frame) : Option (Fin 8) :=
  if f.stage.masking then f.irq? else none

/-- What holds of a frame above the frames `fs`. -/
structure Ok (f : Frame) (fs : List Frame) : Prop where
  label : f.label = .restart ↔ fs = []
  irq : fs ≠ [] → ∃ irq, f.irq? = some irq
  below : ∀ g, g ∈ fs → g.stage.enabled = true
  moves : f.stage.movesProc = true → fs = []
  restart : f.stage = .restart → f.label = .restart

end Frame

/-- The interrupts on the stack. -/
def irqs (fs : List Frame) : List (Fin 8) := fs.filterMap Frame.irq?

/-- The interrupts that are active: entered, masked, and not yet unmasked. -/
def activeIrqs (fs : List Frame) : List (Fin 8) := fs.filterMap Frame.active?

/-- What holds of a stack of frames. -/
def Nested : List Frame → Prop
  | [] => True
  | f :: fs => f.Ok fs ∧ Nested fs

theorem active?_eq_of_masking {f : Frame} (h : f.stage.masking = true) : f.active? = f.irq? := by
  rw [Frame.active?, if_pos h]

theorem active?_eq_none {f : Frame} (h : f.stage.masking = false) : f.active? = none := by
  rw [Frame.active?, h]
  rfl

theorem masking_of_enabled {st : Stage} (h : st.enabled = true) : st.masking = true := by
  cases st <;> first | rfl | exact absurd h (by decide)

/-- The active interrupts are among those on the stack. -/
theorem activeIrqs_sublist (fs : List Frame) : (activeIrqs fs).Sublist (irqs fs) := by
  induction fs with
  | nil => exact List.Sublist.refl _
  | cons f fs ih =>
    rw [activeIrqs, irqs, List.filterMap_cons, List.filterMap_cons]
    by_cases hmask : f.stage.masking = true
    · rw [active?_eq_of_masking hmask]
      cases f.irq? with
      | none => exact ih
      | some irq => exact ih.cons_cons irq
    · rw [active?_eq_none (Bool.not_eq_true _ ▸ hmask)]
      cases f.irq? with
      | none => exact ih
      | some irq => exact ih.cons irq

/-- Where interrupts are enabled every frame keeps its interrupt masked. -/
theorem activeIrqs_eq_of_enabled {fs : List Frame}
    (h : ∀ g, g ∈ fs → g.stage.enabled = true) : activeIrqs fs = irqs fs := by
  apply List.filterMap_congr
  intro g hg
  exact active?_eq_of_masking (masking_of_enabled (h g hg))

/-- All frames but the one at the bottom are interrupts. -/
theorem length_le_irqs {fs : List Frame} (h : Nested fs) :
    fs.length ≤ (irqs fs).length + 1 := by
  induction fs with
  | nil => exact Nat.zero_le _
  | cons f fs ih =>
    cases fs with
    | nil => exact Nat.succ_le_succ (Nat.zero_le _)
    | cons g fs =>
      rcases h.1.irq (List.cons_ne_nil g fs) with ⟨irq, hirq⟩
      have hlen : (irqs (f :: g :: fs)).length = (irqs (g :: fs)).length + 1 := by
        rw [irqs, List.filterMap_cons, hirq]
        rfl
      rw [hlen, List.length_cons]
      exact Nat.succ_le_succ (ih h.2)

/-- At most eight interrupts nest above the frame at the bottom. -/
theorem length_le_of_nested {fs : List Frame} (h : Nested fs) (hnodup : (irqs fs).Nodup) :
    fs.length ≤ 9 := by
  have hcard := hnodup.length_le_card
  have hlen := length_le_irqs h
  rw [Fintype.card_fin] at hcard
  omega

/-- The interrupts that a mask leaves open. -/
def openIrqs (mask : BitVec 8) : List (Fin 8) :=
  (List.finRange 8).filter fun irq => mask.getLsbD irq.val = false

theorem mem_openIrqs {mask : BitVec 8} {irq : Fin 8} :
    irq ∈ openIrqs mask ↔ mask.getLsbD irq.val = false := by
  rw [openIrqs, List.mem_filter, decide_eq_true_eq]
  exact and_iff_right (List.mem_finRange irq)

/-! ## The invariant -/

/-- The frame at the bottom of the stack. -/
def bottomStage (s : Cpu) : Option Stage := s.frames.getLast?.map Frame.stage

/-- What every state on the interrupt paths has. -/
structure Inv (mask₀ : BitVec 8) (s : Cpu) : Prop where
  mask : ∀ i : Fin 8, s.port21.getLsbD i.val =
    (mask₀.getLsbD i.val || decide (i ∈ activeIrqs s.frames))
  clear : ∀ i, i ∈ irqs s.frames → mask₀.getLsbD i.val = false
  nodup : (irqs s.frames).Nodup
  counter : s.clockIntEnterTime + 1 = BitVec.ofNat 32 s.frames.length
  nested : Nested s.frames
  flag : s.interruptFlag = true → ∀ f, s.frames.head? = some f → f.stage.enabled = true
  proc : s.pProcReady < MAX_THREAD ∨ s.pProcReady = MAX_THREAD ∧ bottomStage s = some .wrapProc

theorem inv_atRestart (mask₀ : BitVec 8) : Inv mask₀ (atRestart mask₀) where
  mask := by
    intro i
    simp [atRestart, activeIrqs, Frame.active?, Stage.masking]
  clear := by
    intro i hi
    exact absurd hi (by simp [atRestart, irqs, Frame.irq?])
  nodup := List.nodup_nil
  counter := rfl
  nested := ⟨⟨by simp, by simp, by simp, by simp, by simp⟩, trivial⟩
  flag := by simp [atRestart]
  proc := Or.inl (show 0 < MAX_THREAD by decide)

/-- The depth, by the interrupts that may arrive. -/
theorem Inv.length_frames_le {mask₀ : BitVec 8} {s : Cpu} (h : Inv mask₀ s) :
    s.frames.length ≤ (openIrqs mask₀).length + 1 := by
  have hsub : irqs s.frames ⊆ openIrqs mask₀ := fun irq hirq => mem_openIrqs.mpr (h.clear irq hirq)
  have hle := (h.nodup.subperm hsub).length_le
  have hlen := length_le_irqs h.nested
  omega

theorem getLsbD_irqBit (irq i : Fin 8) : (irqBit irq).getLsbD i.val = decide (i = irq) := by
  revert irq i
  decide

/-- The counter is zero exactly at depth one. -/
theorem Inv.counter_eq_zero_iff {mask₀ : BitVec 8} {s : Cpu} (h : Inv mask₀ s) :
    s.clockIntEnterTime = 0 ↔ s.frames.length = 1 := by
  have hlen := length_le_of_nested h.nested h.nodup
  have hcounter := congrArg BitVec.toNat h.counter
  rw [BitVec.toNat_add, BitVec.toNat_ofNat] at hcounter
  have hlt := s.clockIntEnterTime.isLt
  rw [show (1 : BitVec 32).toNat = 1 from rfl] at hcounter
  rw [← BitVec.toNat_inj, show (0 : BitVec 32).toNat = 0 from rfl]
  omega

/-- The counter comes around to zero exactly on an entry from a task. -/
theorem Inv.counter_add_one_eq_zero_iff {mask₀ : BitVec 8} {s : Cpu} (h : Inv mask₀ s) :
    s.clockIntEnterTime + 1 = 0 ↔ s.frames = [] := by
  have hlen := length_le_of_nested h.nested h.nodup
  rw [h.counter, ← BitVec.toNat_inj, BitVec.toNat_ofNat, ← List.length_eq_zero_iff,
    show (0 : BitVec 32).toNat = 0 from rfl]
  omega

/-- Where interrupts are enabled, every frame on the stack stands at a place
where they are. -/
theorem Inv.enabled_of_flag {mask₀ : BitVec 8} {s : Cpu} (h : Inv mask₀ s)
    (hflag : s.interruptFlag = true) : ∀ g, g ∈ s.frames → g.stage.enabled = true := by
  have hnested := h.nested
  have htop := h.flag hflag
  intro g hg
  cases hframes : s.frames with
  | nil =>
    rw [hframes] at hg
    exact absurd hg (by simp)
  | cons f fs =>
    rw [hframes] at hnested hg htop
    rcases List.mem_cons.mp hg with heq | hmem
    · rw [heq]
      exact htop f rfl
    · exact hnested.1.below g hmem

/-! ## Entries -/

/-- The frame that an entry puts on the stack. -/
def entered (routine : Routine) (stage : Stage) (s : Cpu) : Frame where
  routine := routine
  stage := stage
  label := if s.clockIntEnterTime + 1 = 0 then .restart else .restartReenter

theorem frames_save (routine : Routine) (stage : Stage) (s : Cpu) :
    (save routine stage s).frames = entered routine stage s :: s.frames := rfl

theorem mem_irqs_cons {f : Frame} {fs : List Frame} {i : Fin 8} :
    i ∈ irqs (f :: fs) ↔ f.irq? = some i ∨ i ∈ irqs fs := by
  rw [irqs, irqs, List.mem_filterMap, List.mem_filterMap]
  constructor
  · rintro ⟨g, hg, heq⟩
    rcases List.mem_cons.mp hg with htop | hmem
    · exact Or.inl (htop ▸ heq)
    · exact Or.inr ⟨g, hmem, heq⟩
  · rintro (htop | ⟨g, hg, heq⟩)
    · exact ⟨f, List.mem_cons_self, htop⟩
    · exact ⟨g, List.mem_cons_of_mem f hg, heq⟩

/-- An entry puts a frame on the stack that masks nothing yet. -/
theorem Inv.save {mask₀ : BitVec 8} {s : Cpu} (h : Inv mask₀ s) {routine : Routine} {stage : Stage}
    (hactive : (entered routine stage s).active? = none)
    (hirq : s.frames ≠ [] → ∃ irq, (entered routine stage s).irq? = some irq)
    (hnew : ∀ irq, (entered routine stage s).irq? = some irq →
      irq ∉ irqs s.frames ∧ mask₀.getLsbD irq.val = false)
    (henabled : ∀ g, g ∈ s.frames → g.stage.enabled = true)
    (hmoves : stage.movesProc = false) (hstage : stage ≠ .restart) :
    Inv mask₀ (save routine stage s) := by
  have hactives : activeIrqs (entered routine stage s :: s.frames) = activeIrqs s.frames := by
    rw [activeIrqs, List.filterMap_cons, hactive]
    rfl
  constructor
  · intro i
    rw [frames_save, hactives]
    exact h.mask i
  · intro i hi
    rw [frames_save] at hi
    rcases mem_irqs_cons.mp hi with htop | hmem
    · exact (hnew i htop).2
    · exact h.clear i hmem
  · rw [frames_save, irqs, List.filterMap_cons]
    rcases htop : (entered routine stage s).irq? with _ | irq
    · exact h.nodup
    · exact List.nodup_cons.mpr ⟨(hnew irq htop).1, h.nodup⟩
  · rw [frames_save, List.length_cons, BitVec.ofNat_add, ← h.counter]
    rfl
  · refine ⟨⟨?_, hirq, henabled, ?_, ?_⟩, h.nested⟩
    · rw [← h.counter_add_one_eq_zero_iff]
      dsimp only
      split_ifs with hzero
      · exact iff_of_true rfl hzero
      · exact iff_of_false (by decide) hzero
    · intro hm
      have hm' : stage.movesProc = true := hm
      rw [hmoves] at hm'
      exact absurd hm' (by decide)
    · intro hs
      exact absurd hs hstage
  · intro hflag
    exact absurd hflag (by simp [Legacy.save])
  · rcases h.proc with hlt | ⟨heq, hbottom⟩
    · exact Or.inl hlt
    · refine Or.inr ⟨heq, ?_⟩
      have hne : s.frames ≠ [] := by
        intro hnil
        rw [bottomStage, hnil] at hbottom
        exact absurd hbottom (by simp)
      rw [bottomStage, frames_save, List.getLast?_cons_of_ne_nil hne]
      exact hbottom

/-- A master interrupt keeps the invariant: its mask bit is clear, so it is not
on the stack. -/
theorem Inv.irq {mask₀ : BitVec 8} {s : Cpu} (h : Inv mask₀ s) {irq : Fin 8}
    (hflag : s.interruptFlag = true) (hclear : s.port21.getLsbD irq.val = false) :
    Inv mask₀ (Legacy.save (.hwint irq) .mask s) := by
  have henabled := h.enabled_of_flag hflag
  have hbit := h.mask irq
  rw [hclear, activeIrqs_eq_of_enabled henabled, eq_comm, Bool.or_eq_false_iff] at hbit
  apply h.save rfl
  · intro _
    exact ⟨irq, rfl⟩
  · intro irq' heq
    have hirq : irq = irq' := Option.some.inj heq
    rw [← hirq]
    exact ⟨of_decide_eq_false hbit.2, hbit.1⟩
  · exact henabled
  · rfl
  · decide

/-- A system call of a task keeps the invariant. -/
theorem Inv.sysCall {mask₀ : BitVec 8} {s : Cpu} (h : Inv mask₀ s) (htask : s.frames = []) :
    Inv mask₀ (Legacy.save .sysCall .sti s) := by
  apply h.save rfl
  · intro hne
    exact absurd htask hne
  · intro irq heq
    exact absurd heq (by simp [Frame.irq?, entered])
  · rw [htask]
    simp
  · rfl
  · decide

/-! ## Going on -/

/-- What the running routine `f` above the frames `fs` can do next. -/
inductive Resumes (f : Frame) (fs : List Frame) (s : Cpu) : Cpu → Prop where
  | mask {irq : Fin 8} (hst : f.stage = .mask) (hirq : f.irq? = some irq) :
    Resumes f fs s (goto f fs .sti { s with port21 := s.port21 ||| irqBit irq })
  | sti (hst : f.stage = .sti) :
    Resumes f fs s (goto f fs .handler { s with interruptFlag := true })
  | handler (hst : f.stage = .handler) :
    Resumes f fs s (goto f fs (enterHandler f.routine s) s)
  | nextProc (hst : f.stage = .nextProc) :
    Resumes f fs s (goto f fs .wrapProc { s with pProcReady := s.pProcReady + 1 })
  | wrapProc (hst : f.stage = .wrapProc) :
    Resumes f fs s (goto f fs .cli { s with
      pProcReady := if s.pProcReady ≥ MAX_THREAD then 0 else s.pProcReady })
  | cliIrq {irq : Fin 8} (hst : f.stage = .cli) (hirq : f.irq? = some irq) :
    Resumes f fs s (goto f fs .unmask { s with interruptFlag := false })
  | cliRet (hst : f.stage = .cli) (hirq : f.irq? = none) :
    Resumes f fs s (goto f fs .ret { s with interruptFlag := false })
  | unmask {irq : Fin 8} (hst : f.stage = .unmask) (hirq : f.irq? = some irq) :
    Resumes f fs s (goto f fs .ret { s with port21 := s.port21 &&& ~~~irqBit irq })
  | retRestart (hst : f.stage = .ret) (hlabel : f.label = .restart) :
    Resumes f fs s (goto f fs .restart s)
  | retReenter (hst : f.stage = .ret) (hlabel : f.label = .restartReenter) :
    Resumes f fs s (goto f fs .restartReenter s)
  | restart (hst : f.stage = .restart) : Resumes f fs s (goto f fs .restartReenter s)
  | leave (hst : f.stage = .restartReenter) :
    Resumes f fs s { s with
      clockIntEnterTime := s.clockIntEnterTime - 1
      interruptFlag := true
      frames := fs }

theorem resumes_of_resume {s s' : Cpu} (hstep : resume s = some s') :
    ∃ f fs, s.frames = f :: fs ∧ Resumes f fs s s' := by
  cases hf : s.frames with
  | nil =>
    rw [resume, hf] at hstep
    cases hstep
  | cons f fs =>
    refine ⟨f, fs, rfl, ?_⟩
    simp only [resume, hf] at hstep
    cases hst : f.stage with
    | mask =>
      simp only [hst] at hstep
      cases hroutine : f.routine with
      | hwint irq =>
        simp only [hroutine, Option.some.injEq] at hstep
        rw [← hstep]
        exact .mask hst (by rw [Frame.irq?, hroutine])
      | kmain => simp [hroutine] at hstep
      | sysCall => simp [hroutine] at hstep
    | cli =>
      simp only [hst] at hstep
      cases hroutine : f.routine with
      | hwint irq =>
        simp only [hroutine, Option.some.injEq] at hstep
        rw [← hstep]
        exact .cliIrq hst (by rw [Frame.irq?, hroutine])
      | kmain | sysCall =>
        simp only [hroutine, Option.some.injEq] at hstep
        rw [← hstep]
        exact .cliRet hst (by rw [Frame.irq?, hroutine])
    | unmask =>
      simp only [hst] at hstep
      cases hroutine : f.routine with
      | hwint irq =>
        simp only [hroutine, Option.some.injEq] at hstep
        rw [← hstep]
        exact .unmask hst (by rw [Frame.irq?, hroutine])
      | kmain => simp [hroutine] at hstep
      | sysCall => simp [hroutine] at hstep
    | ret =>
      simp only [hst] at hstep
      cases hlabel : f.label with
      | restart =>
        simp only [hlabel, Option.some.injEq] at hstep
        rw [← hstep]
        exact .retRestart hst hlabel
      | restartReenter =>
        simp only [hlabel, Option.some.injEq] at hstep
        rw [← hstep]
        exact .retReenter hst hlabel
    | restart =>
      simp only [hst, Option.some.injEq] at hstep
      rw [← hstep]
      exact .restart hst
    | sti | handler | nextProc | wrapProc | restartReenter =>
      simp only [hst, Option.some.injEq] at hstep
      rw [← hstep]
      constructor
      exact hst

section Resume

variable {mask₀ : BitVec 8} {s s' t : Cpu} {f : Frame} {fs : List Frame}

/-- A frame at another place. -/
def Frame.at (f : Frame) (st : Stage) : Frame := { f with stage := st }

theorem frames_goto (f : Frame) (fs : List Frame) (st : Stage) (t : Cpu) :
    (goto f fs st t).frames = f.at st :: fs := rfl

/-- The running frame goes to another place, in a state `t` with the counter
of `s`. -/
theorem Inv.goto (h : Inv mask₀ s) (hf : s.frames = f :: fs) (st : Stage)
    (hcounter : t.clockIntEnterTime = s.clockIntEnterTime)
    (hmask : ∀ i : Fin 8, t.port21.getLsbD i.val =
      (mask₀.getLsbD i.val || decide (i ∈ activeIrqs (f.at st :: fs))))
    (hmoves : st.movesProc = true → fs = []) (hrestart : st = .restart → f.label = .restart)
    (hflag : t.interruptFlag = true → st.enabled = true)
    (hproc : t.pProcReady < MAX_THREAD ∨
      t.pProcReady = MAX_THREAD ∧ bottomStage (goto f fs st t) = some .wrapProc) :
    Inv mask₀ (goto f fs st t) := by
  have hirqs : irqs (Legacy.goto f fs st t).frames = irqs s.frames := by
    rw [hf]
    rfl
  have hnested := h.nested
  rw [hf] at hnested
  constructor
  · exact hmask
  · rw [hirqs]
    exact h.clear
  · rw [hirqs]
    exact h.nodup
  · rw [show (Legacy.goto f fs st t).clockIntEnterTime = t.clockIntEnterTime from rfl, hcounter,
      h.counter, hf]
    rfl
  · exact ⟨⟨hnested.1.label, hnested.1.irq, hnested.1.below, hmoves, hrestart⟩, hnested.2⟩
  · intro hon g hg
    have heq : f.at st = g := Option.some.inj hg
    rw [← heq]
    exact hflag hon
  · exact hproc

/-- A move between two places that both mask, or both do not. -/
theorem active?_at {st : Stage} (hst : st.masking = f.stage.masking) :
    (f.at st).active? = f.active? := by
  rw [Frame.active?, Frame.active?, show (f.at st).stage = st from rfl, hst]
  rfl

/-- A frame that is no interrupt masks nothing. -/
theorem active?_eq_none_of_irq? (h : f.irq? = none) : f.active? = none := by
  rw [Frame.active?, h, ite_self]

/-- A move that does not touch the mask. -/
theorem Inv.mask_keep (h : Inv mask₀ s) (hf : s.frames = f :: fs) {st : Stage}
    (hactive : (f.at st).active? = f.active?) (i : Fin 8) : s.port21.getLsbD i.val =
      (mask₀.getLsbD i.val || decide (i ∈ activeIrqs (f.at st :: fs))) := by
  have hmask := h.mask i
  rw [hf, activeIrqs, List.filterMap_cons] at hmask
  rw [activeIrqs, List.filterMap_cons, hactive]
  exact hmask

/-- A frame at the bottom that stands at the `if` statement lies below a running one that does
not. -/
theorem bottom_below (hf : s.frames = f :: fs) (hst : f.stage ≠ .wrapProc)
    (hbottom : bottomStage s = some .wrapProc) :
    ∃ g gs, fs = g :: gs ∧ (g :: gs).getLast?.map Frame.stage = some .wrapProc := by
  rw [bottomStage, hf] at hbottom
  cases fs with
  | nil => exact absurd (Option.some.inj hbottom) hst
  | cons g gs =>
    rw [List.getLast?_cons_of_ne_nil (List.cons_ne_nil g gs)] at hbottom
    exact ⟨g, gs, rfl, hbottom⟩

/-- A move that does not touch `p_proc_ready`. -/
theorem Inv.proc_keep (h : Inv mask₀ s) (hf : s.frames = f :: fs) (hst : f.stage ≠ .wrapProc)
    (st : Stage) (hproc : t.pProcReady = s.pProcReady) :
    t.pProcReady < MAX_THREAD ∨
      t.pProcReady = MAX_THREAD ∧ bottomStage (Legacy.goto f fs st t) = some .wrapProc := by
  rw [hproc]
  rcases h.proc with hlt | ⟨heq, hbottom⟩
  · exact Or.inl hlt
  · refine Or.inr ⟨heq, ?_⟩
    obtain ⟨g, gs, rfl, hlast⟩ := bottom_below hf hst hbottom
    rw [bottomStage, frames_goto, List.getLast?_cons_of_ne_nil (List.cons_ne_nil g gs)]
    exact hlast

/-- A move that touches neither the mask nor `p_proc_ready`. -/
theorem Inv.goto_keep (h : Inv mask₀ s) (hf : s.frames = f :: fs) (st : Stage)
    (hcounter : t.clockIntEnterTime = s.clockIntEnterTime) (hport : t.port21 = s.port21)
    (hproc : t.pProcReady = s.pProcReady) (hactive : (f.at st).active? = f.active?)
    (hwrap : f.stage ≠ .wrapProc) (hmoves : st.movesProc = true → fs = [])
    (hrestart : st = .restart → f.label = .restart)
    (hflag : t.interruptFlag = true → st.enabled = true) : Inv mask₀ (Legacy.goto f fs st t) := by
  apply h.goto hf st hcounter _ hmoves hrestart hflag (h.proc_keep hf hwrap st hproc)
  rw [hport]
  exact h.mask_keep hf hactive

/-- A move between two places outside the statements of `clock_handler` that
change `p_proc_ready`, neither of which changes the mask. -/
theorem Inv.goto_plain (h : Inv mask₀ s) (hf : s.frames = f :: fs) {st₀ : Stage}
    (hst : f.stage = st₀) (st : Stage)
    (hplain : st.masking = st₀.masking ∧ st₀ ≠ .wrapProc ∧ st.movesProc = false ∧ st ≠ .restart)
    (hcounter : t.clockIntEnterTime = s.clockIntEnterTime) (hport : t.port21 = s.port21)
    (hproc : t.pProcReady = s.pProcReady) (hflag : t.interruptFlag = true → st.enabled = true) :
    Inv mask₀ (Legacy.goto f fs st t) := by
  obtain ⟨hmasking, hwrap, hmoves, hrestart⟩ := hplain
  rw [← hst] at hmasking hwrap
  refine h.goto_keep hf st hcounter hport hproc (active?_at hmasking) hwrap ?_ ?_ hflag
  · intro hm
    rw [hmoves] at hm
    cases hm
  · intro hr
    exact absurd hr hrestart

/-- Masking the interrupt of the running frame. -/
theorem Inv.mask_set (h : Inv mask₀ s) (hf : s.frames = f :: fs) (hst : f.stage = .mask)
    {irq : Fin 8} (hirq : f.irq? = some irq) (i : Fin 8) :
    (s.port21 ||| irqBit irq).getLsbD i.val =
      (mask₀.getLsbD i.val || decide (i ∈ activeIrqs (f.at .sti :: fs))) := by
  have hbefore : f.active? = none := active?_eq_none (by rw [hst]; rfl)
  have hafter : (f.at .sti).active? = some irq := by
    rw [active?_eq_of_masking rfl]
    exact hirq
  have hmask := h.mask i
  rw [hf, activeIrqs, List.filterMap_cons, hbefore] at hmask
  rw [BitVec.getLsbD_or, getLsbD_irqBit, hmask, activeIrqs, List.filterMap_cons, hafter,
    Bool.or_assoc]
  congr 1
  rw [← Bool.decide_or]
  apply decide_eq_decide.mpr
  rw [List.mem_cons]
  exact or_comm

/-- Unmasking the interrupt of the running frame. -/
theorem Inv.mask_reset (h : Inv mask₀ s) (hf : s.frames = f :: fs) (hst : f.stage = .unmask)
    {irq : Fin 8} (hirq : f.irq? = some irq) (i : Fin 8) :
    (s.port21 &&& ~~~irqBit irq).getLsbD i.val =
      (mask₀.getLsbD i.val || decide (i ∈ activeIrqs (f.at .ret :: fs))) := by
  have hbefore : f.active? = some irq := by
    rw [active?_eq_of_masking (by rw [hst]; rfl)]
    exact hirq
  have hafter : (f.at .ret).active? = none := active?_eq_none rfl
  have hmask := h.mask i
  have hnodup := h.nodup
  have hclear := h.clear irq
  rw [hf, activeIrqs, List.filterMap_cons, hbefore] at hmask
  rw [hf, irqs, List.filterMap_cons, hirq] at hnodup hclear
  rw [BitVec.getLsbD_and, BitVec.getLsbD_not, getLsbD_irqBit, hmask, activeIrqs,
    List.filterMap_cons, hafter]
  have hfresh : irq ∉ fs.filterMap Frame.active? := by
    intro hmem
    exact (List.nodup_cons.mp hnodup).1 ((activeIrqs_sublist fs).subset hmem)
  by_cases hi : i = irq
  · subst hi
    rw [hclear (List.mem_cons_self ..)]
    simp [hfresh]
  · simp [hi]

/-- The return from a frame. -/
theorem Inv.leave (h : Inv mask₀ s) (hf : s.frames = f :: fs) (hst : f.stage = .restartReenter)
    (hframes : s'.frames = fs) (hcounter : s'.clockIntEnterTime = s.clockIntEnterTime - 1)
    (hport : s'.port21 = s.port21) (hproc : s'.pProcReady = s.pProcReady) : Inv mask₀ s' := by
  have hnested := h.nested
  have hmask := h.mask
  have hclear := h.clear
  have hnodup := h.nodup
  have hactive : f.active? = none := active?_eq_none (by rw [hst]; rfl)
  rw [hf] at hnested hmask hclear hnodup
  rw [activeIrqs, List.filterMap_cons, hactive] at hmask
  constructor
  · intro i
    rw [hport, hframes]
    exact hmask i
  · intro i hi
    rw [hframes] at hi
    exact hclear i (mem_irqs_cons.mpr (Or.inr hi))
  · rw [hframes]
    exact hnodup.sublist ((List.sublist_cons_self f fs).filterMap _)
  · rw [hframes, hcounter, BitVec.sub_add_cancel]
    have hdepth := h.counter
    rw [hf, List.length_cons, BitVec.ofNat_add] at hdepth
    exact add_right_cancel hdepth
  · rw [hframes]
    exact hnested.2
  · intro _ g hg
    rw [hframes] at hg
    exact hnested.1.below g (List.mem_of_mem_head? hg)
  · rw [hproc]
    rcases h.proc with hlt | ⟨heq, hbottom⟩
    · exact Or.inl hlt
    · refine Or.inr ⟨heq, ?_⟩
      obtain ⟨g, gs, rfl, hlast⟩ := bottom_below hf (by rw [hst]; decide) hbottom
      rw [bottomStage, hframes]
      exact hlast

/-- `clock_handler` goes on past its test only at depth one. -/
theorem Inv.enterHandler_cases (h : Inv mask₀ s) (hf : s.frames = f :: fs) :
    enterHandler f.routine s = .cli ∨ enterHandler f.routine s = .nextProc ∧ fs = [] := by
  unfold enterHandler
  split
  · split
    · split_ifs with hzero
      · exact Or.inl rfl
      · have hone := h.counter_eq_zero_iff.mp (not_not.mp hzero)
        rw [hf] at hone
        exact Or.inr ⟨rfl, List.eq_nil_of_length_eq_zero (Nat.succ.inj hone)⟩
    · exact Or.inl rfl
    · exact Or.inl rfl
  · exact Or.inl rfl

/-- `p_proc_ready` is in the table before it is moved. -/
theorem Inv.proc_lt (h : Inv mask₀ s) (hf : s.frames = [f]) (hst : f.stage ≠ .wrapProc) :
    s.pProcReady < MAX_THREAD := by
  rcases h.proc with hlt | ⟨_, hlast⟩
  · exact hlt
  · rw [bottomStage, hf] at hlast
    exact absurd (Option.some.inj hlast) hst

/-- At a place where interrupts are off the flag is clear. -/
theorem Inv.flag_off (h : Inv mask₀ s) (hf : s.frames = f :: fs)
    (hst : f.stage.enabled = false) {st : Stage} (hon : s.interruptFlag = true) :
    st.enabled = true := by
  have hon' := h.flag hon f (by rw [hf]; rfl)
  rw [hst] at hon'
  exact absurd hon' (by decide)

/-- `cli` ends the handler of an interrupt or of a system call. -/
theorem Inv.cli_ret (h : Inv mask₀ s) (hf : s.frames = f :: fs) (hst : f.stage = .cli)
    (hirq : f.irq? = none) :
    Inv mask₀ (Legacy.goto f fs .ret { s with interruptFlag := false }) := by
  have hactive : (f.at .ret).active? = f.active? := by
    rw [active?_eq_none_of_irq? (show (f.at .ret).irq? = none from hirq),
      active?_eq_none_of_irq? hirq]
  exact h.goto_keep hf .ret rfl rfl rfl hactive (by rw [hst]; decide)
    (fun hm => absurd hm (by decide)) (fun hr => absurd hr (by decide))
    (fun hon => absurd hon (by simp))

/-- `p_proc_ready++` leaves the table at most by one place. -/
theorem Inv.nextProc (h : Inv mask₀ s) (hf : s.frames = f :: fs) (hst : f.stage = .nextProc) :
    Inv mask₀ (Legacy.goto f fs .wrapProc { s with pProcReady := s.pProcReady + 1 }) := by
  have hnested := h.nested
  rw [hf] at hnested
  have hbottom : fs = [] := hnested.1.moves (by rw [hst]; rfl)
  subst hbottom
  have hlt : s.pProcReady < MAX_THREAD := h.proc_lt hf (by rw [hst]; decide)
  refine h.goto hf .wrapProc rfl (h.mask_keep hf (active?_at (by rw [hst]; rfl)))
    (fun _ => rfl) (fun hr => absurd hr (by decide)) (fun _ => rfl) ?_
  rcases Nat.lt_or_eq_of_le (Nat.succ_le_of_lt hlt) with hnext | hlast
  · exact Or.inl hnext
  · exact Or.inr ⟨hlast, rfl⟩

/-- The `if` statement brings `p_proc_ready` back into the table. -/
theorem Inv.wrapProc (h : Inv mask₀ s) (hf : s.frames = f :: fs) (hst : f.stage = .wrapProc) :
    Inv mask₀ (Legacy.goto f fs .cli { s with
      pProcReady := if s.pProcReady ≥ MAX_THREAD then 0 else s.pProcReady }) := by
  refine h.goto hf .cli rfl (h.mask_keep hf (active?_at (by rw [hst]; rfl)))
    (fun hm => absurd hm (by decide)) (fun hr => absurd hr (by decide)) (fun _ => rfl) ?_
  dsimp only
  split_ifs with hwrap
  · exact Or.inl (by decide)
  · exact Or.inl (Nat.lt_of_not_le hwrap)

/-- The running routine going on keeps the invariant. -/
theorem inv_resume (h : Inv mask₀ s) (hstep : resume s = some s') : Inv mask₀ s' := by
  obtain ⟨f, fs, hf, hresumes⟩ := resumes_of_resume hstep
  cases hresumes with
  | mask hst hirq =>
    exact h.goto hf .sti rfl (h.mask_set hf hst hirq) (fun hm => absurd hm (by decide))
      (fun hr => absurd hr (by decide)) (h.flag_off hf (by rw [hst]; rfl))
      (h.proc_keep hf (by rw [hst]; decide) .sti rfl)
  | sti hst =>
    exact h.goto_plain hf hst .handler (by decide) rfl rfl rfl (fun _ => rfl)
  | handler hst =>
    rcases h.enterHandler_cases hf with henter | ⟨henter, hbottom⟩
    · rw [henter]
      exact h.goto_plain hf hst .cli (by decide) rfl rfl rfl (fun _ => rfl)
    · rw [henter]
      exact h.goto_keep hf .nextProc rfl rfl rfl (active?_at (by rw [hst]; rfl))
        (by rw [hst]; decide) (fun _ => hbottom) (fun hr => absurd hr (by decide)) (fun _ => rfl)
  | nextProc hst => exact h.nextProc hf hst
  | wrapProc hst => exact h.wrapProc hf hst
  | cliIrq hst _ =>
    exact h.goto_plain hf hst .unmask (by decide) rfl rfl rfl (fun hon => absurd hon (by simp))
  | cliRet hst hirq => exact h.cli_ret hf hst hirq
  | unmask hst hirq =>
    exact h.goto hf .ret rfl (h.mask_reset hf hst hirq) (fun hm => absurd hm (by decide))
      (fun hr => absurd hr (by decide)) (h.flag_off hf (by rw [hst]; rfl))
      (h.proc_keep hf (by rw [hst]; decide) .ret rfl)
  | retRestart hst hlabel =>
    exact h.goto_keep hf .restart rfl rfl rfl (active?_at (by rw [hst]; rfl))
      (by rw [hst]; decide) (fun hm => absurd hm (by decide)) (fun _ => hlabel)
      (h.flag_off hf (by rw [hst]; rfl))
  | retReenter hst _ =>
    exact h.goto_plain hf hst .restartReenter (by decide) rfl rfl rfl
      (h.flag_off hf (by rw [hst]; rfl))
  | restart hst =>
    exact h.goto_plain hf hst .restartReenter (by decide) rfl rfl rfl
      (h.flag_off hf (by rw [hst]; rfl))
  | leave hst => exact h.leave hf hst rfl rfl rfl rfl

end Resume

/-! ## Runs -/

/-- An interrupt arrives with interrupts on and its mask bit clear, and a system call comes
from a task. -/
theorem step_cases {s s' : Cpu} {a : Action} (hstep : step s a = some s') :
    (∃ irq, a = .irq irq ∧ (s.interruptFlag = true ∧ s.port21.getLsbD irq.val = false) ∧
      s' = save (.hwint irq) .mask s) ∨
    (a = .intSysCall ∧ s.frames = [] ∧ s' = save .sysCall .sti s) ∨
    (a = .resume ∧ resume s = some s') := by
  cases a with
  | irq irq =>
    rw [step] at hstep
    split_ifs at hstep with harrive
    exact Or.inl ⟨irq, rfl, harrive, (Option.some.inj hstep).symm⟩
  | intSysCall =>
    rw [step] at hstep
    split_ifs at hstep with htask
    exact Or.inr (Or.inl ⟨rfl, htask, (Option.some.inj hstep).symm⟩)
  | resume => exact Or.inr (Or.inr ⟨rfl, hstep⟩)

/-- What one step keeps. -/
theorem inv_step {mask₀ : BitVec 8} {s s' : Cpu} {a : Action} (h : Inv mask₀ s)
    (hstep : step s a = some s') : Inv mask₀ s' := by
  rcases step_cases hstep with ⟨irq, -, harrive, rfl⟩ | ⟨-, htask, rfl⟩ | ⟨-, hresume⟩
  · exact h.irq harrive.1 harrive.2
  · exact h.sysCall htask
  · exact inv_resume h hresume

/-- The nesting depth. -/
def depth (s : Cpu) : Nat := s.frames.length

/-- A timer interrupt, from its entry to the switch to the next task. -/
def tick : List Action := .irq clockIrq :: List.replicate 10 .resume

end Legacy

end BbnOS
