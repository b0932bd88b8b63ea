import BbnOS.Legacy.ContextRuns

/-!
# Interrupted handlers

An interrupt may arrive in the C function of a handler, and another one in the
handler of that.  `handler_resumes` says that the first one goes on as if
nothing had happened, and `never_stuck` that no run of the machine stops in the
kernel or leaves its stack.
-/

namespace BbnOS

namespace Legacy

namespace Context

open WordStack Interruption

/-! ## Handlers go on -/

section Handlers

variable {L : Layout} {mask : BitVec 8} {k k' k₁ k₂ : Machine} {t : Threads} {s : Cpu}
  {f : Activation} {fs : List Activation} {κ : Kernel Registers} {sp : UInt32}

/-- What a step of the running routine changes: its activation, or it returns;
and one word, below `esp` or in the frame that `esi` points to. -/
theorem resume_cases (hk : k.activations = f :: fs) (hstep : k.resume L = some k') :
    ((∃ f', k'.activations = f' :: fs) ∨ k'.activations = fs) ∧
      (k'.memory = k.memory ∨
        (f.point = .push ∨ f.point = .call) ∧
          (∃ v, k'.memory = store32 k.memory (k.registers.esp - 4) v) ∨
        f.point = .store) := by
  cases hp : f.point with
  | mask =>
    cases hf : f.routine <;> simp only [Machine.resume, hk, hp, hf, Option.some.injEq] at hstep
    case hwint => exact hstep ▸ ⟨Or.inl ⟨_, rfl⟩, Or.inl rfl⟩
    all_goals cases hstep
  | sti =>
    cases hf : f.routine <;> simp only [Machine.resume, hk, hp, hf, Option.some.injEq] at hstep <;>
      exact hstep ▸ ⟨Or.inl ⟨_, rfl⟩, Or.inl rfl⟩
  | push =>
    cases hf : f.routine <;> simp only [Machine.resume, hk, hp, hf, Option.some.injEq] at hstep <;>
      exact hstep ▸ ⟨Or.inl ⟨_, rfl⟩, Or.inr (Or.inl ⟨Or.inl rfl, _, rfl⟩)⟩
  | call =>
    simp only [Machine.resume, hk, hp, Option.some.injEq] at hstep
    exact hstep ▸ ⟨Or.inl ⟨_, rfl⟩, Or.inr (Or.inl ⟨Or.inr rfl, _, rfl⟩)⟩
  | store =>
    simp only [Machine.resume, hk, hp, Option.some.injEq] at hstep
    exact hstep ▸ ⟨Or.inl ⟨_, rfl⟩, Or.inr (Or.inr rfl)⟩
  | test | nextProc | wrapProc =>
    simp only [Machine.resume, hk, hp, Option.some.injEq] at hstep
    exact hstep ▸ ⟨Or.inl ⟨_, rfl⟩, Or.inl rfl⟩
  | done =>
    simp only [Machine.resume, hk, hp, Machine.returnFromC] at hstep
    split_ifs at hstep
    exact Option.some.inj hstep ▸ ⟨Or.inl ⟨_, rfl⟩, Or.inl rfl⟩
  | pop =>
    cases hf : f.routine <;> simp only [Machine.resume, hk, hp, hf, Option.some.injEq] at hstep <;>
      exact hstep ▸ ⟨Or.inl ⟨_, rfl⟩, Or.inl rfl⟩
  | cli =>
    cases hf : f.routine <;> simp only [Machine.resume, hk, hp, hf, Option.some.injEq] at hstep <;>
      exact hstep ▸ ⟨Or.inl ⟨_, rfl⟩, Or.inl rfl⟩
  | unmask =>
    cases hf : f.routine <;> simp only [Machine.resume, hk, hp, hf, Option.some.injEq] at hstep
    case hwint => exact hstep ▸ ⟨Or.inl ⟨_, rfl⟩, Or.inl rfl⟩
    all_goals cases hstep
  | ret =>
    simp only [Machine.resume, hk, hp, Machine.ret] at hstep
    split_ifs at hstep
    · exact Option.some.inj hstep ▸ ⟨Or.inl ⟨_, rfl⟩, Or.inl rfl⟩
    · exact Option.some.inj hstep ▸ ⟨Or.inl ⟨_, rfl⟩, Or.inl rfl⟩
  | restart =>
    simp only [Machine.resume, hk, hp, Option.some.injEq] at hstep
    exact hstep ▸ ⟨Or.inl ⟨_, rfl⟩, Or.inl rfl⟩
  | restartReenter =>
    simp only [Machine.resume, hk, hp, Option.some.injEq] at hstep
    rw [← hstep, Machine.restartReenter, Machine.iretd]
    split_ifs <;> exact ⟨Or.inr rfl, Or.inl rfl⟩

/-- The contexts are as many as the activations. -/
theorem Below.length_eq {m : Bytes} {current : Nat} {pending : Bool} {rs : List Registers}
    (h : Below L m current pending fs rs sp) : rs.length = fs.length := by
  induction h with
  | nil => rfl
  | cons below stands enabled flag hsp saved ih =>
    rw [List.length_cons, List.length_cons, ih]

/-- A handler that waits was interrupted with `esp` above what came later. -/
theorem Below.le_esp {m : Bytes} {current : Nat} {pending : Bool} {ds : List Activation}
    {cs rs : List Registers} {r : Registers} (hlen : cs.length = ds.length)
    (h : Below L m current pending (ds ++ f :: fs) (cs ++ r :: rs) sp) :
    sp.toNat + 68 ≤ r.esp.toNat ∧ r.interruptFlag = true := by
  induction ds generalizing cs sp with
  | nil =>
    rw [List.eq_nil_of_length_eq_zero hlen] at h
    cases h with
    | cons below stands enabled flag hsp saved => exact ⟨Nat.le_of_eq hsp, flag⟩
  | cons d ds ih =>
    cases cs with
    | nil => cases hlen
    | cons c cs =>
      cases h with
      | cons below stands enabled flag hsp saved =>
        obtain ⟨hle, hflag⟩ := ih (Nat.succ.inj hlen) below
        have hesp := stands.esp_bounds enabled
        exact ⟨by omega, hflag⟩

/-- The stack above the label of a routine that runs above another one stays. -/
theorem Good.stack_kept (h : Good L mask k t s) (hk : k.activations = f :: fs) (hfs : fs ≠ [])
    (hbelow : Below L k.memory t.current κ.pending fs κ.interrupted sp)
    (hat : At L k.memory t.current κ.pending fs f k.registers sp) {a : Action}
    (hstep : k.step L a = some k') :
    ((∃ g, k'.activations = g :: f :: fs) ∨ (∃ f', k'.activations = f' :: fs) ∨
        k'.activations = fs) ∧
      ∀ x : UInt32, sp.toNat + 4 ≤ x.toNat → x.toNat < L.stackTop.toNat →
        k'.memory x = k.memory x := by
  cases a with
  | irq irq =>
    simp only [Machine.step] at hstep
    split_ifs at hstep with harrive
    obtain ⟨k₁, hk₁, _, _, ⟨f', hact⟩, hmemory⟩ :=
      h.enterHandler hk harrive.1 (h.control.port21 ▸ harrive.2)
    rw [hk₁] at hstep
    rw [← Option.some.inj hstep, hact, hk]
    have hon : s.interruptFlag = true := h.control.flag ▸ harrive.1
    have henabled := h.inv.flag hon (frame fs f) (by rw [h.control.frames_cons hk]; rfl)
    have hesp := hat.esp_bounds henabled
    exact ⟨Or.inl ⟨f', rfl⟩, fun x hlo _ => hmemory x (by omega)⟩
  | intSysCall =>
    simp only [Machine.step] at hstep
    split_ifs at hstep with hnil
    exact absurd (hk.symm.trans hnil) (List.cons_ne_nil f fs)
  | run registers writes =>
    simp only [Machine.step] at hstep
    split_ifs at hstep with hmay
    rw [← Option.some.inj hstep]
    refine ⟨Or.inr (Or.inl ⟨f, hk⟩), fun x hlo hhi => writeAll_of_inUse hmay.2 hk ?_⟩
    have hC := hmay.1
    rw [hk] at hC
    obtain ⟨hcalled, _, _⟩ := hat.inC hC.1
    exact ⟨by omega, hhi, Or.inr (by omega)⟩
  | resume =>
    obtain ⟨hact, hmemory⟩ := resume_cases hk hstep
    refine ⟨Or.inr hact, fun x hlo hhi => ?_⟩
    rcases hmemory with hsame | ⟨hplace, v, hstore⟩ | hstore
    · rw [hsame]
    · obtain ⟨n, hn, hle⟩ : ∃ n, f.point.words = some n ∧ n ≤ 1 := by
        rcases hplace with hp | hp <;> rw [hp] <;> exact ⟨_, rfl, by decide⟩
      have hesp := hat.words n hn
      rw [hstore]
      exact (h.push hk hbelow (by omega) (by omega) v).2.2 x (by omega)
    · refine absurd (h.bottom hk ?_) hfs
      intro irq hf
      have hfits := hat.fits
      rw [hstore, hf] at hfits
      cases hfits

/-- The handler `f` above `fs`, which the machine `k` had running, waits. -/
def Waits (L : Layout) (k : Machine) (f : Activation) (fs : List Activation) (t : Threads)
    (k' : Machine) : Prop :=
  (∃ d ds, k'.activations = d :: (ds ++ f :: fs) ∧
    ∃ pending cs rs, t.kernel = some ⟨pending, cs ++ k.registers :: rs⟩ ∧
      cs.length = ds.length ∧ rs.length = fs.length) ∧
    ∀ x : UInt32, k.registers.esp.toNat ≤ x.toNat → x.toNat < L.stackTop.toNat →
      k'.memory x = k.memory x

/-- It goes on. -/
def GoesOn (L : Layout) (k : Machine) (k' : Machine) : Prop :=
  k'.registers = k.registers ∧ k'.activations = k.activations ∧
    ∀ x : UInt32, k.registers.esp.toNat ≤ x.toNat → x.toNat < L.stackTop.toNat →
      k'.memory x = k.memory x

/-- A return enables interrupts. -/
theorem flag_of_leave {s' : Cpu} (hstep : Legacy.step s .resume = some s')
    (hlen : s'.frames.length < s.frames.length) : s'.interruptFlag = true := by
  obtain ⟨g, gs, hframes, hresumes⟩ := resumes_of_resume hstep
  rw [hframes] at hlen
  cases hresumes with
  | leave hst => rfl
  | _ => exact absurd hlen (Nat.lt_irrefl _)

/-- What one step keeps of a handler that waits. -/
theorem Waits.step {k₀ : Machine} {s' : Cpu} {t' : Threads} {a : Action} (h : Good L mask k t s)
    (hwaits : Waits L k₀ f fs t k) (hk₀ : k₀.activations = f :: fs)
    (hstep : k.step L a = some k') (ht' : Interruption.step t (event L k a k') = some t')
    (hmoves : Moves s a s') (h' : Good L mask k' t' s') :
    Waits L k₀ f fs t' k' ∨ GoesOn L k₀ k' := by
  obtain ⟨⟨d, ds, hk, pending, cs, rs, hkernel, hcs, hrs⟩, hmemory⟩ := hwaits
  obtain ⟨κ, sp, hkernel', hbelow, hat⟩ := h.holds.handler d _ hk
  obtain rfl : κ = ⟨pending, cs ++ k₀.registers :: rs⟩ :=
    Option.some.inj (hkernel'.symm.trans hkernel)
  obtain ⟨hesp, hflag⟩ := hbelow.le_esp hcs
  obtain ⟨hact, hkept⟩ := h.stack_kept hk (by simp) hbelow hat hstep
  have hmemory' : ∀ x : UInt32, k₀.registers.esp.toNat ≤ x.toNat →
      x.toNat < L.stackTop.toNat → k'.memory x = k₀.memory x := fun x hlo hhi =>
    (hkept x (by omega) hhi).trans (hmemory x hlo hhi)
  -- the contexts are as many as the activations, so the two change together
  have hcount : ∀ (d' : Activation) (ds' : List Activation),
      k'.activations = d' :: (ds' ++ f :: fs) → Waits L k₀ f fs t' k' := by
    intro d' ds' hk'
    obtain ⟨κ', sp', hκ', hbelow', _⟩ := h'.holds.handler d' _ hk'
    have hlen := hbelow'.length_eq
    rw [List.length_append, List.length_cons] at hlen
    refine ⟨⟨d', ds', hk', ?_⟩, hmemory'⟩
    rcases interrupted_step (steps_of_step ht') hkernel with ⟨pending', cs', hcs'⟩ | ⟨hlast, _⟩
    · rw [hcs', Option.some.injEq] at hκ'
      rw [← hκ'] at hlen
      dsimp only at hlen
      rw [List.length_append, List.length_cons, hrs] at hlen
      exact ⟨pending', cs', rs, hcs', by omega, hrs⟩
    · rw [hlast, Option.some.injEq] at hκ'
      rw [← hκ'] at hlen
      dsimp only at hlen
      omega
  rcases hact with ⟨g, hk'⟩ | ⟨d', hk'⟩ | hk'
  · exact Or.inl (hcount g (d :: ds) hk')
  · exact Or.inl (hcount d' ds hk')
  · cases ds with
    | cons d' ds => exact Or.inl (hcount d' ds hk')
    | nil =>
      right
      rw [List.nil_append] at hk'
      obtain ⟨κ', sp', hκ', hbelow', _⟩ := h'.holds.handler f fs hk'
      have hlen := hbelow'.length_eq
      rcases interrupted_step (steps_of_step ht') hkernel with ⟨pending', cs', hcs'⟩ | ⟨_, hlive⟩
      · rw [hcs', Option.some.injEq] at hκ'
        rw [← hκ'] at hlen
        dsimp only at hlen
        rw [List.length_append, List.length_cons, hrs] at hlen
        omega
      · have hon : k'.registers.interruptFlag = true := by
          rw [h'.control.flag]
          have hless : s'.frames.length < s.frames.length := by
            rw [← h.control.frames, ← h'.control.frames, length_frames, length_frames, hk, hk']
            exact Nat.lt_succ_self _
          cases a with
          | resume =>
            rcases hmoves with hstay | hmoves
            · rw [hstay] at hless
              exact absurd hless (Nat.lt_irrefl _)
            · exact flag_of_leave hmoves hless
          | irq irq =>
            have hmoves' : Legacy.step s (.irq irq) = some s' := hmoves
            rcases step_cases hmoves' with ⟨_, _, _, rfl⟩ | ⟨hne, _, _⟩ | ⟨hne, _⟩
            · exact absurd hless (by rw [frames_save, List.length_cons]; omega)
            · cases hne
            · cases hne
          | intSysCall =>
            have hmoves' : Legacy.step s .intSysCall = some s' := hmoves
            rcases step_cases hmoves' with ⟨_, hne, _⟩ | ⟨_, _, rfl⟩ | ⟨hne, _⟩
            · cases hne
            · exact absurd hless (by rw [frames_save, List.length_cons]; omega)
            · cases hne
          | run registers writes =>
            rw [show s' = s from hmoves] at hless
            exact absurd hless (Nat.lt_irrefl _)
        exact ⟨(h'.holds.live hon).symm.trans hlive, hk'.trans hk₀.symm, hmemory'⟩

/-- A handler that was interrupted finds its registers, its place and its part of
the stack again, however deep the interrupts nest. -/
theorem handler_resumes (L : Layout) (mask : BitVec 8) (k₀ k k₁ k₂ : Machine)
    (as bs : List Action) (irq : Fin 8) (hstart : AtRestart L mask k₀)
    (hrun : Runs.run (Machine.step L) k₀ as = some k) (hk : k.activations ≠ [])
    (hstep : k.step L (.irq irq) = some k₁)
    (hdeep : Runs.Before (Machine.step L) (k.activations.length < ·.activations.length) k₁ bs)
    (hback : Runs.run (Machine.step L) k₁ bs = some k₂)
    (hdepth : k₂.activations.length = k.activations.length) :
    k₂.registers = k.registers ∧ k₂.activations = k.activations ∧
      ∀ x : UInt32, k.registers.esp.toNat ≤ x.toNat → x.toNat < L.stackTop.toNat →
        k₂.memory x = k.memory x := by
  obtain ⟨t, s, hgood⟩ := hstart.run hrun
  obtain ⟨f, fs, hfs⟩ := List.exists_cons_of_ne_nil hk
  obtain ⟨κ, sp, hkernel, hbelow, hat⟩ := hgood.holds.handler f fs hfs
  obtain ⟨t₁, s₁, ht₁, _, hgood₁⟩ := hgood.next hstep
  have harrive : k.registers.interruptFlag = true ∧ k.port21.getLsbD irq.val = false := by
    simp only [Machine.step] at hstep
    split_ifs at hstep with harrive
    exact harrive
  obtain ⟨k₁', hk₁', _, _, ⟨d, hact⟩, hmemory⟩ :=
    hgood.enterHandler hfs harrive.1 (hgood.control.port21 ▸ harrive.2)
  have hsame : k₁' = k₁ := by
    rw [Machine.step, if_pos harrive, hk₁'] at hstep
    exact Option.some.inj hstep
  have hwaits : Waits L k f fs t₁ k₁ := by
    rw [← hsame]
    refine ⟨⟨d, [], by rw [hact, hfs]; rfl, κ.pending, [], κ.interrupted, ?_, rfl,
      hbelow.length_eq⟩, fun x hlo _ => hmemory x hlo⟩
    rw [← Option.some.inj ht₁, Interruption.enter_handler hkernel, hgood.holds.live harrive.1]
    rfl
  rcases Runs.run_until
      (P := fun k' => ∃ t' s', Good L mask k' t' s' ∧ Waits L k f fs t' k') (B := GoesOn L k)
      (fun k' a k'' hinv hstep' => by
        obtain ⟨t', s', hgood', hwaits'⟩ := hinv
        obtain ⟨t'', s'', ht'', hmoves, hgood''⟩ := hgood'.next hstep'
        exact (hwaits'.step hgood' hfs hstep' ht'' hmoves hgood'').imp
          (fun hw => ⟨t'', s'', hgood'', hw⟩) id)
      (fun k' hend hlt => by rw [hend.2.1] at hlt; exact Nat.lt_irrefl _ hlt)
      ⟨t₁, s₁, hgood₁, hwaits⟩ hdeep hback with ⟨_, _, _, ⟨⟨d', ds, hk₂, _⟩, _⟩⟩ | hend
  · rw [hk₂, hfs, List.length_cons, List.length_append] at hdepth
    omega
  · exact hend

/-- The sample machine in the clock's handler, with interrupts on. -/
def sampleClock : Machine :=
  sampleAfter sampleMachine (toTask ++ [.irq clockIrq, .resume, .resume])

/-- The clock interrupts the first task, and the keyboard the clock. -/
theorem handler_resumes_keyboard :
    (sampleAfter (sampleAfter sampleClock [.irq keyboardIrq])
      (List.replicate 11 .resume)).registers = sampleClock.registers :=
  (handler_resumes sampleLayout 0xFC sampleMachine sampleClock _ _ _ (List.replicate 11 .resume)
    keyboardIrq atRestart_sample (run_sampleAfter (by decide +kernel)) (by decide +kernel)
    (step_sampleAfter (by decide +kernel)) (by decide +kernel)
    (run_sampleAfter (by decide +kernel)) (by decide +kernel)).1

/-! ## The kernel does not stop -/

/-- The running routine can go on. -/
theorem Good.exists_resume (h : Good L mask k t s) (hk : k.activations = f :: fs) :
    ∃ k', k.resume L = some k' := by
  have hfits := h.fits hk
  rw [← Option.isSome_iff_exists]
  cases hp : f.point with
  | mask | unmask =>
    cases hf : f.routine with
    | hwint irq => simp [Machine.resume, hk, hp, hf]
    | _ =>
      rw [hp, hf] at hfits
      cases hfits
  | sti | push | pop | cli => cases hf : f.routine <;> simp [Machine.resume, hk, hp, hf]
  | done => simp [Machine.resume, hk, hp, returnFromC_eq h hk hp]
  | ret => simp [Machine.resume, hk, hp, ret_eq h hk hp]
  | _ => simp [Machine.resume, hk, hp]

/-- Where `esp` is while a routine runs. -/
theorem Good.esp_bounds (h : Good L mask k t s) (hk : k.activations = f :: fs)
    (hrestart : f.point ≠ .restart) (hreenter : fs = [] → f.point ≠ .restartReenter) :
    L.stackSpace.toNat ≤ k.registers.esp.toNat ∧ k.registers.esp.toNat ≤ L.stackTop.toNat := by
  obtain ⟨κ, sp, _, hbelow, hat⟩ := h.holds.handler f fs hk
  have hroom := h.room hk hbelow
  by_cases hC : f.point.inC = true
  · obtain ⟨hcalled, _, hle, hge⟩ := hat.inC hC
    omega
  · by_cases hlast : f.point = .restartReenter
    · have hesp := hat.leave hlast
      cases fs with
      | nil => exact absurd hlast (hreenter rfl)
      | cons g gs =>
        have hlt := L.stackTop.toNat_lt
        have hsp := toNat_add_of_lt (a := sp) (k := 4)
        rw [Layout.base] at hesp
        by_cases hfit : sp.toNat + 4 < 2 ^ 32
        · have hnat := hsp hfit
          rw [show UInt32.ofNat 4 = 4 from rfl] at hnat
          rw [hesp, hnat]
          omega
        · omega
    · obtain ⟨n, hn, hle⟩ : ∃ n, f.point.words = some n ∧ n ≤ 1 := by
        cases hp : f.point <;> rw [hp] at hrestart hlast hC <;>
          first
          | exact ⟨_, rfl, by decide⟩
          | exact absurd rfl hrestart
          | exact absurd rfl hlast
          | exact absurd rfl hC
      have hesp := hat.words n hn
      omega

/-- In every run the kernel finds every return address where it looks for it, takes
every interrupt that may arrive, and stays within its stack. -/
theorem never_stuck (L : Layout) (mask : BitVec 8) (k₀ k : Machine) (as : List Action)
    (hstart : AtRestart L mask k₀) (hrun : Runs.run (Machine.step L) k₀ as = some k) :
    (k.activations ≠ [] → ∃ k', k.step L .resume = some k') ∧
      (k.activations = [] → ∃ k', k.step L .intSysCall = some k') ∧
      (∀ irq, k.registers.interruptFlag = true → k.port21.getLsbD irq.val = false →
        ∃ k', k.step L (.irq irq) = some k') ∧
      k.activations.length ≤ (openIrqs mask).length + 1 ∧
      ∀ f fs, k.activations = f :: fs → f.point ≠ .restart →
        (fs = [] → f.point ≠ .restartReenter) →
        L.stackSpace.toNat ≤ k.registers.esp.toNat ∧
          k.registers.esp.toNat ≤ L.stackTop.toNat := by
  obtain ⟨t, s, hgood⟩ := hstart.run hrun
  refine ⟨fun hk => ?_, fun hk => ?_, fun irq hflag hclear => ?_, ?_, fun f fs => hgood.esp_bounds⟩
  · obtain ⟨f, fs, hfs⟩ := List.exists_cons_of_ne_nil hk
    exact hgood.exists_resume hfs
  · obtain ⟨k', hk', _⟩ := hgood.enterTask (show Routine.sysCall ≠ .kmain by decide) hk
    exact ⟨k', by rw [Machine.step, if_pos hk, hk']⟩
  · rw [Machine.step, if_pos ⟨hflag, hclear⟩]
    cases hk : k.activations with
    | nil =>
      obtain ⟨k', hk', _⟩ := hgood.enterTask (hwint_ne irq) hk
      exact ⟨k', hk'⟩
    | cons f fs =>
      obtain ⟨k', hk', _⟩ := hgood.enterHandler hk hflag (hgood.control.port21 ▸ hclear)
      exact ⟨k', hk'⟩
  · have hdepth := hgood.inv.length_frames_le
    rw [← hgood.control.frames, length_frames] at hdepth
    exact hdepth

theorem never_stuck_toTask :
    ∃ k', sampleTask.step sampleLayout .intSysCall = some k' :=
  (never_stuck sampleLayout 0xFC sampleMachine sampleTask toTask atRestart_sample run_toTask).2.1
    (by decide +kernel)

end Handlers

end Context

end Legacy

end BbnOS
