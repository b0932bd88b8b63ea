import BbnOS.Interrupts.Idt

/-!
# The table that `prepareInterrupts` leaves

`prepareInterrupts` does not clear the page that it gets, and `IntAssignFunc`
does not store the field `ist`.  So what the page held before decides what the
descriptors of the other vectors are, and on which stack the handlers run.
`prepareInterrupts_iff` says for which pages the table is well defined.
-/

namespace BbnOS

open ByteMemory IDTDesc

/-- The vectors that `prepareInterrupts` assigns, with their handlers. -/
def vectors (h : Handlers) : List (UInt64 × UInt64) :=
  [(exDoubleFault, h.exHandlerDF), (exGeneralProtection, h.exHandlerGP),
    (exPageFault, h.exHandlerPF), (picGetIntVector irqKeyboardInt, h.intHandlerKB),
    (picGetIntVector irqPS2Mouse, h.intHandlePS2Mouse)]

/-- The descriptor of a vector in the table at `base`. -/
def descriptor (base : UInt64) (ram : ByteMemory) (v : UInt64) : IDTDesc :=
  IDTDesc.read ram (idtDescByIndex base v)

/-- Bit 7 of `type_attr`. -/
def IDTDesc.Present (d : IDTDesc) : Prop := d.typeAttr &&& 0x80 ≠ 0

instance (d : IDTDesc) : Decidable d.Present := inferInstanceAs (Decidable (_ ≠ _))

/-- Every assigned vector goes to its handler, and no other one is present. -/
structure WellDefined (h : Handlers) (base : UInt64) (ram : ByteMemory) : Prop where
  assigned : ∀ p ∈ vectors h,
    idtDescGetOffset (descriptor base ram p.1) = p.2 ∧
      (descriptor base ram p.1).selector = segOffsetKernelCode ∧
      (descriptor base ram p.1).typeAttr = idtTAInterrupt ∧
      (descriptor base ram p.1).ist = 0
  others : ∀ v : UInt64, v.toNat < idtEntries → v ∉ (vectors h).map Prod.fst →
    ¬ (descriptor base ram v).Present

/-- The bytes of the page that stay as they were have the values that the table
needs. -/
structure CleanPage (h : Handlers) (base : UInt64) (ram : ByteMemory) : Prop where
  ist : ∀ v ∈ (vectors h).map Prod.fst, (descriptor base ram v).ist = 0
  others : ∀ v : UInt64, v.toNat < idtEntries → v ∉ (vectors h).map Prod.fst →
    ¬ (descriptor base ram v).Present

variable (h : Handlers)

theorem vectors_fst :
    (vectors h).map Prod.fst = [8, 13, 14, 0x21, 0x2c] := rfl

theorem vectors_lt : ∀ p ∈ vectors h, p.1.toNat < idtEntries := by
  intro p hp
  have hfst : p.1 ∈ (vectors h).map Prod.fst := List.mem_map_of_mem hp
  rw [vectors_fst] at hfst
  simp only [List.mem_cons, List.not_mem_nil, or_false] at hfst
  rcases hfst with heq | heq | heq | heq | heq <;> rw [heq] <;> decide

theorem vectors_nodup : ((vectors h).map Prod.fst).Nodup := by
  rw [vectors_fst]
  decide

/-- `prepareInterrupts` returns, with the five assignments made in the page. -/
theorem prepareInterrupts_eq (s : Machine) :
    prepareInterrupts h s =
      some ({ limit := 4095, base := s.requestPage.1 },
        { s.requestPage.2 with
          ram := assignAll s.requestPage.1 (vectors h) s.requestPage.2.ram }) := rfl

/-- The table is well defined if and only if the page was clean. -/
theorem wellDefined_assignAll_iff (base : UInt64) (ram : ByteMemory) :
    WellDefined h base (assignAll base (vectors h) ram) ↔ CleanPage h base ram := by
  have hread : ∀ {v : UInt64}, v.toNat < idtEntries → _ :=
    fun hv => read_assignAll base ram (vectors_lt h) (vectors_nodup h) hv
  have hself : ∀ p ∈ vectors h, descriptor base (assignAll base (vectors h) ram) p.1 =
      (descriptor base ram p.1).assign p.2 :=
    fun p hp => (hread (vectors_lt h p hp)).1 p.2 hp
  have hother : ∀ v : UInt64, v.toNat < idtEntries → v ∉ (vectors h).map Prod.fst →
      descriptor base (assignAll base (vectors h) ram) v = descriptor base ram v :=
    fun v hv hout => (hread hv).2 hout
  constructor
  · intro hdef
    constructor
    · intro v hv
      obtain ⟨p, hp, rfl⟩ := List.mem_map.mp hv
      have hist := (hdef.assigned p hp).2.2.2
      rw [hself p hp] at hist
      exact hist
    · intro v hv hout
      rw [← hother v hv hout]
      exact hdef.others v hv hout
  · intro hclean
    constructor
    · intro p hp
      rw [hself p hp]
      exact ⟨idtDescGetOffset_assign _ _, rfl, rfl, hclean.ist p.1 (List.mem_map_of_mem hp)⟩
    · intro v hv hout
      rw [hother v hv hout]
      exact hclean.others v hv hout

/-- `prepareInterrupts` returns, and the table in the page is well defined if
and only if the page was clean when `requestPage` returned it. -/
theorem prepareInterrupts_iff (s : Machine) :
    ∃ idtr s', prepareInterrupts h s = some (idtr, s') ∧ idtr.base = s.requestPage.1 ∧
      (WellDefined h idtr.base s'.ram ↔ CleanPage h s.requestPage.1 s.requestPage.2.ram) :=
  ⟨_, _, prepareInterrupts_eq h s, rfl, wellDefined_assignAll_iff h _ _⟩

/-- One free page, number 7, in a memory of ones. -/
def staleMachine : Machine where
  ram := ⟨fun a => if a = 0x100000 then 0b11111110 else 0xff⟩
  memInfo :=
    { memBitMap := { size := 1, buffer := 0x100000 }
      freeMemory := 0x1000
      reservedMemory := 0
      usedMemory := 0x7000
      memSizeBytes := 0x8000 }
  initialized := true
  requested := []

/-- The page keeps its ones where nothing is stored, so vector 0 is present. -/
theorem not_wellDefined_staleMachine :
    ∃ idtr s', prepareInterrupts ⟨0x10000, 0x10100, 0x10200, 0x10300, 0x10400⟩ staleMachine =
        some (idtr, s') ∧ idtr.base = 0x7000 ∧
      ¬ WellDefined ⟨0x10000, 0x10100, 0x10200, 0x10300, 0x10400⟩ idtr.base s'.ram := by
  refine ⟨_, _, prepareInterrupts_eq _ _, by decide +kernel, fun hdef => ?_⟩
  have hclean := (wellDefined_assignAll_iff _ _ _).mp hdef
  have hstale :
      (descriptor staleMachine.requestPage.1 staleMachine.requestPage.2.ram 0).Present := by
    decide +kernel
  exact hclean.others 0 (by decide) (by decide) hstale

end BbnOS
