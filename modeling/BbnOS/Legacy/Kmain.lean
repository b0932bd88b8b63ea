import BbnOS.Legacy.Descriptors
import BbnOS.Legacy.Irq
import BbnOS.Legacy.Scheduling
import BbnOS.Lib.Windows
import Mathlib.Data.List.GetD

/-!
# The start of the legacy tasks

The loop of `kmain` that fills the PCBs from `task_table`, with `memcpy` of
`mem.asm` and `strcpy` of `string.c`, up to the call of `restart`.

`pcbs_filled` says what is in the three PCBs then, `atRestart_kmain` that the
machine is ready for its first `restart`, and `only_first_task` which tasks run
with the mask that `kmain` leaves.

The output, and what the compiled code leaves on the kernel stack and in the
registers, are not modelled: the memory and the registers are those at the call
of `restart` but for what the loop stores.
-/

namespace BbnOS

namespace Legacy

namespace Context

open WordStack Windows Loop
open Descriptors (store16 DESCRIPTOR store store_add store_of_length_le)

/-! ## The copies -/

/-- The loop of `memcpy`; the count is `ecx`. -/
def memcpy (m : Bytes) (edi esi : UInt32) : Nat → Bytes
  | 0 => m
  | ecx + 1 => memcpy (store8 m edi (m esi)) (edi + 1) (esi + 1) ecx

/-- The loop of `strcpy`, which does not store the zero. -/
def strcpy (m : Bytes) (dst : UInt32) : List UInt8 → Bytes
  | [] => m
  | c :: src => if c = 0 then m else strcpy (store8 m dst c) (dst + 1) src

/-! ## The tables -/

/-- `TASK`. -/
structure TASK where
  initial_eip : UInt32
  stack_size : UInt32
  name : List UInt8

/-- Where the linker puts what `kmain` reads.  The stack has room for the one interrupt
that `kmain` leaves open. -/
structure Kernel extends Layout where
  gdt : UInt32
  taskStack : UInt32
  testA : UInt32
  testB : UInt32
  testC : UInt32
  stackFits : toLayout.StackFits 0xFD
  gdt_lt : gdt.toNat + 128 * 8 < 2 ^ 32
  gdt_apart : gdt.toNat + 128 * 8 ≤ procTable.toNat ∨
    procTable.toNat + MAX_THREAD * SIZEOF_PROCESS ≤ gdt.toNat

/-- `STACK_SIZE_TESTA`, which is also that of the other two. -/
def STACK_SIZE : UInt32 := 0x8000

/-- A string literal, with its zero. -/
def literal (s : String) : List UInt8 := (s.toList.map fun c => c.toNat.toUInt8) ++ [0]

/-- `task_table`. -/
def taskTable (K : Kernel) : Nat → TASK
  | 0 => ⟨K.testA, STACK_SIZE, literal "TestA"⟩
  | 1 => ⟨K.testB, STACK_SIZE, literal "testB"⟩
  | _ => ⟨K.testC, STACK_SIZE, literal "testC"⟩

/-! ## The loop -/

/-- What the loop of `kmain` changes. -/
structure Filling where
  memory : Bytes
  pTask : Nat
  pProc : UInt32
  pTaskStack : UInt32
  selectorLdt : UInt16

/-- `SA_TIL | SA_RPL_TASK`, for the first entry of the LDT. -/
def taskCs : UInt32 := ((8 * 0) &&& 0xFFFC &&& 0xFFFB) ||| 4 ||| 1

/-- The same for the second entry. -/
def taskDs : UInt32 := ((8 * 1) &&& 0xFFFC &&& 0xFFFB) ||| 4 ||| 1

/-- `(SELECTOR_KERNEL_GS & SA_RPL_MASK) | SA_RPL_TASK`. -/
def taskGs : UInt32 := ((0x18 + 3) &&& 0xFFFC) ||| 1

/-- `DA_C | PRIVILEGE_TASK << 5`. -/
def codeAttr : UInt8 := (0x98 : UInt8) ||| (1 : UInt8) <<< 5

/-- `DA_DRW | PRIVILEGE_TASK << 5`. -/
def dataAttr : UInt8 := (0x92 : UInt8) ||| (1 : UInt8) <<< 5

/-- The name, `pid`, `ldt_sel` and `ldts`. -/
def fillTables (K : Kernel) (i : Nat) (s : Filling) : Bytes :=
  let m := strcpy s.memory (s.pProc + 96) (taskTable K s.pTask).name
  let m := store32 m (s.pProc + 92) (UInt32.ofNat i)
  let m := store16 m (s.pProc + 72) s.selectorLdt
  let m := memcpy m (s.pProc + 74) (K.gdt + 8) 8
  let m := store8 m (s.pProc + 79) codeAttr
  let m := memcpy m (s.pProc + 82) (K.gdt + 16) 8
  store8 m (s.pProc + 87) dataAttr

/-- The fields of `registers`. -/
def fillRegisters (m : Bytes) (p eip esp : UInt32) : Bytes :=
  let m := store32 m (p + 56) taskCs
  let m := store32 m (p + 12) taskDs
  let m := store32 m (p + 8) taskDs
  let m := store32 m (p + 4) taskDs
  let m := store32 m (p + 68) taskDs
  let m := store32 m (p + 0) taskGs
  let m := store32 m (p + 52) eip
  let m := store32 m (p + 64) esp
  store32 m (p + 60) 0x1202

/-- The body of the loop. -/
def fillPcb (K : Kernel) (i : Nat) (s : Filling) : Filling where
  memory := fillRegisters (fillTables K i s) s.pProc (taskTable K s.pTask).initial_eip
    (s.pTaskStack + (taskTable K s.pTask).stack_size - 1)
  pTask := s.pTask + 1
  pProc := s.pProc + UInt32.ofNat SIZEOF_PROCESS
  pTaskStack := s.pTaskStack + (taskTable K s.pTask).stack_size
  selectorLdt := s.selectorLdt + (1 : UInt16) <<< 3

/-- The loop. -/
def fillPcbs (K : Kernel) (m : Bytes) : Filling :=
  forUpto (fillPcb K) MAX_THREAD ⟨m, 0, K.procTable, K.taskStack, 0x28⟩

/-- `kmain`, up to its call of `restart`. -/
def kmain (K : Kernel) (irqs : Irq.Irqs) (k : Machine) : Machine :=
  let k := k.cli
  { k with
    memory := (fillPcbs K k.memory).memory
    port21 := (Irq.kmainIrqs irqs).pics.master.mask
    pProcReady := K.procTable
    clockIntEnterTime := 0
    activations := [⟨.kmain, .restart, k.registers⟩] }

/-! ## What the copies do -/

section Copies

variable {m : Bytes} {dst src : UInt32}

/-- A byte store before the store of a list. -/
theorem store_store8 (m : Bytes) (p : UInt32) (c : UInt8) {l : List UInt8}
    (hl : l.length < 2 ^ 32) : store (store8 m p c) (p + 1) l = store m p (c :: l) := by
  funext a
  obtain ⟨d, rfl⟩ : ∃ d, a = p + d := ⟨a - p, (add_sub_cancel p a).symm⟩
  have hdist : p + d - (p + 1) = d - 1 := add_sub_add_left_eq_sub d 1 p
  rw [store_add]
  by_cases hzero : d = 0
  · subst hzero
    rw [store_of_length_le, add_zero]
    · exact if_pos rfl
    · rw [hdist]
      exact Nat.le_of_lt_succ hl
  · have hpos : d.toNat ≠ 0 := fun h => hzero (UInt32.toNat_inj.mp h)
    have hpred : (d - 1).toNat + 1 = d.toNat := by
      have hlt := d.toNat_lt
      rw [UInt32.toNat_sub, show (1 : UInt32).toNat = 1 from rfl]
      omega
    have hne : p + d ≠ p := fun h => hzero (add_eq_left.mp h)
    rw [store, hdist, ← hpred, List.getD_cons_succ, store8_of_ne _ _ hne]

/-- The bytes of a window. -/
def window (m : Bytes) (src : UInt32) (n : Nat) : List UInt8 :=
  (List.range n).map fun k => m (src + UInt32.ofNat k)

theorem window_succ (m : Bytes) (src : UInt32) (n : Nat) :
    window m src (n + 1) = m src :: window m (src + 1) n := by
  rw [window, window, List.range_succ_eq_map, List.map_cons, List.map_map]
  refine congrArg₂ List.cons (congrArg m (add_zero src)) (List.map_congr_left fun k _ => ?_)
  rw [Function.comp_apply, Nat.succ_eq_add_one, UInt32.ofNat_add, add_right_comm, add_assoc]
  rfl

/-- A copy between windows that do not meet. -/
theorem memcpy_eq_store {n : Nat} (hn : n < 2 ^ 32)
    (hapart : ∀ k, k < n → n ≤ (src + UInt32.ofNat k - dst).toNat) :
    memcpy m dst src n = store m dst (window m src n) := by
  induction n generalizing m dst src with
  | zero => rfl
  | succ n ih =>
    have hne : ∀ k, k < n + 1 → src + UInt32.ofNat k ≠ dst := by
      intro k hk heq
      have hle := hapart k hk
      rw [heq, sub_self] at hle
      exact absurd hle (Nat.not_succ_le_zero n)
    have hsame : window (store8 m dst (m src)) (src + 1) n = window m (src + 1) n := by
      refine List.map_congr_left fun k hk => store8_of_ne m _ ?_
      have h := hne (k + 1) (Nat.succ_lt_succ (List.mem_range.mp hk))
      rw [UInt32.ofNat_add, add_comm (UInt32.ofNat k), ← add_assoc] at h
      exact h
    rw [memcpy, ih (by omega), hsame, store_store8, window_succ]
    · rw [window, List.length_map, List.length_range]
      omega
    · intro k hk
      have hle := hapart (k + 1) (Nat.succ_lt_succ hk)
      rw [UInt32.ofNat_add, add_comm (UInt32.ofNat k), ← add_assoc] at hle
      rw [← sub_sub, UInt32.toNat_sub]
      have hlt := (src + 1 + UInt32.ofNat k - dst).toNat_lt
      rw [show (UInt32.ofNat 1) = 1 from rfl] at hle
      rw [show (1 : UInt32).toNat = 1 from rfl]
      omega

/-- A copy of the characters before a zero. -/
theorem strcpy_eq_store {l : List UInt8} (hl : l.length < 2 ^ 32) (hnz : 0 ∉ l)
    (rest : List UInt8) : strcpy m dst (l ++ 0 :: rest) = store m dst l := by
  induction l generalizing m dst with
  | nil =>
    rw [List.nil_append, strcpy, if_pos rfl]
    rfl
  | cons c l ih =>
    rw [List.length_cons] at hl
    rw [List.cons_append, strcpy, if_neg fun h : c = 0 => hnz (List.mem_cons.mpr (Or.inl h.symm)),
      ih (by omega) (fun h => hnz (List.mem_cons_of_mem c h)), store_store8 m dst c (by omega)]

/-- The store of a list changes its window alone. -/
theorem keeps_store (m : Bytes) (p : UInt32) {l : List UInt8} {n : Nat} (hl : l.length ≤ n) :
    Keeps m (store m p l) p n :=
  fun _ ha => store_of_length_le m (Nat.le_trans hl ha)

theorem keeps_store16 (m : Bytes) (p : UInt32) (v : UInt16) : Keeps m (store16 m p v) p 2 :=
  ((keeps_store8 m p v.toUInt8).mono (by decide)).trans
    ((keeps_store8 _ (p + 1) (v >>> 8).toUInt8).within (by decide))

theorem load16_store16 (m : Bytes) (p : UInt32) (v : UInt16) : load16 (store16 m p v) p = v := by
  have hne : p ≠ p + 1 := fun h => absurd (left_eq_add.mp h) (by decide)
  have hlow : store16 m p v p = v.toUInt8 := (store8_of_ne _ _ hne).trans (if_pos rfl)
  have hhigh : store16 m p v (p + 1) = (v >>> 8).toUInt8 := if_pos rfl
  rw [load16, hlow, hhigh]
  refine UInt16.eq_of_toBitVec_eq (BitVec.eq_of_getElem_eq fun i hi => ?_)
  interval_cases i <;> simp [-UInt16.toUInt16_toUInt8]

end Copies

/-! ## One PCB -/

section Pcb

variable {K : Kernel} {m m' : Bytes} {p : UInt32} {s : Filling} {i : Nat}

/-- A descriptor that is copied, and then gets another `attr1`. -/
theorem load_copied (m₀ : Bytes) {q r : UInt32} {attr1 : UInt8}
    (h : Agrees (store8 (store m₀ q (window m r 8)) (q + 5) attr1) m' q 8) :
    DESCRIPTOR.load m' q = { DESCRIPTOR.load m r with attr1 := attr1 } := by
  have hbyte : ∀ k : UInt32, k.toNat < 8 → k ≠ 5 → m' (q + k) = m (r + k) := by
    intro k hk hne
    rw [h k hk, store8_of_ne _ _ fun heq => hne (add_left_cancel heq), store_add,
      List.getD_eq_getElem _ _ (by rw [window, List.length_map, List.length_range]; exact hk)]
    simp only [window, List.getElem_map, List.getElem_range, UInt32.ofNat_toNat]
  have hattr : m' (q + 5) = attr1 := (h 5 (by decide)).trans (if_pos rfl)
  have hfirst := hbyte 0 (by decide) (by decide)
  rw [add_zero, add_zero] at hfirst
  have hthree : (2 : UInt32) + 1 = 3 := rfl
  simp (disch := decide) only [DESCRIPTOR.load, Descriptors.load16, add_assoc, hthree, hfirst,
    hattr, hbyte]

/-- What `kmain` stores of a task in the PCB at `p`. -/
structure Filled (K : Kernel) (i : Nat) (m m' : Bytes) (p : UInt32) : Prop where
  registers : savedOuter m' p = { savedOuter m p with
    gs := taskGs.toUInt16
    fs := taskDs.toUInt16
    es := taskDs.toUInt16
    ds := taskDs.toUInt16
    eip := (taskTable K i).initial_eip
    cs := taskCs.toUInt16
    eflags := 0x1202
    esp := K.taskStack + STACK_SIZE * UInt32.ofNat (i + 1) - 1
    ss := taskDs.toUInt16 }
  ldtSel : load16 m' (p + 72) = ldtSelector i
  code : DESCRIPTOR.load m' (p + 74) = { DESCRIPTOR.load m (K.gdt + 8) with attr1 := codeAttr }
  data : DESCRIPTOR.load m' (p + 82) = { DESCRIPTOR.load m (K.gdt + 16) with attr1 := dataAttr }
  pid : load32 m' (p + 92) = UInt32.ofNat i
  /-- The name comes without its zero. -/
  name : ∀ k, k < 16 → m' (p + (96 + UInt32.ofNat k)) =
    if k < 5 then (taskTable K i).name.getD k 0 else m (p + (96 + UInt32.ofNat k))

/-- The registers of a PCB. -/
theorem savedOuter_fillRegisters (m : Bytes) (p eip esp : UInt32) :
    savedOuter (fillRegisters m p eip esp) p = { savedOuter m p with
      gs := taskGs.toUInt16
      fs := taskDs.toUInt16
      es := taskDs.toUInt16
      ds := taskDs.toUInt16
      eip := eip
      cs := taskCs.toUInt16
      eflags := 0x1202
      esp := esp
      ss := taskDs.toUInt16 } := by
  have hgs : load32 (fillRegisters m p eip esp) (p + 0) = taskGs := by
    simp (disch := decide) only [fillRegisters, load32_store32, load32_store32_add]
  rw [add_zero] at hgs
  rw [savedOuter, hgs]
  simp (disch := decide) only [savedOuter, fillRegisters, load32_store32, load32_store32_add]

theorem keeps_fillRegisters (m : Bytes) (p eip esp : UInt32) :
    Keeps m (fillRegisters m p eip esp) p 72 := by
  have hword : ∀ (m : Bytes) (c v : UInt32), c.toNat + 4 ≤ 72 →
      Keeps m (store32 m (p + c) v) p 72 :=
    fun m c v hc => (keeps_store32 m (p + c) v).within hc
  rw [fillRegisters]
  refine Keeps.trans ?_ (hword _ 60 _ (by decide))
  refine Keeps.trans ?_ (hword _ 64 _ (by decide))
  refine Keeps.trans ?_ (hword _ 52 _ (by decide))
  refine Keeps.trans ?_ (hword _ 0 _ (by decide))
  refine Keeps.trans ?_ (hword _ 68 _ (by decide))
  refine Keeps.trans ?_ (hword _ 4 _ (by decide))
  refine Keeps.trans ?_ (hword _ 8 _ (by decide))
  exact (hword m 56 _ (by decide)).trans (hword _ 12 _ (by decide))

/-- The characters of a name. -/
def chars (K : Kernel) (i : Nat) : List UInt8 := (taskTable K i).name.take 5

theorem literal_eq : ∀ s ∈ ["TestA", "testB", "testC"],
    literal s = (literal s).take 5 ++ [0] ∧ ((literal s).take 5).length = 5 ∧
      0 ∉ (literal s).take 5 := by
  decide +kernel

theorem name_eq (K : Kernel) (i : Nat) :
    (taskTable K i).name = chars K i ++ [0] ∧ (chars K i).length = 5 ∧ 0 ∉ chars K i := by
  rcases i with _ | _ | i
  · exact literal_eq "TestA" (by decide)
  · exact literal_eq "testB" (by decide)
  · exact literal_eq "testC" (by decide)

/-- The GDT lies outside the window of `n` bytes from `p` up. -/
def GdtOutside (K : Kernel) (p : UInt32) (n : Nat) : Prop :=
  ∀ c : UInt32, c.toNat < 128 * 8 → n ≤ (K.gdt + c - p).toNat

/-- What the loop body stores behind the registers. -/
structure Tables (K : Kernel) (i : Nat) (m m' : Bytes) (p : UInt32) (selector : UInt16) :
    Prop where
  keeps : Keeps m m' (p + 72) 40
  ldtSel : load16 m' (p + 72) = selector
  code : DESCRIPTOR.load m' (p + 74) = { DESCRIPTOR.load m (K.gdt + 8) with attr1 := codeAttr }
  data : DESCRIPTOR.load m' (p + 82) = { DESCRIPTOR.load m (K.gdt + 16) with attr1 := dataAttr }
  pid : load32 m' (p + 92) = UInt32.ofNat i
  name : ∀ k, k < 16 → m' (p + (96 + UInt32.ofNat k)) =
    if k < 5 then (taskTable K i).name.getD k 0 else m (p + (96 + UInt32.ofNat k))

theorem tables_fillTables (hgdt : GdtOutside K s.pProc 112) (hs : s.pTask = i) :
    Tables K i s.memory (fillTables K i s) s.pProc s.selectorLdt := by
  obtain ⟨hname, hlen, hnz⟩ := name_eq K i
  obtain ⟨m, pTask, p, pTaskStack, selector⟩ := s
  dsimp only at hgdt hs ⊢
  subst hs
  rw [fillTables]
  dsimp only
  rw [hname, strcpy_eq_store (by omega) hnz]
  -- the memories after each store, and the windows they change
  obtain ⟨m₁, h₁⟩ : ∃ m₁, m₁ = store m (p + 96) (chars K pTask) := ⟨_, rfl⟩
  obtain ⟨m₂, h₂⟩ : ∃ m₂, m₂ = store32 m₁ (p + 92) (UInt32.ofNat pTask) := ⟨_, rfl⟩
  obtain ⟨m₃, h₃⟩ : ∃ m₃, m₃ = store16 m₂ (p + 72) selector := ⟨_, rfl⟩
  have k₁ : Keeps m m₁ (p + 96) 16 := h₁ ▸ keeps_store m (p + 96) (by omega)
  have k₂ : Keeps m₁ m₂ (p + 92) 4 := h₂ ▸ keeps_store32 m₁ (p + 92) _
  have k₃ : Keeps m₂ m₃ (p + 72) 2 := h₃ ▸ keeps_store16 m₂ (p + 72) _
  rw [← h₁, ← h₂, ← h₃]
  have hto₃ : Keeps m m₃ p 112 :=
    ((k₁.within (by decide)).trans (k₂.within (by decide))).trans (k₃.within (by decide))
  have hcopy : ∀ {m' : Bytes} (c d : UInt32), Keeps m m' p 112 → c.toNat + 8 ≤ 112 →
      d.toNat ≤ 16 →
      memcpy m' (p + c) (K.gdt + d) 8 = store m' (p + c) (window m (K.gdt + d) 8) := by
    intro m' c d hkeeps hc hd
    have hout : ∀ k, k < 8 → 112 ≤ (K.gdt + d + UInt32.ofNat k - p).toNat := by
      intro k hk
      rw [add_assoc]
      refine hgdt _ ?_
      rw [UInt32.toNat_add, UInt32.toNat_ofNat']
      omega
    rw [memcpy_eq_store (by decide)]
    · exact congrArg _ (List.map_congr_left fun k hk => hkeeps _ (hout k (List.mem_range.mp hk)))
    · intro k hk
      have hle := hout k hk
      rw [← sub_sub, UInt32.toNat_sub]
      have hlt := (K.gdt + d + UInt32.ofNat k - p).toNat_lt
      omega
  rw [hcopy 74 8 hto₃ (by decide) (by decide)]
  obtain ⟨m₄, h₄⟩ : ∃ m₄, m₄ = store m₃ (p + 74) (window m (K.gdt + 8) 8) := ⟨_, rfl⟩
  obtain ⟨m₅, h₅⟩ : ∃ m₅, m₅ = store8 m₄ (p + 79) codeAttr := ⟨_, rfl⟩
  have k₄ : Keeps m₃ m₄ (p + 74) 8 := h₄ ▸ keeps_store m₃ (p + 74) (Nat.le_refl 8)
  have k₅ : Keeps m₄ m₅ (p + 79) 1 := h₅ ▸ keeps_store8 m₄ (p + 79) _
  rw [← h₄, ← h₅, hcopy 82 16 ((hto₃.trans (k₄.within (by decide))).trans (k₅.within (by decide)))
    (by decide) (by decide)]
  obtain ⟨m₆, h₆⟩ : ∃ m₆, m₆ = store m₅ (p + 82) (window m (K.gdt + 16) 8) := ⟨_, rfl⟩
  obtain ⟨m₇, h₇⟩ : ∃ m₇, m₇ = store8 m₆ (p + 87) dataAttr := ⟨_, rfl⟩
  have k₆ : Keeps m₅ m₆ (p + 82) 8 := h₆ ▸ keeps_store m₅ (p + 82) (Nat.le_refl 8)
  have k₇ : Keeps m₆ m₇ (p + 87) 1 := h₇ ▸ keeps_store8 m₆ (p + 87) _
  rw [← h₆, ← h₇]
  constructor
  case keeps =>
    exact (((((((k₁.within_add (by decide)).trans (k₂.within_add (by decide))).trans
      (k₃.mono (by decide))).trans (k₄.within_add (by decide))).trans
      (k₅.within_add (by decide))).trans (k₆.within_add (by decide))).trans
      (k₇.within_add (by decide)))
  case ldtSel =>
    rw [k₇.load16 (by decide) (by decide), k₆.load16 (by decide) (by decide),
      k₅.load16 (by decide) (by decide), k₄.load16 (by decide) (by decide), h₃]
    exact load16_store16 m₂ (p + 72) selector
  case pid =>
    rw [k₇.load32 (by decide) (by decide), k₆.load32 (by decide) (by decide),
      k₅.load32 (by decide) (by decide), k₄.load32 (by decide) (by decide),
      k₃.load32 (by decide) (by decide), h₂]
    exact load32_store32 m₁ (p + 92) _
  case code =>
    have hpatch : m₅ =
        store8 (store m₃ (p + 74) (window m (K.gdt + 8) 8)) (p + 74 + 5) codeAttr := by
      rw [h₅, h₄, add_assoc]
      rfl
    refine load_copied m₃ ?_
    rw [← hpatch]
    exact (k₆.agrees_add (by decide) (by decide)).trans (k₇.agrees_add (by decide) (by decide))
  case data =>
    have hpatch : m₇ =
        store8 (store m₅ (p + 82) (window m (K.gdt + 16) 8)) (p + 82 + 5) dataAttr := by
      rw [h₇, h₆, add_assoc]
      rfl
    refine load_copied m₅ ?_
    rw [← hpatch]
    exact fun _ _ => rfl
  case name =>
    intro k hk
    have hfar : ∀ j, j < 16 → 1 ≤ (96 + UInt32.ofNat j - 87).toNat ∧
        8 ≤ (96 + UInt32.ofNat j - 82).toNat ∧ 1 ≤ (96 + UInt32.ofNat j - 79).toNat ∧
        8 ≤ (96 + UInt32.ofNat j - 74).toNat ∧ 2 ≤ (96 + UInt32.ofNat j - 72).toNat ∧
        4 ≤ (96 + UInt32.ofNat j - 92).toNat := by decide
    obtain ⟨far₇, far₆, far₅, far₄, far₃, far₂⟩ := hfar k hk
    rw [k₇.byte far₇, k₆.byte far₆, k₅.byte far₅, k₄.byte far₄, k₃.byte far₃, k₂.byte far₂, h₁,
      ← add_assoc, store_add, UInt32.toNat_ofNat', Nat.mod_eq_of_lt (by omega)]
    split_ifs with hlt
    · rw [hname, List.getD_append _ _ _ _ (by omega), List.getD_eq_getElem _ _ (by omega),
        List.getD_eq_getElem _ _ (by omega)]
    · rw [List.getD_eq_default _ _ (by omega)]

theorem savedOuter_agrees (h : Agrees m m' p 72) : savedOuter m' p = savedOuter m p := by
  have hword : ∀ d : UInt32, d.toNat + 4 ≤ 72 → load32 m' (p + d) = load32 m (p + d) :=
    fun d hd => h.load32 hd (by decide)
  have hfirst := hword 0 (by decide)
  rw [add_zero] at hfirst
  simp (disch := decide) only [savedOuter, hfirst, hword]

theorem load_agrees {q : UInt32} (h : Agrees m m' q 8) :
    DESCRIPTOR.load m' q = DESCRIPTOR.load m q := by
  refine Descriptors.load_congr fun k hk => h _ ?_
  rw [UInt32.toNat_ofNat', Nat.mod_eq_of_lt (by omega)]
  exact hk

/-- `Filled` speaks about the bytes of the PCB, and of the GDT, only. -/
theorem Filled.congr {m₀ m₁ : Bytes} (h : Filled K i m m' p) (hm : Agrees m₀ m p 112)
    (hgdt : Agrees m₀ m K.gdt 24) (hm' : Agrees m' m₁ p 112) : Filled K i m₀ m₁ p := by
  have hpart : ∀ {a b : Bytes} {q : UInt32} {n : Nat} (d : UInt32) (l : Nat), Agrees a b q n →
      d.toNat + l ≤ n → n ≤ 112 → Agrees a b (q + d) l := by
    intro a b q n d l hab hd hn k hk
    rw [add_assoc]
    refine hab _ ?_
    rw [UInt32.toNat_add]
    omega
  have hbytes : ∀ {a b : Bytes}, Agrees a b p 112 → Agrees a b p 72 :=
    fun hab k hk => hab k (by omega)
  constructor
  case registers =>
    rw [savedOuter_agrees (hbytes hm'), h.registers, savedOuter_agrees (hbytes hm)]
  case ldtSel => exact (hm'.load16 (by decide) (by decide)).trans h.ldtSel
  case code =>
    rw [load_agrees (hpart 74 8 hm' (by decide) (by decide)), h.code,
      load_agrees (hpart 8 8 hgdt (by decide) (by decide))]
  case data =>
    rw [load_agrees (hpart 82 8 hm' (by decide) (by decide)), h.data,
      load_agrees (hpart 16 8 hgdt (by decide) (by decide))]
  case pid => exact (hm'.load32 (by decide) (by decide)).trans h.pid
  case name =>
    intro k hk
    have hoff : (96 + UInt32.ofNat k).toNat < 112 := by
      rw [UInt32.toNat_add, UInt32.toNat_ofNat', show (96 : UInt32).toNat = 96 from rfl]
      omega
    rw [hm' _ hoff, h.name k hk, hm _ hoff]

/-- One round of the loop. -/
theorem filled_fillPcb (hgdt : GdtOutside K s.pProc 112) (hs : s.pTask = i)
    (hstack : s.pTaskStack = K.taskStack + STACK_SIZE * UInt32.ofNat i)
    (hsel : s.selectorLdt = ldtSelector i) :
    Filled K i s.memory (fillPcb K i s).memory s.pProc ∧
      Keeps s.memory (fillPcb K i s).memory s.pProc 112 := by
  have htables := tables_fillTables hgdt hs
  obtain ⟨m₁, h₁⟩ : ∃ m₁, m₁ = fillTables K i s := ⟨_, rfl⟩
  rw [← h₁] at htables
  have hsize : (taskTable K i).stack_size = STACK_SIZE := by
    rcases i with _ | _ | i <;> rfl
  have hmemory : (fillPcb K i s).memory = fillRegisters m₁ s.pProc (taskTable K i).initial_eip
      (K.taskStack + STACK_SIZE * UInt32.ofNat (i + 1) - 1) := by
    rw [fillPcb, ← h₁, hs, hstack, hsize, UInt32.ofNat_add, mul_add, ← add_assoc]
    rfl
  have hregs := keeps_fillRegisters m₁ s.pProc (taskTable K i).initial_eip
    (K.taskStack + STACK_SIZE * UInt32.ofNat (i + 1) - 1)
  have houter := savedOuter_fillRegisters m₁ s.pProc (taskTable K i).initial_eip
    (K.taskStack + STACK_SIZE * UInt32.ofNat (i + 1) - 1)
  rw [← hmemory] at hregs houter
  have hregs₀ : Keeps m₁ (fillPcb K i s).memory (s.pProc + 0) 72 := by
    rw [add_zero]
    exact hregs
  have hlow : Agrees s.memory m₁ s.pProc 72 := by
    have h := htables.keeps.agrees_add (d := 0) (n := 72) (by decide) (by decide)
    rw [add_zero] at h
    exact h
  refine ⟨?_, (htables.keeps.within (by decide)).trans (hregs.mono (by decide))⟩
  constructor
  case registers => rw [houter, savedOuter_agrees hlow]
  case ldtSel =>
    rw [hregs₀.load16 (by decide) (by decide), htables.ldtSel, hsel]
  case code => rw [load_agrees (hregs₀.agrees_add (by decide) (by decide)), htables.code]
  case data => rw [load_agrees (hregs₀.agrees_add (by decide) (by decide)), htables.data]
  case pid => rw [hregs₀.load32 (by decide) (by decide), htables.pid]
  case name =>
    intro k hk
    have hfar : ∀ j, j < 16 → 72 ≤ (96 + UInt32.ofNat j - 0).toNat := by decide
    rw [hregs₀.byte (hfar k hk), htables.name k hk]

end Pcb

/-! ## The loop -/

section Loop

variable {K : Kernel} {m : Bytes}

/-- The GDT does not meet the table. -/
theorem gdt_outside (K : Kernel) : GdtOutside K K.procTable (MAX_THREAD * SIZEOF_PROCESS) :=
  fun _ hc => le_distance (Nat.le_of_lt K.gdt_lt) (Nat.le_of_lt K.procTable_lt) K.gdt_apart hc

theorem gdt_outside_pcb (K : Kernel) {j : Nat} (hj : j < MAX_THREAD) :
    GdtOutside K (K.pcb j) 112 := by
  intro c hc
  have hle := gdt_outside K c hc
  have hlt := (K.gdt + c - K.procTable).toNat_lt
  rw [show MAX_THREAD * SIZEOF_PROCESS = 336 from rfl] at hle
  rw [show MAX_THREAD = 3 from rfl] at hj
  rw [Layout.pcb, ← sub_sub, UInt32.toNat_sub, UInt32.toNat_ofNat',
    show SIZEOF_PROCESS = 112 from rfl, Nat.mod_eq_of_lt (show 112 * j < 2 ^ 32 by omega),
    Nat.mod_eq_sub_mod (by omega), Nat.mod_eq_of_lt (by omega)]
  omega

/-- What the loop has done after `j` rounds. -/
structure Rounds (K : Kernel) (m : Bytes) (j : Nat) (s : Filling) : Prop where
  pTask : s.pTask = j
  pProc : s.pProc = K.pcb j
  pTaskStack : s.pTaskStack = K.taskStack + STACK_SIZE * UInt32.ofNat j
  selectorLdt : s.selectorLdt = ldtSelector j
  keeps : Keeps m s.memory K.procTable (SIZEOF_PROCESS * j)
  filled : ∀ i, i < j → Filled K i m s.memory (K.pcb i)

theorem Rounds.next {j : Nat} {s : Filling} (h : Rounds K m j s) (hj : j < MAX_THREAD) :
    Rounds K m (j + 1) (fillPcb K j s) := by
  have hgdt := gdt_outside_pcb K hj
  rw [← h.pProc] at hgdt
  obtain ⟨hfilled, hkeeps⟩ := filled_fillPcb hgdt h.pTask h.pTaskStack h.selectorLdt
  rw [h.pProc] at hfilled hkeeps
  have hsize : (taskTable K j).stack_size = STACK_SIZE := by
    rcases j with _ | _ | j <;> rfl
  -- the PCBs lie 112 bytes apart
  have hfar : ∀ j, j < MAX_THREAD → ∀ i, i < j →
      SIZEOF_PROCESS ≤
          (UInt32.ofNat (SIZEOF_PROCESS * i) - UInt32.ofNat (SIZEOF_PROCESS * j)).toNat ∧
        (UInt32.ofNat (SIZEOF_PROCESS * i) - UInt32.ofNat (SIZEOF_PROCESS * j)).toNat +
          SIZEOF_PROCESS ≤ 2 ^ 32 := by decide
  have hself : ∀ j, j < MAX_THREAD →
      SIZEOF_PROCESS * j ≤ (UInt32.ofNat (SIZEOF_PROCESS * j) - 0).toNat ∧
        (UInt32.ofNat (SIZEOF_PROCESS * j) - 0).toNat + SIZEOF_PROCESS ≤ 2 ^ 32 := by decide
  have hnew : Keeps s.memory (fillPcb K j s).memory
      (K.procTable + UInt32.ofNat (SIZEOF_PROCESS * j)) SIZEOF_PROCESS := hkeeps
  constructor
  case pTask => exact congrArg (· + 1) h.pTask
  case pProc => rw [fillPcb, h.pProc, pcb_succ]
  case pTaskStack =>
    rw [fillPcb, h.pTaskStack, h.pTask, hsize, UInt32.ofNat_add, mul_add, ← add_assoc]
    rfl
  case selectorLdt =>
    rw [fillPcb, h.selectorLdt, ldtSelector, ldtSelector, Nat.mul_succ, UInt16.ofNat_add,
      ← add_assoc]
    rfl
  case keeps =>
    refine (h.keeps.mono (Nat.mul_le_mul_left _ (Nat.le_succ j))).trans (hnew.within ?_)
    rw [UInt32.toNat_ofNat', Nat.mul_succ]
    exact Nat.add_le_add_right (Nat.mod_le _ _) _
  case filled =>
    intro i hi
    rcases Nat.lt_succ_iff_lt_or_eq.mp hi with hlt | heq
    · obtain ⟨hdist, hwrap⟩ := hfar j hj i hlt
      refine (h.filled i hlt).congr (fun _ _ => rfl) (fun _ _ => rfl) ?_
      exact hnew.agrees_add hdist hwrap
    · subst heq
      have hold : Keeps m s.memory (K.procTable + 0) (SIZEOF_PROCESS * i) := by
        rw [add_zero]
        exact h.keeps
      obtain ⟨hdist, hwrap⟩ := hself i hj
      refine hfilled.congr (hold.agrees_add hdist hwrap) (fun k hk => ?_) fun _ _ => rfl
      refine h.keeps _ (Nat.le_trans ?_ (gdt_outside K k (by omega)))
      rw [Nat.mul_comm]
      exact Nat.mul_le_mul_right _ (Nat.le_of_lt hj)

/-- What the loop of `kmain` leaves. -/
theorem rounds_fillPcbs (K : Kernel) (m : Bytes) : Rounds K m MAX_THREAD (fillPcbs K m) := by
  refine forUpto_induct (Rounds K m) ?_ fun i s hi h => h.next hi
  refine ⟨rfl, pcb_zero.symm, ?_, rfl, Keeps.refl m _ _, fun i hi => absurd hi (Nat.not_lt_zero i)⟩
  exact (add_zero _).symm

/-- The loop of `kmain` fills the three PCBs from `task_table` and the GDT, whatever the
memory holds, and changes nothing else. -/
theorem pcbs_filled (K : Kernel) (m : Bytes) :
    (∀ i, i < MAX_THREAD → Filled K i m (fillPcbs K m).memory (K.pcb i)) ∧
      ∀ a, ¬ K.InTable a → (fillPcbs K m).memory a = m a := by
  have h := rounds_fillPcbs K m
  refine ⟨h.filled, fun a ha => h.keeps a ?_⟩
  have hlt := a.toNat_lt
  have hproc := K.procTable_lt
  rw [UInt32.toNat_sub]
  rw [Layout.InTable, not_and_or, not_le, not_lt] at ha
  rw [Nat.mul_comm]
  rcases ha with hbelow | habove
  · rw [Nat.mod_eq_of_lt (by omega)]
    omega
  · rw [Nat.mod_eq_sub_mod (by omega), Nat.mod_eq_of_lt (by omega)]
    omega

end Loop

/-! ## The first `restart` -/

section Start

variable {K : Kernel} {irqs : Irq.Irqs} {k : Machine}

theorem port21_kmain (irqs : Irq.Irqs) :
    (Irq.kmainIrqs (Irq.init8259A irqs)).pics.master.mask = 0xFD := by
  obtain ⟨_, hmasked, _⟩ := Irq.kmainIrqs_init irqs
  have hmask : ∀ j : Fin 16, decide (j ≠ 1) =
      if j.val < 8 then (0xFD : BitVec 8).getLsbD j.val else true := by decide
  refine BitVec.eq_of_getLsbD_eq fun i hi => ?_
  have hlow : i < 16 := by omega
  have hbit := (hmasked ⟨i, hlow⟩).trans (hmask ⟨i, hlow⟩)
  rw [Pic8259.Pics.masked] at hbit
  dsimp only at hbit
  rw [if_pos hi, if_pos hi] at hbit
  exact hbit

/-- After `init_8259A` and `kmain` the machine is ready for the first `restart`. -/
theorem atRestart_kmain (K : Kernel) (irqs : Irq.Irqs) (k : Machine)
    (hcs : k.registers.cs = SELECTOR_KERNEL_CS) (hss : k.registers.ss = SELECTOR_KERNEL_DS) :
    AtRestart K.toLayout 0xFD (kmain K (Irq.init8259A irqs) k) where
  stackFits := K.stackFits
  cs := hcs
  ss := hss
  flag := interruptFlag_cli _
  port21 := port21_kmain irqs
  counter := rfl
  proc := rfl
  activations := ⟨_, rfl⟩
  ldt i hi := ((rounds_fillPcbs K k.memory).filled i hi).ldtSel
  tasks i hi := by
    have h := ((rounds_fillPcbs K k.memory).filled i hi).registers
    rw [show (kmain K (Irq.init8259A irqs) k).memory = (fillPcbs K k.memory).memory from rfl, h]
    exact ⟨show (0x1202 : UInt32).toBitVec.getLsbD 9 = true by decide,
      show rpl taskCs.toUInt16 ≠ rpl SELECTOR_KERNEL_CS by decide⟩

/-- From the call of `restart` on, with the interrupts that `kmain` leaves open, the
clock never interrupts and no task but the first ever runs. -/
theorem only_first_task (K : Kernel) (irqs : Irq.Irqs) (k k' : Machine) (as : List Action)
    (hcs : k.registers.cs = SELECTOR_KERNEL_CS) (hss : k.registers.ss = SELECTOR_KERNEL_DS)
    (hrun : Runs.run (Machine.step K.toLayout) (kmain K (Irq.init8259A irqs) k) as = some k') :
    k'.step K.toLayout (.irq clockIrq) = none ∧ (k'.activations = [] → k'.Runs K.toLayout 0) := by
  have hstart := atRestart_kmain K irqs k hcs hss
  obtain ⟨t, s, hgood, hturn⟩ := hstart.turn hrun
  refine ⟨hgood.not_clock (by decide), fun hk => ?_⟩
  rw [hstart.total_tick (by decide) hrun] at hturn
  exact (hturn.runs hgood hk).1

/-- The sample layout, with the tables that `kmain` reads. -/
def sampleKernel : Kernel where
  toLayout := sampleLayout
  gdt := 0x33000
  taskStack := 0x34000
  testA := 0x30700
  testB := 0x30720
  testC := 0x30760
  stackFits := by decide
  gdt_lt := by decide
  gdt_apart := by decide

/-- The interrupt controllers as the firmware may leave them. -/
def sampleIrqs : Irq.Irqs where
  pics := ⟨⟨0xB8, 0x08, 0x04, false, true, .mask⟩, ⟨0x8F, 0x70, 0x02, false, true, .mask⟩⟩
  irqTable _ := .commonIrq

theorem only_first_task_toTask :
    (sampleAfter (kmain sampleKernel (Irq.init8259A sampleIrqs) sampleMachine) toTask).Runs
      sampleKernel.toLayout 0 :=
  (only_first_task sampleKernel sampleIrqs sampleMachine _ toTask rfl rfl
    (run_sampleAfter (by decide +kernel))).2 (by decide +kernel)

end Start

end Context

end Legacy

end BbnOS
