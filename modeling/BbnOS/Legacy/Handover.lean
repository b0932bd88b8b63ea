import BbnOS.Legacy.DetectedMemory
import BbnOS.Legacy.InitKernel
import BbnOS.Legacy.LoadedFile
import BbnOS.Legacy.Paging

/-!
# From the BIOS to the kernel

The run of `boot.asm`, which loads `LOADER.BIN`, and of `loader.asm` up to the jump to the
kernel: `DetectMemory`, the search for `KERNEL.BIN` and its loading in real mode, then
`PrintMemInfo`, `SetupPaging` and `InitKernel` in protected mode.  All of them work on the
same memory, and each one finds there what those before it have left.

`Handover` is what the kernel starts with.  The messages, the A20 line and the GDT of the
loader are left out.
-/

namespace BbnOS

namespace Legacy

namespace LoaderRun

open ByteMemory RealMode

/-! ## The code -/

/-- The memory for `InitKernel`. -/
def flat (m : ByteMemory) : InitKernel.Memory := fun a => m.bytes a.toUInt64

/-- The memory after `InitKernel`, which stores below 4 GiB. -/
def unflat (mem : InitKernel.Memory) (m : ByteMemory) : ByteMemory :=
  ⟨fun a => if a.toNat < 2 ^ 32 then mem a.toUInt32 else m.bytes a⟩

/-- `LABEL_START`: the memory when `LABEL_FILE_LOADED` is reached. -/
def labelStart (int13 : DiskRequest → Option (List UInt8)) (rs : List E820.Response)
    (buf : UInt32) (fuel : Nat) (s : RealMode.Machine) : Option ByteMemory := do
  let detected ← E820.detectMemory rs (view buf s.ram)
  let s ← loadFile .loader int13 fuel { s with ram := commit buf detected s.ram }
  some s.ram

/-- `LABEL_PM_START`: the memory at the jump to the kernel, and how it is mapped. -/
def labelPmStart (buf cr0 : UInt32) (mem : ByteMemory) : Option Paging.Paged := do
  let layout := MemorySize.Layout.loader buf
  let mem ← MemorySize.printMemInfo layout mem
  let paged ← Paging.setupPaging (mem.read32 layout.dwMemSizeOffset.toUInt64) cr0 mem
  let kernel ← InitKernel.initKernel { mem := flat paged.memory, examined := [], stores := [] }
  some { paged with memory := unflat kernel.mem paged.memory }

/-- The loader, with `MemChkBuf` at `buf`.  The search and the loading have at most `fuel`
steps. -/
def loader (int13 : DiskRequest → Option (List UInt8)) (rs : List E820.Response)
    (buf cr0 : UInt32) (fuel : Nat) (s : RealMode.Machine) : Option Paging.Paged := do
  let mem ← labelStart int13 rs buf fuel s
  -- `or eax, 1` at `LABEL_FILE_LOADED`
  labelPmStart buf (cr0 ||| 1) mem

/-- `boot.asm`, and the loader that it jumps to. -/
def boot (int13 : DiskRequest → Option (List UInt8)) (rs : List E820.Response)
    (buf cr0 : UInt32) (fuel : Nat) (s : RealMode.Machine) : Option Paging.Paged := do
  let s ← loadFile .boot int13 fuel s
  loader int13 rs buf cr0 fuel s

/-! ## What the loader is for -/

/-- The entries that `DetectMemory` records. -/
def entries (t : E820.Transcript) : List MemorySize.Entry :=
  (t.responses.filter fun r => r.Usable).map entryOf

/-- The size of the memory. -/
def memSize (t : E820.Transcript) : UInt32 := UInt32.ofNat (MemorySize.lowTop (entries t))

/-- The end of the page tables for `M` bytes. -/
def tablesEnd (M : UInt32) : Nat := 0x101000 + 4096 * Paging.tables M

/-- The address is in memory that the BIOS reports as free. -/
def InMemory (t : E820.Transcript) (a : Nat) : Prop :=
  ∃ e ∈ entries t, e.type = 1 ∧ e.base.toNat ≤ a ∧ a < e.top

/-- The BIOS of a machine that the loader finds the memory of: the usable entries fit in
the buffer, there is memory below 4 GiB, with room for the page tables, and the memory
above does not look like it. -/
structure Sized (t : E820.Transcript) : Prop where
  room : (t.responses.dropLast.filter fun r => r.Usable).length ≤ 20
  pos : 0 < MemorySize.lowTop (entries t)
  high : ∀ e ∈ entries t, e.type = 1 → 2 ^ 32 ≤ e.top →
    e.top % 2 ^ 32 ≤ MemorySize.lowTop (entries t)
  tables : ∀ a, 0x100000 ≤ a → a < tablesEnd (memSize t) → InMemory t a

/-- A file in the memory, at the address where the loader has it. -/
def imageOf (file : Nat → UInt8) : InitKernel.Memory :=
  fun a => file (a - InitKernel.BaseOfKernelFilePhyAddr).toNat

/-- A kernel for the memory: an image whose segments are below the file or behind the page
tables, in memory that is free and gets mapped. -/
structure Fits (t : E820.Transcript) (size : Nat) (file : Nat → UInt8) : Prop where
  header : 52 ≤ size
  image : InitKernel.Image size (imageOf file)
  nonempty : InitKernel.e_phnum (imageOf file) ≠ 0
  inside : ∀ h ∈ InitKernel.headers (imageOf file), InitKernel.Inside (imageOf file) h
  room : ∀ a, InitKernel.InLoad (imageOf file) a →
    (a.toNat < 0x80000 ∨ tablesEnd (memSize t) ≤ a.toNat) ∧
      a.toNat < Paging.tables (memSize t) * 2 ^ 22
  memory : ∀ a, InitKernel.InLoad (imageOf file) a → InMemory t a.toNat

section Size

variable {buf : UInt32} {mem mem' : ByteMemory} {es : List MemorySize.Entry}

end Size

/-! ## The page tables -/

section Tables

variable {M cr0 : UInt32} {mem : ByteMemory} {p p' : Paging.Paged} {n : Nat}

end Tables

/-! ## The image -/

section Image

variable {m m' : InitKernel.Memory} {size : Nat}

end Image

/-! ## The two halves -/

section Halves

variable {int13 : DiskRequest → Option (List UInt8)} {disk : Nat → Nat → UInt8}
  {t : E820.Transcript} {chain : List Nat} {k size : Nat} {buf cr0 : UInt32}
  {file : Nat → UInt8} {mem : ByteMemory}

/-- At most 21 entries. -/
theorem Sized.length_le (h : Sized t) : (t.responses.filter fun r => r.Usable).length ≤ 21 := by
  have hroom := h.room
  rcases List.eq_nil_or_concat t.responses with hnil | ⟨rs, r, hconcat⟩
  · rw [hnil]
    exact Nat.zero_le 21
  · have hone := List.length_filter_le (fun r : E820.Response => decide r.Usable) [r]
    rw [hconcat, List.concat_eq_append, List.dropLast_concat] at hroom
    rw [List.length_singleton] at hone
    rw [hconcat, List.concat_eq_append, List.filter_append, List.length_append]
    omega

end Halves

/-! ## The whole run -/

section Run

variable {int13 : DiskRequest → Option (List UInt8)} {disk : Nat → Nat → UInt8}
  {t : E820.Transcript} {chain chain' : List Nat} {j k size : Nat} {buf : UInt32}

/-- Without `LOADER.BIN` or without `KERNEL.BIN` in the root directory the run never comes to
the kernel. -/
theorem boot_stops (h : Serves int13 disk)
    (hnone : (∀ k < 224, ¬ IsFile .boot disk k) ∨ ∀ k < 224, ¬ IsFile .loader disk k)
    (rs : List E820.Response) (buf cr0 : UInt32) (fuel : Nat) (s : RealMode.Machine) :
    boot int13 rs buf cr0 fuel s = none := by
  have hstop : ∀ (p : Program) (s : RealMode.Machine), (∀ k < 224, ¬ IsFile p disk k) →
      loadFile p int13 fuel s = none := by
    intro p s hnofile
    rw [loadFile, search_eq_none h hnofile]
    rfl
  rw [boot, Option.bind_eq_bind, Option.bind_eq_none_iff]
  intro u hu
  rcases hnone with hboot | hkernel
  · rw [hstop .boot s hboot] at hu
    cases hu
  · rw [loader, labelStart, Option.bind_eq_bind, Option.bind_eq_none_iff]
    intro mem hmem
    obtain ⟨d, -, hrest⟩ := Option.bind_eq_some_iff.mp hmem
    rw [hstop .loader _ hkernel] at hrest
    cases hrest

end Run

/-! ## A disk with a kernel -/

end LoaderRun

end Legacy

end BbnOS
