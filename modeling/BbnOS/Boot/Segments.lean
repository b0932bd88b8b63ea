import BbnOS.Boot.Loader

/-!
# The segments that the loader builds

For a well-formed file and a firmware that delivers what it is asked for, the
loop of `efi_main` stores the file bytes of every loadable segment, and leaves
every other byte of the memory as it was (`Loaded`, kept by each round in
`loaded_succ`).

The bytes of a segment from `p_filesz` up belong to the ELF image as zeros.
No statement of the loop stores them, so the image is built exactly when they
were zero before (`buildsImage_iff`).  The memory is the one that the loop
starts with, after the file is opened and its header read.
-/

namespace BbnOS

open ByteMemory Loop

namespace Uefi

/-! ## Well-formed files -/

/-- Entry `i` of the program-header table of a file. -/
def headerAt (file : List UInt8) (i : Nat) : Elf64Phdr :=
  let header := Elf64Ehdr.ofList file
  .ofList (file.drop (header.ePhoff.toNat + i * header.ePhentsize.toNat))

/-- The size of the program-header table of a file. -/
def tableBytes (file : List UInt8) : Nat :=
  (Elf64Ehdr.ofList file).ePhnum.toNat * (Elf64Ehdr.ofList file).ePhentsize.toNat

/-- The `PT_LOAD` headers of a file. -/
def loadable (file : List UInt8) : List Elf64Phdr :=
  ((List.range (Elf64Ehdr.ofList file).ePhnum.toNat).map (headerAt file)).filter
    fun ph => ph.pType = PT_LOAD

/-- The size of the pages that a segment occupies. -/
def pageBytes (ph : Elf64Phdr) : Nat := 4096 * ((ph.pMemsz.toNat + 4095) / 4096)

/-- A well-formed ELF64 kernel file. -/
structure WellFormed (file : List UInt8) : Prop where
  size : Elf64Ehdr.size ≤ file.length
  headerOk : (Elf64Ehdr.ofList file).HeaderOk
  stride : Elf64Phdr.size ≤ (Elf64Ehdr.ofList file).ePhentsize.toNat
  table : (Elf64Ehdr.ofList file).ePhoff.toNat + tableBytes file ≤ file.length
  aligned : ∀ ph, ph ∈ loadable file → ph.pPaddr.toNat % 4096 = 0
  filesz : ∀ ph, ph ∈ loadable file → ph.pFilesz.toNat ≤ ph.pMemsz.toNat
  contents : ∀ ph, ph ∈ loadable file → ph.pOffset.toNat + ph.pFilesz.toNat ≤ file.length
  disjoint : (loadable file).Pairwise fun ph ph' =>
    Disjoint ph.pPaddr (pageBytes ph) ph'.pPaddr (pageBytes ph')

/-- The answer to a `Read` that delivers what it is asked for. -/
def delivered : ReadAnswer := ⟨EFI_SUCCESS, none⟩

/-- A firmware whose calls succeed.  `AllocatePages` gives out free pages only,
so that the segments are apart from the pool buffer of the program headers. -/
structure Delivers (fw : Firmware) : Prop where
  loadedImage : fw.loadedImage ≠ NULL
  root : fw.root ≠ NULL
  openStatus : fw.openStatus = EFI_SUCCESS
  loadedFile : fw.loadedFile ≠ NULL
  readHeader : fw.readHeader = delivered
  seekTable : fw.seekTable = EFI_SUCCESS
  readTable : fw.readTable = delivered
  allocatePages : ∀ i pages addr, fw.allocatePages i pages addr = EFI_SUCCESS
  freePages : ∀ ph, ph ∈ loadable fw.file →
    Disjoint fw.phdrs (tableBytes fw.file) ph.pPaddr (pageBytes ph)
  seekSegment : ∀ i, fw.seekSegment i = EFI_SUCCESS
  readSegment : ∀ i, fw.readSegment i = delivered

/-! ## The ELF image -/

/-- The memory holds the image of a segment. -/
structure HoldsImage (file : List UInt8) (ram : ByteMemory) (ph : Elf64Phdr) : Prop where
  contents : ∀ k, k < ph.pFilesz.toNat →
    ram.bytes (ph.pPaddr + UInt64.ofNat k) = file.getD (ph.pOffset.toNat + k) 0
  zeros : ∀ k, ph.pFilesz.toNat ≤ k → k < ph.pMemsz.toNat →
    ram.bytes (ph.pPaddr + UInt64.ofNat k) = 0

/-- The file is opened, and the loop ends with the image of every loadable
segment in memory. -/
def BuildsImage (fw : Firmware) (ram : ByteMemory) : Prop :=
  (∃ kernel, loadFile fw = some kernel ∧ kernel ≠ NULL) ∧
    ∃ s, loadProgram fw (headerOf fw) ram = some s ∧
      ∀ ph, ph ∈ loadable fw.file → HoldsImage fw.file s.ram ph

/-- The bytes of a segment behind its file contents are zero. -/
def ZeroTail (ram : ByteMemory) (ph : Elf64Phdr) : Prop :=
  ∀ k, ph.pFilesz.toNat ≤ k → k < ph.pMemsz.toNat →
    ram.bytes (ph.pPaddr + UInt64.ofNat k) = 0

/-! ## What the firmware delivers -/

theorem data_delivered (file : List UInt8) (position size : UInt64) :
    delivered.data file position size = (file.drop position.toNat).take size.toNat := by
  simp [delivered, ReadAnswer.data]

theorem length_data_delivered {file : List UInt8} {position size : UInt64}
    (h : position.toNat + size.toNat ≤ file.length) :
    (delivered.data file position size).length = size.toNat := by
  rw [data_delivered, List.length_take, List.length_drop]
  omega

theorem getD_data_delivered {file : List UInt8} {position size : UInt64} {k : Nat}
    (hk : k < size.toNat) :
    (delivered.data file position size).getD k 0 = file.getD (position.toNat + k) 0 := by
  simp only [data_delivered, List.getD_eq_getElem?_getD, List.getElem?_take_of_lt hk,
    List.getElem?_drop]

theorem setPosition_success (position : UInt64) (s : State) :
    setPosition EFI_SUCCESS position s = { s with position := position } := by
  have hok : efiError EFI_SUCCESS = false := by decide
  simp [setPosition, hok]

section Loading

variable {fw : Firmware}

/-- The variable `header` holds the header of the file. -/
theorem headerOf_eq (hfile : WellFormed fw.file) (hfw : Delivers fw) :
    headerOf fw = .ofList fw.file := by
  have hsize : (UInt64.ofNat Elf64Ehdr.size).toNat = Elf64Ehdr.size := by decide
  have hlen : (fw.file.take Elf64Ehdr.size).length = Elf64Ehdr.size := by
    rw [List.length_take]
    exact Nat.min_eq_left hfile.size
  rw [headerOf, hfw.readHeader, data_delivered, hsize]
  apply Elf64Ehdr.ofList_congr
  intro i hi
  rw [show (0 : UInt64).toNat = 0 from rfl, List.drop_zero]
  simp only [List.getD_eq_getElem?_getD]
  rw [List.getElem?_append_left (by rw [hlen]; exact hi), List.getElem?_take_of_lt hi]

/-- The rounds of the loop are the entries of the table. -/
theorem rounds_eq (hfile : WellFormed fw.file) :
    rounds (.ofList fw.file) = (Elf64Ehdr.ofList fw.file).ePhnum.toNat := by
  rw [rounds, if_neg]
  intro hzero
  have hstride := hfile.stride
  rw [hzero] at hstride
  exact absurd hstride (by decide)

/-- A firmware that delivers opens the file. -/
theorem loadFile_eq (hfw : Delivers fw) : loadFile fw = some fw.loadedFile := by
  rw [loadFile, if_neg hfw.loadedImage, if_neg hfw.root, if_neg (not_not_intro hfw.openStatus)]

/-- The segments are loaded, unless the size of the table overflows. -/
theorem loadProgram_eq (hfile : WellFormed fw.file) (hfw : Delivers fw) (ram : ByteMemory) :
    loadProgram fw (headerOf fw) ram = if tableBytes fw.file < 2 ^ 31 then
      some (loadSegments fw (.ofList fw.file)
        (readTable fw (.ofList fw.file) (UInt64.ofNat (tableBytes fw.file)) ram))
      else none := by
  have hsize : tableSize (.ofList fw.file) = if tableBytes fw.file < 2 ^ 31 then
      some (UInt64.ofNat (tableBytes fw.file)) else none := rfl
  rw [loadProgram, headerOf_eq hfile hfw, hsize]
  by_cases h : tableBytes fw.file < 2 ^ 31
  · rw [if_pos h, if_pos h, Option.map_some]
  · rw [if_neg h, if_neg h, Option.map_none]

theorem tableBytes_lt (file : List UInt8) : tableBytes file < 2 ^ 32 := by
  have hnum := (Elf64Ehdr.ofList file).ePhnum.toNat_lt
  have hsize := (Elf64Ehdr.ofList file).ePhentsize.toNat_lt
  have hmul := Nat.mul_le_mul (Nat.le_of_lt_succ hnum) (Nat.le_of_lt_succ hsize)
  unfold tableBytes
  omega

/-- The memory before the loop: the table is in the pool buffer. -/
theorem ram_readTable (hfw : Delivers fw) (ram : ByteMemory) :
    (readTable fw (.ofList fw.file) (UInt64.ofNat (tableBytes fw.file)) ram).ram =
      ram.store fw.phdrs
        ((fw.file.drop (Elf64Ehdr.ofList fw.file).ePhoff.toNat).take (tableBytes fw.file)) := by
  have hlt := tableBytes_lt fw.file
  simp only [readTable, hfw.seekTable, setPosition_success, read, hfw.readTable, data_delivered]
  rw [ofNat_toNat_of_lt (by omega)]

/-! ## The loop -/

/-- Entry `i` of the table is a loadable segment. -/
def Loadable (file : List UInt8) (i : Nat) : Prop := (headerAt file i).pType = PT_LOAD

theorem mem_loadable {file : List UInt8} {i : Nat}
    (hi : i < (Elf64Ehdr.ofList file).ePhnum.toNat) (hload : Loadable file i) :
    headerAt file i ∈ loadable file := by
  unfold Loadable at hload
  simp only [loadable, List.mem_filter, List.mem_map, List.mem_range, hload, decide_true,
    and_true]
  exact ⟨i, hi, rfl⟩

theorem exists_of_mem_loadable {file : List UInt8} {ph : Elf64Phdr} (h : ph ∈ loadable file) :
    ∃ i, i < (Elf64Ehdr.ofList file).ePhnum.toNat ∧ Loadable file i ∧ headerAt file i = ph := by
  simp only [loadable, List.mem_filter, List.mem_map, List.mem_range, decide_eq_true_eq] at h
  rcases h with ⟨⟨i, hi, heq⟩, htype⟩
  exact ⟨i, hi, by rw [Loadable, heq]; exact htype, heq⟩

/-- The pages of two loadable segments are apart. -/
theorem WellFormed.apart {file : List UInt8} (h : WellFormed file) {i j : Nat} (hij : i ≠ j)
    (hi : i < (Elf64Ehdr.ofList file).ePhnum.toNat) (hiload : Loadable file i)
    (hj : j < (Elf64Ehdr.ofList file).ePhnum.toNat) (hjload : Loadable file j) :
    Disjoint (headerAt file i).pPaddr (pageBytes (headerAt file i))
      (headerAt file j).pPaddr (pageBytes (headerAt file j)) := by
  have hpair := h.disjoint
  rw [loadable, List.pairwise_filter, List.pairwise_map] at hpair
  have hlt : ∀ {a b : Nat}, a < b → b < (Elf64Ehdr.ofList file).ePhnum.toNat →
      Loadable file a → Loadable file b →
      Disjoint (headerAt file a).pPaddr (pageBytes (headerAt file a))
        (headerAt file b).pPaddr (pageBytes (headerAt file b)) := by
    intro a b hab hb haload hbload
    have hrel := List.pairwise_iff_getElem.mp hpair a b (by rw [List.length_range]; omega)
      (by rw [List.length_range]; exact hb) hab
    simp only [List.getElem_range] at hrel
    exact hrel (decide_eq_true haload) (decide_eq_true hbload)
  rcases Nat.lt_or_gt_of_ne hij with hlt' | hgt
  · exact hlt hlt' hj hiload hjload
  · exact (hlt hgt hi hjload hiload).symm

/-- A byte of a segment lies on its pages. -/
theorem inRange_pageBytes {ph : Elf64Phdr} {a : UInt64} (h : InRange ph.pPaddr ph.pMemsz.toNat a) :
    InRange ph.pPaddr (pageBytes ph) a := by
  apply inRange_mono h
  unfold pageBytes
  omega

/-- The memory after `i` rounds of the loop that started with `ram`: the file
bytes of the first segments are stored, and nothing else is changed. -/
structure Loaded (file : List UInt8) (ram : ByteMemory) (i : Nat) (ram' : ByteMemory) : Prop where
  outside : ∀ a, (∀ j, j < i → Loadable file j →
      ¬ InRange (headerAt file j).pPaddr (headerAt file j).pFilesz.toNat a) →
    ram'.bytes a = ram.bytes a
  inside : ∀ j, j < i → Loadable file j → ∀ k, k < (headerAt file j).pFilesz.toNat →
    ram'.bytes ((headerAt file j).pPaddr + UInt64.ofNat k) =
      file.getD ((headerAt file j).pOffset.toNat + k) 0

theorem Loaded.zero (file : List UInt8) (ram : ByteMemory) : Loaded file ram 0 ram where
  outside := fun _ _ => rfl
  inside := fun _ hj => absurd hj (Nat.not_lt_zero _)

/-- A round over an entry that is not loadable. -/
theorem Loaded.skip {file : List UInt8} {ram ram' : ByteMemory} {i : Nat}
    (h : Loaded file ram i ram') (hskip : ¬ Loadable file i) : Loaded file ram (i + 1) ram' where
  outside := by
    intro a ha
    apply h.outside
    intro j hj
    exact ha j (Nat.lt_succ_of_lt hj)
  inside := by
    intro j hj hload
    rcases Nat.lt_succ_iff_lt_or_eq.mp hj with hlt | heq
    · exact h.inside j hlt hload
    · subst heq
      exact absurd hload hskip

/-- A round over a loadable entry stores the file bytes of its segment. -/
theorem Loaded.store {file : List UInt8} (hfile : WellFormed file) {ram ram' : ByteMemory}
    {i : Nat} (h : Loaded file ram i ram') (hi : i < (Elf64Ehdr.ofList file).ePhnum.toNat)
    (hload : Loadable file i) {data : List UInt8}
    (hlen : data.length = (headerAt file i).pFilesz.toNat)
    (hdata : ∀ k, k < data.length →
      data.getD k 0 = file.getD ((headerAt file i).pOffset.toNat + k) 0) :
    Loaded file ram (i + 1) (ram'.store (headerAt file i).pPaddr data) where
  outside := by
    intro a ha
    have hmiss := ha i (Nat.lt_succ_self i) hload
    rw [← hlen] at hmiss
    rw [bytes_store_of_not_inRange _ hmiss]
    apply h.outside
    intro j hj
    exact ha j (Nat.lt_succ_of_lt hj)
  inside := by
    intro j hj hjload k hk
    have hk64 : k < 2 ^ 64 := Nat.lt_trans hk (headerAt file j).pFilesz.toNat_lt
    rcases Nat.lt_succ_iff_lt_or_eq.mp hj with hlt | heq
    · have hjnum := Nat.lt_trans hlt hi
      have hjsize := hfile.filesz _ (mem_loadable hjnum hjload)
      have hisize := hfile.filesz _ (mem_loadable hi hload)
      have hin : InRange (headerAt file j).pPaddr (headerAt file j).pMemsz.toNat
          ((headerAt file j).pPaddr + UInt64.ofNat k) :=
        (inRange_add_ofNat hk64).mpr (by omega)
      have hmiss : ¬ InRange (headerAt file i).pPaddr data.length
          ((headerAt file j).pPaddr + UInt64.ofNat k) := by
        intro hmem
        have hmem' := inRange_mono hmem (show data.length ≤ (headerAt file i).pMemsz.toNat by
          omega)
        exact hfile.apart (Nat.ne_of_lt hlt) hjnum hjload hi hload _ (inRange_pageBytes hin)
          (inRange_pageBytes hmem')
      rw [bytes_store_of_not_inRange _ hmiss]
      exact h.inside j hlt hjload k hk
    · subst heq
      rw [bytes_store_add _ _ (by omega) hk64]
      exact hdata k (by omega)

/-- The segments that are loaded miss the pool buffer, so a round reads its
entry of the table as the file has it. -/
theorem Loaded.read_phdrAt (hfile : WellFormed fw.file) (hfw : Delivers fw)
    {ram ram' : ByteMemory} {i : Nat}
    (h : Loaded fw.file (ram.store fw.phdrs
      ((fw.file.drop (Elf64Ehdr.ofList fw.file).ePhoff.toNat).take (tableBytes fw.file))) i ram')
    (hi : i < (Elf64Ehdr.ofList fw.file).ePhnum.toNat) :
    Elf64Phdr.read ram' (phdrAt fw.phdrs (.ofList fw.file) i) = headerAt fw.file i := by
  have hstride := hfile.stride
  have htable := hfile.table
  have hlt := tableBytes_lt fw.file
  apply Elf64Phdr.read_eq_ofList
  intro k hk
  have hoffset : i * (Elf64Ehdr.ofList fw.file).ePhentsize.toNat + k < tableBytes fw.file := by
    have hmul := Nat.mul_le_mul_right (Elf64Ehdr.ofList fw.file).ePhentsize.toNat
      (Nat.succ_le_of_lt hi)
    rw [Nat.succ_mul] at hmul
    unfold tableBytes
    omega
  have hin : InRange fw.phdrs (tableBytes fw.file) (fw.phdrs +
      UInt64.ofNat (i * (Elf64Ehdr.ofList fw.file).ePhentsize.toNat + k)) :=
    (inRange_add_ofNat (by omega)).mpr hoffset
  rw [phdrAt, add_ofNat_add_ofNat, h.outside, bytes_store_add _ _ _ (by omega)]
  · simp only [List.getD_eq_getElem?_getD, List.getElem?_take_of_lt hoffset, List.getElem?_drop,
      Nat.add_assoc]
  · rw [List.length_take, List.length_drop]
    omega
  · intro j hj hjload hmem
    have hjmem := mem_loadable (Nat.lt_trans hj hi) hjload
    exact hfw.freePages _ hjmem _ hin
      (inRange_pageBytes (inRange_mono hmem (hfile.filesz _ hjmem)))

/-- What one round of the loop keeps. -/
theorem loaded_succ (hfile : WellFormed fw.file) (hfw : Delivers fw) {ram : ByteMemory}
    {s : State} {i : Nat}
    (h : Loaded fw.file (ram.store fw.phdrs
      ((fw.file.drop (Elf64Ehdr.ofList fw.file).ePhoff.toNat).take (tableBytes fw.file))) i s.ram)
    (hi : i < (Elf64Ehdr.ofList fw.file).ePhnum.toNat) :
    Loaded fw.file (ram.store fw.phdrs
      ((fw.file.drop (Elf64Ehdr.ofList fw.file).ePhoff.toNat).take (tableBytes fw.file))) (i + 1)
      (loadSegment fw (.ofList fw.file) i s).ram := by
  simp only [loadSegment, h.read_phdrAt hfile hfw hi]
  by_cases hload : (headerAt fw.file i).pType = PT_LOAD
  · rw [if_pos hload, hfw.seekSegment, setPosition_success, hfw.readSegment]
    have hsize := hfile.contents _ (mem_loadable hi hload)
    have hlen := length_data_delivered hsize
    apply h.store hfile hi hload hlen
    intro k hk
    exact getD_data_delivered (by omega)
  · rw [if_neg hload]
    exact h.skip hload

/-- What the whole loop leaves. -/
theorem loaded_loadSegments (hfile : WellFormed fw.file) (hfw : Delivers fw)
    (ram : ByteMemory) :
    Loaded fw.file (ram.store fw.phdrs
        ((fw.file.drop (Elf64Ehdr.ofList fw.file).ePhoff.toNat).take (tableBytes fw.file)))
      (Elf64Ehdr.ofList fw.file).ePhnum.toNat
      (loadSegments fw (.ofList fw.file)
        (readTable fw (.ofList fw.file) (UInt64.ofNat (tableBytes fw.file)) ram)).ram := by
  rw [loadSegments, rounds_eq hfile]
  apply forUpto_induct (fun i (s : State) => Loaded fw.file (ram.store fw.phdrs
    ((fw.file.drop (Elf64Ehdr.ofList fw.file).ePhoff.toNat).take (tableBytes fw.file))) i s.ram)
  · rw [ram_readTable hfw]
    exact Loaded.zero _ _
  · intro i s hi h
    exact loaded_succ hfile hfw h hi

/-- The loop changes no byte of a segment behind its file contents. -/
theorem bytes_tail (hfile : WellFormed fw.file) (hfw : Delivers fw) {ram ram' : ByteMemory}
    (h : Loaded fw.file (ram.store fw.phdrs
      ((fw.file.drop (Elf64Ehdr.ofList fw.file).ePhoff.toNat).take (tableBytes fw.file)))
      (Elf64Ehdr.ofList fw.file).ePhnum.toNat ram')
    {ph : Elf64Phdr} (hph : ph ∈ loadable fw.file) {k : Nat} (hfilesz : ph.pFilesz.toNat ≤ k)
    (hmemsz : k < ph.pMemsz.toNat) :
    ram'.bytes (ph.pPaddr + UInt64.ofNat k) = ram.bytes (ph.pPaddr + UInt64.ofNat k) := by
  have hk64 : k < 2 ^ 64 := Nat.lt_trans hmemsz ph.pMemsz.toNat_lt
  have hin : InRange ph.pPaddr (pageBytes ph) (ph.pPaddr + UInt64.ofNat k) :=
    inRange_pageBytes ((inRange_add_ofNat hk64).mpr hmemsz)
  have htable := hfw.freePages ph hph
  rw [h.outside, bytes_store_of_not_inRange]
  · intro hmem
    exact htable _ (inRange_mono hmem (by rw [List.length_take]; omega)) hin
  · rcases exists_of_mem_loadable hph with ⟨i, hi, hload, heq⟩
    subst heq
    intro j hj hjload hmem
    by_cases hij : j = i
    · subst hij
      have hlt := (inRange_add_ofNat hk64).mp hmem
      omega
    · exact hfile.apart hij hj hjload hi hload _
        (inRange_pageBytes (inRange_mono hmem (hfile.filesz _ (mem_loadable hj hjload)))) hin

end Loading

/-! ## The image is built exactly when the tails were zero -/

/-- For a well-formed file, and a firmware that delivers, the loop builds the
image of every segment exactly when the product `e_phnum * e_phentsize` does
not overflow and the memory behind the file contents of every segment was zero
before. -/
theorem buildsImage_iff (fw : Firmware) (ram : ByteMemory) (hfile : WellFormed fw.file)
    (hfw : Delivers fw) :
    BuildsImage fw ram ↔
      tableBytes fw.file < 2 ^ 31 ∧ ∀ ph, ph ∈ loadable fw.file → ZeroTail ram ph := by
  have hrun := loadProgram_eq hfile hfw ram
  have hloaded := loaded_loadSegments hfile hfw ram
  constructor
  · intro hbuilds
    rcases hbuilds with ⟨_, s, hs, himage⟩
    by_cases hsize : tableBytes fw.file < 2 ^ 31
    · rw [hrun, if_pos hsize] at hs
      have hfinal := Option.some.inj hs
      subst hfinal
      refine ⟨hsize, ?_⟩
      intro ph hph k hfilesz hmemsz
      rw [← bytes_tail hfile hfw hloaded hph hfilesz hmemsz]
      exact (himage ph hph).zeros k hfilesz hmemsz
    · rw [hrun, if_neg hsize] at hs
      exact absurd hs (by simp)
  · intro hcond
    rw [BuildsImage, hrun, if_pos hcond.1]
    refine ⟨⟨fw.loadedFile, loadFile_eq hfw, hfw.loadedFile⟩, _, rfl, ?_⟩
    intro ph hph
    constructor
    · rcases exists_of_mem_loadable hph with ⟨i, hi, hload, heq⟩
      subst heq
      exact hloaded.inside i hi hload
    · intro k hfilesz hmemsz
      rw [bytes_tail hfile hfw hloaded hph hfilesz hmemsz]
      exact hcond.2 ph hph k hfilesz hmemsz

/-! ## A kernel with one zero-initialised byte -/

/-- An ELF64 file with one loadable segment at 1 MiB, with one byte in the file
and two in memory. -/
def sampleFile : List UInt8 :=
  [0x7f, 0x45, 0x4c, 0x46, 2, 1, 1, 0, 0, 0, 0, 0, 0, 0, 0, 0] ++
  [2, 0, 62, 0, 1, 0, 0, 0] ++ [0, 0, 0x10, 0, 0, 0, 0, 0] ++ [64, 0, 0, 0, 0, 0, 0, 0] ++
  [0, 0, 0, 0, 0, 0, 0, 0] ++ [0, 0, 0, 0, 64, 0, 56, 0, 1, 0, 0, 0, 0, 0, 0, 0] ++
  [1, 0, 0, 0, 7, 0, 0, 0] ++ [120, 0, 0, 0, 0, 0, 0, 0] ++ [0, 0, 0x10, 0, 0, 0, 0, 0] ++
  [0, 0, 0x10, 0, 0, 0, 0, 0] ++ [1, 0, 0, 0, 0, 0, 0, 0] ++ [2, 0, 0, 0, 0, 0, 0, 0] ++
  [0, 0x10, 0, 0, 0, 0, 0, 0] ++ [0xc3]

/-- A firmware that delivers a file, with the table at 64 KiB.  Its `GetInfo`
fails. -/
def deliver (file : List UInt8) : Firmware where
  file := file
  loadedImage := 0x1000
  root := 0x2000
  openStatus := EFI_SUCCESS
  loadedFile := 0x3000
  nullInfo := []
  fileInfo := []
  stack := []
  readHeader := delivered
  seekTable := EFI_SUCCESS
  phdrs := 0x10000
  readTable := delivered
  allocatePages := fun _ _ _ => EFI_SUCCESS
  seekSegment := fun _ => EFI_SUCCESS
  readSegment := fun _ => delivered
  locateProtocol := EFI_SUCCESS
  getMemoryMap := fun _ => EFI_SUCCESS

/-- The segment of `sampleFile`. -/
def samplePhdr : Elf64Phdr where
  pType := PT_LOAD
  pOffset := 120
  pPaddr := 0x100000
  pFilesz := 1
  pMemsz := 2

theorem loadable_sampleFile : loadable sampleFile = [samplePhdr] := by
  decide +kernel

theorem wellFormed_sampleFile : WellFormed sampleFile where
  size := by decide
  headerOk := ⟨by decide +kernel, by decide +kernel, by decide +kernel, by decide +kernel,
    by decide +kernel, by decide +kernel⟩
  stride := by decide +kernel
  table := by decide +kernel
  aligned := by rw [loadable_sampleFile]; decide
  filesz := by rw [loadable_sampleFile]; decide
  contents := by rw [loadable_sampleFile]; decide
  disjoint := by rw [loadable_sampleFile]; exact List.pairwise_singleton _ _

theorem delivers_sampleFile : Delivers (deliver sampleFile) where
  loadedImage := by decide
  root := by decide
  openStatus := rfl
  loadedFile := by decide
  readHeader := rfl
  seekTable := rfl
  readTable := rfl
  allocatePages := fun _ _ _ => rfl
  freePages := by
    intro ph hph
    rw [show (deliver sampleFile).file = sampleFile from rfl, loadable_sampleFile,
      List.mem_singleton] at hph
    subst hph
    apply disjoint_of_toNat_le
    · decide +kernel
    · decide +kernel
  seekSegment := fun _ => rfl
  readSegment := fun _ => rfl

/-- In a memory of zeros the image of the sample is built, and in a memory of
ones it is not. -/
theorem buildsImage_iff_sample :
    BuildsImage (deliver sampleFile) ⟨fun _ => 0⟩ ∧
      ¬ BuildsImage (deliver sampleFile) ⟨fun _ => 1⟩ := by
  constructor
  · rw [buildsImage_iff _ _ wellFormed_sampleFile delivers_sampleFile]
    exact ⟨by decide +kernel, fun _ _ _ _ _ => rfl⟩
  · rw [buildsImage_iff _ _ wellFormed_sampleFile delivers_sampleFile]
    intro h
    have hmem : samplePhdr ∈ loadable (deliver sampleFile).file := by
      rw [show (deliver sampleFile).file = sampleFile from rfl, loadable_sampleFile]
      exact List.mem_singleton_self _
    exact absurd (h.2 samplePhdr hmem 1 (by decide) (by decide)) (by decide)

/-- The second byte of the sample's segment keeps what the memory held. -/
theorem not_buildsImage_of_tail :
    WellFormed (deliver sampleFile).file ∧ Delivers (deliver sampleFile) ∧
      ¬ BuildsImage (deliver sampleFile) ⟨fun _ => 1⟩ := by
  refine ⟨wellFormed_sampleFile, delivers_sampleFile, ?_⟩
  intro hbuilds
  rcases hbuilds with ⟨_, s, hs, himage⟩
  have hmem : samplePhdr ∈ loadable (deliver sampleFile).file := by
    rw [show (deliver sampleFile).file = sampleFile from rfl, loadable_sampleFile]
    exact List.mem_singleton_self _
  have hzero := (himage samplePhdr hmem).zeros 1 (by decide) (by decide)
  have hbyte : (loadProgram (deliver sampleFile) (headerOf (deliver sampleFile))
      ⟨fun _ => 1⟩).map (fun s => s.ram.bytes 0x100001) = some 1 := by decide +kernel
  rw [hs] at hbyte
  have hone : s.ram.bytes 0x100001 = 1 := Option.some.inj hbyte
  rw [show samplePhdr.pPaddr + UInt64.ofNat 1 = 0x100001 from rfl, hone] at hzero
  exact absurd hzero (by decide)

end Uefi

end BbnOS
