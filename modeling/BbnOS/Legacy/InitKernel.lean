import Mathlib.Data.UInt
import Mathlib.Tactic.Common

/-!
# The segments of the legacy kernel

`InitKernel` of `loader.asm` and `Memcpy` of `lib.inc`, which bring the kernel image to
its addresses.  The loop copies the file part of every header that is not `PT_NULL`, and
nothing else: `placesSegments_iff` says for which images and which memory this is what
the image asks for.

The memory is flat, and what the loader itself needs while it copies lies apart from the
segments: its code and its stack are not part of the memory, and the page tables, which map
every address to itself, are not overwritten.  `Memcpy` ends with a load to `eax` that
nobody uses, which is left out.  `examined` and `stores` are histories: the headers
that the loop has looked at, and the addresses that it has stored to.
-/

namespace BbnOS

namespace Legacy

namespace InitKernel

/-! ## The code -/

def BaseOfKernelFilePhyAddr : UInt32 := 0x80000

abbrev Memory := UInt32 → UInt8

def word (mem : Memory) (a : UInt32) : UInt16 :=
  UInt16.ofNat ((mem a).toNat + 256 * (mem (a + 1)).toNat)

def dword (mem : Memory) (a : UInt32) : UInt32 :=
  UInt32.ofNat ((mem a).toNat + 256 * ((mem (a + 1)).toNat +
    256 * ((mem (a + 2)).toNat + 256 * (mem (a + 3)).toNat)))

structure Machine where
  mem : Memory
  examined : List UInt32
  stores : List UInt32

namespace Machine

/-- `.1` of `Memcpy`. -/
def copy : Nat → UInt32 → UInt32 → Machine → Machine
  | 0, _, _, s => s
  | ecx + 1, esi, edi, s =>
    let al := s.mem esi
    copy ecx (esi + 1) (edi + 1)
      { s with
        mem := fun a => if a = edi then al else s.mem a
        stores := s.stores ++ [edi] }

/-- `Memcpy`, with its arguments in the order of the stack. -/
def memcpy (edi esi ecx : UInt32) (s : Machine) : Machine := s.copy ecx.toNat esi edi

/-- `.Begin`, up to `.NoAction`. -/
def examine (esi : UInt32) (s : Machine) : Machine :=
  let s := { s with examined := s.examined ++ [esi] }
  if dword s.mem (esi + 0) = 0 then s
  else
    s.memcpy (dword s.mem (esi + 0x08)) (dword s.mem (esi + 0x04) + BaseOfKernelFilePhyAddr)
      (dword s.mem (esi + 0x10))

end Machine

/-- `.Begin`: a loop that starts with `ecx` zero has `2 ^ 32` rounds. -/
def beginLoop : Nat → UInt32 → UInt32 → Machine → Option Machine
  | 0, _, _, _ => none
  | fuel + 1, ecx, esi, s =>
    let s := s.examine esi
    if ecx - 1 = 0 then some s else beginLoop fuel (ecx - 1) (esi + 0x20) s

/-- `InitKernel`. -/
def initKernel (s : Machine) : Option Machine :=
  let ecx := (word s.mem (BaseOfKernelFilePhyAddr + 0x2C)).toUInt32
  let esi := dword s.mem (BaseOfKernelFilePhyAddr + 0x1C)
  let esi := esi + BaseOfKernelFilePhyAddr
  beginLoop (2 ^ 32) ecx esi s

/-! ## The image -/

def PT_NULL : UInt32 := 0

def PT_LOAD : UInt32 := 1

/-- A program header. -/
structure Header where
  p_type : UInt32
  p_offset : UInt32
  p_vaddr : UInt32
  p_filesz : UInt32
  p_memsz : UInt32
  deriving DecidableEq

namespace Header

/-- The header at an address. -/
def read (mem : Memory) (a : UInt32) : Header where
  p_type := dword mem (a + 0x00)
  p_offset := dword mem (a + 0x04)
  p_vaddr := dword mem (a + 0x08)
  p_filesz := dword mem (a + 0x10)
  p_memsz := dword mem (a + 0x14)

/-- The addresses that the file part of a segment goes to. -/
def InFile (h : Header) (a : UInt32) : Prop :=
  (a - h.p_vaddr).toNat < h.p_filesz.toNat

/-- The addresses of a segment. -/
def InSegment (h : Header) (a : UInt32) : Prop :=
  (a - h.p_vaddr).toNat < max h.p_filesz.toNat h.p_memsz.toNat

instance (h : Header) (a : UInt32) : Decidable (h.InFile a) :=
  inferInstanceAs (Decidable (_ < _))

instance (h : Header) (a : UInt32) : Decidable (h.InSegment a) :=
  inferInstanceAs (Decidable (_ < _))

/-- Where the image has the byte for an address. -/
def source (h : Header) (a : UInt32) : UInt32 :=
  h.p_offset + BaseOfKernelFilePhyAddr + (a - h.p_vaddr)

/-- The byte that a segment has at an address: from the file, or zero in the tail. -/
def byte (mem : Memory) (h : Header) (a : UInt32) : UInt8 :=
  if h.InFile a then mem (h.source a) else 0

end Header

def e_phoff (mem : Memory) : UInt32 := dword mem (BaseOfKernelFilePhyAddr + 0x1C)

def e_phentsize (mem : Memory) : Nat := (word mem (BaseOfKernelFilePhyAddr + 0x2A)).toNat

def e_phnum (mem : Memory) : Nat := (word mem (BaseOfKernelFilePhyAddr + 0x2C)).toNat

/-- The address of a program header. -/
def headerAddr (mem : Memory) (j : Nat) : UInt32 :=
  e_phoff mem + BaseOfKernelFilePhyAddr + UInt32.ofNat (e_phentsize mem * j)

/-- The addresses of the program headers. -/
def headerAddrs (mem : Memory) : List UInt32 :=
  (List.range (e_phnum mem)).map (headerAddr mem)

/-- The program headers. -/
def headers (mem : Memory) : List Header :=
  (headerAddrs mem).map (Header.read mem)

/-- The addresses of the loadable segments. -/
def InLoad (mem : Memory) (a : UInt32) : Prop :=
  ∃ h ∈ headers mem, h.p_type = PT_LOAD ∧ h.InSegment a

/-- The addresses of the file, which has `size` bytes. -/
def InImage (size : Nat) (a : UInt32) : Prop :=
  (a - BaseOfKernelFilePhyAddr).toNat < size

/-- A kernel image: its headers have 32 bytes, the header table and the file parts of the
segments lie in the file, and no loadable segment meets the file. -/
structure Image (size : Nat) (mem : Memory) : Prop where
  size_le : size ≤ 2 ^ 32
  phentsize : e_phentsize mem = 32
  table : (e_phoff mem).toNat + 32 * e_phnum mem ≤ size
  files : ∀ h ∈ headers mem, h.p_type ≠ PT_NULL → h.p_offset.toNat + h.p_filesz.toNat ≤ size
  apart : ∀ a, InLoad mem a → ¬ InImage size a

/-- `InitKernel` examines every header once, in order, stores to the loadable segments
only, and leaves in them what the image asks for. -/
def PlacesSegments (mem : Memory) : Prop :=
  ∃ s, initKernel { mem := mem, examined := [], stores := [] } = some s ∧
    s.examined = headerAddrs mem ∧
    (∀ a ∈ s.stores, InLoad mem a) ∧
    (∀ h ∈ headers mem, h.p_type = PT_LOAD → ∀ a, h.InSegment a → s.mem a = h.byte mem a) ∧
    ∀ a, ¬ InLoad mem a → s.mem a = mem a

/-! ## Bytes that several headers supply -/

/-- The headers, `PT_NULL` ones apart, whose file part covers an address. -/
def covering (hs : List Header) (a : UInt32) : List Header :=
  hs.filter fun h => h.p_type ≠ PT_NULL ∧ h.InFile a

/-- The byte of the last header that covers an address, and the byte before if there is
none. -/
def supplied (mem : Memory) (hs : List Header) (a : UInt32) : UInt8 :=
  match (covering hs a).getLast? with
  | some h => mem (h.source a)
  | none => mem a

/-! ## The copy -/

section Copy

variable {n : Nat} {esi edi : UInt32} {s : Machine}

/-- One address further on. -/
theorem toNat_sub_succ (a edi : UInt32) :
    (a - (edi + 1)).toNat = (2 ^ 32 - 1 + (a - edi).toNat) % 2 ^ 32 := by
  have ha := a.toNat_lt
  have hedi := edi.toNat_lt
  rw [UInt32.toNat_sub, UInt32.toNat_sub, UInt32.toNat_add, UInt32.toNat_one]
  omega

theorem toNat_sub_eq_zero {a edi : UInt32} : (a - edi).toNat = 0 ↔ a = edi := by
  rw [← UInt32.toNat_zero, UInt32.toNat_inj, UInt32.sub_eq_iff_eq_add, UInt32.zero_add]

theorem examined_copy : (s.copy n esi edi).examined = s.examined := by
  induction n generalizing esi edi s with
  | zero => rfl
  | succ n ih => rw [Machine.copy, ih]

/-- Where a copy stores. -/
theorem mem_stores_copy (hn : n ≤ 2 ^ 32) (a : UInt32) :
    a ∈ (s.copy n esi edi).stores ↔ a ∈ s.stores ∨ (a - edi).toNat < n := by
  induction n generalizing esi edi s with
  | zero => simp [Machine.copy]
  | succ n ih =>
    have hlt := (a - edi).toNat_lt
    have hzero := @toNat_sub_eq_zero a edi
    rw [Machine.copy, ih (by omega), toNat_sub_succ, List.mem_append, List.mem_singleton,
      or_assoc, ← hzero]
    refine or_congr_right ?_
    omega

/-- What a copy leaves, when it does not store to its source. -/
theorem mem_copy (hn : n ≤ 2 ^ 32)
    (hsep : ∀ a, (a - edi).toNat < n → ¬ (a - esi).toNat < n) (a : UInt32) :
    (s.copy n esi edi).mem a =
      if (a - edi).toNat < n then s.mem (esi + (a - edi)) else s.mem a := by
  induction n generalizing esi edi s with
  | zero => rfl
  | succ n ih =>
    have hlt := (a - edi).toNat_lt
    have hzero := @toNat_sub_eq_zero a edi
    have hsep' : ∀ b, (b - (edi + 1)).toNat < n → ¬ (b - (esi + 1)).toNat < n := by
      intro b hb hb'
      have hedi := (b - edi).toNat_lt
      have hesi := (b - esi).toNat_lt
      rw [toNat_sub_succ] at hb hb'
      exact hsep b (by omega) (by omega)
    have hself : (edi - edi).toNat < n + 1 := by
      rw [UInt32.sub_self, UInt32.toNat_zero]
      omega
    rw [Machine.copy, ih (by omega) hsep', toNat_sub_succ]
    dsimp only
    by_cases ha : a = edi
    · subst ha
      rw [if_pos rfl, if_pos hself, UInt32.sub_self, UInt32.add_zero, UInt32.toNat_zero,
        if_neg (by omega)]
    · have hpos : (a - edi).toNat ≠ 0 := fun h => ha (hzero.mp h)
      rw [if_neg ha]
      by_cases hin : (a - edi).toNat < n + 1
      · have haddr : esi + 1 + (a - (edi + 1)) = esi + (a - edi) := by
          rw [add_assoc, sub_add_eq_sub_sub, add_sub_cancel]
        -- the byte stored first is none of the source
        have hne : esi + (a - edi) ≠ edi := by
          intro heq
          have hsub : edi - esi = a - edi := sub_eq_iff_eq_add'.mpr heq.symm
          exact hsep edi hself (by rwa [hsub])
        rw [if_pos (by omega), if_pos hin, haddr, if_neg hne]
      · rw [if_neg (by omega), if_neg hin]

end Copy

/-! ## One header -/

/-- What a header makes of the machine. -/
def pass (h : Header) (s : Machine) : Machine :=
  if h.p_type = PT_NULL then s
  else s.memcpy h.p_vaddr (h.p_offset + BaseOfKernelFilePhyAddr) h.p_filesz

theorem examine_eq (esi : UInt32) (s : Machine) :
    s.examine esi =
      pass (Header.read s.mem esi) { s with examined := s.examined ++ [esi] } := rfl

theorem examined_pass (h : Header) (s : Machine) : (pass h s).examined = s.examined := by
  rw [pass]
  split
  · rfl
  · exact examined_copy

theorem mem_stores_pass {h : Header} {s : Machine} (htype : h.p_type ≠ PT_NULL) (a : UInt32) :
    a ∈ (pass h s).stores ↔ a ∈ s.stores ∨ h.InFile a := by
  rw [pass, if_neg htype]
  exact mem_stores_copy (Nat.le_of_lt h.p_filesz.toNat_lt) a

theorem mem_stores_examine {esi : UInt32} {s : Machine} {a : UInt32} (ha : a ∈ s.stores) :
    a ∈ (s.examine esi).stores := by
  rw [examine_eq]
  by_cases htype : (Header.read s.mem esi).p_type = PT_NULL
  · rwa [pass, if_pos htype]
  · exact (mem_stores_pass htype a).mpr (Or.inl ha)

/-- The copies of a header go to loadable segments. -/
def Inside (mem : Memory) (h : Header) : Prop :=
  h.p_type ≠ PT_NULL → ∀ a, h.InFile a → InLoad mem a

theorem supplied_append (mem : Memory) (hs : List Header) (h : Header) (a : UInt32) :
    supplied mem (hs ++ [h]) a =
      if h.p_type ≠ PT_NULL ∧ h.InFile a then mem (h.source a) else supplied mem hs a := by
  have hsplit : covering (hs ++ [h]) a = covering hs a ++ covering [h] a :=
    List.filter_append hs [h]
  rw [supplied, hsplit]
  by_cases hcovers : h.p_type ≠ PT_NULL ∧ h.InFile a
  · have hone : covering [h] a = [h] :=
      List.filter_cons_of_pos (by simpa only [decide_eq_true_eq] using hcovers)
    rw [if_pos hcovers, hone, List.getLast?_concat]
  · have hone : covering [h] a = [] :=
      List.filter_cons_of_neg (by simpa only [decide_eq_true_eq] using hcovers)
    rw [if_neg hcovers, hone, List.append_nil, supplied]

/-- An address outside the loadable segments keeps its byte. -/
theorem supplied_of_not_inLoad {mem : Memory} {hs : List Header}
    (hinside : ∀ h ∈ hs, Inside mem h) {a : UInt32} (ha : ¬ InLoad mem a) :
    supplied mem hs a = mem a := by
  have hnone : covering hs a = [] := by
    rw [covering, List.filter_eq_nil_iff]
    intro h hh hcovers
    rw [decide_eq_true_eq] at hcovers
    exact ha (hinside h hh hcovers.1 a hcovers.2)
  rw [supplied, hnone, List.getLast?_nil]

/-- The headers `done` are passed, and their copies went to loadable segments. -/
structure Placed (mem : Memory) (done : List Header) (s : Machine) : Prop where
  bytes : ∀ a, s.mem a = supplied mem done a
  stores : ∀ a ∈ s.stores, InLoad mem a
  inside : ∀ h ∈ done, Inside mem h

section Pass

variable {size : Nat} {mem : Memory} {done : List Header} {s : Machine} {h : Header}

/-- The file is still as it was. -/
theorem Placed.image (him : Image size mem) (hs : Placed mem done s) {a : UInt32}
    (ha : InImage size a) : s.mem a = mem a := by
  rw [hs.bytes a, supplied_of_not_inLoad hs.inside fun hload => him.apart a hload ha]

/-- The sources of a header lie in the file. -/
theorem inImage_of_source (him : Image size mem) (hh : h ∈ headers mem)
    (htype : h.p_type ≠ PT_NULL) {a : UInt32}
    (ha : (a - (h.p_offset + BaseOfKernelFilePhyAddr)).toNat < h.p_filesz.toNat) :
    InImage size a := by
  have hfile := him.files h hh htype
  have hsize := him.size_le
  have hsub : a - BaseOfKernelFilePhyAddr =
      h.p_offset + (a - (h.p_offset + BaseOfKernelFilePhyAddr)) := by
    rw [sub_add_eq_sub_sub_swap, add_sub_cancel]
  rw [InImage, hsub, UInt32.toNat_add]
  omega

theorem placed_pass (him : Image size mem) (hs : Placed mem done s) (hh : h ∈ headers mem)
    (hinside : Inside mem h) : Placed mem (done ++ [h]) (pass h s) := by
  refine ⟨fun a => ?_, fun a ha => ?_, fun x hx => ?_⟩
  · rw [supplied_append, pass]
    by_cases htype : h.p_type = PT_NULL
    · rw [if_pos htype, if_neg fun hc => hc.1 htype, hs.bytes a]
    · have hsep : ∀ b, (b - h.p_vaddr).toNat < h.p_filesz.toNat →
          ¬ (b - (h.p_offset + BaseOfKernelFilePhyAddr)).toNat < h.p_filesz.toNat :=
        fun b hb hb' => him.apart b (hinside htype b hb) (inImage_of_source him hh htype hb')
      rw [if_neg htype, Machine.memcpy, mem_copy (Nat.le_of_lt h.p_filesz.toNat_lt) hsep]
      by_cases hfile : (a - h.p_vaddr).toNat < h.p_filesz.toNat
      · rw [if_pos hfile, if_pos ⟨htype, hfile⟩]
        refine hs.image him (inImage_of_source him hh htype ?_)
        rwa [add_sub_cancel_left]
      · rw [if_neg hfile, if_neg fun hc => hfile hc.2, hs.bytes a]
  · by_cases htype : h.p_type = PT_NULL
    · rw [pass, if_pos htype] at ha
      exact hs.stores a ha
    · rcases (mem_stores_pass htype a).mp ha with ha | ha
      · exact hs.stores a ha
      · exact hinside htype a ha
  · rcases List.mem_append.mp hx with hx | hx
    · exact hs.inside x hx
    · rwa [List.mem_singleton.mp hx]

end Pass

/-! ## The loop -/

theorem dword_congr {m m' : Memory} {a : UInt32}
    (h : ∀ i < 4, m' (a + UInt32.ofNat i) = m (a + UInt32.ofNat i)) : dword m' a = dword m a := by
  have h0 := h 0 (by omega)
  have h1 := h 1 (by omega)
  have h2 := h 2 (by omega)
  have h3 := h 3 (by omega)
  rw [show UInt32.ofNat 0 = 0 from rfl, UInt32.add_zero] at h0
  rw [dword, dword, h0]
  exact congrArg UInt32.ofNat (by rw [show (1 : UInt32) = UInt32.ofNat 1 from rfl, h1,
    show (2 : UInt32) = UInt32.ofNat 2 from rfl, h2, show (3 : UInt32) = UInt32.ofNat 3 from rfl,
    h3])

/-- A header read depends on its 32 bytes. -/
theorem read_congr {m m' : Memory} {a : UInt32}
    (h : ∀ i < 32, m' (a + UInt32.ofNat i) = m (a + UInt32.ofNat i)) :
    Header.read m' a = Header.read m a := by
  have hfield : ∀ k, k + 4 ≤ 32 → dword m' (a + UInt32.ofNat k) = dword m (a + UInt32.ofNat k) := by
    intro k hk
    refine dword_congr fun i hi => ?_
    rw [UInt32.add_assoc, ← UInt32.ofNat_add]
    exact h (k + i) (by omega)
  rw [Header.read, Header.read]
  congr 1
  · exact hfield 0x00 (by omega)
  · exact hfield 0x04 (by omega)
  · exact hfield 0x08 (by omega)
  · exact hfield 0x10 (by omega)
  · exact hfield 0x14 (by omega)

section Loop

variable {size : Nat} {mem : Memory} {s : Machine} {j : Nat}

theorem headers_getElem? (hj : j < e_phnum mem) :
    (headers mem)[j]? = some (Header.read mem (headerAddr mem j)) := by
  simp [headers, headerAddrs, hj]

theorem headerAddrs_getElem? (hj : j < e_phnum mem) :
    (headerAddrs mem)[j]? = some (headerAddr mem j) := by
  simp [headerAddrs, hj]

theorem headerAddr_succ (him : Image size mem) (j : Nat) :
    headerAddr mem j + 0x20 = headerAddr mem (j + 1) := by
  rw [headerAddr, headerAddr, him.phentsize, UInt32.add_assoc]
  exact congrArg _ (UInt32.ofNat_add (32 * j) 32).symm

/-- The header table lies in the file. -/
theorem inImage_headerAddr (him : Image size mem) (hj : j < e_phnum mem) {i : Nat}
    (hi : i < 32) : InImage size (headerAddr mem j + UInt32.ofNat i) := by
  have htable := him.table
  have hsize := him.size_le
  have hsub : headerAddr mem j + UInt32.ofNat i - BaseOfKernelFilePhyAddr =
      e_phoff mem + UInt32.ofNat (32 * j + i) := by
    rw [headerAddr, him.phentsize, UInt32.ofNat_add, add_right_comm (e_phoff mem),
      add_right_comm _ BaseOfKernelFilePhyAddr, add_sub_cancel_right, add_assoc]
  rw [InImage, hsub, UInt32.toNat_add, UInt32.toNat_ofNat', Nat.add_mod_mod,
    Nat.mod_eq_of_lt (by omega)]
  omega

/-- The round for header `j`. -/
theorem examine_headerAddr (him : Image size mem) (hs : Placed mem ((headers mem).take j) s)
    (hj : j < e_phnum mem) :
    s.examine (headerAddr mem j) = pass (Header.read mem (headerAddr mem j))
      { s with examined := s.examined ++ [headerAddr mem j] } := by
  have hread : Header.read s.mem (headerAddr mem j) = Header.read mem (headerAddr mem j) :=
    read_congr fun i hi => hs.image him (inImage_headerAddr him hj hi)
  rw [examine_eq, hread]

theorem placed_examine (him : Image size mem) (hs : Placed mem ((headers mem).take j) s)
    (hj : j < e_phnum mem) (hinside : Inside mem (Header.read mem (headerAddr mem j))) :
    Placed mem ((headers mem).take (j + 1)) (s.examine (headerAddr mem j)) := by
  have hget := headers_getElem? hj
  rw [examine_headerAddr him hs hj, List.take_add_one, hget, Option.toList_some]
  exact placed_pass him ⟨hs.bytes, hs.stores, hs.inside⟩ (List.mem_of_getElem? hget) hinside

theorem examined_examine (him : Image size mem) (hs : Placed mem ((headers mem).take j) s)
    (hexamined : s.examined = (headerAddrs mem).take j) (hj : j < e_phnum mem) :
    (s.examine (headerAddr mem j)).examined = (headerAddrs mem).take (j + 1) := by
  rw [examine_headerAddr him hs hj, examined_pass, List.take_add_one, headerAddrs_getElem? hj,
    Option.toList_some, hexamined]

theorem beginLoop_last {fuel : Nat} {ecx esi : UInt32} (hecx : ecx.toNat = 1) :
    beginLoop (fuel + 1) ecx esi s = some (s.examine esi) := by
  have hone : ecx = 1 := UInt32.toNat_inj.mp hecx
  subst hone
  rfl

theorem beginLoop_more (s : Machine) (fuel : Nat) (esi : UInt32) {ecx : UInt32} {m : Nat}
    (hecx : ecx.toNat = m + 2) :
    (ecx - 1).toNat = m + 1 ∧
      beginLoop (fuel + 1) ecx esi s = beginLoop fuel (ecx - 1) (esi + 0x20) (s.examine esi) := by
  have hone : (1 : UInt32).toNat = 1 := rfl
  have hpred : (ecx - 1).toNat = m + 1 := by
    rw [UInt32.toNat_sub_of_le _ _ (by rw [UInt32.le_iff_toNat_le]; omega), hecx, hone]
    omega
  refine ⟨hpred, if_neg fun hzero => ?_⟩
  rw [hzero, UInt32.toNat_zero] at hpred
  omega

/-- The loop with all copies inside the loadable segments.  By induction on the headers
left. -/
theorem beginLoop_placed (him : Image size mem) (hinside : ∀ h ∈ headers mem, Inside mem h)
    {m fuel : Nat} (hm : j + (m + 1) = e_phnum mem) (hfuel : m < fuel) {ecx : UInt32}
    (hecx : ecx.toNat = m + 1) (hs : Placed mem ((headers mem).take j) s)
    (hexamined : s.examined = (headerAddrs mem).take j) :
    ∃ s', beginLoop fuel ecx (headerAddr mem j) s = some s' ∧ Placed mem (headers mem) s' ∧
      s'.examined = headerAddrs mem := by
  induction m generalizing j fuel ecx s with
  | zero =>
    obtain ⟨fuel, rfl⟩ := Nat.exists_eq_succ_of_ne_zero (Nat.ne_of_gt hfuel)
    have hj : j < e_phnum mem := by omega
    have hin := hinside _ (List.mem_of_getElem? (headers_getElem? hj))
    have hplaced := placed_examine him hs hj hin
    have hall := examined_examine him hs hexamined hj
    have hlength : (headers mem).length = j + 1 := by simp [headers, headerAddrs, ← hm]
    have hlength' : (headerAddrs mem).length = j + 1 := by simp [headerAddrs, ← hm]
    rw [List.take_of_length_le (Nat.le_of_eq hlength)] at hplaced
    rw [List.take_of_length_le (Nat.le_of_eq hlength')] at hall
    exact ⟨_, beginLoop_last hecx, hplaced, hall⟩
  | succ m ih =>
    obtain ⟨fuel, rfl⟩ := Nat.exists_eq_succ_of_ne_zero (show fuel ≠ 0 by omega)
    have hj : j < e_phnum mem := by omega
    have hin := hinside _ (List.mem_of_getElem? (headers_getElem? hj))
    obtain ⟨hpred, hmore⟩ := beginLoop_more s fuel (headerAddr mem j) hecx
    rw [hmore, headerAddr_succ him]
    exact ih (by omega) (by omega) hpred (placed_examine him hs hj hin)
      (examined_examine him hs hexamined hj)

/-- The loop keeps the history of its stores, and examines a header in any case. -/
theorem beginLoop_keeps {fuel : Nat} {ecx esi : UInt32} {s' : Machine}
    (h : beginLoop fuel ecx esi s = some s') :
    (∀ a ∈ (s.examine esi).stores, a ∈ s'.stores) ∧ s'.examined ≠ [] := by
  induction fuel generalizing ecx esi s with
  | zero => cases h
  | succ fuel ih =>
    rw [beginLoop] at h
    by_cases hlast : ecx - 1 = 0
    · obtain rfl := Option.some.inj ((if_pos hlast).symm.trans h)
      refine ⟨fun a ha => ha, ?_⟩
      rw [examine_eq, examined_pass]
      exact List.concat_ne_nil esi s.examined
    · obtain ⟨hstores, hexamined⟩ := ih ((if_neg hlast).symm.trans h)
      exact ⟨fun a ha => hstores a (mem_stores_examine ha), hexamined⟩

/-- The header of a round whose stores lie in the loadable segments. -/
theorem inside_of_examine (him : Image size mem) (hs : Placed mem ((headers mem).take j) s)
    (hj : j < e_phnum mem)
    (hstores : ∀ a ∈ (s.examine (headerAddr mem j)).stores, InLoad mem a) :
    Inside mem (Header.read mem (headerAddr mem j)) := by
  intro htype a hfile
  refine hstores a ?_
  rw [examine_headerAddr him hs hj]
  exact (mem_stores_pass htype a).mpr (Or.inr hfile)

/-- A loop that stores to the loadable segments only.  By induction on the headers left:
as long as no copy strays, the file is as it was. -/
theorem inside_of_beginLoop (him : Image size mem) {m fuel : Nat} (hm : j + (m + 1) = e_phnum mem)
    {ecx : UInt32} (hecx : ecx.toNat = m + 1) (hs : Placed mem ((headers mem).take j) s)
    {s' : Machine} (hrun : beginLoop fuel ecx (headerAddr mem j) s = some s')
    (hstores : ∀ a ∈ s'.stores, InLoad mem a) {i : Nat} (hji : j ≤ i) (hi : i < e_phnum mem) :
    Inside mem (Header.read mem (headerAddr mem i)) := by
  induction m generalizing j fuel ecx s with
  | zero =>
    obtain rfl : i = j := by omega
    exact inside_of_examine him hs hi fun a ha => hstores a ((beginLoop_keeps hrun).1 a ha)
  | succ m ih =>
    have hj : j < e_phnum mem := by omega
    -- header `j` is read as it was in the file, so its copy shows where it goes
    have hin := inside_of_examine him hs hj fun a ha => hstores a ((beginLoop_keeps hrun).1 a ha)
    rcases Nat.eq_or_lt_of_le hji with rfl | hlt
    · exact hin
    · cases fuel with
      | zero => cases hrun
      | succ fuel =>
        obtain ⟨hpred, hmore⟩ := beginLoop_more s fuel (headerAddr mem j) hecx
        rw [hmore, headerAddr_succ him] at hrun
        exact ih (by omega) hpred (placed_examine him hs hj hin) hrun hlt

end Loop

/-! ## The whole routine -/

/-- There is a header, the copies of all headers go to loadable segments, and the last
header that covers a byte of one supplies what the image asks for. -/
structure Supplies (mem : Memory) : Prop where
  nonempty : e_phnum mem ≠ 0
  inside : ∀ h ∈ headers mem, h.p_type ≠ PT_NULL → ∀ a, h.InFile a → InLoad mem a
  bytes : ∀ h ∈ headers mem, h.p_type = PT_LOAD → ∀ a, h.InSegment a →
    supplied mem (headers mem) a = h.byte mem a

section Routine

variable {size : Nat} {mem : Memory}

theorem initKernel_eq (mem : Memory) :
    initKernel { mem := mem, examined := [], stores := [] } =
      beginLoop (2 ^ 32) (UInt32.ofNat (e_phnum mem)) (headerAddr mem 0)
        { mem := mem, examined := [], stores := [] } := by
  rw [headerAddr, Nat.mul_zero, show UInt32.ofNat 0 = 0 from rfl, UInt32.add_zero, e_phnum,
    UInt32.ofNat_uInt16ToNat]
  rfl

theorem toNat_e_phnum (mem : Memory) : (UInt32.ofNat (e_phnum mem)).toNat = e_phnum mem := by
  have hlt : e_phnum mem < 2 ^ 16 := UInt16.toNat_lt _
  exact UInt32.toNat_ofNat_of_lt' (Nat.lt_trans hlt (by decide))

theorem exists_header {h : Header} (hh : h ∈ headers mem) :
    ∃ i < e_phnum mem, h = Header.read mem (headerAddr mem i) := by
  obtain ⟨a, ha, rfl⟩ := List.mem_map.mp hh
  obtain ⟨i, hi, rfl⟩ := List.mem_map.mp ha
  exact ⟨i, List.mem_range.mp hi, rfl⟩

theorem placed_nil (mem : Memory) :
    Placed mem ((headers mem).take 0) { mem := mem, examined := [], stores := [] } :=
  ⟨fun _ => rfl, fun _ ha => absurd ha List.not_mem_nil, fun _ hh => absurd hh List.not_mem_nil⟩

/-- What the routine leaves, when all copies go to loadable segments. -/
theorem initKernel_placed (him : Image size mem) (hnum : e_phnum mem ≠ 0)
    (hinside : ∀ h ∈ headers mem, Inside mem h) :
    ∃ s, initKernel { mem := mem, examined := [], stores := [] } = some s ∧
      Placed mem (headers mem) s ∧ s.examined = headerAddrs mem := by
  have hlt : e_phnum mem < 2 ^ 16 := UInt16.toNat_lt _
  obtain ⟨m, hm⟩ := Nat.exists_eq_succ_of_ne_zero hnum
  have hfuel : m < 2 ^ 32 := by omega
  rw [initKernel_eq]
  exact beginLoop_placed him hinside (by omega) hfuel ((toNat_e_phnum mem).trans hm)
    (placed_nil mem) rfl

/-- `InitKernel` places the segments exactly if the image has a header, every header copies
to loadable segments only, and every byte of a loadable segment comes from the last header
that covers it. -/
theorem placesSegments_iff (him : Image size mem) : PlacesSegments mem ↔ Supplies mem := by
  constructor
  · rintro ⟨s, hrun, hexamined, hstores, hbytes, _⟩
    have hloop := (initKernel_eq mem).symm.trans hrun
    have hnum : e_phnum mem ≠ 0 := by
      intro hzero
      refine (beginLoop_keeps hloop).2 ?_
      rw [hexamined, headerAddrs, hzero, List.range_zero, List.map_nil]
    have hinside : ∀ h ∈ headers mem, Inside mem h := by
      intro h hh
      obtain ⟨i, hi, rfl⟩ := exists_header hh
      obtain ⟨m, hm⟩ := Nat.exists_eq_succ_of_ne_zero hnum
      exact inside_of_beginLoop him (by omega) ((toNat_e_phnum mem).trans hm) (placed_nil mem)
        hloop hstores (Nat.zero_le i) hi
    obtain ⟨s', hrun', hplaced, _⟩ := initKernel_placed him hnum hinside
    obtain rfl := Option.some.inj (hrun.symm.trans hrun')
    refine ⟨hnum, hinside, fun h hh hload a ha => ?_⟩
    rw [← hplaced.bytes a]
    exact hbytes h hh hload a ha
  · rintro ⟨hnum, hinside, hbytes⟩
    obtain ⟨s, hrun, hplaced, hexamined⟩ := initKernel_placed him hnum hinside
    refine ⟨s, hrun, hexamined, hplaced.stores, fun h hh hload a ha => ?_, fun a ha => ?_⟩
    · rw [hplaced.bytes a]
      exact hbytes h hh hload a ha
    · rw [hplaced.bytes a]
      exact supplied_of_not_inLoad hinside ha

end Routine

/-! ## One segment -/

/-- A kernel with one segment: 4 bytes from offset 84 go to `0x30400`, and 4 zeros follow. -/
def kernel : List UInt8 :=
  [0x7f, 0x45, 0x4c, 0x46, 1, 1, 1, 0, 0, 0, 0, 0, 0, 0, 0, 0,
    2, 0, 3, 0, 1, 0, 0, 0, 0, 4, 3, 0, 52, 0, 0, 0,
    0, 0, 0, 0, 0, 0, 0, 0, 52, 0, 32, 0, 1, 0, 0, 0, 0, 0, 0, 0,
    1, 0, 0, 0, 84, 0, 0, 0, 0, 4, 3, 0, 0, 4, 3, 0, 4, 0, 0, 0, 8, 0, 0, 0,
    7, 0, 0, 0, 0, 16, 0, 0, 0xfa, 0xeb, 0xfe, 0x90]

def segment : Header :=
  { p_type := 1, p_offset := 84, p_vaddr := 0x30400, p_filesz := 4, p_memsz := 8 }

/-- The memory with the kernel in it, and one value in all other bytes. -/
def loaded (rest : UInt8) : Memory := fun a =>
  if (a - BaseOfKernelFilePhyAddr).toNat < 88 then
    kernel.getD (a - BaseOfKernelFilePhyAddr).toNat 0
  else rest

section Loaded

variable {rest : UInt8}

theorem headers_loaded (hrest : rest ∈ [0, 0xff]) : headers (loaded rest) = [segment] := by
  revert rest
  decide +kernel

theorem table_loaded (hrest : rest ∈ [0, 0xff]) :
    e_phentsize (loaded rest) = 32 ∧
      (e_phoff (loaded rest)).toNat + 32 * e_phnum (loaded rest) ≤ 88 ∧
      e_phnum (loaded rest) ≠ 0 := by
  revert rest
  decide +kernel

theorem inLoad_loaded (hrest : rest ∈ [0, 0xff]) (a : UInt32) :
    InLoad (loaded rest) a ↔ (a - 0x30400).toNat < 8 := by
  rw [InLoad, headers_loaded hrest]
  constructor
  · rintro ⟨h, hh, _, ha⟩
    rw [List.mem_singleton.mp hh] at ha
    exact ha
  · intro ha
    exact ⟨segment, List.mem_singleton_self segment, rfl, ha⟩

theorem image_loaded (hrest : rest ∈ [0, 0xff]) : Image 88 (loaded rest) := by
  obtain ⟨hsize, htable, _⟩ := table_loaded hrest
  refine ⟨by omega, hsize, htable, fun h hh _ => ?_, fun a ha himage => ?_⟩
  · rw [headers_loaded hrest] at hh
    rw [List.mem_singleton.mp hh]
    decide
  · rw [inLoad_loaded hrest] at ha
    rw [InImage, BaseOfKernelFilePhyAddr] at himage
    have hlt := a.toNat_lt
    have hvaddr : (0x30400 : UInt32).toNat = 0x30400 := rfl
    have hbase : (0x80000 : UInt32).toNat = 0x80000 := rfl
    rw [UInt32.toNat_sub] at ha himage
    omega

theorem inside_loaded (hrest : rest ∈ [0, 0xff]) :
    ∀ h ∈ headers (loaded rest), Inside (loaded rest) h := by
  intro h hh _ a ha
  rw [headers_loaded hrest] at hh
  rw [List.mem_singleton.mp hh] at ha
  rw [inLoad_loaded hrest]
  exact Nat.lt_trans ha (by decide)

end Loaded

theorem placesSegments_loaded : PlacesSegments (loaded 0) := by
  have hrest : (0 : UInt8) ∈ [0, 0xff] := List.mem_cons_self
  refine (placesSegments_iff (image_loaded hrest)).mpr
    ⟨(table_loaded hrest).2.2, inside_loaded hrest, fun h hh _ a ha => ?_⟩
  rw [headers_loaded hrest] at hh ⊢
  rw [List.mem_singleton.mp hh] at ha ⊢
  have hlast := supplied_append (loaded 0) [] segment a
  rw [List.nil_append] at hlast
  rw [hlast, Header.byte]
  by_cases hfile : segment.InFile a
  · rw [if_pos ⟨by decide, hfile⟩, if_pos hfile]
  · rw [if_neg fun hc => hfile hc.2, if_neg hfile]
    exact if_neg ((image_loaded hrest).apart a ((inLoad_loaded hrest a).mpr ha))

theorem not_placesSegments_loaded :
    Image 88 (loaded 0xff) ∧ ¬ PlacesSegments (loaded 0xff) := by
  have hrest : (0xff : UInt8) ∈ [0, 0xff] := by decide
  refine ⟨image_loaded hrest, ?_⟩
  rintro ⟨s, hrun, _, _, hbytes, _⟩
  obtain ⟨s', hrun', hplaced, _⟩ :=
    initKernel_placed (image_loaded hrest) (table_loaded hrest).2.2 (inside_loaded hrest)
  obtain rfl := Option.some.inj (hrun.symm.trans hrun')
  have hmem : segment ∈ headers (loaded 0xff) := by
    rw [headers_loaded hrest]
    exact List.mem_singleton_self segment
  have hzero := hbytes segment hmem rfl 0x30404 (by decide)
  rw [hplaced.bytes, headers_loaded hrest] at hzero
  exact absurd hzero (by decide +kernel)

end InitKernel

end Legacy

end BbnOS
