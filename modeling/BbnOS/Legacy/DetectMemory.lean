import Mathlib.Data.List.GetD
import Mathlib.Data.UInt
import Mathlib.Tactic.Common

/-!
# The memory map of the BIOS

`DetectMemory` of `loader.asm` asks INT 15h, function E820h, for one entry after the
other.  Each call writes its entry at `es:di`, and `di` moves on when the entry is
accepted.

The BIOS is a list of responses, one for each call.  Offsets in the segment `es` are
counted from `MemChkBuf`.  `stores` is a history of the offsets that were stored to.
`MemNum` lies behind the buffer and is a variable of its own: a run says nothing about it
after the first store behind the buffer.
-/

namespace BbnOS

namespace Legacy

namespace E820

/-- `"SMAP"`. -/
def SMAP : UInt32 := 0x534D4150

/-- The bytes of `MemChkBuf`. -/
def bufferSize : Nat := 512

/-- What a call of INT 15h leaves: the carry flag, the registers, and the bytes it
writes at `es:di`. -/
structure Response where
  carry : Bool
  eax : UInt32
  ebx : UInt32
  ecx : UInt32
  data : List UInt8

structure Machine where
  ebx : UInt32
  ecx : UInt32
  di : UInt16
  memNum : UInt32
  mem : UInt16 → UInt8
  stores : List UInt16

namespace Machine

/-- Store bytes from an offset of `es` up. -/
def store (off : UInt16) (bytes : List UInt8) (s : Machine) : Machine :=
  { s with
    mem := fun a => bytes.getD (a - off).toNat (s.mem a)
    stores := s.stores ++ (List.range bytes.length).map fun k => off + UInt16.ofNat k }

/-- The double word at an offset of `es`. -/
def dword (off : UInt16) (s : Machine) : UInt32 :=
  UInt32.ofNat ((s.mem off).toNat + 256 * ((s.mem (off + 1)).toNat +
    256 * ((s.mem (off + 2)).toNat + 256 * (s.mem (off + 3)).toNat)))

/-- The forced ACPI attributes, and INT 15h. -/
def int15 (r : Response) (s : Machine) : Machine :=
  let s := s.store (s.di + 20) [1, 0, 0, 0]
  let s := s.store s.di r.data
  { s with ebx := r.ebx, ecx := r.ecx }

/-- `.jmpin` and `.notext`, up to `.skipent`. -/
def jmpin (s : Machine) : Machine :=
  if s.ecx.toUInt16 = 0 then s
  -- a 24-byte entry whose bit is clear is to be ignored
  else if 20 < s.ecx.toUInt8 ∧ s.mem (s.di + 20) &&& 1 = 0 then s
  else
    let s : Machine := { s with ecx := s.dword (s.di + 8) }
    let s := { s with ecx := s.ecx ||| s.dword (s.di + 12) }
    if s.ecx = 0 then s else { s with memNum := s.memNum + 1, di := s.di + 24 }

end Machine

/-- `.e8201p`: one call after the other. -/
def e8201p : List Response → Machine → Option Machine
  | [], _ => none
  | r :: rs, s =>
    let s := s.int15 r
    if r.carry then some s
    else
      let s := s.jmpin
      if s.ebx = 0 then some s else e8201p rs s

/-- `DetectMemory`.  A first call that fails does not return. -/
def detectMemory (rs : List Response) (s : Machine) : Option Machine :=
  match rs with
  | [] => none
  | r :: rs =>
    let s : Machine := { s with di := 0, memNum := 0 }
    let s := s.int15 r
    if r.carry ∨ r.eax ≠ SMAP ∨ s.ebx = 0 then none
    else
      let s := s.jmpin
      if s.ebx = 0 then some s else e8201p rs s

/-! ## What the routine is for -/

namespace Response

/-- What the BIOS may answer: at most the 24 bytes it was asked for, and of an entry its
20 or 24 bytes. -/
structure Valid (r : Response) : Prop where
  length_le : r.data.length ≤ 24
  ecx_eq : r.carry = false →
    r.ecx = 0 ∨ (r.ecx = 20 ∨ r.ecx = 24) ∧ r.data.length = r.ecx.toNat

/-- An entry with a length, and not marked to be ignored. -/
def Usable (r : Response) : Prop :=
  r.carry = false ∧ r.ecx ≠ 0 ∧ ¬ (r.ecx = 24 ∧ r.data.getD 20 0 &&& 1 = 0) ∧
    ¬ ∀ i < 8, r.data.getD (8 + i) 0 = 0

instance (r : Response) : Decidable r.Usable := by
  unfold Usable
  infer_instance

/-- The 24 bytes of an entry.  The attributes of a short one are 1. -/
def record (r : Response) : List UInt8 :=
  r.data ++ [1, 0, 0, 0].drop (r.data.length - 20)

end Response

/-- The last response, and no other, ends the list. -/
def Ends : List Response → Prop
  | [] => False
  | [r] => r.carry = true ∨ r.ebx = 0
  | r :: rs => (r.carry = false ∧ r.ebx ≠ 0) ∧ Ends rs

/-- The responses of a BIOS that has more than one entry. -/
structure Transcript where
  responses : List Response
  valid : ∀ r ∈ responses, r.Valid
  ends : Ends responses
  supported : ∀ r, responses.head? = some r →
    r.carry = false ∧ r.eax = SMAP ∧ r.ebx ≠ 0

/-- `DetectMemory` has recorded the entries `rs`, and has stored to the buffer only. -/
structure Recorded (rs : List Response) (s : Machine) : Prop where
  memNum : s.memNum.toNat = rs.length
  mem : ∀ k < 24 * rs.length,
    s.mem (UInt16.ofNat k) = (rs.flatMap Response.record).getD k 0
  stores : ∀ a ∈ s.stores, a.toNat < bufferSize

/-- `DetectMemory` returns with the usable entries recorded. -/
def DetectsMemory (t : Transcript) (s : Machine) : Prop :=
  ∃ s', detectMemory t.responses { s with stores := [] } = some s' ∧
    Recorded (t.responses.filter fun r => r.Usable) s'

/-! ## One call -/

namespace Machine

theorem toNat_ofNat16 {k : Nat} (hk : k < 65536) : (UInt16.ofNat k).toNat = k :=
  UInt16.toNat_ofNat_of_lt' hk

/-- A store reads back inside, and keeps the bytes outside. -/
theorem mem_store (s : Machine) {bytes : List UInt8} {i k : Nat}
    (hi : i + bytes.length ≤ 65536) (hk : k < 65536) :
    (s.store (UInt16.ofNat i) bytes).mem (UInt16.ofNat k) =
      if i ≤ k ∧ k < i + bytes.length then bytes.getD (k - i) 0
      else s.mem (UInt16.ofNat k) := by
  by_cases hempty : bytes = []
  · subst hempty
    rw [if_neg (by simp)]
    rfl
  · have hpos : 0 < bytes.length := List.length_pos_iff.mpr hempty
    have hsub : (UInt16.ofNat k - UInt16.ofNat i).toNat = (65536 - i + k) % 65536 := by
      rw [UInt16.toNat_sub, toNat_ofNat16 hk, toNat_ofNat16 (by omega)]
    rw [store]
    dsimp only
    rw [hsub]
    by_cases hin : i ≤ k ∧ k < i + bytes.length
    · have hoff : (65536 - i + k) % 65536 = k - i := by omega
      rw [if_pos hin, hoff, List.getD_eq_getElem?_getD, List.getD_eq_getElem?_getD,
        List.getElem?_eq_getElem (by omega)]
      rfl
    · rw [if_neg hin, List.getD_eq_getElem?_getD, List.getElem?_eq_none (by omega)]
      rfl

/-- Where a store stores. -/
theorem mem_stores_store (s : Machine) {bytes : List UInt8} {i : Nat}
    (hi : i + bytes.length ≤ 65536) (a : UInt16) :
    a ∈ (s.store (UInt16.ofNat i) bytes).stores ↔
      a ∈ s.stores ∨ i ≤ a.toNat ∧ a.toNat < i + bytes.length := by
  rw [store]
  simp only [List.mem_append, List.mem_map, List.mem_range]
  refine or_congr_right ⟨?_, ?_⟩
  · rintro ⟨k, hk, rfl⟩
    rw [← UInt16.ofNat_add, toNat_ofNat16 (by omega)]
    omega
  · rintro ⟨hle, hlt⟩
    refine ⟨a.toNat - i, by omega, ?_⟩
    rw [← UInt16.ofNat_add, show i + (a.toNat - i) = a.toNat by omega, UInt16.ofNat_toNat]

theorem dword_eq_zero (s : Machine) (off : UInt16) :
    s.dword off = 0 ↔ ∀ i < 4, s.mem (off + UInt16.ofNat i) = 0 := by
  have h0 := (s.mem off).toNat_lt
  have h1 := (s.mem (off + 1)).toNat_lt
  have h2 := (s.mem (off + 2)).toNat_lt
  have h3 := (s.mem (off + 3)).toNat_lt
  have hsize : UInt32.size = 4294967296 := rfl
  have hzero : (∀ i < 4, s.mem (off + UInt16.ofNat i) = 0) ↔
      s.mem off = 0 ∧ s.mem (off + 1) = 0 ∧ s.mem (off + 2) = 0 ∧ s.mem (off + 3) = 0 := by
    constructor
    · intro h
      exact ⟨by simpa using h 0 (by omega), h 1 (by omega), h 2 (by omega), h 3 (by omega)⟩
    · rintro ⟨g0, g1, g2, g3⟩ i hi
      obtain rfl | rfl | rfl | rfl : i = 0 ∨ i = 1 ∨ i = 2 ∨ i = 3 := by omega
      · simpa using g0
      · exact g1
      · exact g2
      · exact g3
  rw [hzero, dword, ← UInt32.toNat_inj, UInt32.toNat_ofNat_of_lt' (by omega)]
  simp only [← UInt8.toNat_inj, UInt8.toNat_zero, UInt32.toNat_zero]
  omega

/-! ### The call -/

section Call

variable {s : Machine} {r : Response} {n : Nat}

@[simp] theorem int15_di : (s.int15 r).di = s.di := rfl

@[simp] theorem int15_ebx : (s.int15 r).ebx = r.ebx := rfl

@[simp] theorem int15_ecx : (s.int15 r).ecx = r.ecx := rfl

@[simp] theorem int15_memNum : (s.int15 r).memNum = s.memNum := rfl

/-- The two stores of a call. -/
theorem int15_eq (r : Response) (hdi : s.di = UInt16.ofNat (24 * n)) :
    s.int15 r =
      let t := s.store (UInt16.ofNat (24 * n + 20)) [1, 0, 0, 0]
      { t.store (UInt16.ofNat (24 * n)) r.data with
        ebx := r.ebx
        ecx := r.ecx } := by
  have hforced : s.di + 20 = UInt16.ofNat (24 * n + 20) := by
    rw [hdi, UInt16.ofNat_add]
    rfl
  rw [int15, hforced, ← hdi]
  rfl

/-- The bytes after a call. -/
theorem mem_int15 (hdi : s.di = UInt16.ofNat (24 * n)) (hn : n ≤ 20)
    (hr : r.data.length ≤ 24) {k : Nat} (hk : k < 65536) :
    (s.int15 r).mem (UInt16.ofNat k) =
      if 24 * n ≤ k ∧ k < 24 * n + r.data.length then r.data.getD (k - 24 * n) 0
      else if 24 * n + 20 ≤ k ∧ k < 24 * n + 24 then
        ([1, 0, 0, 0] : List UInt8).getD (k - (24 * n + 20)) 0
      else s.mem (UInt16.ofNat k) := by
  rw [int15_eq r hdi]
  dsimp only
  rw [mem_store _ (by omega) hk, mem_store _ (by simp; omega) hk]
  rfl

theorem mem_stores_of_mem {a : UInt16} (ha : a ∈ s.stores) : a ∈ (s.int15 r).stores :=
  List.mem_append_left _ (List.mem_append_left _ ha)

/-- Where a call stores. -/
theorem mem_stores_int15 (hdi : s.di = UInt16.ofNat (24 * n)) (hn : n ≤ 21)
    (hr : r.data.length ≤ 24) (a : UInt16) :
    a ∈ (s.int15 r).stores ↔
      (a ∈ s.stores ∨ 24 * n + 20 ≤ a.toNat ∧ a.toNat < 24 * n + 24) ∨
        24 * n ≤ a.toNat ∧ a.toNat < 24 * n + r.data.length := by
  rw [int15_eq r hdi]
  dsimp only
  rw [mem_stores_store _ (by omega), mem_stores_store _ (by simp; omega)]
  rfl

/-! ### The entry -/

/-- The branches of `.jmpin` that lead to the count. -/
def Accepts (s : Machine) : Prop :=
  s.ecx.toUInt16 ≠ 0 ∧ ¬ (20 < s.ecx.toUInt8 ∧ s.mem (s.di + 20) &&& 1 = 0) ∧
    s.dword (s.di + 8) ||| s.dword (s.di + 12) ≠ 0

theorem jmpin_of_accepts (h : s.Accepts) :
    s.jmpin =
      { s with
        ecx := s.dword (s.di + 8) ||| s.dword (s.di + 12)
        memNum := s.memNum + 1
        di := s.di + 24 } := by
  rw [jmpin, if_neg h.1, if_neg h.2.1]
  exact if_neg h.2.2

theorem jmpin_of_not_accepts (h : ¬ s.Accepts) : ∃ ecx, s.jmpin = { s with ecx := ecx } := by
  rw [jmpin]
  by_cases hcx : s.ecx.toUInt16 = 0
  · exact ⟨s.ecx, if_pos hcx⟩
  · rw [if_neg hcx]
    by_cases hignore : 20 < s.ecx.toUInt8 ∧ s.mem (s.di + 20) &&& 1 = 0
    · exact ⟨s.ecx, if_pos hignore⟩
    · rw [if_neg hignore]
      have hzero : s.dword (s.di + 8) ||| s.dword (s.di + 12) = 0 := by
        by_contra hne
        exact h ⟨hcx, hignore, hne⟩
      exact ⟨_, if_pos hzero⟩

/-- What the entry leaves alone. -/
theorem jmpin_frame (s : Machine) : s.jmpin.ebx = s.ebx ∧ s.jmpin.stores = s.stores := by
  by_cases h : s.Accepts
  · rw [jmpin_of_accepts h]
    exact ⟨rfl, rfl⟩
  · obtain ⟨ecx, heq⟩ := jmpin_of_not_accepts h
    rw [heq]
    exact ⟨rfl, rfl⟩

@[simp] theorem ebx_jmpin : s.jmpin.ebx = s.ebx := (jmpin_frame s).1

@[simp] theorem stores_jmpin : s.jmpin.stores = s.stores := (jmpin_frame s).2

/-- The bytes that the BIOS has written, after the call. -/
theorem mem_data (hdi : s.di = UInt16.ofNat (24 * n)) (hn : n ≤ 20) (hr : r.data.length ≤ 24)
    {i : Nat} (hi : i < r.data.length) :
    (s.int15 r).mem (s.di + UInt16.ofNat i) = r.data.getD i 0 := by
  rw [hdi, ← UInt16.ofNat_add, mem_int15 hdi hn hr (by omega), if_pos (by omega),
    Nat.add_sub_cancel_left]

theorem dword_data_eq_zero (hdi : s.di = UInt16.ofNat (24 * n)) (hn : n ≤ 20)
    (hr : r.data.length ≤ 24) {k : Nat} (hk : k + 4 ≤ r.data.length) :
    (s.int15 r).dword (s.di + UInt16.ofNat k) = 0 ↔ ∀ i < 4, r.data.getD (k + i) 0 = 0 := by
  rw [dword_eq_zero]
  refine forall₂_congr fun i hi => ?_
  rw [UInt16.add_assoc, ← UInt16.ofNat_add, mem_data hdi hn hr (by omega)]

/-- The test for a length. -/
theorem length_data_eq_zero (hdi : s.di = UInt16.ofNat (24 * n)) (hn : n ≤ 20)
    (hr : r.data.length ≤ 24) (hlen : 16 ≤ r.data.length) :
    (s.int15 r).dword (s.di + 8) ||| (s.int15 r).dword (s.di + 12) = 0 ↔
      ∀ i < 8, r.data.getD (8 + i) 0 = 0 := by
  rw [UInt32.or_eq_zero_iff, show (8 : UInt16) = UInt16.ofNat 8 from rfl,
    show (12 : UInt16) = UInt16.ofNat 12 from rfl, dword_data_eq_zero hdi hn hr (by omega),
    dword_data_eq_zero hdi hn hr (by omega)]
  constructor
  · rintro ⟨hlow, hhigh⟩ i hi
    by_cases hi4 : i < 4
    · exact hlow i hi4
    · have hi' := hhigh (i - 4) (by omega)
      rwa [show 12 + (i - 4) = 8 + i by omega] at hi'
  · intro h
    refine ⟨fun i hi => h i (by omega), fun i hi => ?_⟩
    have hi' := h (4 + i) (by omega)
    rwa [← Nat.add_assoc] at hi'

/-- The test of the attributes, which a short entry passes. -/
theorem ignored_iff (hdi : s.di = UInt16.ofNat (24 * n)) (hn : n ≤ 20)
    (hsize : r.ecx = 20 ∨ r.ecx = 24) (hlen : r.data.length = r.ecx.toNat) :
    20 < r.ecx.toUInt8 ∧ (s.int15 r).mem (s.di + 20) &&& 1 = 0 ↔
      r.ecx = 24 ∧ r.data.getD 20 0 &&& 1 = 0 := by
  rcases hsize with hsize | hsize
  · rw [hsize]
    exact iff_of_false (fun h => absurd h.1 (by decide)) (fun h => absurd h.1 (by decide))
  · have hlen' : r.data.length = 24 := by
      rw [hlen, hsize]
      rfl
    rw [show (20 : UInt16) = UInt16.ofNat 20 from rfl, mem_data hdi hn (by omega) (by omega),
      hsize]
    exact and_congr_left' (iff_of_true (by decide) rfl)

/-- The routine accepts the usable entries. -/
theorem accepts_int15_iff (hdi : s.di = UInt16.ofNat (24 * n)) (hn : n ≤ 20) (hr : r.Valid)
    (hcarry : r.carry = false) : (s.int15 r).Accepts ↔ r.Usable := by
  by_cases hecx : r.ecx = 0
  · refine iff_of_false (fun h => h.1 ?_) (fun h => h.2.1 hecx)
    rw [int15_ecx, hecx]
    rfl
  · obtain ⟨hsize, hlen⟩ := (hr.ecx_eq hcarry).resolve_left hecx
    have hlong : 16 ≤ r.data.length := by
      rcases hsize with hsize | hsize <;> rw [hlen, hsize] <;> decide
    have hcx : r.ecx.toUInt16 ≠ 0 := by
      rcases hsize with hsize | hsize <;> rw [hsize] <;> decide
    rw [Accepts, int15_ecx, int15_di, ignored_iff hdi hn hsize hlen, Ne, Ne,
      length_data_eq_zero hdi hn hr.length_le hlong, Response.Usable]
    exact ⟨fun h => ⟨hcarry, hecx, h.2⟩, fun h => ⟨hcx, h.2.2⟩⟩

end Call

end Machine

/-! ## The invariant of the loop -/

theorem Response.length_record {r : Response} (hr : r.Valid) (husable : r.Usable) :
    r.record.length = 24 := by
  obtain ⟨hsize, hlen⟩ := (hr.ecx_eq husable.1).resolve_left husable.2.1
  rw [record, List.length_append, List.length_drop, hlen]
  rcases hsize with hsize | hsize <;> rw [hsize] <;> rfl

/-- `DetectMemory` is about to ask for the entry after `rs`. -/
structure Before (rs : List Response) (s : Machine) : Prop where
  di : s.di = UInt16.ofNat (24 * rs.length)
  length_record : ∀ r ∈ rs, r.record.length = 24
  recorded : Recorded rs s

section Step

variable {done : List Response} {r : Response} {s : Machine}

theorem Before.length_flatMap (h : Before done s) :
    (done.flatMap Response.record).length = 24 * done.length := by
  rw [List.length_flatMap, List.map_congr_left h.length_record, List.map_const',
    List.sum_replicate_nat, Nat.mul_comm]

/-- A call keeps the entries recorded so far. -/
theorem Before.int15 (h : Before done s) (hle : done.length ≤ 20) (hr : r.Valid) :
    Recorded done (s.int15 r) := by
  have hlen := hr.length_le
  refine ⟨h.recorded.memNum, fun k hk => ?_, fun a ha => ?_⟩
  · rw [Machine.mem_int15 h.di hle hlen (by omega), if_neg (by omega), if_neg (by omega)]
    exact h.recorded.mem k hk
  · rw [Machine.mem_stores_int15 h.di (by omega) hlen] at ha
    rw [bufferSize]
    rcases ha with (ha | ha) | ha
    · exact h.recorded.stores a ha
    · omega
    · omega

/-- The bytes of a usable entry are in their place after the call. -/
theorem Before.mem_record (h : Before done s) (hle : done.length ≤ 20) (hr : r.Valid)
    (husable : r.Usable) {k : Nat} (hk : k < 24) :
    (s.int15 r).mem (UInt16.ofNat (24 * done.length + k)) = r.record.getD k 0 := by
  obtain ⟨hsize, hlen⟩ := (hr.ecx_eq husable.1).resolve_left husable.2.1
  have hlen' : r.data.length = 20 ∨ r.data.length = 24 := by
    rcases hsize with hsize | hsize <;> rw [hlen, hsize]
    · exact Or.inl rfl
    · exact Or.inr rfl
  rw [Machine.mem_int15 h.di hle hr.length_le (by omega), Nat.add_sub_cancel_left,
    Response.record]
  by_cases hin : k < r.data.length
  · rw [if_pos (by omega), List.getD_append _ _ _ _ hin]
  · have hshort : r.data.length = 20 := by omega
    rw [if_neg (by omega), if_pos (by omega), List.getD_append_right _ _ _ _ (by omega), hshort,
      show 24 * done.length + k - (24 * done.length + 20) = k - 20 by omega]
    rfl

/-- A call without carry, and its entry. -/
theorem Before.jmpin (h : Before done s) (hle : done.length ≤ 20) (hr : r.Valid)
    (hcarry : r.carry = false) :
    Before (done ++ [r].filter fun r => r.Usable) (s.int15 r).jmpin := by
  have hcall := h.int15 hle hr
  by_cases husable : r.Usable
  · have haccepts := (Machine.accepts_int15_iff h.di hle hr hcarry).mpr husable
    have hlen := Response.length_record hr husable
    rw [List.filter_cons_of_pos (by simpa using husable), List.filter_nil,
      Machine.jmpin_of_accepts haccepts]
    refine ⟨?_, ?_, ?_, ?_, hcall.stores⟩
    · rw [List.length_append, List.length_singleton, Nat.mul_add, UInt16.ofNat_add, ← h.di]
      rfl
    · intro x hx
      rcases List.mem_append.mp hx with hx | hx
      · exact h.length_record x hx
      · rwa [List.mem_singleton.mp hx]
    · have hnum := hcall.memNum
      rw [List.length_append, List.length_singleton, UInt32.toNat_add, hnum]
      exact Nat.mod_eq_of_lt (by simp; omega)
    · intro k hk
      rw [List.length_append, List.length_singleton] at hk
      rw [List.flatMap_append, List.flatMap_singleton]
      by_cases hin : k < 24 * done.length
      · rw [List.getD_append _ _ _ _ (by rwa [h.length_flatMap])]
        exact hcall.mem k hin
      · obtain ⟨j, rfl⟩ := Nat.exists_eq_add_of_le (Nat.le_of_not_lt hin)
        rw [List.getD_append_right _ _ _ _ (by rw [h.length_flatMap]; omega), h.length_flatMap,
          Nat.add_sub_cancel_left]
        exact h.mem_record hle hr husable (by omega)
  · have haccepts := fun hs => husable ((Machine.accepts_int15_iff h.di hle hr hcarry).mp hs)
    obtain ⟨ecx, heq⟩ := Machine.jmpin_of_not_accepts haccepts
    rw [List.filter_cons_of_neg (by simpa using husable), List.filter_nil, List.append_nil, heq]
    exact ⟨h.di, h.length_record, hcall.memNum, hcall.mem, hcall.stores⟩

end Step

/-! ## The loop -/

/-- The usable ones of one response, and of the others. -/
theorem filter_usable_cons (r : Response) (rs : List Response) :
    (r :: rs).filter (fun r => r.Usable) =
      [r].filter (fun r => r.Usable) ++ rs.filter fun r => r.Usable :=
  List.filter_append [r] rs

theorem e8201p_of_carry {r : Response} (h : r.carry = true) (rs : List Response) (s : Machine) :
    e8201p (r :: rs) s = some (s.int15 r) :=
  if_pos h

theorem e8201p_of_ebx {r : Response} (hcarry : r.carry = false) (hebx : r.ebx = 0)
    (rs : List Response) (s : Machine) : e8201p (r :: rs) s = some (s.int15 r).jmpin := by
  rw [e8201p, if_neg (by simp [hcarry])]
  exact if_pos (by rw [Machine.ebx_jmpin, Machine.int15_ebx, hebx])

theorem e8201p_of_more {r : Response} (hcarry : r.carry = false) (hebx : r.ebx ≠ 0)
    (rs : List Response) (s : Machine) : e8201p (r :: rs) s = e8201p rs (s.int15 r).jmpin := by
  rw [e8201p, if_neg (by simp [hcarry])]
  exact if_neg (by rwa [Machine.ebx_jmpin])

/-- The loop with enough room records every usable entry.  By induction on the
responses. -/
theorem e8201p_records {rs : List Response} (hends : Ends rs) (hvalid : ∀ r ∈ rs, r.Valid)
    {done : List Response} {s : Machine} (h : Before done s)
    (hroom : done.length + (rs.dropLast.filter fun r => r.Usable).length ≤ 20) :
    ∃ s', e8201p rs s = some s' ∧ Recorded (done ++ rs.filter fun r => r.Usable) s' := by
  induction rs generalizing done s with
  | nil => exact hends.elim
  | cons r rs ih =>
    have hle : done.length ≤ 20 := by omega
    have hr := hvalid r List.mem_cons_self
    cases rs with
    | nil =>
      cases hcarry : r.carry with
      | true =>
        refine ⟨s.int15 r, e8201p_of_carry hcarry [] s, ?_⟩
        have hunusable : ¬ r.Usable := fun hu => absurd hu.1 (by simp [hcarry])
        rw [List.filter_cons_of_neg (by simpa using hunusable), List.filter_nil, List.append_nil]
        exact h.int15 hle hr
      | false =>
        have hebx : r.ebx = 0 := hends.resolve_left (by simp [hcarry])
        exact ⟨_, e8201p_of_ebx hcarry hebx [] s, (h.jmpin hle hr hcarry).recorded⟩
    | cons r' rs =>
      obtain ⟨⟨hcarry, hebx⟩, hends⟩ := hends
      rw [List.dropLast_cons_cons, filter_usable_cons, List.length_append] at hroom
      rw [e8201p_of_more hcarry hebx, filter_usable_cons, ← List.append_assoc]
      exact ih hends (fun x hx => hvalid x (List.mem_cons_of_mem r hx)) (h.jmpin hle hr hcarry)
        (by rw [List.length_append]; omega)

/-- The loop keeps the history of its stores. -/
theorem mem_stores_e8201p {rs : List Response} {s s' : Machine} (h : e8201p rs s = some s')
    {a : UInt16} (ha : a ∈ s.stores) : a ∈ s'.stores := by
  induction rs generalizing s with
  | nil => cases h
  | cons r rs ih =>
    have hcall : a ∈ (s.int15 r).stores := Machine.mem_stores_of_mem ha
    have hentry : a ∈ (s.int15 r).jmpin.stores := by rwa [Machine.stores_jmpin]
    cases hcarry : r.carry with
    | true =>
      obtain rfl := Option.some.inj ((e8201p_of_carry hcarry rs s).symm.trans h)
      exact hcall
    | false =>
      by_cases hebx : r.ebx = 0
      · obtain rfl := Option.some.inj ((e8201p_of_ebx hcarry hebx rs s).symm.trans h)
        exact hentry
      · exact ih ((e8201p_of_more hcarry hebx rs s).symm.trans h) hentry

/-- The call after 21 entries stores behind the buffer. -/
theorem Before.overflows {done : List Response} {s : Machine} (h : Before done s)
    (hdone : done.length = 21) {r : Response} (hr : r.Valid) : 524 ∈ (s.int15 r).stores := by
  rw [Machine.mem_stores_int15 h.di (by omega) hr.length_le, hdone]
  exact Or.inl (Or.inr (by decide))

/-- The loop without the room stores behind the buffer.  By induction on the responses:
either the call at hand has no room, or a later one. -/
theorem e8201p_overflows {rs : List Response} (hends : Ends rs) (hvalid : ∀ r ∈ rs, r.Valid)
    {done : List Response} {s s' : Machine} (h : Before done s) (hdone : done.length ≤ 21)
    (hroom : 20 < done.length + (rs.dropLast.filter fun r => r.Usable).length)
    (hrun : e8201p rs s = some s') : 524 ∈ s'.stores := by
  induction rs generalizing done s with
  | nil => exact hends.elim
  | cons r rs ih =>
    have hr := hvalid r List.mem_cons_self
    by_cases hfull : done.length = 21
    · -- the store of this call is behind the buffer, and no later step takes it back
      have hforced := h.overflows hfull hr
      cases hcarry : r.carry with
      | true =>
        obtain rfl := Option.some.inj ((e8201p_of_carry hcarry rs s).symm.trans hrun)
        exact hforced
      | false =>
        rw [← Machine.stores_jmpin] at hforced
        by_cases hebx : r.ebx = 0
        · obtain rfl := Option.some.inj ((e8201p_of_ebx hcarry hebx rs s).symm.trans hrun)
          exact hforced
        · exact mem_stores_e8201p ((e8201p_of_more hcarry hebx rs s).symm.trans hrun) hforced
    · cases rs with
      | nil =>
        rw [List.dropLast_singleton, List.filter_nil, List.length_nil] at hroom
        omega
      | cons r' rs =>
        obtain ⟨⟨hcarry, hebx⟩, hends⟩ := hends
        rw [List.dropLast_cons_cons, filter_usable_cons, List.length_append] at hroom
        rw [e8201p_of_more hcarry hebx] at hrun
        refine ih hends (fun x hx => hvalid x (List.mem_cons_of_mem r hx))
          (h.jmpin (by omega) hr hcarry) ?_ ?_ hrun
        · have hone := List.length_filter_le (fun r : Response => decide r.Usable) [r]
          rw [List.length_singleton] at hone
          rw [List.length_append]
          omega
        · rw [List.length_append]
          omega

/-! ## The whole routine -/

/-- After a first call that succeeds, the routine is its loop. -/
theorem detectMemory_eq (t : Transcript) (s : Machine) :
    detectMemory t.responses s = e8201p t.responses { s with di := 0, memNum := 0 } := by
  obtain ⟨responses, hvalid, hends, hsupported⟩ := t
  cases responses with
  | nil => rfl
  | cons r rs =>
    obtain ⟨hcarry, heax, hebx⟩ := hsupported r rfl
    have hfirst : ¬ (r.carry = true ∨ r.eax ≠ SMAP ∨ r.ebx = 0) := by
      rw [hcarry, heax]
      simpa using hebx
    rw [e8201p_of_more hcarry hebx]
    refine (if_neg hfirst).trans (if_neg ?_)
    rwa [Machine.ebx_jmpin]

theorem before_start (s : Machine) :
    Before [] { s with di := 0, memNum := 0, stores := [] } :=
  ⟨rfl, fun _ hx => absurd hx List.not_mem_nil, rfl, fun k hk => absurd hk (Nat.not_lt_zero k),
    fun _ hx => absurd hx List.not_mem_nil⟩

/-- `DetectMemory` records the usable entries, and stores to its buffer only, exactly if
at most 20 of the responses before the last one are usable entries. -/
theorem detectsMemory_iff (t : Transcript) (s : Machine) :
    DetectsMemory t s ↔ (t.responses.dropLast.filter fun r => r.Usable).length ≤ 20 := by
  have hstart := before_start s
  rw [DetectsMemory, detectMemory_eq]
  constructor
  · rintro ⟨s', hrun, hrecorded⟩
    by_contra hroom
    have hover := e8201p_overflows t.ends t.valid hstart (Nat.zero_le 21)
      (by rw [List.length_nil]; omega) hrun
    exact absurd (hrecorded.stores 524 hover) (by decide)
  · intro hroom
    exact e8201p_records t.ends t.valid hstart (by rw [List.length_nil]; omega)

/-- A short entry of type 1. -/
def usableEntry : Response :=
  { carry := false, eax := SMAP, ebx := 1, ecx := 20
    data := [0, 0, 0, 0, 0, 0, 0, 0, 0, 16, 0, 0, 0, 0, 0, 0, 1, 0, 0, 0] }

/-- Twenty-two entries. -/
def longMap : Transcript where
  responses := List.replicate 21 usableEntry ++ [{ usableEntry with ebx := 0 }]
  valid := by
    intro r hr
    rw [List.mem_append, List.mem_replicate, List.mem_singleton] at hr
    rcases hr with ⟨_, rfl⟩ | rfl
    · exact ⟨by decide, fun _ => Or.inr (by decide)⟩
    · exact ⟨by decide, fun _ => Or.inr (by decide)⟩
  ends := by
    simp only [List.replicate, List.cons_append, List.nil_append, Ends]
    decide
  supported := by
    rintro r ⟨⟩
    decide

theorem not_detectsMemory_longMap :
    ¬ DetectsMemory longMap
      { ebx := 0, ecx := 0, di := 0, memNum := 0, mem := fun _ => 0, stores := [] } := by
  rintro ⟨s', hrun, hrecorded⟩
  rw [detectMemory_eq] at hrun
  have hover := e8201p_overflows longMap.ends longMap.valid (before_start _) (Nat.zero_le 21)
    (by decide) hrun
  exact absurd (hrecorded.stores 524 hover) (by decide)

end E820

end Legacy

end BbnOS
