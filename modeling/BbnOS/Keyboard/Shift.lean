import BbnOS.Keyboard.Driver
import Mathlib.Data.UInt

/-!
# The shift state of the keyboard

`unprefixed` are the scan codes of a history that no `0xE0` comes right before,
and `Held` says of one of the shift keys that its latest code among them was
that of a press.

The driver keeps `Held` for the left key.  For the right key it stores `false`
at a press too, so `rshift` is never set (`handleAll_state`), and a key that is
pressed with the right shift key alone comes out in lower case.  `shifted_iff`
says in which histories that is seen.
-/

namespace BbnOS

namespace Keyboard

/-- The codes that do not come right after a `0xE0`. -/
def unprefixed (codes : List UInt8) : List UInt8 :=
  (List.range codes.length).filterMap fun i =>
    if 0 < i ∧ codes[i - 1]? = some prefixE0 then none else codes[i]?

/-- The latest of the codes for the press and the release of a key is the one
for the press. -/
def Held (key : UInt8) (codes : List UInt8) : Prop :=
  ((unprefixed codes).filter fun c => c == key || c == key + 0x80).getLast? = some key

instance (key : UInt8) (codes : List UInt8) : Decidable (Held key codes) :=
  inferInstanceAs (Decidable (_ = _))

theorem unprefixed_concat (codes : List UInt8) (c : UInt8) :
    unprefixed (codes ++ [c]) =
      if codes.getLast? = some prefixE0 then unprefixed codes else unprefixed codes ++ [c] := by
  have hold : (List.range codes.length).filterMap (fun i =>
      if 0 < i ∧ (codes ++ [c])[i - 1]? = some prefixE0 then none else (codes ++ [c])[i]?) =
      unprefixed codes := by
    apply List.filterMap_congr
    intro i hi
    have hlt := List.mem_range.mp hi
    rw [List.getElem?_append_left hlt, List.getElem?_append_left (by omega)]
  have hbefore : (0 < codes.length ∧ (codes ++ [c])[codes.length - 1]? = some prefixE0) ↔
      codes.getLast? = some prefixE0 := by
    rw [List.getLast?_eq_getElem?]
    rcases Nat.eq_zero_or_pos codes.length with hzero | hpos
    · rw [List.length_eq_zero_iff.mp hzero]
      simp
    · rw [List.getElem?_append_left (by omega)]
      simp [hpos]
  rw [unprefixed, List.length_append, List.length_singleton, List.range_succ,
    List.filterMap_append, hold]
  by_cases h : codes.getLast? = some prefixE0
  · rw [if_pos h, List.filterMap_cons_none, List.filterMap_nil, List.append_nil]
    exact if_pos (hbefore.mpr h)
  · have hnew : (codes ++ [c])[codes.length]? = some c := by
      rw [List.getElem?_append_right (Nat.le_refl _), Nat.sub_self, List.getElem?_cons_zero]
    rw [if_neg h, List.filterMap_cons_some, List.filterMap_nil]
    rw [if_neg (mt hbefore.mp h), hnew]

/-- What a code does to a key: its own press and release decide, unless a `0xE0`
came before. -/
theorem held_concat (key : UInt8) (codes : List UInt8) (c : UInt8) :
    Held key (codes ++ [c]) ↔
      if codes.getLast? ≠ some prefixE0 ∧ (c = key ∨ c = key + 0x80) then c = key
      else Held key codes := by
  unfold Held
  rw [unprefixed_concat]
  by_cases hbefore : codes.getLast? = some prefixE0
  · simp [hbefore]
  · by_cases hkey : c = key ∨ c = key + 0x80
    · have hkeep : (c == key || c == key + 0x80) = true := by simpa using hkey
      simp [hbefore, hkey, hkeep, List.filter_append]
    · have hdrop : (c == key || c == key + 0x80) = false := by simpa using hkey
      simp [hbefore, hkey, hdrop, List.filter_append]

/-! ## What the driver keeps -/

/-- Bit 7 of a code, as a bound. -/
theorem isRelease_eq (c : UInt8) : (c &&& 0x80 == 0x80) = decide (128 ≤ c.toNat) := by
  have hall : ∀ n : Fin 256, (UInt8.ofNat n.val &&& 0x80 == 0x80) = decide (128 ≤ n.val) := by
    decide +kernel
  have hone := hall ⟨c.toNat, c.toNat_lt⟩
  rwa [UInt8.ofNat_toNat] at hone

/-- The code of a press is that of the key. -/
theorem toNat_add_release {key : UInt8} (h : key.toNat < 128) :
    (key + 0x80).toNat = key.toNat + 128 := by
  rw [UInt8.toNat_add]
  exact Nat.mod_eq_of_lt (by simp only [UInt8.reduceToNat]; omega)

/-- The key of a code without a `0xE0` before it. -/
def keyOf (c : UInt8) : UInt8 := if c.toNat < 128 then c else c - 0x80

theorem keyOf_eq_iff {c key : UInt8} (h : key.toNat < 128) :
    keyOf c = key ↔ c = key ∨ c = key + 0x80 := by
  have hc := c.toNat_lt
  have hadd := toNat_add_release h
  unfold keyOf
  rw [← UInt8.toNat_inj, ← UInt8.toNat_inj (a := c), ← UInt8.toNat_inj (a := c), hadd]
  split
  · omega
  · rw [UInt8.toNat_sub]
    simp only [UInt8.reduceToNat]
    omega

section Handle

variable (c : UInt8) (k : Keyboard)

/-- A prefix does nothing but to be noted. -/
theorem keyboardHandle_prefixE0 :
    keyboardHandle prefixE0 k = (.nothing, { k with e0Prefix := true }) := by
  simp [keyboardHandle]

/-- A code after a prefix is consumed. -/
theorem keyboardHandle_consumed {c : UInt8} {k : Keyboard} (hc : c ≠ prefixE0)
    (hk : k.e0Prefix = true) :
    keyboardHandle c k = (.notImplemented, { k with e0Prefix := false }) := by
  simp [keyboardHandle, hc, hk]

/-- Any other code: what it does, by its key. -/
theorem keyboardHandle_key {c : UInt8} {k : Keyboard} (hc : c ≠ prefixE0)
    (hk : k.e0Prefix = false) :
    keyboardHandle c k =
      if keyOf c = keycodeLShift then (.nothing, { k with lshift := decide (c.toNat < 128) })
      else if keyOf c = keycodeRShift then (.nothing, { k with rshift := false })
      else if c.toNat < 128 then
        (if c = keycodeEnter then .newline
          else if c = keycodeBackspace then .clearChar
          else if c = keycodeSpace then .space
          else .translate c (k.lshift || k.rshift), k)
      else (.nothing, k) := by
  have hpressed : (!(c &&& 0x80 == 0x80)) = decide (c.toNat < 128) := by
    rw [isRelease_eq]
    by_cases h : c.toNat < 128 <;> simp [h]
    omega
  unfold keyboardHandle keyOf
  simp only [hc, if_false, hk, if_true, hpressed, decide_eq_true_eq]
  by_cases h : c.toNat < 128
  · simp only [h, if_true, decide_true]
    split_ifs <;> rfl
  · simp only [h, if_false, decide_false]
    split_ifs <;> rfl

end Handle

theorem handleAll_concat (codes : List UInt8) (c : UInt8) :
    handleAll (codes ++ [c]) init = (keyboardHandle c (handleAll codes init)).2 := by
  rw [handleAll, List.foldl_append]
  rfl

/-- What the statics are after a history: the left key is followed, the right
one is not. -/
structure Follows (codes : List UInt8) (k : Keyboard) : Prop where
  e0Prefix : k.e0Prefix = true ↔ codes.getLast? = some prefixE0
  lshift : k.lshift = true ↔ Held keycodeLShift codes
  rshift : k.rshift = false

/-- One code. -/
theorem Follows.step {codes : List UInt8} {k : Keyboard} (h : Follows codes k) (c : UInt8) :
    Follows (codes ++ [c]) (keyboardHandle c k).2 := by
  have hheld := held_concat keycodeLShift codes c
  by_cases hc : c = prefixE0
  · rw [if_neg fun hand => absurd (hc ▸ hand.2) (by decide)] at hheld
    rw [hc] at hheld ⊢
    rw [keyboardHandle_prefixE0]
    exact ⟨by simp, h.lshift.trans hheld.symm, h.rshift⟩
  · have hlast : (codes ++ [c]).getLast? ≠ some prefixE0 := by simpa using hc
    by_cases hk : k.e0Prefix = true
    · rw [if_neg (fun hand => hand.1 (h.e0Prefix.mp hk))] at hheld
      rw [keyboardHandle_consumed hc hk]
      exact ⟨iff_of_false Bool.false_ne_true hlast, h.lshift.trans hheld.symm, h.rshift⟩
    · have hbefore : codes.getLast? ≠ some prefixE0 := fun heq => hk (h.e0Prefix.mpr heq)
      rw [keyboardHandle_key hc (by simpa using hk)]
      by_cases hleft : keyOf c = keycodeLShift
      · -- the code of a press is the key, that of a release is not
        have hpress : c.toNat < 128 ↔ c = keycodeLShift := by
          rcases (keyOf_eq_iff (by decide)).mp hleft with heq | heq <;> rw [heq] <;> decide
        rw [if_pos ⟨hbefore, (keyOf_eq_iff (by decide)).mp hleft⟩] at hheld
        rw [if_pos hleft]
        refine ⟨iff_of_false hk hlast, ?_, h.rshift⟩
        rw [hheld, ← hpress]
        exact decide_eq_true_iff
      · rw [if_neg (fun hand => hleft ((keyOf_eq_iff (by decide)).mpr hand.2))] at hheld
        rw [if_neg hleft]
        split
        · exact ⟨iff_of_false hk hlast, h.lshift.trans hheld.symm, rfl⟩
        · split
          · exact ⟨iff_of_false hk hlast, h.lshift.trans hheld.symm, h.rshift⟩
          · exact ⟨iff_of_false hk hlast, h.lshift.trans hheld.symm, h.rshift⟩

/-- Every history. -/
theorem handleAll_follows (codes : List UInt8) : Follows codes (handleAll codes init) := by
  induction codes using List.reverseRecOn with
  | nil => exact ⟨by decide, by decide, rfl⟩
  | append_singleton codes c ih =>
    rw [handleAll_concat]
    exact ih.step c

/-! ## Keys in upper case -/

/-- A press that `keyboardHandle` passes on to `keycodeTranslate`. -/
def Typed (before : List UInt8) (c : UInt8) : Prop :=
  before.getLast? ≠ some prefixE0 ∧ c.toNat < 128 ∧
    c ∉ [keycodeLShift, keycodeRShift, keycodeEnter, keycodeBackspace, keycodeSpace]

/-- When a call passes a key on, and with what. -/
theorem translate_iff {codes : List UInt8} {k : Keyboard} (h : Follows codes k)
    (c scancode : UInt8) (uppercase : Bool) :
    (keyboardHandle c k).1 = .translate scancode uppercase ↔
      Typed codes c ∧ scancode = c ∧ uppercase = k.lshift := by
  unfold Typed
  by_cases hc : c = prefixE0
  · subst hc
    rw [keyboardHandle_prefixE0]
    simp [prefixE0]
  · by_cases hk : k.e0Prefix = true
    · rw [keyboardHandle_consumed hc hk]
      simp [h.e0Prefix.mp hk]
    · have hbefore : codes.getLast? ≠ some prefixE0 := fun heq => hk (h.e0Prefix.mpr heq)
      rw [keyboardHandle_key hc (by simpa using hk), h.rshift, Bool.or_false]
      by_cases hlow : c.toNat < 128
      · rw [show keyOf c = c from if_pos hlow]
        by_cases hown : c ∈ [keycodeLShift, keycodeRShift, keycodeEnter, keycodeBackspace,
            keycodeSpace]
        · refine iff_of_false ?_ fun hand => hand.1.2.2 hown
          simp only [List.mem_cons, List.not_mem_nil, or_false] at hown
          rcases hown with heq | heq | heq | heq | heq <;> rw [heq] <;>
            simp [keycodeLShift, keycodeRShift, keycodeEnter, keycodeBackspace, keycodeSpace]
        · have hkeys := hown
          simp only [List.mem_cons, List.not_mem_nil, or_false, not_or] at hkeys
          obtain ⟨hleft, hright, henter, hback, hspace⟩ := hkeys
          simp [hbefore, hlow, hleft, hright, henter, hback, hspace, eq_comm]
      · simp only [hlow, if_false, false_and, and_false, iff_false]
        split_ifs <;> simp

/-- The shift state follows both keys along a history. -/
structure ShiftFollows (codes : List UInt8) : Prop where
  shifted : ∀ before c, before ++ [c] <+: codes → ∀ scancode uppercase,
    (keyboardHandle c (handleAll before init)).1 = .translate scancode uppercase →
      (uppercase = true ↔ Held keycodeLShift before ∨ Held keycodeRShift before)
  consumed : ∀ before c, before ++ [c] <+: codes → before.getLast? = some prefixE0 →
    (handleAll (before ++ [c]) init).lshift = (handleAll before init).lshift ∧
      (handleAll (before ++ [c]) init).rshift = (handleAll before init).rshift

/-- The shift state follows both keys if and only if no key is typed with the
right shift key held and the left one not. -/
theorem shiftFollows_iff (codes : List UInt8) :
    ShiftFollows codes ↔ ∀ before c, before ++ [c] <+: codes → Typed before c →
      Held keycodeRShift before → Held keycodeLShift before := by
  constructor
  · intro h before c hpre htyped hright
    have hstate := handleAll_follows before
    have hup := h.shifted before c hpre c _ ((translate_iff hstate c c _).mpr ⟨htyped, rfl, rfl⟩)
    exact hstate.lshift.mp (hup.mpr (Or.inr hright))
  · intro h
    constructor
    · intro before c hpre scancode uppercase haction
      have hstate := handleAll_follows before
      obtain ⟨htyped, _, rfl⟩ := (translate_iff hstate c scancode uppercase).mp haction
      rw [hstate.lshift]
      constructor
      · exact Or.inl
      · intro hheld
        rcases hheld with hleft | hright
        · exact hleft
        · exact h before c hpre htyped hright
    · intro before c _ hlast
      have hk := (handleAll_follows before).e0Prefix.mpr hlast
      rw [handleAll_concat]
      by_cases hc : c = prefixE0
      · subst hc
        rw [keyboardHandle_prefixE0]
        exact ⟨rfl, rfl⟩
      · rw [keyboardHandle_consumed hc hk]
        exact ⟨rfl, rfl⟩

/-- The right shift key alone, and the key A. -/
theorem not_shiftFollows_of_right : ¬ ShiftFollows [keycodeRShift, 0x1E] := by
  intro h
  have hup := h.shifted [keycodeRShift] 0x1E (List.prefix_refl _) 0x1E false (by decide)
  exact absurd (hup.mpr (Or.inr (by decide))) (by decide)

end Keyboard

end BbnOS
