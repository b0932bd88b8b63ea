import BbnOS.Printf.Scan

/-!
# Which characters of its format `vprintf` reads

A format that ends inside a conversion makes `vprintf` take its zero for the
specifier and step over it, and the loop goes on behind the format.  That is the
only way in which it leaves a format whose index is an `int`.

It does not return when the field of a number is wider than the two arrays of
`__int_str`, when the number cannot be negated, or when a string argument is longer
than an `int` can count.  `readsInside_iff` says that with complete conversions that
fit, `vprintf` reads its format only and returns, and that otherwise it does not.
-/

namespace BbnOS

namespace Printf

open Loop

/-! ## One conversion -/

/-- The number of arguments that a conversion takes. -/
def uses (v : Conversion) (specifier : UInt8) : Nat :=
  match kindOf specifier with
  | .unsigned _ _ | .signed | .store => if v.length = .L then 0 else 1
  | .char => if v.length = .l then 0 else 1
  | .pointer | .string => 1
  | .float | .other => 0

/-- The field of an integer fits the buffers of `__int_str`: the width is at most 255,
and not so far below zero that the subtraction of the length wraps.  The number is not
the least one. -/
def FieldFits (integer : Option Int64) (base : Int32) (v : Conversion) : Prop :=
  ∀ i, integer = some i → i ≠ Int64.minValue ∧
    -2 ^ 31 + ((numberText i base v.plusSign v.spaceNoSign).length : Int) ≤ v.lengthSpec.toInt ∧
    v.lengthSpec.toInt ≤ 255

/-- The argument of a conversion fits what it is for. -/
def Fits (args : Arguments) (v : Conversion) (specifier : UInt8) (n : Nat) : Prop :=
  match kindOf specifier with
  | .unsigned base _ => FieldFits (unsignedArg v.length (args.slot n)) base v
  | .pointer => FieldFits (unsignedArg .z (args.slot n)) 16 v
  | .signed => FieldFits (signedArg v.length (args.slot n)) 10 v
  | .string => (args.string (args.slot n)).length < 2 ^ 31
  | .char | .store | .float | .other => True

/-- What a conversion leaves alone, and the arguments it takes. -/
structure Converted (s s' : State) (used : Nat) : Prop where
  i : s'.i = s.i
  reads : s'.reads = s.reads
  list : s'.list = s.list + used

section Convert

variable {args : Arguments} {v : Conversion} {c : UInt8} {s s' : State} {base : Int32}
  {integer : Option Int64}

/-- A number is displayed in its field, when that fits the buffers. -/
theorem printInteger_some (hbase : IsBase base) (i : Int64) (v : Conversion) (s : State) :
    printInteger (some i) base v s =
      if i ≠ Int64.minValue ∧ (numberText i base v.plusSign v.spaceNoSign).length +
          paddingOf v.lengthSpec (numberText i base v.plusSign v.spaceNoSign).length < 256 then
        some (s.take.display (fieldText (numberText i base v.plusSign v.spaceNoSign)
          v.lengthSpec v.leftJustify v.zeroPad))
      else none := by
  have htext := textOf_intStr hbase i v.plusSign v.spaceNoSign v.lengthSpec v.leftJustify
    v.zeroPad
  have hprint : printInteger (some i) base v s =
      ((intStr i (holding 256 []) base v.plusSign v.spaceNoSign v.lengthSpec v.leftJustify
        v.zeroPad).bind textOf).map fun t => s.take.display t := by
    rw [Option.map_eq_bind, Option.bind_assoc]
    rfl
  rw [hprint, htext]
  split <;> rfl

theorem printInteger_returns_iff (hbase : IsBase base) :
    (∃ s', printInteger integer base v s = some s') ↔ FieldFits integer base v := by
  cases integer with
  | none => exact iff_of_true ⟨s, rfl⟩ fun i hi => nomatch hi
  | some i =>
    have hfits : i ≠ Int64.minValue ∧ (numberText i base v.plusSign v.spaceNoSign).length +
        paddingOf v.lengthSpec (numberText i base v.plusSign v.spaceNoSign).length < 256 ↔
          FieldFits (some i) base v := by
      constructor
      · rintro ⟨hi, hlt⟩ j hj
        obtain rfl := Option.some.inj hj
        have hlen := length_numberText_le hbase hi v.plusSign v.spaceNoSign
        exact ⟨hi, (paddingOf_fits_iff hlen v.lengthSpec).mp hlt⟩
      · intro h
        obtain ⟨hi, hwidth⟩ := h i rfl
        have hlen := length_numberText_le hbase hi v.plusSign v.spaceNoSign
        exact ⟨hi, (paddingOf_fits_iff hlen v.lengthSpec).mpr hwidth⟩
    rw [printInteger_some hbase, ← hfits]
    split
    · rename_i h
      exact iff_of_true ⟨_, rfl⟩ h
    · rename_i h
      exact iff_of_false (fun ⟨_, hs⟩ => nomatch hs) h

/-- An integer takes its argument, if the length has one. -/
theorem printInteger_converted (hbase : IsBase base) (h : printInteger integer base v s = some s') :
    Converted s s' (if integer = none then 0 else 1) := by
  cases integer with
  | none =>
    cases h
    exact ⟨rfl, rfl, rfl⟩
  | some i =>
    rw [printInteger_some hbase] at h
    split at h
    · cases h
      exact ⟨rfl, rfl, rfl⟩
    · cases h

theorem unsignedArg_eq_none_iff (length : Length) (a : UInt64) :
    unsignedArg length a = none ↔ length = .L := by
  cases length <;> simp [unsignedArg]

theorem signedArg_eq_none_iff (length : Length) (a : UInt64) :
    signedArg length a = none ↔ length = .L := by
  cases length <;> simp [signedArg]

theorem isBase_of_kindOf {t : List Char} (h : kindOf c = .unsigned base t) : IsBase base := by
  simp only [kindOf, ite_eq_iff, Kind.unsigned.injEq, reduceCtorEq, and_false, or_false,
    false_or] at h
  rcases h with ⟨-, rfl, -⟩ | ⟨-, -, ⟨-, rfl, -⟩ | ⟨-, ⟨-, rfl, -⟩ | ⟨-, -, rfl, -⟩⟩⟩
  · exact Or.inl rfl
  · exact Or.inr (Or.inr (Or.inl rfl))
  · exact Or.inr (Or.inr (Or.inr rfl))
  · exact Or.inr (Or.inl rfl)

/-- A conversion returns if and only if its argument fits. -/
theorem convert_returns_iff (hc : kindOf c ≠ .float) :
    (∃ s', convert args v c s = some s') ↔ Fits args v c s.list := by
  unfold convert Fits
  cases hkind : kindOf c with
  | unsigned base t => exact printInteger_returns_iff (isBase_of_kindOf hkind)
  | pointer => exact printInteger_returns_iff (Or.inr (Or.inr (Or.inl rfl)))
  | signed => exact printInteger_returns_iff (Or.inr (Or.inl rfl))
  | char => exact iff_of_true (by dsimp only; split <;> exact ⟨_, rfl⟩) trivial
  | string =>
    dsimp only [State.displayString]
    split
    · rename_i hlt
      exact iff_of_true ⟨_, rfl⟩ hlt
    · rename_i hlt
      exact iff_of_false (fun ⟨_, h⟩ => nomatch h) hlt
  | store => exact iff_of_true (by dsimp only; split <;> exact ⟨_, rfl⟩) trivial
  | float => exact absurd hkind hc
  | other => exact iff_of_true ⟨s, rfl⟩ trivial

/-- What a conversion that returns has done. -/
theorem convert_converted (h : convert args v c s = some s') : Converted s s' (uses v c) := by
  unfold convert at h
  unfold uses
  cases hkind : kindOf c with
  | unsigned base t =>
    rw [hkind] at h
    have hprint := printInteger_converted (isBase_of_kindOf hkind) h
    simp only [unsignedArg_eq_none_iff] at hprint
    cases halt : v.altForm with
    | true =>
      rw [halt] at hprint
      exact ⟨hprint.i, hprint.reads, hprint.list⟩
    | false =>
      rw [halt] at hprint
      exact hprint
  | pointer =>
    rw [hkind] at h
    exact printInteger_converted (Or.inr (Or.inr (Or.inl rfl))) h
  | signed =>
    rw [hkind] at h
    have hprint := printInteger_converted (Or.inr (Or.inl rfl)) h
    simp only [signedArg_eq_none_iff] at hprint
    exact hprint
  | char =>
    rw [hkind] at h
    dsimp only at h ⊢
    split at h
    · rename_i hl
      cases h
      rw [if_pos hl]
      exact ⟨rfl, rfl, rfl⟩
    · rename_i hl
      cases h
      rw [if_neg hl]
      exact ⟨rfl, rfl, rfl⟩
  | string =>
    rw [hkind] at h
    dsimp only [State.displayString] at h
    split at h
    · cases h
      exact ⟨rfl, rfl, rfl⟩
    · cases h
  | store =>
    rw [hkind] at h
    cases hlength : v.length <;> rw [hlength] at h <;> cases h <;> exact ⟨rfl, rfl, rfl⟩
  | float =>
    rw [hkind] at h
    cases h
  | other =>
    rw [hkind] at h
    cases h
    exact ⟨rfl, rfl, rfl⟩

end Convert

/-! ## A whole format -/

/-- Every conversion that is met in a format, with `n` arguments taken before, has the
property: of its variables, of its specifier, which is missing when the format ends
inside the conversion, and of the number of its argument. -/
inductive EveryConversion (args : Arguments) (P : Conversion → Option UInt8 → Nat → Prop) :
    Nat → List UInt8 → Prop where
  | nil (n : Nat) : EveryConversion args P n []
  | literal {n : Nat} {c : UInt8} {l : List UInt8} (hc : c ≠ '%'.toUInt8)
      (h : EveryConversion args P n l) : EveryConversion args P n (c :: l)
  | cut {n : Nat} {l : List UInt8} (hcut : (scanText args n l).text = [])
      (hP : P (scanText args n l).v none (scanText args n l).list) :
      EveryConversion args P n ('%'.toUInt8 :: l)
  | conversion {n : Nat} {l : List UInt8} {c : UInt8} {rest : List UInt8}
      (hc : (scanText args n l).text = c :: rest)
      (hP : P (scanText args n l).v (some c) (scanText args n l).list)
      (h : EveryConversion args P ((scanText args n l).list + uses (scanText args n l).v c) rest) :
      EveryConversion args P n ('%'.toUInt8 :: l)

section EveryConversion

variable {args : Arguments} {P : Conversion → Option UInt8 → Nat → Prop} {n : Nat} {c : UInt8}
  {l rest : List UInt8}

theorem EveryConversion.of_literal (hc : c ≠ '%'.toUInt8) (h : EveryConversion args P n (c :: l)) :
    EveryConversion args P n l := by
  cases h with
  | literal _ h => exact h
  | cut _ _ => exact absurd rfl hc
  | conversion _ _ _ => exact absurd rfl hc

theorem EveryConversion.of_conversion (hc : (scanText args n l).text = c :: rest)
    (h : EveryConversion args P n ('%'.toUInt8 :: l)) :
    P (scanText args n l).v (some c) (scanText args n l).list ∧
      EveryConversion args P ((scanText args n l).list + uses (scanText args n l).v c) rest := by
  cases h with
  | literal hne _ => exact absurd rfl hne
  | cut hcut _ =>
    rw [hcut] at hc
    cases hc
  | conversion hc' hP h =>
    rw [hc] at hc'
    cases hc'
    exact ⟨hP, h⟩

end EveryConversion

/-- No conversion is one of a floating-point number. -/
def NoFloat (args : Arguments) : Nat → List UInt8 → Prop :=
  EveryConversion args fun _ c _ => ∀ d, c = some d → kindOf d ≠ .float

/-- Every conversion has a specifier, and its argument fits. -/
def Complete (args : Arguments) : Nat → List UInt8 → Prop :=
  EveryConversion args fun v c n => ∃ d, c = some d ∧ Fits args v d n

/-- `vprintf` returns, and reads no character but those of its format and the zero
behind them. -/
def ReadsInside (format : Int → UInt8) (args : Arguments) (len : Nat) : Prop :=
  ∃ fuel s, vprintf format args fuel = some s ∧ ∀ k ∈ s.reads, 0 ≤ k.toInt ∧ k.toInt ≤ len

section Rounds

variable {format : Int → UInt8} {args : Arguments} {l rest : List UInt8} {s s' : State}
  {inner outer : Nat}

theorem vprintfFrom_succ (format : Int → UInt8) (args : Arguments) (inner outer : Nat) (s : State) :
    vprintfFrom format args inner (outer + 1) s =
      if s.char format = 0 then some s.look
      else (round format args inner s.look).bind (vprintfFrom format args inner outer) := by
  rw [vprintfFrom, whileFuel]
  by_cases hzero : s.char format = 0
  · rw [if_pos hzero, bne_eq_false_iff_eq.mpr hzero]
  · rw [if_neg hzero, bne_iff_ne.mpr hzero]

/-- The end of the format is the end of the loop. -/
theorem vprintfFrom_nil (hl : IsString format l) (h : At l s []) (inner outer : Nat) :
    vprintfFrom format args inner (outer + 1) s = some s.look := by
  rw [vprintfFrom_succ, h.char_eq hl, List.headD_nil, if_pos rfl]

/-- A character of the format is a round of the loop. -/
theorem vprintfFrom_cons (hl : IsString format l) {c : UInt8} (h : At l s (c :: rest))
    (inner outer : Nat) :
    vprintfFrom format args inner (outer + 1) s =
      (round format args inner s.look).bind (vprintfFrom format args inner outer) := by
  rw [vprintfFrom_succ, h.char_eq hl, List.headD_cons, if_neg (h.ne_zero hl)]

/-- A round that returns, before rounds that return. -/
theorem vprintfFrom_of_round (hl : IsString format l) {c : UInt8} (h : At l s (c :: rest))
    {u t : State} {bound : Nat}
    (hround : ∀ inner, l.length < inner → round format args inner s.look = some u)
    (ht : ∀ inner outer, l.length < inner → bound < outer →
      vprintfFrom format args inner outer u = some t) (inner outer : Nat)
    (hinner : l.length < inner) (houter : bound + 1 < outer) :
    vprintfFrom format args inner outer s = some t := by
  obtain ⟨outer, rfl⟩ := Nat.exists_eq_succ_of_ne_zero (Nat.ne_of_gt (Nat.zero_lt_of_lt houter))
  rw [vprintfFrom_cons hl h, hround inner hinner, Option.bind_some]
  exact ht inner outer hinner (Nat.lt_of_succ_lt_succ houter)

variable (args) in
/-- A character that is displayed. -/
theorem round_literal (hl : IsString format l) (hlen : l.length < 2 ^ 31) {c : UInt8}
    (h : At l s (c :: rest)) (hc : c ≠ '%'.toUInt8) :
    ∃ t, (∀ inner, round format args inner s.look = some t) ∧ At l t rest ∧
      t.list = s.list ∧ t.displayed = s.displayed ++ [c] := by
  have hchar : s.look.char format = c := h.char_eq hl
  refine ⟨(s.look.look.display [c]).next, fun inner => ?_, ?_, rfl, rfl⟩
  · rw [round, hchar, if_neg hc]
  · exact (h.look.look.congr rfl rfl : At l (s.look.look.display [c]) (c :: rest)).next hlen

variable (args) in
/-- A conversion: the scan, the specifier and the `++i` behind it. -/
theorem round_conversion (hl : IsString format l) (hlen : l.length < 2 ^ 31)
    (h : At l s ('%'.toUInt8 :: rest)) :
    ∃ x, Stands l s.look.look.next x (scanText args s.list rest) ∧ ∀ inner,
      (∀ t, round format args inner s.look = some t →
        (convert args x.2 (x.1.char format) x.1.look).map State.next = some t) ∧
      (l.length < inner → round format args inner s.look =
        (convert args x.2 (x.1.char format) x.1.look).map State.next) := by
  have hchar : s.look.char format = '%'.toUInt8 := h.char_eq hl
  obtain ⟨x, hx, hyields⟩ := scan_yields args hl hlen (h.look.look.next hlen)
  have hround : ∀ inner, round format args inner s.look =
      (scan format args inner s.look.look.next).bind fun x =>
        (convert args x.2 (x.1.char format) x.1.look).map State.next := by
    intro inner
    simp only [round, if_pos hchar, Option.map_eq_bind]
    rfl
  refine ⟨x, hx, fun inner => ⟨fun t ht => ?_, fun henough => ?_⟩⟩
  · rw [hround, Option.bind_eq_some_iff] at ht
    obtain ⟨y, hy, hconvert⟩ := ht
    rw [(hyields inner).only y hy] at hconvert
    exact hconvert
  · rw [hround, (hyields inner).some henough, Option.bind_some]

/-- Behind a conversion that returns the loop goes on with the rest. -/
theorem at_of_convert (hlen : l.length < 2 ^ 31) {c : UInt8} {x : State × Conversion} {p : Place}
    {s₀ t : State} (hx : Stands l s₀ x p) (htext : p.text = c :: rest)
    (h : convert args x.2 c x.1.look = some t) :
    At l t.next rest ∧ t.next.list = p.list + uses p.v c := by
  have hconverted := convert_converted h
  have hhere := htext ▸ hx.here.look
  refine ⟨(hhere.congr hconverted.i hconverted.reads).next hlen, ?_⟩
  have hlist : t.list = x.1.list + uses x.2 c := hconverted.list
  rw [hx.list, hx.v] at hlist
  exact hlist

/-- A format with complete conversions is printed. -/
theorem returns_of_complete (hl : IsString format l) (hlen : l.length < 2 ^ 31) {n : Nat}
    (h : Complete args n rest) (hfloat : NoFloat args n rest) (hs : At l s rest)
    (hn : s.list = n) :
    ∃ bound t, At l t [] ∧ ∀ inner outer, l.length < inner → bound < outer →
      vprintfFrom format args inner outer s = some t := by
  induction h generalizing s with
  | nil n =>
    refine ⟨0, s.look, hs.look, fun inner outer _ houter => ?_⟩
    obtain ⟨outer, rfl⟩ := Nat.exists_eq_succ_of_ne_zero (Nat.ne_of_gt houter)
    exact vprintfFrom_nil hl hs inner outer
  | @literal n c rest hc h ih =>
    obtain ⟨u, hu, hat, hlist, -⟩ := round_literal args hl hlen hs hc
    obtain ⟨bound, t, hend, ht⟩ := ih (hfloat.of_literal hc) hat (hlist.trans hn)
    exact ⟨bound + 1, t, hend, vprintfFrom_of_round hl hs (fun inner _ => hu inner) ht⟩
  | cut hcut hP =>
    obtain ⟨d, hd, -⟩ := hP
    cases hd
  | @conversion n rest c rest' hc hP h ih =>
    subst hn
    obtain ⟨x, hx, hround⟩ := round_conversion args hl hlen hs
    have hchar : x.1.char format = c := by
      rw [hx.here.char_eq hl, hc, List.headD_cons]
    obtain ⟨d, hd, hfits⟩ := hP
    obtain rfl := Option.some.inj hd
    obtain ⟨hkind, hfloat'⟩ := hfloat.of_conversion hc
    have hreturns : ∃ u, convert args x.2 c x.1.look = some u := by
      refine (convert_returns_iff (hkind c rfl)).mpr ?_
      show Fits args x.2 c x.1.list
      rw [hx.v, hx.list]
      exact hfits
    obtain ⟨u, hu⟩ := hreturns
    obtain ⟨hat, hlist⟩ := at_of_convert hlen hx hc hu
    obtain ⟨bound, t, hend, ht⟩ := ih hfloat' hat hlist
    refine ⟨bound + 1, t, hend, vprintfFrom_of_round hl hs (fun inner hinner => ?_) ht⟩
    rw [(hround inner).2 hinner, hchar, hu, Option.map_some]

/-! ### What has been read stays read -/

section Keeps

variable {k : Int32} {x x' : State × Conversion} {fuel : Nat}

theorem reads_skipWhile {step : UInt8 → Conversion → Option Conversion}
    (h : skipWhile format step fuel x = some x') (hk : k ∈ x.1.reads) : k ∈ x'.1.reads := by
  refine whileFuel_keeps (P := fun x => k ∈ x.1.reads) (fun y b y' hy hkept => ?_)
    (fun y y' hy hkept => ?_) h hk
  · have hlook : y'.1 = y.1.look := by
      cases hstep : step (y.1.char format) y.2 <;> rw [hstep] at hy <;> cases hy <;> rfl
    rw [hlook]
    exact List.mem_cons_of_mem _ hkept
  · cases hy
    exact hkept

variable (format args) in
theorem reads_star (set : Int32 → Conversion → Conversion) (hk : k ∈ x.1.reads) :
    k ∈ (star format args set x).1.reads := by
  unfold star
  split <;> exact List.mem_cons_of_mem _ hk

theorem reads_precision (h : precision format args fuel x = some x') (hk : k ∈ x.1.reads) :
    k ∈ x'.1.reads := by
  unfold precision at h
  split at h
  · obtain ⟨y, hy, rfl⟩ := Option.map_eq_some_iff.mp h
    exact reads_star format args _ (reads_skipWhile hy (List.mem_cons_of_mem _ hk))
  · cases h
    exact List.mem_cons_of_mem _ hk

theorem reads_lengthModifier (hk : k ∈ x.1.reads) : k ∈ (lengthModifier format x).1.reads := by
  have hlook : k ∈ x.1.look.reads := List.mem_cons_of_mem _ hk
  unfold lengthModifier
  split
  · exact hlook
  · dsimp only
    split
    · exact List.mem_cons_of_mem _ hlook
    · split <;> exact List.mem_cons_of_mem _ hlook

theorem reads_scan (h : scan format args fuel s = some x) (hk : k ∈ s.reads) :
    k ∈ x.1.reads := by
  obtain ⟨x₁, h₁, h⟩ := Option.bind_eq_some_iff.mp h
  obtain ⟨x₂, h₂, h⟩ := Option.bind_eq_some_iff.mp h
  obtain ⟨x₃, h₃, h⟩ := Option.bind_eq_some_iff.mp h
  cases h
  have hflags := reads_skipWhile h₁ hk
  have hwidth := reads_star format args setWidth (reads_skipWhile h₂ hflags)
  exact reads_lengthModifier (reads_precision h₃ hwidth)

theorem reads_round (h : round format args fuel s = some s') (hk : k ∈ s.reads) :
    k ∈ s'.reads := by
  unfold round at h
  split at h
  · obtain ⟨x, hx, h⟩ := Option.bind_eq_some_iff.mp h
    obtain ⟨t, ht, h⟩ := Option.bind_eq_some_iff.mp h
    cases h
    have hscan : k ∈ x.1.reads := reads_scan hx (List.mem_cons_of_mem _ hk)
    show k ∈ t.reads
    rw [(convert_converted ht).reads]
    exact List.mem_cons_of_mem _ hscan
  · cases h
    exact List.mem_cons_of_mem _ hk

theorem reads_vprintfFrom (h : vprintfFrom format args inner outer s = some s')
    (hk : k ∈ s.reads) : k ∈ s'.reads := by
  refine whileFuel_keeps (P := fun t => k ∈ t.reads) (fun t b t' ht hkept => ?_)
    (fun t t' ht hkept => reads_round ht hkept) h hk
  cases ht
  exact List.mem_cons_of_mem _ hkept

/-- The loop looks at the index from which it goes on. -/
theorem index_mem_reads (h : vprintfFrom format args inner outer s = some s') :
    s.i ∈ s'.reads := by
  cases outer with
  | zero => cases h
  | succ outer =>
    have hlook : s.i ∈ s.look.reads := List.mem_cons_self
    rw [vprintfFrom_succ] at h
    split at h
    · cases h
      exact hlook
    · obtain ⟨t, ht, hrest⟩ := Option.bind_eq_some_iff.mp h
      exact reads_vprintfFrom hrest (reads_round ht hlook)

end Keeps

/-- Behind a conversion without a specifier, `vprintf` reads outside its format. -/
theorem reads_of_cut (hl : IsString format l) (hlen : l.length < 2 ^ 31)
    (h : vprintfFrom format args inner outer s = some s') (hs : At l s ('%'.toUInt8 :: rest))
    (hcut : (scanText args s.list rest).text = []) :
    ∃ k ∈ s'.reads, ¬ (0 ≤ k.toInt ∧ k.toInt ≤ l.length) := by
  cases outer with
  | zero => cases h
  | succ outer =>
    rw [vprintfFrom_cons hl hs, Option.bind_eq_some_iff] at h
    obtain ⟨u, hu, hrest⟩ := h
    obtain ⟨x, hx, hround⟩ := round_conversion args hl hlen hs
    have hchar : x.1.char format = 0 := by
      rw [hx.here.char_eq hl, hcut, List.headD_nil]
    have hindex : x.1.i.toInt = l.length := by
      rw [hx.here.index_le, hcut, List.length_nil, Int.natCast_zero, Int.sub_zero]
    have hconvert := (hround inner).1 u hu
    -- the zero is no specifier that the switch knows
    rw [hchar] at hconvert
    cases hconvert
    have hone : (1 : Int32).toInt = 1 := rfl
    have hbehind : (x.1.i + 1).toInt = ((l.length : Int) + 1).bmod (2 ^ 32) := by
      rw [Int32.toInt_add, hone, hindex]
    refine ⟨x.1.i + 1, index_mem_reads hrest, ?_⟩
    rw [hbehind]
    rw [Int.bmod_def]
    omega

/-- The loop ends at a zero.  A format that it has not left ends there, and an `int`
has counted its characters. -/
theorem length_lt_of_returns (hl : IsString format l)
    (h : vprintfFrom format args inner outer s = some s')
    (hreads : ∀ k ∈ s'.reads, 0 ≤ k.toInt ∧ k.toInt ≤ l.length) : l.length < 2 ^ 31 := by
  obtain ⟨t, ht⟩ := whileFuel_exit h
  obtain ⟨hzero, rfl⟩ : (t.char format != 0) = false ∧ t.look = s' :=
    Prod.mk.inj (Option.some.inj ht)
  obtain ⟨hnonneg, hle⟩ := hreads t.i List.mem_cons_self
  have hbound := t.i.toInt_lt
  obtain ⟨k, hk⟩ := Int.eq_ofNat_of_zero_le hnonneg
  by_contra hlong
  have hklt : k < l.length := by omega
  have hchar : t.char format = l[k] := by
    rw [State.char, hk, hl.char k (Nat.le_of_lt hklt), List.getD_eq_getElem?_getD,
      List.getElem?_eq_getElem hklt, Option.getD_some]
  rw [hchar] at hzero
  refine hl.noZero ?_
  rw [← bne_eq_false_iff_eq.mp hzero]
  exact List.getElem_mem hklt

/-- A format that is printed, without a read outside, has complete conversions. -/
theorem complete_of_returns (hl : IsString format l) (hlen : l.length < 2 ^ 31)
    (h : vprintfFrom format args inner outer s = some s')
    (hreads : ∀ k ∈ s'.reads, 0 ≤ k.toInt ∧ k.toInt ≤ l.length) (hs : At l s rest)
    (hfloat : NoFloat args s.list rest) : Complete args s.list rest := by
  induction outer generalizing s rest with
  | zero => cases h
  | succ outer ih =>
    cases rest with
    | nil => exact .nil _
    | cons c rest =>
      have h' := h
      rw [vprintfFrom_cons hl hs, Option.bind_eq_some_iff] at h'
      obtain ⟨u, hu, hrest⟩ := h'
      cases hfloat with
      | literal hc hfloat =>
        obtain ⟨t, ht, hat, hlist, -⟩ := round_literal args hl hlen hs hc
        rw [ht inner] at hu
        cases hu
        rw [← hlist] at hfloat ⊢
        exact .literal hc (ih hrest hat hfloat)
      | cut hcut _ =>
        obtain ⟨k, hk, hout⟩ := reads_of_cut hl hlen h hs hcut
        exact absurd (hreads k hk) hout
      | @conversion _ _ c rest' hc hP hfloat =>
        obtain ⟨x, hx, hround⟩ := round_conversion args hl hlen hs
        have hchar : x.1.char format = c := by
          rw [hx.here.char_eq hl, hc, List.headD_cons]
        have hconvert := (hround inner).1 u hu
        rw [hchar, Option.map_eq_some_iff] at hconvert
        obtain ⟨t, ht, rfl⟩ := hconvert
        obtain ⟨hat, hlist⟩ := at_of_convert hlen hx hc ht
        have hfits := (convert_returns_iff (hP c rfl)).mp ⟨t, ht⟩
        have hfits' : Fits args (scanText args s.list rest).v c
            (scanText args s.list rest).list := by
          rw [← hx.v, ← hx.list]
          exact hfits
        rw [← hlist] at hfloat
        refine .conversion hc ⟨c, rfl, hfits'⟩ ?_
        rw [← hlist]
        exact ih hrest hat hfloat

end Rounds

/-- The loop starts before the whole format. -/
theorem at_initial (l : List UInt8) : At l State.initial l :=
  ⟨⟨[], rfl, rfl⟩, fun _ hk => absurd hk List.not_mem_nil⟩

/-- `vprintf` reads its format only, and returns, if and only if the format has fewer
than `2 ^ 31` characters, each of its conversions has a specifier, and the arguments of
the conversions fit. -/
theorem readsInside_iff {format : Int → UInt8} {args : Arguments} {l : List UInt8}
    (hl : IsString format l) (hfloat : NoFloat args 0 l) :
    ReadsInside format args l.length ↔ l.length < 2 ^ 31 ∧ Complete args 0 l := by
  constructor
  · rintro ⟨fuel, s, hs, hreads⟩
    have hlen := length_lt_of_returns hl hs hreads
    exact ⟨hlen, complete_of_returns hl hlen hs hreads (at_initial l) hfloat⟩
  · rintro ⟨hlen, hcomplete⟩
    obtain ⟨bound, t, hat, ht⟩ := returns_of_complete hl hlen hcomplete hfloat (at_initial l) rfl
    refine ⟨max l.length bound + 1, t, ?_, hat.reads⟩
    exact ht _ _ (Nat.lt_succ_of_le (Nat.le_max_left _ _))
      (Nat.lt_succ_of_le (Nat.le_max_right _ _))

/-- A memory that holds the characters `t` at the pointer, and zeros elsewhere. -/
def memoryOf (t : List UInt8) (k : Int) : UInt8 := if 0 ≤ k then t.getD k.toNat 0 else 0

theorem isString_memoryOf {l : List UInt8} (hl : 0 ∉ l) (behind : List UInt8) :
    IsString (memoryOf (l ++ 0 :: behind)) l where
  char := by
    intro k hk
    rw [memoryOf, if_pos (Int.natCast_nonneg k), Int.toNat_natCast]
    simp only [List.getD_eq_getElem?_getD]
    rcases Nat.lt_or_eq_of_le hk with hlt | rfl
    · rw [List.getElem?_append_left hlt]
    · rw [List.getElem?_append_right (Nat.le_refl _), Nat.sub_self,
        List.getElem?_eq_none (Nat.le_refl _)]
      rfl
  noZero := hl

/-- One argument, the number 42. -/
def fortyTwo : Arguments where
  slot _ := 42
  string _ := []

/-- The format `%5d`, before the character `A`. -/
theorem readsInside_fiveD :
    ReadsInside (memoryOf (chars ['%', '5', 'd'] ++ 0 :: chars ['A'])) fortyTwo 3 := by
  have hl : IsString _ (chars ['%', '5', 'd']) := isString_memoryOf (by decide) (chars ['A'])
  have hscan : (scanText fortyTwo 0 (chars ['5', 'd'])).text = 'd'.toUInt8 :: [] := by
    decide +kernel
  have hfits : Fits fortyTwo (scanText fortyTwo 0 (chars ['5', 'd'])).v 'd'.toUInt8 0 := by
    intro i hi
    cases hi
    decide +kernel
  have hfloat : NoFloat fortyTwo 0 (chars ['%', '5', 'd']) := by
    refine .conversion hscan (fun d hd => ?_) (.nil _)
    cases hd
    decide
  exact (readsInside_iff hl hfloat).mpr
    ⟨by decide, .conversion hscan ⟨_, rfl, hfits⟩ (.nil _)⟩

/-- The format `%`, before the character `A`: `vprintf` reads the `A` and prints it. -/
theorem not_readsInside_percent :
    IsString (memoryOf (chars ['%'] ++ 0 :: chars ['A'])) (chars ['%']) ∧
      NoFloat fortyTwo 0 (chars ['%']) ∧
      ¬ ReadsInside (memoryOf (chars ['%'] ++ 0 :: chars ['A'])) fortyTwo 1 ∧
      (vprintf (memoryOf (chars ['%'] ++ 0 :: chars ['A'])) fortyTwo 4).map State.displayed =
        some (chars ['A']) := by
  have hl : IsString _ (chars ['%']) := isString_memoryOf (by decide) (chars ['A'])
  refine ⟨hl, .cut rfl (fun d hd => nomatch hd), ?_, by decide +kernel⟩
  rintro ⟨fuel, s, hs, hreads⟩
  obtain ⟨k, hk, hout⟩ := reads_of_cut hl (by decide) hs (at_initial _) rfl
  exact hout (hreads k hk)

end Printf

end BbnOS
