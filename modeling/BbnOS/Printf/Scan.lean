import BbnOS.Printf.Vprintf

/-!
# Formats as lists

The scanner of `vprintf` once more, on the list of the characters that are left of
a format: `scanText` says which conversion the characters behind a `%` make, and
what is left behind it.  A format that ends inside a conversion leaves nothing.

`scan_yields` connects the two.  `At` says that the index stands before the rest
of the format, and that nothing was read but the format and its zero.
-/

namespace BbnOS

namespace Printf

open Loop

/-! ## Scanning a list -/

/-- What is left of a format, the number of arguments taken, and the conversion. -/
structure Place where
  text : List UInt8
  list : Nat
  v : Conversion

/-- A loop over characters of one kind. -/
def skipText (step : UInt8 → Conversion → Option Conversion) :
    List UInt8 → Conversion → List UInt8 × Conversion
  | [], v => ([], v)
  | c :: l, v =>
    match step c v with
    | some v' => skipText step l v'
    | none => (c :: l, v)

/-- A loop over characters of one kind, at a place. -/
def Place.skip (step : UInt8 → Conversion → Option Conversion) (p : Place) : Place :=
  { p with text := (skipText step p.text p.v).1, v := (skipText step p.text p.v).2 }

/-- A `*`. -/
def Place.star (args : Arguments) (set : Int32 → Conversion → Conversion) (p : Place) : Place :=
  match p.text with
  | c :: l =>
    if c = '*'.toUInt8 then { text := l, list := p.list + 1, v := set (args.int p.list) p.v }
    else p
  | [] => p

/-- The precision. -/
def Place.precision (args : Arguments) (p : Place) : Place :=
  match p.text with
  | c :: l =>
    if c = '.'.toUInt8 then (Place.skip precDigit { p with text := l }).star args setPrec
    else { p with v := setPrec 6 p.v }
  | [] => { p with v := setPrec 6 p.v }

/-- The length, behind its first character. -/
def Place.longer (length : Length) (p : Place) : Place :=
  match p.text with
  | c :: l =>
    if c = 'h'.toUInt8 then { p with v := { p.v with length := .H } }
    else if c = 'l'.toUInt8 then { p with text := l, v := { p.v with length := .q } }
    else { p with v := { p.v with length := length } }
  | [] => { p with v := { p.v with length := length } }

/-- The length. -/
def Place.lengthModifier (p : Place) : Place :=
  match p.text with
  | c :: l =>
    match lengthOf c with
    | some length => Place.longer length { p with text := l }
    | none => p
  | [] => p

/-- The conversion that the characters behind a `%` make, with `n` arguments taken
before. -/
def scanText (args : Arguments) (n : Nat) (l : List UInt8) : Place :=
  (((({ text := l, list := n, v := Conversion.initial } : Place).skip flag).skip
    widthDigit).star args setWidth).precision args |>.lengthModifier

/-! ## The format in memory -/

/-- The characters at the pointer are the list, and then a zero. -/
structure IsString (format : Int → UInt8) (l : List UInt8) : Prop where
  char : ∀ k : Nat, k ≤ l.length → format k = l.getD k 0
  noZero : 0 ∉ l

/-- The index is before the characters `rest` of the format, and nothing was read but
the format and its zero. -/
structure At (l : List UInt8) (s : State) (rest : List UInt8) : Prop where
  index : ∃ front, l = front ++ rest ∧ s.i.toInt = front.length
  reads : ∀ k ∈ s.reads, 0 ≤ k.toInt ∧ k.toInt ≤ l.length

/-- An answer that does not depend on the fuel, once it is `enough`. -/
structure Yields {α : Type} (answer : Option α) (enough : Prop) (x : α) : Prop where
  only : ∀ y, answer = some y → y = x
  some : enough → answer = some x

theorem Yields.bind {α β : Type} {answer : Option α} {enough : Prop} {x : α}
    {f : α → Option β} {y : β} (h : Yields answer enough x) (hf : Yields (f x) enough y) :
    Yields (answer.bind f) enough y where
  only := by
    intro z hz
    obtain ⟨w, hw, hfw⟩ := Option.bind_eq_some_iff.mp hz
    rw [h.only w hw] at hfw
    exact hf.only z hfw
  some := by
    intro henough
    rw [h.some henough, Option.bind_some, hf.some henough]

theorem Yields.mono {α : Type} {answer : Option α} {enough enough' : Prop} {x : α}
    (h : Yields answer enough x) (himp : enough' → enough) : Yields answer enough' x :=
  ⟨h.only, fun henough => h.some (himp henough)⟩

theorem Yields.none {α : Type} (k : Nat) (x : α) : Yields Option.none (k < 0) x :=
  ⟨fun _ h => (Option.some_ne_none _ h.symm).elim,
    fun henough => absurd henough (Nat.not_lt_zero k)⟩

theorem Yields.pure {α : Type} (enough : Prop) (x : α) : Yields (Option.some x) enough x :=
  ⟨fun _ h => (Option.some.inj h).symm, fun _ => rfl⟩

/-- The scan of a conversion that started in `s₀` is at a place of the list. -/
structure Stands (l : List UInt8) (s₀ : State) (x : State × Conversion) (p : Place) : Prop where
  here : At l x.1 p.text
  list : x.1.list = p.list
  v : x.2 = p.v
  chars : x.1.chars = s₀.chars
  displayed : x.1.displayed = s₀.displayed
  stores : x.1.stores = s₀.stores

section At

variable {format : Int → UInt8} {args : Arguments} {l rest : List UInt8} {c : UInt8} {s : State}

theorem At.index_le (h : At l s rest) : s.i.toInt = l.length - rest.length := by
  obtain ⟨front, rfl, hi⟩ := h.index
  rw [hi, List.length_append]
  omega

theorem At.length_le (h : At l s rest) : rest.length ≤ l.length := by
  obtain ⟨front, rfl, -⟩ := h.index
  rw [List.length_append]
  omega

/-- The character at the index: the first one of the rest, or the zero. -/
theorem At.char_eq (h : At l s rest) (hl : IsString format l) : s.char format = rest.headD 0 := by
  obtain ⟨front, hfront, hi⟩ := h.index
  have hle : front.length ≤ l.length := by
    rw [hfront, List.length_append]
    omega
  rw [State.char, hi, hl.char _ hle, hfront, List.getD_eq_getElem?_getD,
    List.getElem?_append_right (Nat.le_refl _), Nat.sub_self]
  cases rest <;> rfl

theorem At.ne_zero (h : At l s (c :: rest)) (hl : IsString format l) : c ≠ 0 := by
  obtain ⟨front, rfl, -⟩ := h.index
  intro heq
  exact hl.noZero (by simp [heq])

theorem At.look (h : At l s rest) : At l s.look rest where
  index := h.index
  reads := by
    intro k hk
    rcases List.mem_cons.mp hk with rfl | hk
    · rw [h.index_le]
      have := h.length_le
      omega
    · exact h.reads k hk

theorem At.next (h : At l s (c :: rest)) (hlen : l.length < 2 ^ 31) : At l s.next rest where
  index := by
    obtain ⟨front, rfl, hi⟩ := h.index
    refine ⟨front ++ [c], by simp, ?_⟩
    have hone : (1 : Int32).toInt = 1 := rfl
    rw [List.length_append, List.length_cons] at hlen
    show (s.i + 1).toInt = _
    rw [Int32.toInt_add, hone, hi, Int.bmod_eq_of_le (by omega) (by omega), List.length_append]
    rfl
  reads := h.reads

theorem At.congr {s' : State} (h : At l s rest) (hi : s'.i = s.i) (hreads : s'.reads = s.reads) :
    At l s' rest where
  index := by
    rw [hi]
    exact h.index
  reads := by
    rw [hreads]
    exact h.reads

end At

/-! ## Both scanners -/

section Scan

variable {format : Int → UInt8} {args : Arguments} {l : List UInt8} {s₀ : State}
  {x : State × Conversion} {p : Place} {step : UInt8 → Conversion → Option Conversion}

theorem Stands.look (h : Stands l s₀ x p) : Stands l s₀ (x.1.look, x.2) p :=
  ⟨h.here.look, h.list, h.v, h.chars, h.displayed, h.stores⟩

/-- A character is stepped over. -/
theorem Stands.next (h : Stands l s₀ x p) (hlen : l.length < 2 ^ 31) {c : UInt8}
    {t : List UInt8} (htext : p.text = c :: t) (v : Conversion) :
    Stands l s₀ (x.1.look.next, v) { p with text := t, v := v } :=
  ⟨(htext ▸ h.here.look).next hlen, h.list, rfl, h.chars, h.displayed, h.stores⟩

theorem Stands.setConversion (h : Stands l s₀ x p) (v : Conversion) :
    Stands l s₀ (x.1.look, v) { p with v := v } :=
  ⟨h.here.look, h.list, rfl, h.chars, h.displayed, h.stores⟩

/-- The loop stops at a character that it does not know. -/
theorem skipWhile_stop (hstep : step (x.1.char format) x.2 = none) (n fuel : Nat) :
    Yields (skipWhile format step fuel x) (n < fuel) (x.1.look, x.2) := by
  cases fuel with
  | zero => exact Yields.none _ _
  | succ fuel =>
    have hstop : skipWhile format step (fuel + 1) x = some (x.1.look, x.2) := by
      rw [skipWhile, whileFuel, hstep]
    rw [hstop]
    exact Yields.pure _ _

/-- The loop goes on behind a character that it knows. -/
theorem skipWhile_go {v : Conversion} (hstep : step (x.1.char format) x.2 = some v) (fuel : Nat) :
    skipWhile format step (fuel + 1) x = skipWhile format step fuel (x.1.look.next, v) := by
  rw [skipWhile, whileFuel, hstep]
  rfl

variable (step) in
/-- The loops over one kind of characters, which the zero is not. -/
theorem skipWhile_yields (hl : IsString format l) (hlen : l.length < 2 ^ 31)
    (hstep : ∀ v, step 0 v = none) (h : Stands l s₀ x p) :
    ∃ x', Stands l s₀ x' (p.skip step) ∧
      ∀ fuel, Yields (skipWhile format step fuel x) (p.text.length < fuel) x' := by
  obtain ⟨text, n, v⟩ := p
  induction text generalizing x v with
  | nil =>
    refine ⟨(x.1.look, x.2), h.look, skipWhile_stop ?_ _⟩
    rw [h.here.char_eq hl, List.headD_nil, hstep]
  | cons c text ih =>
    have hchar := h.here.char_eq hl
    rw [List.headD_cons] at hchar
    have hv : x.2 = v := h.v
    cases hc : step c v with
    | none =>
      have hskip : Place.skip step ⟨c :: text, n, v⟩ = ⟨c :: text, n, v⟩ := by
        simp only [Place.skip, skipText, hc]
      rw [hskip]
      refine ⟨(x.1.look, x.2), h.look, skipWhile_stop ?_ _⟩
      rw [hchar, hv, hc]
    | some v' =>
      have hskip : Place.skip step ⟨c :: text, n, v⟩ = Place.skip step ⟨text, n, v'⟩ := by
        simp only [Place.skip, skipText, hc]
      obtain ⟨x', hx', hyields⟩ := ih v' (h.next hlen rfl v')
      rw [hskip]
      refine ⟨x', hx', fun fuel => ?_⟩
      cases fuel with
      | zero => exact Yields.none _ _
      | succ fuel =>
        rw [skipWhile_go (v := v') (by rw [hchar, hv, hc])]
        exact (hyields fuel).mono Nat.lt_of_succ_lt_succ

theorem Stands.star (hl : IsString format l) (hlen : l.length < 2 ^ 31) (h : Stands l s₀ x p)
    (set : Int32 → Conversion → Conversion) :
    Stands l s₀ (star format args set x) (p.star args set) := by
  obtain ⟨text, n, v⟩ := p
  have hlist : x.1.list = n := h.list
  have hv : x.2 = v := h.v
  unfold Printf.star Place.star
  cases text with
  | nil =>
    have hchar : x.1.char format = 0 := h.here.char_eq hl
    rw [hchar, if_neg (by decide)]
    exact h.look
  | cons c t =>
    have hchar : x.1.char format = c := h.here.char_eq hl
    rw [hchar]
    by_cases hc : c = '*'.toUInt8
    · have hnext := h.next hlen rfl v
      rw [if_pos hc, hlist, hv]
      dsimp only
      rw [if_pos hc]
      exact ⟨hnext.here.congr rfl rfl, congrArg (· + 1) hlist, rfl, h.chars, h.displayed,
        h.stores⟩
    · rw [if_neg hc]
      dsimp only
      rw [if_neg hc]
      exact h.look

variable (args) in
theorem precision_yields (hl : IsString format l) (hlen : l.length < 2 ^ 31)
    (h : Stands l s₀ x p) :
    ∃ x', Stands l s₀ x' (p.precision args) ∧
      ∀ fuel, Yields (precision format args fuel x) (l.length < fuel) x' := by
  obtain ⟨text, n, v⟩ := p
  have hv : x.2 = v := h.v
  have hplain := h.setConversion (setPrec 6 v)
  unfold precision Place.precision
  rw [hv]
  cases text with
  | nil =>
    have hchar : x.1.char format = 0 := h.here.char_eq hl
    refine ⟨_, hplain, fun fuel => ?_⟩
    rw [hchar, if_neg (by decide)]
    exact Yields.pure _ _
  | cons c t =>
    have hchar : x.1.char format = c := h.here.char_eq hl
    dsimp only
    by_cases hc : c = '.'.toUInt8
    · obtain ⟨x', hx', hyields⟩ := skipWhile_yields precDigit hl hlen
        (fun v => rfl) (h.next hlen rfl v)
      rw [if_pos hc]
      refine ⟨_, hx'.star hl hlen setPrec, fun fuel => ?_⟩
      rw [hchar, if_pos hc, Option.map_eq_bind]
      refine ((hyields fuel).mono fun henough => ?_).bind (Yields.pure _ _)
      have hle : (c :: t).length ≤ l.length := h.here.length_le
      rw [List.length_cons] at hle
      exact Nat.lt_trans hle henough
    · rw [if_neg hc]
      refine ⟨_, hplain, fun fuel => ?_⟩
      rw [hchar, if_neg hc]
      exact Yields.pure _ _

theorem Stands.lengthModifier (hl : IsString format l) (hlen : l.length < 2 ^ 31)
    (h : Stands l s₀ x p) : Stands l s₀ (lengthModifier format x) p.lengthModifier := by
  obtain ⟨text, n, v⟩ := p
  have hv : x.2 = v := h.v
  unfold Printf.lengthModifier Place.lengthModifier
  cases text with
  | nil =>
    have hchar : x.1.char format = 0 := h.here.char_eq hl
    have hnul : lengthOf 0 = none := by decide
    rw [hchar, hnul]
    exact h.look
  | cons c t =>
    have hchar : x.1.char format = c := h.here.char_eq hl
    rw [hchar]
    cases hlength : lengthOf c with
    | none =>
      dsimp only
      rw [hlength]
      exact h.look
    | some length =>
      have hnext := h.next hlen rfl v
      dsimp only
      rw [hlength, hv]
      unfold Place.longer
      cases t with
      | nil =>
        have hchar' : x.1.look.next.char format = 0 := hnext.here.char_eq hl
        rw [hchar', if_neg (by decide), if_neg (by decide)]
        exact hnext.setConversion _
      | cons c' t =>
        have hchar' : x.1.look.next.char format = c' := hnext.here.char_eq hl
        rw [hchar']
        dsimp only
        by_cases hh : c' = 'h'.toUInt8
        · rw [if_pos hh, if_pos hh]
          exact hnext.setConversion _
        · rw [if_neg hh, if_neg hh]
          by_cases hll : c' = 'l'.toUInt8
          · rw [if_pos hll, if_pos hll]
            exact hnext.next hlen rfl _
          · rw [if_neg hll, if_neg hll]
            exact hnext.setConversion _

variable (args) in
/-- The scan of a conversion stops where the list says, once the fuel is more than the
length of the format. -/
theorem scan_yields (hl : IsString format l) (hlen : l.length < 2 ^ 31) {s : State}
    {rest : List UInt8} (h : At l s rest) :
    ∃ x', Stands l s x' (scanText args s.list rest) ∧
      ∀ fuel, Yields (scan format args fuel s) (l.length < fuel) x' := by
  have hstart : Stands l s (s, Conversion.initial) ⟨rest, s.list, Conversion.initial⟩ :=
    ⟨h, rfl, rfl, rfl, rfl, rfl⟩
  obtain ⟨x₁, h₁, hyields₁⟩ := skipWhile_yields flag hl hlen (fun v => rfl) hstart
  obtain ⟨x₂, h₂, hyields₂⟩ := skipWhile_yields widthDigit hl hlen (fun v => rfl) h₁
  obtain ⟨x₃, h₃, hyields₃⟩ := precision_yields args hl hlen (h₂.star hl hlen setWidth)
  refine ⟨_, h₃.lengthModifier hl hlen, fun fuel => ?_⟩
  refine ((hyields₁ fuel).mono fun henough => ?_).bind <|
    ((hyields₂ fuel).mono fun henough => ?_).bind <| (hyields₃ fuel).bind (Yields.pure _ _)
  · exact Nat.lt_of_le_of_lt h.length_le henough
  · exact Nat.lt_of_le_of_lt h₁.here.length_le henough

end Scan

end Printf

end BbnOS
