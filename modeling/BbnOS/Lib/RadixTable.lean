import Mathlib.Data.List.Induction
import Mathlib.Order.Nat
import Mathlib.Tactic.Common

/-!
# Radix tables in a shared memory

A radix table is a tree of tables of a fixed depth.  The tables live in frames
of one memory `ent`, which gives the entry of every frame and index.  An entry
is empty, or it is present and then refers to a frame (`next`): to the table of
the next level, or, in a table of the last level, to what the tree maps to.

`table path` is the frame of the table that a path of indices leads to, and
`leaf path i` the present entry that it finds there.  The frames are shared
memory, so two updates may get in each other's way.  `Separated` rules this
out: different paths lead to different frames.

An update of one entry then changes no table of another path
(`table_of_update`).  The two updates of a builder are linking an empty table
into an empty entry, which changes no leaf (`leaf_link`), and storing an entry
of the last level, which changes that leaf only (`leaf_store_self`,
`leaf_store_of_ne`).  Both keep the tree separated.
-/

namespace RadixTable

variable {F I E : Type} (next : E → Option F)

/-- The frame of the table at the end of a path. -/
def table (ent : F → I → E) (root : F) (path : List I) : Option F :=
  path.foldlM (fun f i => next (ent f i)) root

/-- The present entry that a path finds at an index of its table. -/
def leaf (ent : F → I → E) (root : F) (path : List I) (i : I) : Option E :=
  (table next ent root path).bind fun f =>
    if (next (ent f i)).isSome then some (ent f i) else none

/-- Different paths of at most `depth` indices lead to different frames. -/
def Separated (depth : Nat) (ent : F → I → E) (root : F) : Prop :=
  ∀ p q f, p.length ≤ depth → q.length ≤ depth →
    table next ent root p = some f → table next ent root q = some f → p = q

/-- The frame is the table of some path. -/
def Reached (depth : Nat) (ent : F → I → E) (root : F) (f : F) : Prop :=
  ∃ p, p.length ≤ depth ∧ table next ent root p = some f

variable {next} {ent ent' : F → I → E} {root f g : F} {depth : Nat} {path p q : List I} {i j : I}

@[simp] theorem table_nil : table next ent root ([] : List I) = some root := rfl

theorem table_concat :
    table next ent root (path ++ [i]) =
      (table next ent root path).bind fun f => next (ent f i) := by
  rw [table, List.foldlM_append]
  simp only [List.foldlM_cons, List.foldlM_nil, bind_pure]
  rfl

theorem table_append :
    table next ent root (path ++ q) =
      (table next ent root path).bind fun f => table next ent f q := by
  rw [table, List.foldlM_append]
  rfl

/-- A path behind an empty entry leads nowhere. -/
theorem table_eq_none_of_extends (hp : table next ent root p = some f)
    (hi : next (ent f i) = none) (hq : p ++ [i] <+: q) : table next ent root q = none := by
  obtain ⟨rest, rfl⟩ := hq
  rw [table_append, table_concat, hp, Option.bind_some, hi]
  rfl

theorem leaf_of_table (hp : table next ent root path = some f) :
    leaf next ent root path i =
      if (next (ent f i)).isSome then some (ent f i) else none := by
  rw [leaf, hp, Option.bind_some]

theorem leaf_of_table_none (hp : table next ent root path = none) :
    leaf next ent root path i = none := by
  rw [leaf, hp, Option.bind_none]

/-- The update of one entry: all other entries of the tables of the tree stay
as they are. -/
def Keeps (next : E → Option F) (depth : Nat) (ent ent' : F → I → E) (root f : F) (i : I) : Prop :=
  ∀ g, Reached next depth ent root g → ∀ j, ¬ (g = f ∧ j = i) → ent' g j = ent g j

/-- An update of entry `i` in the table of `p` changes no table but those
behind this entry. -/
theorem table_of_update (hsep : Separated next depth ent root)
    (hp : table next ent root p = some f) (hlen : p.length ≤ depth)
    (hkeep : Keeps next depth ent ent' root f i) (hq : q.length ≤ depth)
    (hout : ¬ p ++ [i] <+: q) : table next ent' root q = table next ent root q := by
  induction q using List.reverseRecOn with
  | nil => rfl
  | append_singleton q j ih =>
    rw [List.length_append, List.length_singleton] at hq
    have hq' := ih (by omega) fun hpre => hout (hpre.trans (List.prefix_append _ _))
    rw [table_concat, table_concat, hq']
    rcases hg : table next ent root q with _ | g
    · rfl
    · rw [Option.bind_some, Option.bind_some]
      rw [hkeep g ⟨q, by omega, hg⟩ j]
      rintro ⟨rfl, rfl⟩
      obtain rfl := hsep p q g hlen (by omega) hp hg
      exact hout (List.prefix_refl _)

/-! ## The same tree in another memory -/

section Congr

variable (hent : ∀ g, Reached next depth ent root g → ∀ j, ent' g j = ent g j)

include hent

/-- Two memories that agree on the tables of the tree have the same tables. -/
theorem table_congr (hq : q.length ≤ depth) :
    table next ent' root q = table next ent root q := by
  induction q using List.reverseRecOn with
  | nil => rfl
  | append_singleton q j ih =>
    rw [List.length_append, List.length_singleton] at hq
    rw [table_concat, table_concat, ih (by omega)]
    rcases hg : table next ent root q with _ | g
    · rfl
    · rw [Option.bind_some, Option.bind_some, hent g ⟨q, by omega, hg⟩ j]

theorem reached_congr : Reached next depth ent' root f ↔ Reached next depth ent root f := by
  constructor
  · rintro ⟨q, hq, hg⟩
    exact ⟨q, hq, (table_congr hent hq).symm.trans hg⟩
  · rintro ⟨q, hq, hg⟩
    exact ⟨q, hq, (table_congr hent hq).trans hg⟩

theorem separated_congr (hsep : Separated next depth ent root) :
    Separated next depth ent' root := by
  intro p q f hp hq htp htq
  rw [table_congr hent hp] at htp
  rw [table_congr hent hq] at htq
  exact hsep p q f hp hq htp htq

theorem leaf_congr (hpath : path.length ≤ depth) :
    leaf next ent' root path i = leaf next ent root path i := by
  have htable := table_congr hent hpath
  rcases hg : table next ent root path with _ | g
  · rw [leaf_of_table_none hg, leaf_of_table_none (htable.trans hg)]
  · rw [leaf_of_table hg, leaf_of_table (htable.trans hg), hent g ⟨path, hpath, hg⟩ i]

end Congr

/-! ## The empty tree -/

section Empty

variable (hempty : ∀ i, next (ent root i) = none)

include hempty

/-- An empty root has no tables behind it. -/
theorem table_of_empty {path : List I} (hpath : path ≠ []) :
    table next ent root path = none := by
  obtain ⟨i, rest, rfl⟩ := List.exists_cons_of_ne_nil hpath
  exact table_eq_none_of_extends (p := []) table_nil (hempty i) ⟨rest, rfl⟩

theorem separated_of_empty : Separated next depth ent root := by
  have hnil : ∀ p f, table next ent root p = some f → p = [] := by
    intro p f hp
    by_contra hne
    rw [table_of_empty hempty hne] at hp
    cases hp
  intro p q f _ _ hp hq
  rw [hnil p f hp, hnil q f hq]

theorem reached_of_empty (hreached : Reached next depth ent root f) : f = root := by
  obtain ⟨p, _, hp⟩ := hreached
  by_cases hne : p = []
  · rw [hne, table_nil] at hp
    exact (Option.some.inj hp).symm
  · rw [table_of_empty hempty hne] at hp
    cases hp

end Empty

/-! ## Linking an empty table -/

section Link

variable (hsep : Separated next depth ent root) (hp : table next ent root p = some f)
  (hlen : p.length < depth) (hempty : next (ent f i) = none)
  (hkeep : Keeps next depth ent ent' root f i) (hnew : next (ent' f i) = some g)
  (hzero : ∀ j, next (ent' g j) = none)

include hsep hp hlen hkeep hnew

/-- The new table is found at its path. -/
theorem table_link_self : table next ent' root (p ++ [i]) = some g := by
  have hp' : table next ent' root p = some f := by
    rw [table_of_update hsep hp hlen.le hkeep hlen.le, hp]
    intro hpre
    have := hpre.length_le
    rw [List.length_append, List.length_singleton] at this
    omega
  rw [table_concat, hp', Option.bind_some, hnew]

include hempty hzero

/-- No other path leads to another table than before. -/
theorem table_link_of_ne (hq : q.length ≤ depth) (hne : q ≠ p ++ [i]) :
    table next ent' root q = table next ent root q := by
  by_cases hpre : p ++ [i] <+: q
  · -- behind the new table, which is empty
    obtain ⟨rest, rfl⟩ := hpre
    rcases rest with _ | ⟨j, rest⟩
    · exact absurd (List.append_nil _) hne
    · have hself := table_link_self hsep hp hlen hkeep hnew
      rw [table_eq_none_of_extends hp hempty (List.prefix_append _ _)]
      exact table_eq_none_of_extends hself (hzero j) ⟨rest, by simp⟩
  · exact table_of_update hsep hp hlen.le hkeep hq hpre

/-- Every table is the new one or was there before. -/
theorem reached_link {h : F} (hreached : Reached next depth ent' root h) :
    h = g ∨ Reached next depth ent root h := by
  obtain ⟨q, hq, htable⟩ := hreached
  by_cases hself : q = p ++ [i]
  · rw [hself, table_link_self hsep hp hlen hkeep hnew] at htable
    exact Or.inl (Option.some.inj htable).symm
  · rw [table_link_of_ne hsep hp hlen hempty hkeep hnew hzero hq hself] at htable
    exact Or.inr ⟨q, hq, htable⟩

/-- The tree stays separated when the frame of the new table is fresh. -/
theorem separated_link (hfresh : ¬ Reached next depth ent root g) :
    Separated next depth ent' root := by
  have hself := table_link_self hsep hp hlen hkeep hnew
  intro q r h hq hr htq htr
  by_cases hqs : q = p ++ [i] <;> by_cases hrs : r = p ++ [i]
  · rw [hqs, hrs]
  · rw [hqs, hself] at htq
    obtain rfl := Option.some.inj htq
    rw [table_link_of_ne hsep hp hlen hempty hkeep hnew hzero hr hrs] at htr
    exact absurd ⟨r, hr, htr⟩ hfresh
  · rw [hrs, hself] at htr
    obtain rfl := Option.some.inj htr
    rw [table_link_of_ne hsep hp hlen hempty hkeep hnew hzero hq hqs] at htq
    exact absurd ⟨q, hq, htq⟩ hfresh
  · rw [table_link_of_ne hsep hp hlen hempty hkeep hnew hzero hq hqs] at htq
    rw [table_link_of_ne hsep hp hlen hempty hkeep hnew hzero hr hrs] at htr
    exact hsep q r h hq hr htq htr

/-- A new table changes no leaf. -/
theorem leaf_link (hpath : path.length = depth) :
    leaf next ent' root path j = leaf next ent root path j := by
  by_cases hself : path = p ++ [i]
  · rw [leaf_of_table (hself ▸ table_link_self hsep hp hlen hkeep hnew),
      leaf_of_table_none (hself ▸ table_eq_none_of_extends hp hempty (List.prefix_refl _)),
      hzero j]
    rfl
  · have htable := table_link_of_ne hsep hp hlen hempty hkeep hnew hzero hpath.le hself
    rcases hg : table next ent root path with _ | h
    · rw [leaf_of_table_none hg, leaf_of_table_none (htable.trans hg)]
    · rw [leaf_of_table hg, leaf_of_table (htable.trans hg), hkeep h ⟨path, hpath.le, hg⟩ j]
      rintro ⟨rfl, _⟩
      have := hsep p path h hlen.le hpath.le hp hg
      rw [this, hpath] at hlen
      exact Nat.lt_irrefl _ hlen

end Link

/-! ## Storing a leaf -/

section Store

variable (hsep : Separated next depth ent root) (hp : table next ent root p = some f)
  (hlen : p.length = depth) (hkeep : Keeps next depth ent ent' root f i)

include hsep hp hlen hkeep

/-- A store into a table of the last level changes no table. -/
theorem table_store (hq : q.length ≤ depth) :
    table next ent' root q = table next ent root q := by
  refine table_of_update hsep hp hlen.le hkeep hq fun hpre => ?_
  have := hpre.length_le
  rw [List.length_append, List.length_singleton] at this
  omega

theorem reached_store {h : F} (hreached : Reached next depth ent' root h) :
    Reached next depth ent root h := by
  obtain ⟨q, hq, htable⟩ := hreached
  rw [table_store hsep hp hlen hkeep hq] at htable
  exact ⟨q, hq, htable⟩

theorem separated_store : Separated next depth ent' root := by
  intro q r h hq hr htq htr
  rw [table_store hsep hp hlen hkeep hq] at htq
  rw [table_store hsep hp hlen hkeep hr] at htr
  exact hsep q r h hq hr htq htr

/-- The stored leaf is found at its path and index. -/
theorem leaf_store_self (hpresent : (next (ent' f i)).isSome = true) :
    leaf next ent' root p i = some (ent' f i) := by
  rw [leaf_of_table ((table_store hsep hp hlen hkeep hlen.le).trans hp), if_pos hpresent]

/-- A store changes no other leaf. -/
theorem leaf_store_of_ne (hpath : path.length = depth) (hne : ¬ (path = p ∧ j = i)) :
    leaf next ent' root path j = leaf next ent root path j := by
  have htable := table_store hsep hp hlen hkeep hpath.le
  rcases hg : table next ent root path with _ | h
  · rw [leaf_of_table_none hg, leaf_of_table_none (htable.trans hg)]
  · rw [leaf_of_table hg, leaf_of_table (htable.trans hg), hkeep h ⟨path, hpath.le, hg⟩ j]
    rintro ⟨rfl, rfl⟩
    exact hne ⟨hsep path p h hpath.le hlen.le hg hp, rfl⟩

end Store

end RadixTable
