import ErmyaGraph.Lib.DebugText

/-! # The order of the entries of maps

A map that comes from a hash table has its entries in some order. Trees that are
the same but for such orders are written differently as soon as one of their maps
has two entries. -/

namespace DebugText

open List

variable {t t' : Tree}

/-- The entries of one map, somewhere in a tree, change places. -/
inductive Step : Tree → Tree → Prop where
  | table {entries entries' : List (String × Tree)} (perm : entries.Perm entries') :
      Step (.table entries) (.table entries')
  | item {t t' : Tree} (front back : List Tree) (step : Step t t') :
      Step (.list (front ++ t :: back)) (.list (front ++ t' :: back))
  | entry {t t' : Tree} (front : List (String × Tree)) (key : String)
      (back : List (String × Tree)) (step : Step t t') :
      Step (.table (front ++ (key, t) :: back)) (.table (front ++ (key, t') :: back))
  | left {t t' : Tree} (right : Tree) (step : Step t t') : Step (.pair t right) (.pair t' right)
  | right {t t' : Tree} (left : Tree) (step : Step t t') : Step (.pair left t) (.pair left t')
  | inner {t t' : Tree} (name : Word) (step : Step t t') :
      Step (.variant name t) (.variant name t')
  | field {t t' : Tree} (name : Word) (front : List (Word × Tree)) (label : Word)
      (back : List (Word × Tree)) (step : Step t t') :
      Step (.record name (front ++ (label, t) :: back))
        (.record name (front ++ (label, t') :: back))

/-- The same but for the order in which the entries of maps come. -/
def Reordered : Tree → Tree → Prop := Relation.ReflTransGen Step

/-- Some map in a tree, with whatever is in it, is of a kind. -/
inductive Holds (kind : List (String × Tree) → Prop) : Tree → Prop where
  | table {entries : List (String × Tree)} (here : kind entries) : Holds kind (.table entries)
  | item {t : Tree} (front back : List Tree) (deep : Holds kind t) :
      Holds kind (.list (front ++ t :: back))
  | entry {t : Tree} (front : List (String × Tree)) (key : String) (back : List (String × Tree))
      (deep : Holds kind t) : Holds kind (.table (front ++ (key, t) :: back))
  | left {t : Tree} (right : Tree) (deep : Holds kind t) : Holds kind (.pair t right)
  | right {t : Tree} (left : Tree) (deep : Holds kind t) : Holds kind (.pair left t)
  | inner {t : Tree} (name : Word) (deep : Holds kind t) : Holds kind (.variant name t)
  | field {t : Tree} (name : Word) (front : List (Word × Tree)) (label : Word)
      (back : List (Word × Tree)) (deep : Holds kind t) :
      Holds kind (.record name (front ++ (label, t) :: back))

def Wide : Tree → Prop := Holds fun entries => 2 ≤ entries.length

def Keyed (t : Tree) : Prop := ¬Holds (fun entries => ¬(entries.map Prod.fst).Nodup) t

section Holds

variable {kind : List (String × Tree) → Prop}

@[simp]
theorem holds_word (word : Word) : ¬Holds kind (.word word) := nofun

@[simp]
theorem holds_str (text : String) : ¬Holds kind (.str text) := nofun

@[simp]
theorem holds_list {items : List Tree} : Holds kind (.list items) ↔ ∃ t ∈ items, Holds kind t := by
  constructor
  · intro holds
    generalize same : Tree.list items = t at holds
    cases holds <;> cases same
    exact ⟨_, mem_append_right _ mem_cons_self, ‹_›⟩
  · rintro ⟨t, mem, deep⟩
    obtain ⟨front, back, rfl⟩ := append_of_mem mem
    exact .item front back deep

@[simp]
theorem holds_table {entries : List (String × Tree)} :
    Holds kind (.table entries) ↔ kind entries ∨ ∃ entry ∈ entries, Holds kind entry.2 := by
  constructor
  · intro holds
    generalize same : Tree.table entries = t at holds
    cases holds <;> cases same
    · exact .inl ‹_›
    · exact .inr ⟨_, mem_append_right _ mem_cons_self, ‹_›⟩
  · rintro (here | ⟨⟨key, value⟩, mem, deep⟩)
    · exact .table here
    · obtain ⟨front, back, rfl⟩ := append_of_mem mem
      exact .entry front key back deep

@[simp]
theorem holds_pair {left right : Tree} :
    Holds kind (.pair left right) ↔ Holds kind left ∨ Holds kind right := by
  constructor
  · intro holds
    cases holds with
    | left _ deep => exact .inl deep
    | right _ deep => exact .inr deep
  · rintro (deep | deep)
    · exact .left right deep
    · exact .right left deep

@[simp]
theorem holds_variant {name : Word} {inner : Tree} :
    Holds kind (.variant name inner) ↔ Holds kind inner := by
  constructor
  · intro holds
    cases holds with
    | inner _ deep => exact deep
  · exact .inner name

@[simp]
theorem holds_record {name : Word} {fields : List (Word × Tree)} :
    Holds kind (.record name fields) ↔ ∃ field ∈ fields, Holds kind field.2 := by
  constructor
  · intro holds
    generalize same : Tree.record name fields = t at holds
    cases holds <;> cases same
    exact ⟨_, mem_append_right _ mem_cons_self, ‹_›⟩
  · rintro ⟨⟨label, value⟩, mem, deep⟩
    obtain ⟨front, back, rfl⟩ := append_of_mem mem
    exact .field name front label back deep

end Holds

theorem Step.symm (step : Step t t') : Step t' t := by
  induction step with
  | table perm => exact .table perm.symm
  | item front back _ ih => exact .item front back ih
  | entry front key back _ ih => exact .entry front key back ih
  | left right _ ih => exact .left right ih
  | right left _ ih => exact .right left ih
  | inner name _ ih => exact .inner name ih
  | field name front label back _ ih => exact .field name front label back ih

namespace Reordered

theorem refl (t : Tree) : Reordered t t := Relation.ReflTransGen.refl

theorem symm (same : Reordered t t') : Reordered t' t := by
  induction same with
  | refl => exact refl t
  | tail _ step ih => exact .head step.symm ih

theorem trans {t'' : Tree} (first : Reordered t t') (second : Reordered t' t'') :
    Reordered t t'' := Relation.ReflTransGen.trans first second

end Reordered

theorem Step.eq_of_not_wide (step : Step t t') (narrow : ¬Wide t) : t = t' := by
  induction step with
  | @table entries entries' perm =>
    have few : entries.length < 2 := not_le.mp fun wide => narrow (.table wide)
    rcases entries with _ | ⟨entry, _ | ⟨second, rest⟩⟩
    · rw [nil_perm.mp perm]
    · rw [singleton_perm.mp perm]
    · simp only [length_cons] at few
      omega
  | item front back _ ih => rw [ih fun wide => narrow (.item front back wide)]
  | entry front key back _ ih => rw [ih fun wide => narrow (.entry front key back wide)]
  | left right _ ih => rw [ih fun wide => narrow (.left right wide)]
  | right left _ ih => rw [ih fun wide => narrow (.right left wide)]
  | inner name _ ih => rw [ih fun wide => narrow (.inner name wide)]
  | field name front label back _ ih =>
    rw [ih fun wide => narrow (.field name front label back wide)]

theorem Reordered.eq_of_not_wide (same : Reordered t t') (narrow : ¬Wide t) : t = t' := by
  induction same with
  | refl => rfl
  | tail _ step ih =>
    subst ih
    exact step.eq_of_not_wide narrow

/-- A map of two entries can come in another order. -/
theorem exists_step_ne (wide : Wide t) (keyed : Keyed t) : ∃ t', Step t t' ∧ t' ≠ t := by
  induction wide with
  | @table entries long =>
    rcases entries with _ | ⟨first, _ | ⟨second, rest⟩⟩
    · simp at long
    · simp at long
    · refine ⟨_, .table (.swap second first rest), fun same => ?_⟩
      have keys : ((first :: second :: rest).map Prod.fst).Nodup :=
        by_contra fun twice => keyed (.table twice)
      rw [map_cons, nodup_cons] at keys
      injection same with lists
      rw [← (List.cons.inj lists).1] at keys
      exact keys.1 mem_cons_self
  | item front back _ ih =>
    obtain ⟨t', step, other⟩ := ih fun twice => keyed (.item front back twice)
    refine ⟨_, .item front back step, fun same => other ?_⟩
    injection same with lists
    exact (List.cons.inj (append_cancel_left lists)).1
  | entry front key back _ ih =>
    obtain ⟨t', step, other⟩ := ih fun twice => keyed (.entry front key back twice)
    refine ⟨_, .entry front key back step, fun same => other ?_⟩
    injection same with lists
    exact (Prod.ext_iff.mp (List.cons.inj (append_cancel_left lists)).1).2
  | left right _ ih =>
    obtain ⟨t', step, other⟩ := ih fun twice => keyed (.left right twice)
    refine ⟨_, .left right step, fun same => other ?_⟩
    injection same
  | right left _ ih =>
    obtain ⟨t', step, other⟩ := ih fun twice => keyed (.right left twice)
    refine ⟨_, .right left step, fun same => other ?_⟩
    injection same
  | inner name _ ih =>
    obtain ⟨t', step, other⟩ := ih fun twice => keyed (.inner name twice)
    refine ⟨_, .inner name step, fun same => other ?_⟩
    injection same
  | field name front label back _ ih =>
    obtain ⟨t', step, other⟩ := ih fun twice => keyed (.field name front label back twice)
    refine ⟨_, .field name front label back step, fun same => other ?_⟩
    injection same with _ lists
    exact (Prod.ext_iff.mp (List.cons.inj (append_cancel_left lists)).1).2

/-- Two trees are told apart by what is written, in whatever order their maps come, exactly when
they do not hold a map of two entries where they are the same. -/
theorem render_eq_iff_reordered (plain : Char → Bool) (keyed : Keyed t) :
    (∀ s s', Reordered t s → Reordered t' s' →
      (render plain s = render plain s' ↔ Reordered t t')) ↔ (Reordered t t' → ¬Wide t) := by
  constructor
  · intro told same wide
    obtain ⟨u, step, other⟩ := exists_step_ne wide keyed
    have written := (told u t (.single step) same.symm).mpr same
    exact other (render_injective written)
  · intro narrow s s' order order'
    constructor
    · intro written
      have trees := render_injective written
      subst trees
      exact order.trans order'.symm
    · intro same
      have few := narrow same
      have first := order.eq_of_not_wide few
      have second := (same.trans order').eq_of_not_wide few
      rw [← first, ← second]

end DebugText
