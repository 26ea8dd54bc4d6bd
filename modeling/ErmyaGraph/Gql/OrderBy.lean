import ErmyaGraph.Gql.Pipeline

/-! # Rows in order

The sorts of the executors come to one stable sort by the values of the ORDER BY
items. It puts the rows in order where the values of an item are of one kind. -/

namespace ErmyaGraph.Gql

open Sorting List

/-- The kinds of values that have an order. -/
inductive Kind where
  | bool
  | int
  | float
  | str
deriving DecidableEq, Repr

def GqlValue.kind : GqlValue → Option Kind
  | .bool _ => some .bool
  | .int _ => some .int
  | .float _ => some .float
  | .str _ => some .str
  | _ => none

section Order

variable (evaluators : Evaluators)

/-- Null comes after every other value. Values that are not compared have no order. -/
def compareValues (left right : GqlValue) : Option Ordering :=
  match left, right with
  | .null, .null => some .eq
  | .null, _ => some .gt
  | _, .null => some .lt
  | _, _ => gqlValueCmp evaluators.rowwise left right

/-- In the lexicographic order of the items the one row comes strictly after the other. -/
def StrictlyAfter (left right : Expr → GqlValue) : List OrderItem → Prop
  | [] => False
  | item :: rest => ∃ compared, compareValues evaluators (left item.expr) (right item.expr) =
      some compared ∧ (directed item compared = .gt ∨
        directed item compared = .eq ∧ StrictlyAfter left right rest)

def InOrder {α : Type} (value : α → Expr → GqlValue) (order : List OrderItem) (rows : List α) :
    Prop :=
  rows.Pairwise fun earlier later => ¬StrictlyAfter evaluators (value earlier) (value later) order

/-- Apart from nulls the values of every item are of one kind, or all are without an order. -/
def OneKind {α : Type} (value : α → Expr → GqlValue) (order : List OrderItem) (rows : List α) :
    Prop :=
  ∀ item ∈ order, ∃ kind, ∀ row ∈ rows,
    (value row item.expr).isNull ∨ (value row item.expr).kind = kind

/-- An item is null for all rows or for none. -/
def NullForAll {α : Type} (value : α → Expr → GqlValue) (order : List OrderItem) (rows : List α) :
    Prop :=
  ∀ item ∈ order, ∀ row ∈ rows, ∀ row' ∈ rows,
    (value row item.expr).isNull = (value row' item.expr).isNull

/-- The comparison of rows by the values of the items. -/
def byValues {α : Type} (value : α → Expr → GqlValue) (order : List OrderItem) (a b : α) :
    Ordering :=
  compareItems (fun item => compareSortKeys evaluators (value a item.expr) (value b item.expr))
    order

variable {evaluators}

theorem compareSortKeys_eq (left right : GqlValue) :
    compareSortKeys evaluators left right = (compareValues evaluators left right).getD .eq := by
  cases left <;> cases right <;> rfl

theorem StrictlyAfter.compareItems {left right : Expr → GqlValue} {order : List OrderItem}
    (after : StrictlyAfter evaluators left right order) :
    compareItems (fun item => compareSortKeys evaluators (left item.expr) (right item.expr)) order =
      .gt := by
  induction order with
  | nil => cases after
  | cons item rest ih =>
    obtain ⟨compared, decided, after⟩ := after
    rw [Gql.compareItems, compareSortKeys_eq, decided, Option.getD_some]
    rcases after with greater | ⟨equal, after⟩
    · rw [greater]
      rfl
    · rw [equal]
      exact ih after

variable {value : GqlValue}

theorem GqlValue.eq_null_of_isNull (null : value.isNull) : value = .null := by
  cases value <;> first | rfl | cases null

theorem compareSortKeys_null (value? : value.isNull = false) :
    compareSortKeys evaluators value .null = .lt ∧ compareSortKeys evaluators .null value = .gt := by
  cases value <;> first | exact ⟨rfl, rfl⟩ | cases value?

theorem compareSortKeys_of_isNull_eq {left right : GqlValue}
    (same : left.isNull = right.isNull) : compareSortKeys evaluators left right =
      (gqlValueCmp evaluators.rowwise left right).getD .eq := by
  cases left <;> cases right <;> first | rfl | simp [GqlValue.isNull] at same

theorem consistent_of_rank {β : Type} [Ord β] [Std.TransOrd β] {s : GqlValue → Prop}
    (rank : GqlValue → β)
    (ranks : ∀ {a b}, s a → s b → a.isNull = false → b.isNull = false →
      (gqlValueCmp evaluators.rowwise a b).getD .eq = compare (rank a) (rank b)) :
    Consistent (compareSortKeys evaluators) s := by
  have nulls : Consistent (fun a b : GqlValue => compare a.isNull b.isNull) s :=
    .of_compare GqlValue.isNull
  have ranked : Consistent (fun a b : GqlValue =>
      compare (if a.isNull then none else some (rank a)) (if b.isNull then none else some (rank b)))
      s := .of_compare fun a => if a.isNull then none else some (rank a)
  refine (nulls.andThen ranked).congr fun {a b} first second => ?_
  cases left : a.isNull <;> cases right : b.isNull
  · rw [compareSortKeys_of_isNull_eq (left.trans right.symm), ranks first second left right]
    rfl
  · rw [GqlValue.eq_null_of_isNull right, (compareSortKeys_null left).1]
    rfl
  · rw [GqlValue.eq_null_of_isNull left, (compareSortKeys_null right).2]
    rfl
  · rw [GqlValue.eq_null_of_isNull left, GqlValue.eq_null_of_isNull right]
    rfl

def floatBits : GqlValue → UInt64
  | .float bits => bits
  | _ => 0

def boolOf : GqlValue → Bool
  | .bool value => value
  | _ => false

def intOf : GqlValue → Int
  | .int value => value
  | _ => 0

def strOf : GqlValue → String
  | .str value => value
  | _ => ""

theorem consistent_kind (kind : Option Kind) :
    Consistent (compareSortKeys evaluators) fun value => value.isNull ∨ value.kind = kind := by
  have ordered {β : Type} [Ord β] [Std.TransOrd β] (rank : GqlValue → β)
      (ranks : ∀ {a b : GqlValue}, a.kind = kind → b.kind = kind → a.isNull = false →
        b.isNull = false →
        (gqlValueCmp evaluators.rowwise a b).getD .eq = compare (rank a) (rank b)) :
      Consistent (compareSortKeys evaluators) fun value => value.isNull ∨ value.kind = kind :=
    consistent_of_rank rank fun first second left right =>
      ranks (first.resolve_left (by simp [left])) (second.resolve_left (by simp [right])) left right
  cases kind with
  | none =>
    refine ordered (fun _ => ()) fun {a b} first second _ _ => ?_
    cases a <;> cases first <;> cases b <;> cases second <;> rfl
  | some kind =>
    cases kind with
    | bool =>
      refine ordered boolOf fun {a b} first second _ _ => ?_
      cases a <;> cases first
      cases b <;> cases second
      rfl
    | int =>
      refine ordered intOf fun {a b} first second _ _ => ?_
      cases a <;> cases first
      cases b <;> cases second
      rfl
    | float =>
      refine ordered (fun value => floatRank (floatBits value)) fun {a b} first second _ _ => ?_
      cases a <;> cases first
      cases b <;> cases second
      rfl
    | str =>
      refine ordered strOf fun {a b} first second _ _ => ?_
      cases a <;> cases first
      cases b <;> cases second
      rfl

section Sorts

variable {α β : Type} {value : α → Expr → GqlValue} {order : List OrderItem} {rows : List α}

theorem consistent_items {compared : OrderItem → α → α → Ordering} {s : α → Prop}
    (each : ∀ item ∈ order, Consistent (compared item) s) :
    Consistent (fun a b => compareItems (fun item => compared item a b) order) s := by
  induction order with
  | nil => exact .of_compare fun _ => ()
  | cons item rest ih =>
    have later := ih fun item mem => each item (.tail _ mem)
    have here := each item mem_cons_self
    refine Consistent.andThen ?_ later
    unfold directed
    cases item.ascending
    · exact here.reverse
    · exact here

theorem consistent_byValues (kinds : OneKind value order rows) :
    Consistent (byValues evaluators value order) (· ∈ rows) :=
  consistent_items fun item mem => by
    obtain ⟨kind, all⟩ := kinds item mem
    exact (consistent_kind kind).comap (fun row => value row item.expr) fun inside => all _ inside

theorem sortBy_inOrder (kinds : OneKind value order rows) :
    InOrder evaluators value order (sortBy (byValues evaluators value order) rows) :=
  (sortBy_sorted (consistent_byValues kinds) fun _ => id).imp fun notGreater after =>
    notGreater after.compareItems

theorem orderByKeys_eq :
    orderByKeys evaluators value order rows = sortBy (byValues evaluators value order) rows := by
  unfold orderByKeys
  split
  · next trivially =>
      rcases Bool.or_eq_true_iff.mp trivially with empty | empty
      · rw [List.isEmpty_iff.mp empty]
        rfl
      · rw [List.isEmpty_iff.mp empty]
        refine (sortBy_of_ne_lt ?_).symm
        exact fun _ _ => nofun
  · exact applyPermutation_sortBy (byValues evaluators value order) rows

theorem sortByColumns_eq {items : List ReturnItem} {project : α → GqlRow}
    (columns : ∀ item ∈ order, ∀ row ∈ rows,
      project row (orderColumn evaluators items item) = some (value row item.expr))
    (nulls : NullForAll value order rows) :
    sortByColumns evaluators items order (rows.map project) =
      (sortBy (byValues evaluators value order) rows).map project := by
  rw [sortByColumns, sortBy_map]
  refine congrArg (List.map project) (sortBy_congr fun a first b second => ?_)
  unfold byValues
  induction order with
  | nil => rfl
  | cons item rest ih =>
    have here := columns item mem_cons_self
    dsimp only at ih ⊢
    rw [compareItems, compareItems, here a first, here b second, Option.getD_some, Option.getD_some,
      compareSortKeys_of_isNull_eq (nulls item mem_cons_self a first b second),
      ih (fun item mem => columns item (mem_cons_of_mem _ mem))
        fun item mem => nulls item (.tail _ mem)]

end Sorts

section Distinct

variable {α β : Type} {key : α → String}

theorem retainDistinct_sublist (seen : List String) (rows : List α) :
    (retainDistinct key seen rows).Sublist rows := by
  induction rows generalizing seen with
  | nil => exact .slnil
  | cons row rest ih =>
    rw [retainDistinct]
    split
    · exact (ih seen).cons row
    · exact (ih _).cons_cons row

variable {seen : List String} {rows : List α}

theorem key_notMem_seen {row : α} (mem : row ∈ retainDistinct key seen rows) :
    key row ∉ seen := by
  induction rows generalizing seen with
  | nil => cases mem
  | cons first rest ih =>
    rw [retainDistinct] at mem
    split at mem
    · exact ih mem
    · next new =>
        rcases mem_cons.mp mem with rfl | later
        · exact new
        · exact fun inside => ih later (.tail _ inside)

theorem nodup_retainDistinct (seen : List String) (rows : List α) :
    (retainDistinct key seen rows).Nodup := by
  induction rows generalizing seen with
  | nil => exact .nil
  | cons row rest ih =>
    rw [retainDistinct]
    split
    · exact ih seen
    · exact nodup_cons.mpr ⟨fun again => key_notMem_seen again mem_cons_self, ih _⟩

theorem exists_retainDistinct {row : α} (mem : row ∈ rows) (new : key row ∉ seen) :
    ∃ kept ∈ retainDistinct key seen rows, key kept = key row := by
  induction rows generalizing seen with
  | nil => cases mem
  | cons first rest ih =>
    rw [retainDistinct]
    split
    · next old =>
        rcases mem_cons.mp mem with rfl | later
        · exact absurd old new
        · exact ih later new
    · by_cases same : key first = key row
      · exact ⟨first, .head _, same⟩
      · rcases mem_cons.mp mem with rfl | later
        · exact absurd rfl same
        · have new' : key row ∉ key first :: seen := by simpa [new] using Ne.symm same
          obtain ⟨kept, inside, equal⟩ := ih later new'
          exact ⟨kept, .tail _ inside, equal⟩

theorem retainDistinct_perm {rows' : List α} (perm : rows.Perm rows')
    (tells : ∀ a ∈ rows, ∀ b ∈ rows, key a = key b → a = b) :
    (retainDistinct key [] rows).Perm (retainDistinct key [] rows') := by
  have kept {rows : List α} (tells : ∀ a ∈ rows, ∀ b ∈ rows, key a = key b → a = b) (row : α) :
      row ∈ retainDistinct key [] rows ↔ row ∈ rows := by
    refine ⟨fun mem => (retainDistinct_sublist [] rows).subset mem, fun mem => ?_⟩
    have new : key row ∉ [] := not_mem_nil
    obtain ⟨other, inside, same⟩ := exists_retainDistinct mem new
    exact tells other ((retainDistinct_sublist [] rows).subset inside) row mem same ▸ inside
  rw [perm_ext_iff_of_nodup (nodup_retainDistinct _ _) (nodup_retainDistinct _ _)]
  intro row
  rw [kept tells, kept fun a first b second =>
    tells a (perm.mem_iff.mpr first) b (perm.mem_iff.mpr second), perm.mem_iff]

theorem retainDistinct_map {key : β → String} (f : α → β) (seen : List String) (rows : List α) :
    retainDistinct key seen (rows.map f) = (retainDistinct (key ∘ f) seen rows).map f := by
  induction rows generalizing seen with
  | nil => rfl
  | cons row rest ih =>
    rw [map_cons, retainDistinct, retainDistinct, ih, ih, Function.comp_apply]
    split <;> rfl

end Distinct

end Order

end ErmyaGraph.Gql
