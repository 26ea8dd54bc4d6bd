import ErmyaGraph.Lib.EntryOrder
import ErmyaGraph.Gql.GroupKeys
import ErmyaGraph.Gql.OrderBy

/-! # Keys that are debug texts

DISTINCT and GROUP BY outside of a pipeline compare rows by the texts that their
values are written out to for debugging. Where a value holds a map, the entries
are in the order in which a hash table gives them out. -/

namespace ErmyaGraph.Gql

open DebugText List

/-- How floats are written, and which characters are shown as they are. -/
structure DebugFormat where
  float : UInt64 → Word
  plain : Char → Bool

def word (text : String) (isWord : text.toList ≠ [] ∧ text.toList.all isWordChar = true) : Word :=
  ⟨text.toList, isWord.1, all_eq_true.mp isWord.2⟩

def intTree (value : Int) : Tree := .word (.ofInt value)

def boolTree (value : Bool) : Tree :=
  .word (if value then word "true" (by decide) else word "false" (by decide))

section Format

variable (format : DebugFormat)

def propertyTree : Property → Tree
  | .i64 value => .variant (word "Int" (by decide)) (intTree value.toInt)
  | .f64 bits => .variant (word "Float" (by decide)) (.word (format.float bits))
  | .string value => .variant (word "Str" (by decide)) (.str value)
  | .bool value => .variant (word "Bool" (by decide)) (boolTree value)
  | .bytes _ => .word (word "Null" (by decide))

def propsTree (properties : Properties) : Tree :=
  .table (properties.entries.map fun entry => (entry.1, propertyTree format entry.2))

def nodeTree (node : Node) : Tree :=
  .record (word "GqlNode" (by decide))
    [(word "id" (by decide), intTree (asI64 node.id)),
      (word "labels" (by decide), .list [.str node.label]),
      (word "props" (by decide), propsTree format node.properties)]

def relationshipTree (edge : Edge) : Tree :=
  .record (word "GqlRelationship" (by decide))
    [(word "id" (by decide), intTree (asI64 edge.id)),
      (word "start_id" (by decide), intTree (asI64 edge.source)),
      (word "end_id" (by decide), intTree (asI64 edge.target)),
      (word "rel_type" (by decide), .str edge.label),
      (word "props" (by decide), propsTree format edge.properties)]

def pathTree (path : GqlPath) : Tree :=
  .record (word "GqlPath" (by decide))
    [(word "nodes" (by decide), .list (path.nodes.map (nodeTree format))),
      (word "rels" (by decide), .list (path.rels.map (relationshipTree format)))]

mutual

def debugTree : GqlValue → Tree
  | .null => .word (word "Null" (by decide))
  | .bool value => .variant (word "Bool" (by decide)) (boolTree value)
  | .int value => .variant (word "Int" (by decide)) (intTree value)
  | .float bits => .variant (word "Float" (by decide)) (.word (format.float bits))
  | .str value => .variant (word "Str" (by decide)) (.str value)
  | .list items => .variant (word "List" (by decide)) (.list (debugTrees items))
  | .map entries => .variant (word "Map" (by decide)) (.table (debugEntries entries))
  | .node node => .variant (word "Node" (by decide)) (nodeTree format node)
  | .relationship edge => .variant (word "Relationship" (by decide)) (relationshipTree format edge)
  | .path path => .variant (word "Path" (by decide)) (pathTree format path)

def debugTrees : List GqlValue → List Tree
  | [] => []
  | item :: rest => debugTree item :: debugTrees rest

def debugEntries : List (String × GqlValue) → List (String × Tree)
  | [] => []
  | (key, value) :: rest => (key, debugTree value) :: debugEntries rest

end

/-- DISTINCT writes the columns with their names, in order of the names, and GROUP BY the values
that rows are grouped by. -/
inductive KeyForm where
  | distinct (columns : List String)
  | groupBy

def keyTree (form : KeyForm) (values : List GqlValue) : Tree :=
  match form with
  | .distinct columns =>
    .list (List.zipWith (fun column tree => .pair (.str column) tree) columns
      (debugTrees format values))
  | .groupBy => .list (debugTrees format values)

def debugKey (tree : Tree) : String := String.ofList (render format.plain tree)

end Format

section Keys

variable {α : Type} {key key' : α → String}

theorem retainDistinct_congr (same : ∀ i j, key i = key j ↔ key' i = key' j) (rows : List α) :
    ∀ seen seen' : List String, (∀ i, key i ∈ seen ↔ key' i ∈ seen') →
      retainDistinct key seen rows = retainDistinct key' seen' rows := by
  induction rows with
  | nil => exact fun _ _ _ => rfl
  | cons row rest ih =>
    intro seen seen' known
    rw [retainDistinct, retainDistinct]
    by_cases before : key row ∈ seen
    · rw [if_pos before, if_pos ((known row).mp before), ih seen seen' known]
    · rw [if_neg before, if_neg fun later => before ((known row).mpr later)]
      congr 1
      apply ih
      intro i
      rw [mem_cons, mem_cons, known, same]

/-- Groups of the same rows under keys that fit each other. -/
def Parallel (key key' : α → String) (group group' : String × List α) : Prop :=
  group.2 = group'.2 ∧ ∃ row, group.1 = key row ∧ group'.1 = key' row

theorem addToGroup_parallel (same : ∀ i j, key i = key j ↔ key' i = key' j) (row : α)
    {groups groups' : List (String × List α)}
    (parallel : List.Forall₂ (Parallel key key') groups groups') :
    List.Forall₂ (Parallel key key') (addToGroup (key row) row groups)
      (addToGroup (key' row) row groups') := by
  induction parallel with
  | nil => exact .cons ⟨rfl, row, rfl, rfl⟩ .nil
  | @cons group group' rest rest' here later ih =>
    obtain ⟨members, other, first, second⟩ := here
    rw [addToGroup, addToGroup]
    by_cases found : group.1 = key row
    · have found' : group'.1 = key' row := by
        rw [second, ← same, ← first, found]
      rw [if_pos found, if_pos found']
      exact .cons ⟨by rw [members], row, rfl, rfl⟩ later
    · have missed : group'.1 ≠ key' row := by
        rw [second, Ne, ← same, ← first]
        exact found
      rw [if_neg found, if_neg missed]
      exact .cons ⟨members, other, first, second⟩ ih

theorem groupRows_congr (same : ∀ i j, key i = key j ↔ key' i = key' j) (rows : List α) :
    groupRows key rows = groupRows key' rows := by
  have parallel : ∀ (rows : List α) (groups groups' : List (String × List α)),
      List.Forall₂ (Parallel key key') groups groups' →
      List.Forall₂ (Parallel key key')
        (rows.foldl (fun groups row => addToGroup (key row) row groups) groups)
        (rows.foldl (fun groups row => addToGroup (key' row) row groups) groups') := by
    intro rows
    induction rows with
    | nil => exact fun _ _ parallel => parallel
    | cons row rest ih => exact fun _ _ parallel => ih _ _ (addToGroup_parallel same row parallel)
  unfold groupRows
  have groups := parallel rows [] [] .nil
  generalize rows.foldl _ [] = left at groups
  generalize rows.foldl _ [] = right at groups
  induction groups with
  | nil => rfl
  | cons here _ ih => rw [map_cons, map_cons, here.1, ih]

theorem mem_retainDistinct_iff {n : Nat} {key : Fin n → String} (i : Fin n) (rows : List (Fin n)) :
    ∀ seen : List String, rows.Pairwise (· < ·) → (i ∈ retainDistinct key seen rows ↔
        i ∈ rows ∧ key i ∉ seen ∧ ∀ j ∈ rows, j < i → key j ≠ key i) := by
  induction rows with
  | nil => simp [retainDistinct]
  | cons row rest ih =>
    intro seen sorted
    obtain ⟨least, sorted⟩ := pairwise_cons.mp sorted
    rw [retainDistinct]
    by_cases before : key row ∈ seen
    · rw [if_pos before, ih seen sorted]
      constructor
      · rintro ⟨mem, new, first⟩
        have fresh : row < i → key row ≠ key i := fun _ same => new (same ▸ before)
        exact ⟨.tail _ mem, new, forall_mem_cons.mpr ⟨fresh, first⟩⟩
      · rintro ⟨mem, new, first⟩
        refine ⟨(mem_cons.mp mem).resolve_left ?_, new,
          fun j later => first j (.tail _ later)⟩
        rintro rfl
        exact new before
    · rw [if_neg before, mem_cons, ih (key row :: seen) sorted]
      constructor
      · rintro (rfl | ⟨mem, new, first⟩)
        · refine ⟨.head _, before, forall_mem_cons.mpr
            ⟨fun below => absurd below (lt_irrefl _), fun j later below => ?_⟩⟩
          exact absurd (below.trans (least j later)) (lt_irrefl _)
        · rw [mem_cons, not_or] at new
          exact ⟨.tail _ mem, new.2,
            forall_mem_cons.mpr ⟨fun _ => Ne.symm new.1, first⟩⟩
      · rintro ⟨mem, new, first⟩
        refine (mem_cons.mp mem).imp_right fun later => ⟨later, ?_, ?_⟩
        · rw [mem_cons, not_or]
          exact ⟨Ne.symm (first row mem_cons_self (least i later)), new⟩
        · exact fun j inside => first j (mem_cons_of_mem _ inside)

end Keys

section Rows

variable (format : DebugFormat) (form : KeyForm) {n : Nat}

/-- The values are the same but for the order of the entries of maps. -/
def SameRow (left right : List GqlValue) : Prop :=
  Reordered (keyTree format form left) (keyTree format form right)

/-- An order of the entries for every map of every row. -/
def Orders (rows : Fin n → List GqlValue) (orders : Fin n → Tree) : Prop :=
  ∀ i, Reordered (keyTree format form (rows i)) (orders i)

/-- Whatever the orders are, equal rows and only those have one key, of equal rows DISTINCT keeps
the first, and what it keeps and what is grouped is the same. -/
structure MergesEqual (rows : Fin n → List GqlValue) : Prop where
  classes : ∀ orders, Orders format form rows orders → ∀ i j, i ≠ j →
    (debugKey format (orders i) = debugKey format (orders j) ↔
      SameRow format form (rows i) (rows j))
  kept : ∀ orders, Orders format form rows orders → ∀ i,
    i ∈ retainDistinct (fun i => debugKey format (orders i)) [] (List.finRange n) ↔
      ∀ j < i, ¬SameRow format form (rows j) (rows i)
  distinct : ∀ orders orders', Orders format form rows orders → Orders format form rows orders' →
    retainDistinct (fun i => debugKey format (orders i)) [] (List.finRange n) =
      retainDistinct (fun i => debugKey format (orders' i)) [] (List.finRange n)
  groups : ∀ orders orders', Orders format form rows orders → Orders format form rows orders' →
    groupRows (fun i => debugKey format (orders i)) (List.finRange n) =
      groupRows (fun i => debugKey format (orders' i)) (List.finRange n)

variable {format form}

theorem debugKey_eq_iff {s s' : Tree} :
    debugKey format s = debugKey format s' ↔ render format.plain s = render format.plain s' :=
  ⟨fun same => String.ofList_injective same, congrArg String.ofList⟩

/-- Rows are merged as equal in every order exactly when no two equal rows hold a map, a node or a
relationship of two entries or more. -/
theorem debugKeys_exact {rows : Fin n → List GqlValue}
    (keyed : ∀ i, Keyed (keyTree format form (rows i))) :
    MergesEqual format form rows ↔ ∀ i j, i ≠ j → SameRow format form (rows i) (rows j) →
      ¬Wide (keyTree format form (rows i)) := by
  constructor
  · intro merges i j different
    refine (render_eq_iff_reordered format.plain (keyed i)).mp fun s s' order order' => ?_
    have orders : Orders format form rows fun k =>
        if k = i then s else if k = j then s' else keyTree format form (rows k) := by
      intro k
      by_cases first : k = i
      · subst first
        simpa using order
      · by_cases second : k = j
        · subst second
          simpa [first] using order'
        · simpa [first, second] using Reordered.refl _
    have class_iff := merges.classes _ orders i j different
    simp only [if_true, if_neg (Ne.symm different)] at class_iff
    exact debugKey_eq_iff.symm.trans class_iff
  · intro narrow
    have classes : ∀ orders, Orders format form rows orders → ∀ i j, i ≠ j →
        (debugKey format (orders i) = debugKey format (orders j) ↔
          SameRow format form (rows i) (rows j)) := by
      intro orders ordered i j different
      exact debugKey_eq_iff.trans ((render_eq_iff_reordered format.plain (keyed i)).mpr
        (narrow i j different) (orders i) (orders j) (ordered i) (ordered j))
    have patterns : ∀ orders orders', Orders format form rows orders →
        Orders format form rows orders' → ∀ i j,
        (debugKey format (orders i) = debugKey format (orders j) ↔
          debugKey format (orders' i) = debugKey format (orders' j)) := by
      intro orders orders' ordered ordered' i j
      by_cases same : i = j
      · subst same
        exact iff_of_true rfl rfl
      · rw [classes orders ordered i j same, classes orders' ordered' i j same]
    refine ⟨classes, fun orders ordered i => ?_, fun orders orders' ordered ordered' => ?_,
      fun orders orders' ordered ordered' => ?_⟩
    · rw [mem_retainDistinct_iff i _ _ (pairwise_lt_finRange n)]
      simp only [mem_finRange, not_mem_nil, not_false_eq_true, true_and, forall_const]
      refine forall₂_congr fun j below => not_congr ?_
      exact classes orders ordered j i below.ne
    · exact retainDistinct_congr (patterns orders orders' ordered ordered') _ [] []
        fun _ => iff_of_false not_mem_nil not_mem_nil
    · exact groupRows_congr (patterns orders orders' ordered ordered') _

end Rows

/-- Letters and digits are shown as they are, and no float is written. -/
def asciiFormat : DebugFormat where
  float _ := word "0.0" (by decide)
  plain c := c.isAlphanum

def nodeWith (properties : Properties) : GqlValue := .node ⟨1, "Person", properties, {}⟩

def oneProperty : Properties := ⟨[("age", .i64 30)], nodup_singleton "age"⟩

def twoProperties : Properties := ⟨[("age", .i64 30), ("name", .string "Ada")], by decide⟩

def twoProperties' : Properties := ⟨[("name", .string "Ada"), ("age", .i64 30)], by decide⟩

def returnNode : KeyForm := .distinct ["n"]

variable (properties : Properties)

theorem keyed_nodeWith : Keyed (keyTree asciiFormat returnNode [nodeWith properties]) := by
  have names := properties.keys_nodup
  have scalars : ∀ property kind, ¬Holds kind (propertyTree asciiFormat property) := by
    intro property kind
    cases property <;> simp [propertyTree, intTree, boolTree]
  simp [Keyed, keyTree, returnNode, debugTrees, debugTree, nodeWith, nodeTree, propsTree, intTree,
    scalars, Function.comp_def, names]

theorem wide_nodeWith :
    Wide (keyTree asciiFormat returnNode [nodeWith properties]) ↔
      2 ≤ properties.entries.length := by
  have scalars : ∀ property kind, ¬Holds kind (propertyTree asciiFormat property) := by
    intro property kind
    cases property <;> simp [propertyTree, intTree, boolTree]
  simp [Wide, keyTree, returnNode, debugTrees, debugTree, nodeWith, nodeTree, propsTree, intTree,
    scalars]

/-- A node of one property is merged with itself, but one of two properties is not. -/
theorem debugKeys_exact_nodes :
    (MergesEqual asciiFormat returnNode fun _ : Fin 2 => [nodeWith oneProperty]) ∧
      ¬MergesEqual asciiFormat returnNode fun _ : Fin 2 => [nodeWith twoProperties] := by
  constructor
  · refine (debugKeys_exact fun _ => keyed_nodeWith oneProperty).mpr fun _ _ _ _ wide => ?_
    rw [wide_nodeWith] at wide
    simp [oneProperty] at wide
  · rw [debugKeys_exact fun _ => keyed_nodeWith twoProperties]
    intro narrow
    exact narrow 0 1 (by decide) (Reordered.refl _) ((wide_nodeWith twoProperties).mpr le_rfl)

/-- The same node in two rows, whose properties come in either order, is kept twice. -/
theorem same_node_kept_twice :
    SameRow asciiFormat returnNode [nodeWith twoProperties] [nodeWith twoProperties'] ∧
      (retainDistinct (fun row => debugKey asciiFormat (keyTree asciiFormat returnNode row)) []
        [[nodeWith twoProperties], [nodeWith twoProperties']]).length = 2 ∧
      (groupRows (fun row => debugKey asciiFormat (keyTree asciiFormat .groupBy row))
        [[nodeWith twoProperties], [nodeWith twoProperties']]).length = 2 := by
  refine ⟨?_, ?_, ?_⟩
  · exact .single (.item [] [] (.right (.str "n") (.inner _ (.field _ [_, _] _ []
      (.table (.swap _ _ _))))))
  · decide +kernel
  · decide +kernel

end ErmyaGraph.Gql
