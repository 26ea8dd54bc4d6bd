import ErmyaGraph.Gql.Execute
import ErmyaGraph.Lib.Delimited

/-! # The texts that pipeline stages group rows by

A list of values is written out to one text, and rows with the same text are
merged. Every value shows where it ends but a map, whose keys are not escaped. -/

namespace ErmyaGraph.Gql

open Delimited List

def unitSep : Char := '\x1f'

def recordSep : Char := '\x1e'

/-- What stands before a separator inside of a text. -/
def escapeMark : Char := '\x1d'

def isSeparator (c : Char) : Bool := c == escapeMark || c == recordSep || c == unitSep

def sortEntries {α : Type} (entries : List (String × α)) : List (String × α) :=
  entries.mergeSort fun left right => decide (left.1 ≤ right.1)

def idsKey (ids : List Nat) : List Char := ids.flatMap fun id => Nat.toDigits 10 id ++ [',']

/-- An entry of a map; its name is written as it is. -/
def entryKey (entry : String × List Char) : List Char :=
  entry.1.toList ++ '=' :: (entry.2 ++ [recordSep])

mutual

/-- The text of a value. -/
def valueKey : GqlValue → List Char
  | .null => ['N', unitSep]
  | .bool value => ['B', if value then 'T' else 'F', unitSep]
  | .int value => 'I' :: (decimal value ++ [unitSep])
  | .float bits => 'F' :: (Nat.toDigits 10 bits.toNat ++ [unitSep])
  | .str value => 'S' :: (value.toList.flatMap (escapeChar escapeMark isSeparator) ++ [unitSep])
  | .list items => '[' :: (valuesKey items ++ [']', unitSep])
  | .map entries => 'M' :: ((sortEntries (entriesKeys entries)).flatMap entryKey ++ ['}', unitSep])
  | .node node => 'V' :: (Nat.toDigits 10 node.id ++ [unitSep])
  | .relationship edge => 'R' :: (Nat.toDigits 10 edge.id ++ [unitSep])
  | .path path =>
    'P' :: (idsKey (path.nodes.map Node.id) ++ ';' :: (idsKey (path.rels.map Edge.id) ++ [unitSep]))

def valuesKey : List GqlValue → List Char
  | [] => []
  | value :: rest => valueKey value ++ recordSep :: valuesKey rest

def entriesKeys : List (String × GqlValue) → List (String × List Char)
  | [] => []
  | (name, value) :: rest => (name, valueKey value) :: entriesKeys rest

end

def gqlValueSliceToKey (values : List GqlValue) : String := String.ofList (valuesKey values)

/-- A value up to equality: entities are known by their kind and id, and maps by their entries in
the order of their names. -/
inductive Canonical where
  | null
  | bool (value : Bool)
  | int (value : Int)
  | float (bits : UInt64)
  | str (value : String)
  | list (items : List Canonical)
  | map (entries : List (String × Canonical))
  | node (id : Nat)
  | relationship (id : Nat)
  | path (nodes rels : List Nat)

mutual

def canonical : GqlValue → Canonical
  | .null => .null
  | .bool value => .bool value
  | .int value => .int value
  | .float bits => .float bits
  | .str value => .str value
  | .list items => .list (canonicals items)
  | .map entries => .map (sortEntries (canonicalEntries entries))
  | .node node => .node node.id
  | .relationship edge => .relationship edge.id
  | .path path => .path (path.nodes.map Node.id) (path.rels.map Edge.id)

def canonicals : List GqlValue → List Canonical
  | [] => []
  | value :: rest => canonical value :: canonicals rest

def canonicalEntries : List (String × GqlValue) → List (String × Canonical)
  | [] => []
  | (name, value) :: rest => (name, canonical value) :: canonicalEntries rest

end

mutual

def Canonical.key : Canonical → List Char
  | .null => ['N', unitSep]
  | .bool value => ['B', if value then 'T' else 'F', unitSep]
  | .int value => 'I' :: (decimal value ++ [unitSep])
  | .float bits => 'F' :: (Nat.toDigits 10 bits.toNat ++ [unitSep])
  | .str value => 'S' :: (value.toList.flatMap (escapeChar escapeMark isSeparator) ++ [unitSep])
  | .list items => '[' :: (Canonical.keys items ++ [']', unitSep])
  | .map entries => 'M' :: (Canonical.entryKeys entries ++ ['}', unitSep])
  | .node id => 'V' :: (Nat.toDigits 10 id ++ [unitSep])
  | .relationship id => 'R' :: (Nat.toDigits 10 id ++ [unitSep])
  | .path nodes rels => 'P' :: (idsKey nodes ++ ';' :: (idsKey rels ++ [unitSep]))

def Canonical.keys : List Canonical → List Char
  | [] => []
  | value :: rest => value.key ++ recordSep :: Canonical.keys rest

def Canonical.entryKeys : List (String × Canonical) → List Char
  | [] => []
  | (name, value) :: rest => entryKey (name, value.key) ++ Canonical.entryKeys rest

end

variable {α : Type}

theorem sortEntries_map {β : Type} (f : α → β) (entries : List (String × α)) :
    sortEntries (entries.map fun entry => (entry.1, f entry.2)) =
      (sortEntries entries).map fun entry => (entry.1, f entry.2) := by
  unfold sortEntries
  rw [map_mergeSort]
  exact fun _ _ _ _ => rfl

theorem Canonical.entryKeys_eq (entries : List (String × Canonical)) :
    Canonical.entryKeys entries =
      (entries.map fun entry => (entry.1, entry.2.key)).flatMap entryKey := by
  induction entries with
  | nil => rfl
  | cons entry rest ih =>
    obtain ⟨name, value⟩ := entry
    rw [Canonical.entryKeys, ih]
    rfl

mutual

theorem key_canonical : ∀ value : GqlValue, (canonical value).key = valueKey value
  | .null => rfl
  | .bool _ => rfl
  | .int _ => rfl
  | .float _ => rfl
  | .str _ => rfl
  | .list items => by
    rw [canonical, Canonical.key, valueKey, keys_canonicals]
  | .map entries => by
    rw [canonical, Canonical.key, valueKey, Canonical.entryKeys_eq, ← sortEntries_map,
      keys_canonicalEntries]
  | .node _ => rfl
  | .relationship _ => rfl
  | .path _ => rfl

theorem keys_canonicals : ∀ values : List GqlValue,
    Canonical.keys (canonicals values) = valuesKey values
  | [] => rfl
  | value :: rest => by
    rw [canonicals, Canonical.keys, valuesKey, key_canonical, keys_canonicals]

theorem keys_canonicalEntries : ∀ entries : List (String × GqlValue),
    (canonicalEntries entries).map (fun entry => (entry.1, entry.2.key)) = entriesKeys entries
  | [] => rfl
  | (name, value) :: rest => by
    rw [canonicalEntries, entriesKeys, map_cons, key_canonical, keys_canonicalEntries]

end

/-- One name goes on behind the other with what ends a name. -/
def NamesClash (left right : String) : Prop :=
  left.toList ++ ['='] <+: right.toList ∨ right.toList ++ ['='] <+: left.toList

def EndsMap (name : String) : Prop := ['}'] <+: name.toList

mutual

/-- Where two values part there are maps in both, and the text of a name of the one can be read on
as part of the other. -/
def Clash : Canonical → Canonical → Prop
  | .list items, .list items' => ClashAll items items'
  | .map entries, .map entries' => ClashEntries entries entries'
  | _, _ => False

def ClashAll : List Canonical → List Canonical → Prop
  | value :: rest, value' :: rest' => Clash value value' ∨ value = value' ∧ ClashAll rest rest'
  | _, _ => False

def ClashEntries : List (String × Canonical) → List (String × Canonical) → Prop
  | (name, value) :: rest, (name', value') :: rest' =>
    NamesClash name name' ∨
      name = name' ∧ (Clash value value' ∨ value = value' ∧ ClashEntries rest rest')
  | [], (name, _) :: _ => EndsMap name
  | (name, _) :: _, [] => EndsMap name
  | [], [] => False

end

theorem selfDelimiting_idsKey {stop : Char} (other : stop.isDigit = false) :
    SelfDelimiting fun ids : List Nat => idsKey ids ++ [stop] := by
  apply selfDelimiting_flatMap (selfDelimiting_toDigits (by decide))
  intro id rest rest' equal
  cases digits : Nat.toDigits 10 id with
  | nil => exact Nat.toDigits_ne_nil digits
  | cons c later =>
    rw [digits] at equal
    have inside : stop ∈ Nat.toDigits 10 id := by
      rw [digits, (List.cons.inj equal).1]
      exact mem_cons_self
    exact not_mem_toDigits other id inside

theorem split_path (nodes rels nodes' rels' : List Nat) :
    Split (idsKey nodes ++ ';' :: (idsKey rels ++ [unitSep]))
      (idsKey nodes' ++ ';' :: (idsKey rels' ++ [unitSep])) (nodes = nodes' ∧ rels = rels') := by
  intro rest rest' equal
  have front : idsKey nodes ++ [';'] ++ (idsKey rels ++ [unitSep] ++ rest) =
      idsKey nodes' ++ [';'] ++ (idsKey rels' ++ [unitSep] ++ rest') := by
    simpa only [append_assoc, cons_append, nil_append] using equal
  obtain ⟨same, back⟩ := selfDelimiting_idsKey (by decide) nodes nodes' _ _ front
  obtain ⟨same', rests⟩ := selfDelimiting_idsKey (by decide) rels rels' rest rest' back
  exact ⟨⟨same, same'⟩, rests⟩

theorem split_text (left right : String) :
    Split (left.toList.flatMap (escapeChar escapeMark isSeparator) ++ [unitSep])
      (right.toList.flatMap (escapeChar escapeMark isSeparator) ++ [unitSep]) (left = right) := by
  have escaped := @selfDelimiting_escape unitSep isSeparator escapeMark rfl rfl (by decide)
  exact (escaped left.toList right.toList).imp String.toList_inj.mp

theorem split_name {left right : String} (apart : ¬NamesClash left right) :
    Split (left.toList ++ ['=']) (right.toList ++ ['=']) (left = right) := by
  intro rest rest' equal
  rw [append_assoc, append_assoc] at equal
  rcases append_eq_append_iff.mp equal with ⟨more, longer, tail⟩ | ⟨more, longer, tail⟩
  · cases more with
    | nil =>
      rw [append_nil] at longer
      exact ⟨String.toList_inj.mp longer.symm, (List.cons.inj tail).2⟩
    | cons c more =>
      obtain ⟨rfl, _⟩ := List.cons.inj tail
      exact absurd (.inl ⟨more, by simp [longer]⟩) apart
  · cases more with
    | nil =>
      rw [append_nil] at longer
      exact ⟨String.toList_inj.mp longer, (List.cons.inj tail).2.symm⟩
    | cons c more =>
      obtain ⟨rfl, _⟩ := List.cons.inj tail
      exact absurd (.inr ⟨more, by simp [longer]⟩) apart

theorem end_ne_name {name : String} (apart : ¬EndsMap name) (rest rest' : List Char) :
    '}' :: rest ≠ name.toList ++ '=' :: rest' := by
  intro equal
  cases chars : name.toList with
  | nil =>
    rw [chars] at equal
    exact absurd (List.cons.inj equal).1 (by decide)
  | cons c more =>
    rw [chars] at equal
    obtain ⟨rfl, _⟩ := List.cons.inj equal
    exact apart ⟨more, by rw [chars]; rfl⟩

/-- The first character of a value's text. -/
def Canonical.tag : Canonical → Char
  | .null => 'N'
  | .bool _ => 'B'
  | .int _ => 'I'
  | .float _ => 'F'
  | .str _ => 'S'
  | .list _ => '['
  | .map _ => 'M'
  | .node _ => 'V'
  | .relationship _ => 'R'
  | .path _ _ => 'P'

variable (value : Canonical)

theorem Canonical.exists_key : ∃ rest, value.key = value.tag :: rest := by
  cases value with
  | null => exact ⟨_, rfl⟩
  | _ => exact ⟨_, by rw [Canonical.key]; rfl⟩

theorem Canonical.tag_ne : value.tag ≠ ']' := by
  cases value <;> simp [Canonical.tag]

mutual

theorem split_key : ∀ value value' : Canonical, ¬Clash value value' →
    Split value.key value'.key (value = value') := by
  intro value value' apart
  by_cases tags : value.tag = value'.tag
  · cases value with
    | null =>
      cases value' with
      | null => exact fun _ _ equal => ⟨rfl, append_cancel_left equal⟩
      | _ => simp [Canonical.tag] at tags
    | bool b =>
      cases value' with
      | bool b' =>
        rw [Canonical.key, Canonical.key]
        apply Split.cons 'B'
        cases b <;> cases b'
        · exact fun _ _ equal => ⟨rfl, append_cancel_left equal⟩
        · exact Split.of_ne _ _ (by decide)
        · exact Split.of_ne _ _ (by decide)
        · exact fun _ _ equal => ⟨rfl, append_cancel_left equal⟩
      | _ => simp [Canonical.tag] at tags
    | int i =>
      cases value' with
      | int i' =>
        rw [Canonical.key, Canonical.key]
        exact ((selfDelimiting_decimal (by decide) (by decide) i i').cons 'I').imp
          (congrArg Canonical.int)
      | _ => simp [Canonical.tag] at tags
    | float bits =>
      cases value' with
      | float bits' =>
        rw [Canonical.key, Canonical.key]
        exact ((selfDelimiting_toDigits (by decide) bits.toNat bits'.toNat).cons 'F').imp
          fun same => congrArg Canonical.float (UInt64.toNat_inj.mp same)
      | _ => simp [Canonical.tag] at tags
    | str text =>
      cases value' with
      | str text' =>
        rw [Canonical.key, Canonical.key]
        exact ((split_text text text').cons 'S').imp (congrArg Canonical.str)
      | _ => simp [Canonical.tag] at tags
    | list items =>
      cases value' with
      | list items' =>
        rw [Clash] at apart
        rw [Canonical.key, Canonical.key]
        apply Split.cons '['
        intro rest rest' equal
        simp only [append_assoc, cons_append, nil_append] at equal
        obtain ⟨same, later⟩ := split_keys items items' apart (unitSep :: rest)
          (unitSep :: rest')
          (by simpa only [append_assoc, cons_append, nil_append] using equal)
        exact ⟨congrArg Canonical.list same, (List.cons.inj later).2⟩
      | _ => simp [Canonical.tag] at tags
    | map entries =>
      cases value' with
      | map entries' =>
        rw [Clash] at apart
        rw [Canonical.key, Canonical.key]
        apply Split.cons 'M'
        intro rest rest' equal
        simp only [append_assoc, cons_append, nil_append] at equal
        obtain ⟨same, later⟩ := split_entryKeys entries entries' apart (unitSep :: rest)
          (unitSep :: rest')
          (by simpa only [append_assoc, cons_append, nil_append] using equal)
        exact ⟨congrArg Canonical.map same, (List.cons.inj later).2⟩
      | _ => simp [Canonical.tag] at tags
    | node id =>
      cases value' with
      | node id' =>
        rw [Canonical.key, Canonical.key]
        exact ((selfDelimiting_toDigits (by decide) id id').cons 'V').imp
          (congrArg Canonical.node)
      | _ => simp [Canonical.tag] at tags
    | relationship id =>
      cases value' with
      | relationship id' =>
        rw [Canonical.key, Canonical.key]
        exact ((selfDelimiting_toDigits (by decide) id id').cons 'R').imp
          (congrArg Canonical.relationship)
      | _ => simp [Canonical.tag] at tags
    | path nodes rels =>
      cases value' with
      | path nodes' rels' =>
        rw [Canonical.key, Canonical.key]
        exact ((split_path nodes rels nodes' rels').cons 'P').imp
          fun same => congrArg₂ Canonical.path same.1 same.2
      | _ => simp [Canonical.tag] at tags
  · obtain ⟨rest, key⟩ := value.exists_key
    obtain ⟨rest', key'⟩ := value'.exists_key
    rw [key, key']
    exact Split.of_ne rest rest' tags

theorem split_keys : ∀ values values' : List Canonical, ¬ClashAll values values' →
    Split (Canonical.keys values ++ [']']) (Canonical.keys values' ++ [']'])
      (values = values') := by
  intro values values' apart
  have ends (value : Canonical) (rest rest' : List Char) : ']' :: rest ≠ value.key ++ rest' := by
    obtain ⟨later, key⟩ := value.exists_key
    rw [key]
    exact fun equal => value.tag_ne (List.cons.inj equal).1.symm
  cases values with
  | nil =>
    cases values' with
    | nil => exact fun _ _ equal => ⟨rfl, append_cancel_left equal⟩
    | cons value' values' =>
      intro rest rest' equal
      simp only [Canonical.keys, append_assoc, nil_append, cons_append] at equal
      exact absurd equal (ends value' _ _)
  | cons value values =>
    cases values' with
    | nil =>
      intro rest rest' equal
      simp only [Canonical.keys, append_assoc, nil_append, cons_append] at equal
      exact absurd equal.symm (ends value _ _)
    | cons value' values' =>
      rw [ClashAll, not_or, not_and] at apart
      intro rest rest' equal
      simp only [Canonical.keys, append_assoc, cons_append] at equal
      obtain ⟨rfl, later⟩ := split_key value value' apart.1 _ _ equal
      obtain ⟨same, rests⟩ := split_keys values values' (apart.2 rfl) rest rest'
        (by simpa only [append_assoc, cons_append, nil_append] using (List.cons.inj later).2)
      exact ⟨congrArg _ same, rests⟩

theorem split_entryKeys : ∀ entries entries' : List (String × Canonical),
    ¬ClashEntries entries entries' →
      Split (Canonical.entryKeys entries ++ ['}']) (Canonical.entryKeys entries' ++ ['}'])
        (entries = entries') := by
  intro entries entries' apart
  cases entries with
  | nil =>
    cases entries' with
    | nil => exact fun _ _ equal => ⟨rfl, append_cancel_left equal⟩
    | cons entry' entries' =>
      intro rest rest' equal
      simp only [Canonical.entryKeys, entryKey, append_assoc, nil_append, cons_append] at equal
      exact absurd equal (end_ne_name apart _ _)
  | cons entry entries =>
    cases entries' with
    | nil =>
      intro rest rest' equal
      simp only [Canonical.entryKeys, entryKey, append_assoc, nil_append, cons_append] at equal
      exact absurd equal.symm (end_ne_name apart _ _)
    | cons entry' entries' =>
      obtain ⟨name, value⟩ := entry
      obtain ⟨name', value'⟩ := entry'
      rw [ClashEntries, not_or, not_and] at apart
      intro rest rest' equal
      simp only [Canonical.entryKeys, entryKey, append_assoc, cons_append, nil_append] at equal
      obtain ⟨rfl, later⟩ := split_name apart.1 _ _
        (by simpa only [append_assoc, cons_append, nil_append] using equal)
      have inner := apart.2 rfl
      rw [not_or, not_and] at inner
      obtain ⟨rfl, last⟩ := split_key value value' inner.1 _ _ later
      obtain ⟨same, rests⟩ := split_entryKeys entries entries' (inner.2 rfl) rest rest'
        (by simpa only [append_assoc, cons_append, nil_append] using (List.cons.inj last).2)
      exact ⟨congrArg _ same, rests⟩

end

theorem gqlValueSliceToKey_eq_iff {left right : List GqlValue}
    (apart : ¬ClashAll (canonicals left) (canonicals right)) :
    gqlValueSliceToKey left = gqlValueSliceToKey right ↔ canonicals left = canonicals right := by
  unfold gqlValueSliceToKey
  rw [String.ofList_inj, ← keys_canonicals, ← keys_canonicals]
  constructor
  · intro same
    have equal := congrArg (· ++ [']'] ++ []) same
    exact (split_keys _ _ apart [] [] equal).1
  · exact congrArg Canonical.keys

variable (entries : List (String × α))

theorem sortEntries_perm : (sortEntries entries).Perm entries := mergeSort_perm _ _

theorem sortEntries_pairwise :
    (sortEntries entries).Pairwise fun left right => left.1 ≤ right.1 := by
  have sorted := @List.pairwise_mergeSort (String × α) (fun left right => left.1 ≤ right.1)
    (fun a b c => by simpa using String.le_trans)
    (fun a b => by simpa using String.le_total a.1 b.1) entries
  exact sorted.imp of_decide_eq_true

theorem sortEntries_eq_iff {left right : List (String × α)} (distinct : (left.map Prod.fst).Nodup) :
    sortEntries left = sortEntries right ↔ left.Perm right := by
  constructor
  · intro same
    exact (sortEntries_perm left).symm.trans (same ▸ sortEntries_perm right)
  · intro perm
    apply List.Perm.eq_of_pairwise _ (sortEntries_pairwise left) (sortEntries_pairwise right)
      ((sortEntries_perm left).trans (perm.trans (sortEntries_perm right).symm))
    intro a b inside inside' less less'
    have names : a.1 = b.1 := String.le_antisymm less less'
    exact inj_on_of_nodup_map distinct ((sortEntries_perm left).mem_iff.mp inside)
      (perm.mem_iff.mpr ((sortEntries_perm right).mem_iff.mp inside')) names

variable (entries : List (String × GqlValue))

theorem names_canonicalEntries :
    (canonicalEntries entries).map Prod.fst = entries.map Prod.fst := by
  induction entries with
  | nil => rfl
  | cons entry rest ih =>
    obtain ⟨name, value⟩ := entry
    rw [canonicalEntries, map_cons, map_cons, ih]

def asI64 (id : Nat) : Int := if id < 2 ^ 63 then id else (id : Int) - 2 ^ 64

/-- What a row of a stage binds: values, nodes and edges, each under different names. -/
structure StageRow where
  vals : List (String × GqlValue) := []
  nodes : List (String × Node) := []
  edges : List (String × Edge) := []
  vals_nodup : (vals.map Prod.fst).Nodup := by decide
  nodes_nodup : (nodes.map Prod.fst).Nodup := by decide
  edges_nodup : (edges.map Prod.fst).Nodup := by decide
  nodes_id : ∀ entry ∈ nodes, entry.2.id < 2 ^ 64 := by decide
  edges_id : ∀ entry ∈ edges, entry.2.id < 2 ^ 64 := by decide

namespace StageRow

/-- The names and values that the key of a row is made of; an entity is given by its id. -/
def signature (row : StageRow) : List GqlValue :=
  ((sortEntries row.vals).flatMap fun entry => [.str entry.1, entry.2]) ++
    ((sortEntries row.nodes).flatMap fun entry => [.str entry.1, .int (asI64 entry.2.id)]) ++
      (sortEntries row.edges).flatMap fun entry => [.str entry.1, .int (asI64 entry.2.id)]

def bindingDistinctKey (row : StageRow) : String := gqlValueSliceToKey row.signature

/-- Two rows bind the same names to equal values, the same nodes and the same edges. -/
structure Same (left right : StageRow) : Prop where
  vals : (canonicalEntries left.vals).Perm (canonicalEntries right.vals)
  nodes : (left.nodes.map fun entry => (entry.1, entry.2.id)).Perm
    (right.nodes.map fun entry => (entry.1, entry.2.id))
  edges : (left.edges.map fun entry => (entry.1, entry.2.id)).Perm
    (right.edges.map fun entry => (entry.1, entry.2.id))

/-- What one row binds in one way the other does not bind in another way. -/
structure RolesAgree (left right : StageRow) : Prop where
  vals : (left.vals.map Prod.fst).Disjoint
    (right.nodes.map Prod.fst ++ right.edges.map Prod.fst)
  nodes : (left.nodes.map Prod.fst).Disjoint (right.vals.map Prod.fst ++ right.edges.map Prod.fst)
  edges : (left.edges.map Prod.fst).Disjoint (right.vals.map Prod.fst ++ right.nodes.map Prod.fst)

end StageRow

/-- Names and canonical values one behind the other. -/
def alternating (entries : List (String × Canonical)) : List Canonical :=
  entries.flatMap fun entry => [.str entry.1, entry.2]

theorem alternating_injective : Function.Injective alternating := by
  intro left right
  induction left generalizing right with
  | nil =>
    cases right with
    | nil => exact fun _ => rfl
    | cons entry right => exact fun same => absurd same (by simp [alternating])
  | cons entry left ih =>
    cases right with
    | nil => exact fun same => absurd same (by simp [alternating])
    | cons entry' right =>
      intro same
      simp only [alternating, flatMap_cons, cons_append, nil_append,
        List.cons.injEq, Canonical.str.injEq] at same
      obtain ⟨name, value, rest⟩ := same
      rw [ih rest, Prod.ext name value]

theorem canonicals_append (left right : List GqlValue) :
    canonicals (left ++ right) = canonicals left ++ canonicals right := by
  induction left with
  | nil => rfl
  | cons value left ih => rw [cons_append, canonicals, canonicals, ih, cons_append]

theorem canonicals_flatMap (f : α → GqlValue) (entries : List (String × α)) :
    canonicals (entries.flatMap fun entry => [.str entry.1, f entry.2]) =
      alternating (entries.map fun entry => (entry.1, canonical (f entry.2))) := by
  induction entries with
  | nil => rfl
  | cons entry rest ih =>
    rw [flatMap_cons, canonicals_append, ih]
    rfl

theorem canonicalEntries_eq_map :
    canonicalEntries entries = entries.map fun entry => (entry.1, canonical entry.2) := by
  induction entries with
  | nil => rfl
  | cons entry rest ih =>
    obtain ⟨name, value⟩ := entry
    rw [canonicalEntries, ih]
    rfl

namespace StageRow

/-- The ids of entities as they stand in a signature. -/
def idEntries {α : Type} (id : α → Nat) (entries : List (String × α)) : List (String × Canonical) :=
  entries.map fun entry => (entry.1, Canonical.int (asI64 (id entry.2)))

theorem canonicals_signature (row : StageRow) : canonicals row.signature =
    alternating (sortEntries (canonicalEntries row.vals) ++
      (sortEntries (idEntries Node.id row.nodes) ++
        sortEntries (idEntries Edge.id row.edges))) := by
  unfold signature idEntries
  rw [canonicals_append, canonicals_append, canonicals_flatMap fun value => value,
    canonicals_flatMap fun node : Node => .int (asI64 node.id),
    canonicals_flatMap fun edge : Edge => .int (asI64 edge.id), canonicalEntries_eq_map,
    sortEntries_map, sortEntries_map fun node : Node => Canonical.int (asI64 node.id),
    sortEntries_map fun edge : Edge => Canonical.int (asI64 edge.id)]
  simp only [alternating, flatMap_append, append_assoc, canonical]

def idOf : Canonical → Nat
  | .int value => (value % 2 ^ 64).toNat
  | _ => 0

theorem idOf_asI64 {id : Nat} (fits : id < 2 ^ 64) : idOf (.int (asI64 id)) = id := by
  unfold idOf asI64
  dsimp only
  split <;> omega

theorem names_idEntries (id : α → Nat) (entries : List (String × α)) :
    (idEntries id entries).map Prod.fst = entries.map Prod.fst := by
  unfold idEntries
  rw [map_map]
  rfl

theorem idEntries_perm_iff {id : α → Nat} {left right : List (String × α)}
    (fits : ∀ entry ∈ left, id entry.2 < 2 ^ 64) (fits' : ∀ entry ∈ right, id entry.2 < 2 ^ 64) :
    (idEntries id left).Perm (idEntries id right) ↔
      (left.map fun entry => (entry.1, id entry.2)).Perm
        (right.map fun entry => (entry.1, id entry.2)) := by
  have back {entries : List (String × α)} (fits : ∀ entry ∈ entries, id entry.2 < 2 ^ 64) :
      (idEntries id entries).map (fun entry => (entry.1, idOf entry.2)) =
        entries.map fun entry => (entry.1, id entry.2) := by
    unfold idEntries
    rw [map_map]
    apply map_congr_left
    intro entry inside
    exact Prod.ext rfl (idOf_asI64 (fits entry inside))
  have forth (entries : List (String × α)) : idEntries id entries =
      (entries.map fun entry => (entry.1, id entry.2)).map fun entry =>
        (entry.1, Canonical.int (asI64 entry.2)) := by
    rw [map_map]
    rfl
  constructor
  · intro perm
    rw [← back fits, ← back fits']
    exact perm.map _
  · intro perm
    rw [forth left, forth right]
    exact perm.map _

theorem append_eq_iff {front front' back back' : List (String × α)}
    (apart : (front.map Prod.fst).Disjoint (back'.map Prod.fst))
    (apart' : (front'.map Prod.fst).Disjoint (back.map Prod.fst)) :
    front ++ back = front' ++ back' ↔ front = front' ∧ back = back' := by
  constructor
  · intro same
    rcases append_eq_append_iff.mp same with ⟨more, longer, rest⟩ | ⟨more, longer, rest⟩
    · cases more with
      | nil => exact ⟨by rw [longer, append_nil], rest⟩
      | cons entry more =>
        have inside : entry.1 ∈ front'.map Prod.fst := by simp [longer]
        exact (apart' inside (by simp [rest])).elim
    · cases more with
      | nil => exact ⟨by rw [longer, append_nil], rest.symm⟩
      | cons entry more =>
        have inside : entry.1 ∈ front.map Prod.fst := by simp [longer]
        exact (apart inside (by simp [rest])).elim
  · rintro ⟨rfl, rfl⟩
    rfl

/-- The values of a row in the order of their names. -/
def values (row : StageRow) : List Canonical :=
  (sortEntries (canonicalEntries row.vals)).map Prod.snd

theorem names_sortEntries (entries : List (String × α)) (name : String) :
    name ∈ (sortEntries entries).map Prod.fst ↔ name ∈ entries.map Prod.fst :=
  ((sortEntries_perm entries).map Prod.fst).mem_iff

def Plain (value : Canonical) : Prop := ∀ other, ¬Clash value other ∧ ¬Clash other value

theorem plain_str (text : String) : Plain (.str text) := by
  intro other
  cases other <;> exact ⟨fun clash => clash, fun clash => clash⟩

theorem plain_int (value : Int) : Plain (.int value) := by
  intro other
  cases other <;> exact ⟨fun clash => clash, fun clash => clash⟩

theorem clashAll_plain {plain : List Canonical} (only : ∀ value ∈ plain, Plain value)
    (values : List Canonical) : ¬ClashAll plain values ∧ ¬ClashAll values plain := by
  induction plain generalizing values with
  | nil => cases values <;> exact ⟨fun clash => clash, fun clash => clash⟩
  | cons first plain ih =>
    have later := ih fun value inside => only value (.tail _ inside)
    cases values with
    | nil => exact ⟨fun clash => clash, fun clash => clash⟩
    | cons value values =>
      have here := only first mem_cons_self value
      rw [ClashAll, ClashAll]
      constructor
      · intro clash
        rcases clash with clash | clash
        · exact here.1 clash
        · exact (later values).1 clash.2
      · intro clash
        rcases clash with clash | clash
        · exact here.2 clash
        · exact (later values).2 clash.2

theorem plain_idEntries {β : Type} (id : α → Nat) (id' : β → Nat) (entries : List (String × α))
    (entries' : List (String × β)) :
    ∀ value ∈ alternating (sortEntries (idEntries id entries) ++
      sortEntries (idEntries id' entries')), Plain value := by
  have ints {γ : Type} (id : γ → Nat) (entries : List (String × γ)) (entry : String × Canonical)
      (inside : entry ∈ sortEntries (idEntries id entries)) : Plain entry.2 := by
    obtain ⟨other, _, rfl⟩ := mem_map.mp ((sortEntries_perm _).mem_iff.mp inside)
    exact plain_int _
  intro value inside
  obtain ⟨entry, mem, here⟩ := mem_flatMap.mp inside
  rcases mem_cons.mp here with rfl | here
  · exact plain_str _
  · rw [mem_singleton.mp here]
    rcases mem_append.mp mem with first | second
    · exact ints id entries entry first
    · exact ints id' entries' entry second

theorem clashAll_alternating {vals vals' ids ids' : List (String × Canonical)}
    (plain : ∀ value ∈ alternating ids, Plain value)
    (plain' : ∀ value ∈ alternating ids', Plain value)
    (clash : ClashAll (alternating (vals ++ ids)) (alternating (vals' ++ ids'))) :
    ClashAll (vals.map Prod.snd) (vals'.map Prod.snd) := by
  induction vals generalizing vals' with
  | nil => exact ((clashAll_plain plain _).1 clash).elim
  | cons entry vals ih =>
    cases vals' with
    | nil => exact ((clashAll_plain plain' _).2 clash).elim
    | cons entry' vals' =>
      simp only [alternating, cons_append, flatMap_cons, nil_append, ClashAll] at clash
      rw [map_cons, map_cons, ClashAll]
      rcases clash with clash | ⟨_, clash | ⟨same, clash⟩⟩
      · exact ((plain_str _ _).1 clash).elim
      · exact .inl clash
      · exact .inr ⟨same, ih clash⟩

/-- The keys of two rows are the same when they bind the same, unless their values clash or a name
is bound in different ways. -/
theorem bindingDistinctKey_eq_iff {left right : StageRow}
    (apart : ¬ClashAll left.values right.values) (roles : left.RolesAgree right) :
    left.bindingDistinctKey = right.bindingDistinctKey ↔ left.Same right := by
  unfold bindingDistinctKey
  have whole : ¬ClashAll (canonicals left.signature) (canonicals right.signature) := by
    rw [canonicals_signature, canonicals_signature]
    exact fun clash => apart (clashAll_alternating (plain_idEntries _ _ _ _)
      (plain_idEntries _ _ _ _) clash)
  have names_vals (row : StageRow) (name : String) :
      name ∈ (sortEntries (canonicalEntries row.vals)).map Prod.fst ↔
        name ∈ row.vals.map Prod.fst := by
    rw [names_sortEntries, names_canonicalEntries]
  have names_ids {α : Type} (id : α → Nat) (entries : List (String × α)) (name : String) :
      name ∈ (sortEntries (idEntries id entries)).map Prod.fst ↔ name ∈ entries.map Prod.fst := by
    rw [names_sortEntries, names_idEntries]
  rw [gqlValueSliceToKey_eq_iff whole, canonicals_signature, canonicals_signature,
    alternating_injective.eq_iff, append_eq_iff, append_eq_iff,
    sortEntries_eq_iff (names_canonicalEntries left.vals ▸ left.vals_nodup),
    sortEntries_eq_iff (names_idEntries Node.id left.nodes ▸ left.nodes_nodup),
    sortEntries_eq_iff (names_idEntries Edge.id left.edges ▸ left.edges_nodup),
    idEntries_perm_iff left.nodes_id right.nodes_id,
    idEntries_perm_iff left.edges_id right.edges_id]
  · constructor
    · exact fun same => ⟨same.1, same.2.1, same.2.2⟩
    · exact fun same => ⟨same.vals, same.nodes, same.edges⟩
  · intro name inside inside'
    exact roles.nodes ((names_ids _ _ _).mp inside)
      (mem_append_right _ ((names_ids _ _ _).mp inside'))
  · intro name inside inside'
    exact roles.edges ((names_ids _ _ _).mp inside')
      (mem_append_right _ ((names_ids _ _ _).mp inside))
  · intro name inside inside'
    rw [map_append, mem_append, names_ids, names_ids] at inside'
    exact roles.vals ((names_vals _ _).mp inside) (mem_append.mpr inside')
  · intro name inside inside'
    rw [map_append, mem_append, names_ids, names_ids] at inside'
    rcases inside' with node | edge
    · exact roles.nodes node (mem_append_left _ ((names_vals _ _).mp inside))
    · exact roles.edges edge (mem_append_left _ ((names_vals _ _).mp inside))

end StageRow

/-- Values and rows have the same key exactly when they are equal, unless names of maps clash or a
name is bound in different ways. -/
theorem keys_eq_iff {left right : List GqlValue} {row row' : StageRow}
    (apart : ¬ClashAll (canonicals left) (canonicals right))
    (apart' : ¬ClashAll row.values row'.values) (roles : row.RolesAgree row') :
    (gqlValueSliceToKey left = gqlValueSliceToKey right ↔ canonicals left = canonicals right) ∧
      (row.bindingDistinctKey = row'.bindingDistinctKey ↔ row.Same row') :=
  ⟨gqlValueSliceToKey_eq_iff apart, StageRow.bindingDistinctKey_eq_iff apart' roles⟩

/-- Two maps under one name, in two lists and in two rows, and nothing clashes. -/
theorem keys_eq_iff_maps :
    (gqlValueSliceToKey [.map [("a", .int 1)]] = gqlValueSliceToKey [.map [("b", .int 1)]] ↔
      canonicals [.map [("a", .int 1)]] = canonicals [.map [("b", .int 1)]]) ∧
    ((StageRow.mk [("x", .int 1)] [] []).bindingDistinctKey =
        (StageRow.mk [("x", .int 2)] [] []).bindingDistinctKey ↔
      (StageRow.mk [("x", .int 1)] [] []).Same (StageRow.mk [("x", .int 2)] [] [])) := by
  apply keys_eq_iff
  · have names : ¬NamesClash "a" "b" := by
      unfold NamesClash
      decide
    simp [canonicals, canonical, canonicalEntries, sortEntries, ClashAll, Clash, ClashEntries,
      names]
  · simp [StageRow.values, canonical, canonicalEntries, sortEntries, ClashAll, Clash]
  · exact ⟨by simp, by simp, by simp⟩

/-- A name that goes on like a value, and a name bound to a value here and to a node there. -/
theorem keys_collide :
    (gqlValueSliceToKey [.map [("a", .str "x=I1")]] =
        gqlValueSliceToKey [.map [("a=Sx", .int 1)]] ∧
      canonicals [.map [("a", .str "x=I1")]] ≠ canonicals [.map [("a=Sx", .int 1)]]) ∧
    ((StageRow.mk [("x", .int 1)] [] []).bindingDistinctKey =
        (StageRow.mk [] [("x", ⟨1, "N", .empty, {}⟩)] []).bindingDistinctKey ∧
      ¬(StageRow.mk [("x", .int 1)] [] []).Same
        (StageRow.mk [] [("x", ⟨1, "N", .empty, {}⟩)] [])) := by
  refine ⟨⟨by decide +kernel, ?_⟩, by decide +kernel, ?_⟩
  · simp [canonicals, canonical, canonicalEntries, sortEntries]
  · intro same
    have short := same.nodes.length_eq
    cases short

end ErmyaGraph.Gql
