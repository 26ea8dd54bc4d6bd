import ErmyaGraph.Gql.Serial
import ErmyaGraph.Gql.Inline

/-! # What a MERGE finds or makes

A MERGE takes a node that the index lists, and makes one where it lists none. What
cannot be stored is left out of both. -/

namespace ErmyaGraph.Gql

variable {pick : List Nat → Option Nat}

open Outcome List

def patternValues (runtime : Runtime) (props : List (String × Expr)) : List (String × GqlValue) :=
  props.map fun entry => (entry.1, executeExpr runtime entry.2)

/-- A node has a label, and its properties equal values. -/
def Meets (float : FloatArith) (contents : Contents) (label : String)
    (values : List (String × GqlValue)) (id : Nat) : Prop :=
  ∃ node, contents.nodes id = some node ∧ node.label = label ∧
    ∀ entry ∈ values, gqlValueEq float (propertyValue node.properties entry.1) entry.2 = true

def storedValues (values : List (String × GqlValue)) : List (String × Property) :=
  values.filterMap fun entry => (gqlValueToProperty entry.2).map fun value => (entry.1, value)

/-- The properties that a pattern looks a node up by. -/
abbrev askedFor (runtime : Runtime) (props : List (String × Expr)) : List (String × Property) :=
  storedValues (patternValues runtime props)

/-- Every value equals what is stored for it, and a key that comes twice is stored alike. -/
structure Storable (float : FloatArith) (values : List (String × GqlValue)) : Prop where
  equals : ∀ entry ∈ values, ∃ value, gqlValueToProperty entry.2 = some value ∧
    gqlValueEq float (gqlValueFromProperty value) entry.2 = true
  alike : ∀ left ∈ storedValues values, ∀ right ∈ storedValues values,
    left.1 = right.1 → left.2 = right.2

/-- An index lists a node under every property; without any the first node of the label counts. -/
def Listed (graph : GraphAccess) (label : String) (stored : List (String × Property)) (id : Nat) :
    Prop :=
  if stored = [] then (graph.nodesByLabel label).head? = some id
  else ∀ entry ∈ stored, id ∈ graph.nodesByLabelAndProperty label entry.1 entry.2

def plainMerge (var : Option String) (label : String) (props : List (String × Expr))
    (returnVar : Option String) : MergeClause := ⟨var, label, props, none, none, returnVar⟩

theorem lookupProps_eq (runtime : Runtime) (clause : MergeClause) :
    lookupProps runtime clause = askedFor runtime clause.props := by
  rw [lookupProps, askedFor, storedValues, patternValues, filterMap_map]
  rfl

section Lookup

variable {graph : GraphAccess} {runtime : Runtime} {clause : MergeClause} {id : Nat}

theorem mem_candidates {label : String} {stored : List (String × Property)} (asked : stored ≠ []) :
    id ∈ (mergeCandidates graph label stored).getD [] ↔ Listed graph label stored id := by
  rw [Listed, if_neg asked]
  cases stored with
  | nil => exact absurd rfl asked
  | cons entry rest =>
    obtain ⟨narrowed, same, members⟩ := mem_narrowed graph label rest
      (graph.nodesByLabelAndProperty label entry.1 entry.2) id
    have found : mergeCandidates graph label (entry :: rest) = some narrowed := same
    rw [found, Option.getD_some, members, forall_mem_cons]

theorem listed_of_existing (picks : Picks pick)
    (found : (mergeLookup runtime pick graph clause).existingId = some id) :
    Listed graph clause.label (lookupProps runtime clause) id := by
  rw [mergeLookup] at found
  dsimp only at found
  by_cases empty : lookupProps runtime clause = []
  · rw [if_pos (List.isEmpty_iff.mpr empty)] at found
    rw [Listed, if_pos empty]
    exact found
  · rw [if_neg (mt List.isEmpty_iff.mp empty)] at found
    exact (mem_candidates empty).mp (picks.mem found)

theorem unlisted_of_missing (picks : Picks pick)
    (missing : (mergeLookup runtime pick graph clause).existingId = none) (id : Nat) :
    ¬Listed graph clause.label (lookupProps runtime clause) id := by
  rw [mergeLookup] at missing
  dsimp only at missing
  intro listed
  by_cases empty : lookupProps runtime clause = []
  · rw [if_pos (List.isEmpty_iff.mpr empty)] at missing
    rw [Listed, if_pos empty, missing] at listed
    cases listed
  · rw [if_neg (mt List.isEmpty_iff.mp empty)] at missing
    have mem := (mem_candidates empty).mpr listed
    rw [picks.none missing] at mem
    exact not_mem_nil mem

/-- Takes one node where it is among the candidates. -/
def preferring (id : Nat) (ids : List Nat) : Option Nat := if id ∈ ids then some id else ids.head?

theorem picks_preferring (id : Nat) : Picks (preferring id) where
  mem {ids other} picked := by
    rw [preferring] at picked
    split at picked
    · next member =>
        cases picked
        exact member
    · exact mem_of_head? picked
  none {ids} missing := by
    rw [preferring] at missing
    split at missing
    · cases missing
    · exact List.head?_eq_none_iff.mp missing

theorem existing_of_listed (listed : Listed graph clause.label (lookupProps runtime clause) id) :
    (mergeLookup runtime (preferring id) graph clause).existingId = some id := by
  rw [mergeLookup]
  dsimp only
  by_cases empty : lookupProps runtime clause = []
  · rw [if_pos (List.isEmpty_iff.mpr empty)]
    rw [Listed, if_pos empty] at listed
    exact listed
  · have mem := (mem_candidates empty).mpr listed
    rw [if_neg (mt List.isEmpty_iff.mp empty), preferring, if_pos mem]

end Lookup

section Merging

variable {σ : Type} (store : GraphStore σ) (contents : σ → Contents) (runtime : Runtime)
variable (params : Params)

/-- The node of a MERGE and what it counts, before the node is returned. -/
def mergeNode (pick : List Nat → Option Nat) (clause : MergeClause) :
    MutationM σ (Nat × GqlMutationResult) := do
  let lookup := mergeLookup runtime pick (store.access (← get)) clause
  match lookup.existingId with
  | some id => mergeExisting store runtime params clause id
  | none => mergeNew store runtime params clause lookup.lookupProps

/-- Indexes list what they listed, and a new node under its label and properties. -/
structure Indexed (before after : GraphAccess) (id : Nat) (label : String) (props : Properties) :
    Prop where
  ofLabel : ∀ l x, x ∈ after.nodesByLabel l ↔ x ∈ before.nodesByLabel l ∨ x = id ∧ l = label
  ofProperty : ∀ l key value x, x ∈ after.nodesByLabelAndProperty l key value ↔
    x ∈ before.nodesByLabelAndProperty l key value ∨
      x = id ∧ l = label ∧ props.get? key = some value
  fresh : ∀ l key value, id ∉ before.nodesByLabelAndProperty l key value

/-- A node that is added can be seen, and the indexes list it. -/
def GraphStore.Adds : Prop :=
  ∀ label props s, Sat (store.addNode label props) s
    (fun id s' => Indexed (store.access s) (store.access s') id label props ∧
      ∃ node, (contents s').nodes id = some node ∧ node.label = label ∧ node.properties = props)
    (fun _ _ => True)

/-- A MERGE takes a node that meets its pattern, or makes one where there is none, and run again it
makes none, whichever of several nodes it takes. -/
def FindsOrCreates (float : FloatArith) (clause : MergeClause) (s : σ) : Prop :=
  let values := patternValues runtime clause.props
  ∀ pick, Picks pick → Sat (mergeNode store runtime params pick clause) s
    (fun merged s' => Meets float (contents s') clause.label values merged.1 ∧
      (merged.2.nodesCreated ≠ 0 ↔ ¬∃ id, Meets float (contents s) clause.label values id) ∧
      ∀ pick, Picks pick → Sat (mergeNode store runtime params pick clause) s'
        (fun again _ => again.2.nodesCreated = 0) fun _ _ => False)
    fun _ _ => False

variable {store contents runtime params}

theorem sat_mergeNode {var returnVar : Option String} {label : String}
    {props : List (String × Expr)} {s : σ} {post : Nat × GqlMutationResult → σ → Prop}
    {fail : MutationError → σ → Prop} :
    Sat (mergeNode store runtime params pick (plainMerge var label props returnVar)) s post fail ↔
      match (mergeLookup runtime pick (store.access s)
        (plainMerge var label props returnVar)).existingId with
      | some id => post (id, {}) s
      | none => Sat (store.addNode label (collectProps (askedFor runtime props)))
          s (fun id s' => post (id, { nodesCreated := 1, labelsAdded := countLabel label }) s')
          fun e s' => fail (.gql (.graph e)) s' := by
  have stored : (mergeLookup runtime pick (store.access s)
      (plainMerge var label props returnVar)).lookupProps =
      askedFor runtime props :=
    lookupProps_eq runtime (plainMerge var label props returnVar)
  rw [mergeNode, sat_bind, sat_get]
  dsimp only
  cases (mergeLookup runtime pick (store.access s)
      (plainMerge var label props returnVar)).existingId with
  | some id => exact Iff.rfl
  | none =>
    dsimp only
    rw [mergeNew, sat_bind, sat_onGraph, stored]
    exact Iff.rfl

/-- Reads that answer from the contents list a node that is added. -/
theorem GraphStore.Writes.adds (writes : store.Writes contents) : store.Adds contents := by
  intro label props s
  refine (writes.addNode label props s).mono ?_ fun _ _ _ => trivial
  rintro id s' ⟨fresh, -, node, labelled, carried, nodes⟩
  have here : (contents s').nodes id = some node := by rw [nodes, Function.update_self]
  have others {x : Nat} (ne : x ≠ id) : (contents s').nodes x = (contents s).nodes x := by
    rw [nodes, Function.update_of_ne ne]
  have gone {other : Node} (was : (contents s).nodes id = some other) : False := by
    rw [fresh] at was
    cases was
  refine ⟨⟨fun l x => ?_, fun l key value x => ?_, fun l key value mem => ?_⟩, node, here,
    labelled, carried⟩
  · rw [((writes.serves s').nodesByLabel l).mem_iff, ((writes.serves s).nodesByLabel l).mem_iff]
    by_cases new : x = id
    · subst new
      constructor
      · rintro ⟨other, is, same⟩
        obtain rfl : node = other := Option.some.inj (here.symm.trans is)
        exact .inr ⟨rfl, same.symm.trans labelled⟩
      · rintro (⟨other, was, -⟩ | ⟨-, rfl⟩)
        · exact (gone was).elim
        · exact ⟨node, here, labelled⟩
    · rw [others new]
      exact ⟨.inl, fun either => either.resolve_right fun is => new is.1⟩
  · rw [((writes.serves s').nodesByLabelAndProperty l key value).mem_iff,
      ((writes.serves s).nodesByLabelAndProperty l key value).mem_iff]
    by_cases new : x = id
    · subst new
      constructor
      · rintro ⟨other, is, same, has⟩
        obtain rfl : node = other := Option.some.inj (here.symm.trans is)
        exact .inr ⟨rfl, same.symm.trans labelled, carried ▸ has⟩
      · rintro (⟨other, was, -⟩ | ⟨-, rfl, has⟩)
        · exact (gone was).elim
        · exact ⟨node, here, labelled, carried.symm ▸ has⟩
    · rw [others new]
      exact ⟨.inl, fun either => either.resolve_right fun is => new is.1⟩
  · obtain ⟨other, was, -⟩ :=
      (((writes.serves s).nodesByLabelAndProperty l key value).mem_iff id).mp mem
    exact gone was

theorem get?_collectProps {entries : List (String × Property)} {acc : Properties}
    (alike : ∀ left ∈ entries, ∀ right ∈ entries, left.1 = right.1 → left.2 = right.2)
    {entry : String × Property} (mem : entry ∈ entries) :
    (entries.foldl (fun props entry => props.insert entry.1 entry.2) acc).get? entry.1 =
      some entry.2 := by
  induction entries generalizing acc with
  | nil => exact absurd mem not_mem_nil
  | cons first rest ih =>
    rw [foldl_cons]
    by_cases later : entry.1 ∈ rest.map Prod.fst
    · obtain ⟨other, inside, same⟩ := mem_map.mp later
      have value := alike other (mem_cons_of_mem first inside) entry mem same
      obtain rfl : other = entry := Prod.ext same value
      exact ih (fun left inLeft right inRight => alike left (mem_cons_of_mem first inLeft)
        right (mem_cons_of_mem first inRight)) inside
    · have here : entry = first := (mem_cons.mp mem).resolve_right fun inside =>
        later (mem_map_of_mem inside)
      rw [get?_collectProps_of_notMem later, here, Properties.get?_insert, if_pos rfl]

theorem stored_of_eq {float : FloatArith} {left right : GqlValue}
    (equal : gqlValueEq float left right = true) :
    ∃ value, gqlValueToProperty right = some value := by
  cases right with
  | int | float | str | bool => exact ⟨_, rfl⟩
  | _ => cases left <;> cases equal

theorem mem_storedValues {values : List (String × GqlValue)} {entry : String × GqlValue}
    (mem : entry ∈ values) {value : Property}
    (stored : gqlValueToProperty entry.2 = some value) :
    (entry.1, value) ∈ storedValues values :=
  mem_filterMap.mpr ⟨entry, mem, by rw [stored]; rfl⟩

section Extended

variable {before after : GraphAccess} {id : Nat} {label : String} {props : Properties}
  {stored : List (String × Property)}

theorem Indexed.listed (indexed : Indexed before after id label props)
    (recorded : ∀ entry ∈ stored, props.get? entry.1 = some entry.2) :
    ∃ x, Listed after label stored x := by
  by_cases empty : stored = []
  · have mem := (indexed.ofLabel label id).mpr (.inr ⟨rfl, rfl⟩)
    cases first : (after.nodesByLabel label).head? with
    | none =>
      rw [List.head?_eq_none_iff.mp first] at mem
      exact absurd mem not_mem_nil
    | some x => exact ⟨x, by rw [Listed, if_pos empty, first]⟩
  · refine ⟨id, ?_⟩
    rw [Listed, if_neg empty]
    intro entry mem
    have has := recorded entry mem
    exact (indexed.ofProperty label entry.1 entry.2 id).mpr (.inr ⟨rfl, rfl, has⟩)

theorem Indexed.recorded (indexed : Indexed before after id label props)
    (unlisted : ∀ x, ¬Listed before label stored x) {x : Nat}
    (listed : Listed after label stored x) :
    ∀ entry ∈ stored, props.get? entry.1 = some entry.2 := by
  intro entry mem
  have some : stored ≠ [] := ne_nil_of_mem mem
  rw [Listed, if_neg some] at listed
  by_cases new : x = id
  · subst new
    have here := (indexed.ofProperty label entry.1 entry.2 x).mp (listed entry mem)
    exact (here.resolve_left (indexed.fresh label entry.1 entry.2)).2.2
  · have old : Listed before label stored x := by
      rw [Listed, if_neg some]
      intro other inside
      exact ((indexed.ofProperty label other.1 other.2 x).mp (listed other inside)).resolve_right
        fun is => new is.1
    exact absurd old (unlisted x)

end Extended

section Exact

variable {float : FloatArith} {var returnVar : Option String} {label : String}
  {props : List (String × Expr)} {s : σ}
variable {graph : GraphAccess}

theorem exists_existing (picks : Picks pick)
    (listed : ∃ id, Listed graph label (askedFor runtime props) id) :
    ∃ id, (mergeLookup runtime pick graph (plainMerge var label props returnVar)).existingId =
        some id ∧ Listed graph label (askedFor runtime props) id := by
  obtain ⟨x, here⟩ := listed
  have same := lookupProps_eq runtime (plainMerge var label props returnVar)
  cases found : (mergeLookup runtime pick graph
      (plainMerge var label props returnVar)).existingId with
  | none =>
    have unlisted := unlisted_of_missing picks found x
    rw [same] at unlisted
    exact absurd here unlisted
  | some id =>
    have listed := listed_of_existing picks found
    rw [same] at listed
    exact ⟨id, rfl, listed⟩

theorem missing_of_unlisted (picks : Picks pick)
    (unlisted : ∀ id, ¬Listed graph label (askedFor runtime props) id) :
    (mergeLookup runtime pick graph (plainMerge var label props returnVar)).existingId = none := by
  refine Option.eq_none_iff_forall_not_mem.mpr fun id found => ?_
  have listed := listed_of_existing picks found
  rw [lookupProps_eq] at listed
  exact unlisted id listed

theorem again_of_listed (picks : Picks pick)
    (listed : ∃ id, Listed (store.access s) label (askedFor runtime props) id) :
    Sat (mergeNode store runtime params pick (plainMerge var label props returnVar)) s
      (fun again _ => again.2.nodesCreated = 0) fun _ _ => False := by
  have exists_ : ∃ id, (mergeLookup runtime pick (store.access s)
      (plainMerge var label props returnVar)).existingId = some id ∧ Listed (store.access s) label
        (askedFor runtime props) id := exists_existing picks listed
  obtain ⟨id, found, -⟩ := exists_
  rw [sat_mergeNode, found]

theorem found_of_again
    (again : Sat (mergeNode store runtime params pick (plainMerge var label props returnVar)) s
      (fun again _ => again.2.nodesCreated = 0) fun _ _ => False) :
    (mergeLookup runtime pick (store.access s)
      (plainMerge var label props returnVar)).existingId ≠ none := by
  intro missing
  rw [sat_mergeNode, missing] at again
  have made : Sat (store.addNode label (collectProps (askedFor runtime props)))
      s (fun _ _ => 1 = 0) fun _ _ => False := again
  unfold Sat at made
  split at made
  · cases made
  · exact made

theorem findsOrCreates_of_listed
    (listed : ∃ id, Listed (store.access s) label (askedFor runtime props) id) :
    FindsOrCreates store contents runtime params float (plainMerge var label props returnVar) s ↔
      ∀ id, Listed (store.access s) label (askedFor runtime props) id →
        Meets float (contents s) label (patternValues runtime props) id := by
  constructor
  · intro holds id here
    have found : (mergeLookup runtime (preferring id) (store.access s)
        (plainMerge var label props returnVar)).existingId = some id := by
      apply existing_of_listed
      rw [lookupProps_eq]
      exact here
    have ran := holds (preferring id) (picks_preferring id)
    rw [sat_mergeNode, found] at ran
    exact ran.1
  · intro every pick picks
    have exists_ : ∃ id, (mergeLookup runtime pick (store.access s)
        (plainMerge var label props returnVar)).existingId = some id ∧ Listed (store.access s) label
          (askedFor runtime props) id := exists_existing picks listed
    obtain ⟨id, found, here⟩ := exists_
    rw [sat_mergeNode, found]
    refine ⟨every id here, ⟨fun created => absurd rfl created, fun missing => ?_⟩, ?_⟩
    · exact absurd ⟨id, every id here⟩ missing
    · exact fun pick picks => again_of_listed picks listed

/-- Where none is listed, none may meet the pattern, and the new node has to. -/
theorem findsOrCreates_of_unlisted (adds : store.Adds contents)
    (unlisted : ∀ id, ¬Listed (store.access s) label (askedFor runtime props) id) :
    FindsOrCreates store contents runtime params float (plainMerge var label props returnVar) s ↔
      (∀ id, ¬Meets float (contents s) label (patternValues runtime props) id) ∧
        Outcome.succeeds (store.addNode label (collectProps (askedFor runtime props))) s = true ∧
        Storable float (patternValues runtime props) := by
  have added := adds label (collectProps (askedFor runtime props)) s
  constructor
  · intro holds
    have ran := holds (preferring 0) (picks_preferring 0)
    rw [sat_mergeNode, missing_of_unlisted (picks_preferring 0) unlisted] at ran
    have both := added.and ran
    unfold Sat at both
    unfold Outcome.succeeds
    cases result : (store.addNode label (collectProps (askedFor runtime props))).run s with
    | error e s' =>
      rw [result] at both
      exact both.2.elim
    | ok id s' =>
      rw [result] at both
      obtain ⟨⟨indexed, node, here, labelled, carried⟩, ⟨node', here', -, equal⟩, created,
        again⟩ := both
      obtain rfl : node = node' := Option.some.inj (here.symm.trans here')
      have second : Sat (mergeNode store runtime params (preferring 0)
          (plainMerge var label props returnVar)) s' (fun again _ => again.2.nodesCreated = 0)
          fun _ _ => False := again (preferring 0) (picks_preferring 0)
      have recorded : ∀ entry ∈ askedFor runtime props,
          (collectProps (askedFor runtime props)).get? entry.1 =
            some entry.2 := by
        obtain ⟨x, found⟩ := Option.ne_none_iff_exists'.mp (found_of_again second)
        have listed := listed_of_existing (picks_preferring 0) found
        rw [lookupProps_eq] at listed
        exact indexed.recorded unlisted listed
      refine ⟨fun id meets => (created.mp one_ne_zero) ⟨id, meets⟩, rfl, ?_, ?_⟩
      · intro entry mem
        have equals := equal entry mem
        obtain ⟨value, stored⟩ := stored_of_eq equals
        refine ⟨value, stored, ?_⟩
        rw [carried, propertyValue, recorded _ (mem_storedValues mem stored)] at equals
        exact equals
      · intro left inLeft right inRight same
        have first := recorded left inLeft
        rw [same, recorded right inRight] at first
        exact (Option.some.inj first).symm
  · rintro ⟨unmet, accepted, storable⟩ pick picks
    rw [sat_mergeNode, missing_of_unlisted picks unlisted]
    unfold Sat at added ⊢
    unfold Outcome.succeeds at accepted
    cases result : (store.addNode label (collectProps (askedFor runtime props))).run s with
    | error e s' =>
      rw [result] at accepted
      cases accepted
    | ok id s' =>
      rw [result] at added
      obtain ⟨indexed, node, here, labelled, carried⟩ := added
      have recorded : ∀ entry ∈ askedFor runtime props,
          (collectProps (askedFor runtime props)).get? entry.1 =
            some entry.2 := fun entry mem => get?_collectProps storable.alike mem
      refine ⟨⟨node, here, labelled, fun entry mem => ?_⟩, ⟨fun _ => ?_, fun _ => one_ne_zero⟩,
        fun pick picks => again_of_listed picks (indexed.listed recorded)⟩
      · obtain ⟨value, stored, equal⟩ := storable.equals entry mem
        rw [carried, propertyValue, recorded _ (mem_storedValues mem stored)]
        exact equal
      · rintro ⟨other, meets⟩
        exact unmet other meets

/-- A MERGE does what it should exactly when the nodes that the indexes list all meet its pattern,
or none is listed, none meets it, and a node with its values can be made. -/
theorem merge_exact (adds : store.Adds contents) :
    FindsOrCreates store contents runtime params float (plainMerge var label props returnVar) s ↔
      ((∃ id, Listed (store.access s) label (askedFor runtime props) id) ∧
        ∀ id, Listed (store.access s) label (askedFor runtime props) id →
          Meets float (contents s) label (patternValues runtime props) id) ∨
      ((∀ id, ¬Listed (store.access s) label (askedFor runtime props) id) ∧
        (∀ id, ¬Meets float (contents s) label (patternValues runtime props) id) ∧
        Outcome.succeeds (store.addNode label (collectProps (askedFor runtime props))) s = true ∧
        Storable float (patternValues runtime props)) := by
  by_cases listed : ∃ id, Listed (store.access s) label (askedFor runtime props) id
  · rw [findsOrCreates_of_listed listed]
    constructor
    · exact fun every => .inl ⟨listed, every⟩
    · rintro (⟨-, every⟩ | ⟨unlisted, -⟩)
      · exact every
      · obtain ⟨id, here⟩ := listed
        exact absurd here (unlisted id)
  · have unlisted := not_exists.mp listed
    rw [findsOrCreates_of_unlisted adds unlisted]
    constructor
    · exact fun made => .inr ⟨unlisted, made⟩
    · rintro (⟨some, -⟩ | ⟨-, made⟩)
      · exact absurd some listed
      · exact made

end Exact

end Merging

/-- On an empty graph `MERGE (n:Person {name: 'Ada'})` does what it should. -/
theorem merge_exact_ada :
    FindsOrCreates listStore (fun s => s.graph.contents) literalsOnly (fun _ => none)
      literalsOnly.evaluators.float mergeAda ListGraph.empty := by
  apply (@merge_exact _ listStore (fun s => s.graph.contents) literalsOnly (fun _ => none)
    literalsOnly.evaluators.float (some "n") none "Person" [("name", .literal (.str "Ada"))]
    ListGraph.empty writes_listStore.adds).mpr
  refine .inr ⟨fun id listed => ?_, fun id meets => ?_, rfl, ?_, ?_⟩
  · have member := listed ("name", .string "Ada") mem_cons_self
    exact absurd member not_mem_nil
  · obtain ⟨node, here, -⟩ := meets
    cases here
  · intro entry member
    rw [mem_singleton.mp member]
    exact ⟨.string "Ada", rfl, by decide⟩
  · intro left inLeft right inRight _
    rw [mem_singleton.mp inLeft, mem_singleton.mp inRight]

/-- `MERGE (n:Person {name: null})` finds a person, or makes one, whose name is not null. -/
theorem null_not_merged :
    ¬FindsOrCreates listStore (fun s => s.graph.contents) literalsOnly (fun _ => none)
      literalsOnly.evaluators.float
      (plainMerge (some "n") "Person" [("name", .literal .null)] none) ListGraph.empty := by
  intro holds
  have ran := holds List.head? ⟨mem_of_head?, List.head?_eq_none_iff.mp⟩
  rw [sat_mergeNode] at ran
  obtain ⟨node, -, -, equal⟩ := ran.1
  obtain ⟨value, stored⟩ := stored_of_eq (equal ("name", .null) mem_cons_self)
  cases stored

end ErmyaGraph.Gql
