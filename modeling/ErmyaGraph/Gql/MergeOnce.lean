import ErmyaGraph.Gql.Locking

/-! # A node that is merged once

A MERGE that finds no node makes one that every later MERGE of the same kind
finds, as long as what it is looked up by stays as it is. -/

namespace ErmyaGraph

namespace Properties

theorem lookup_map_replaceEntry (entries : List (String × Property)) (key other : String)
    (value : Property) : (entries.map (replaceEntry key value)).lookup other =
      if other = key then (entries.lookup key).map fun _ => value else entries.lookup other := by
  induction entries with
  | nil => simp
  | cons entry rest ih =>
    obtain ⟨name, old⟩ := entry
    by_cases here : name = key
    · subst here
      simp only [List.map_cons, replaceEntry, ↓reduceIte, List.lookup_cons]
      by_cases same : other = name
      · simp [same]
      · simp [same, ih, beq_false_of_ne same]
    · simp only [List.map_cons, replaceEntry, here, ↓reduceIte, List.lookup_cons, ih]
      by_cases same : other = name
      · simp [same, here]
      · by_cases wanted : other = key
        · subst wanted
          simp [beq_false_of_ne same]
        · simp [beq_false_of_ne same, wanted]

theorem get?_insert (props : Properties) (key other : String) (value : Property) :
    (props.insert key value).get? other = if other = key then some value else props.get? other := by
  unfold insert
  split
  · next present =>
      rw [get?, lookup_map_replaceEntry]
      have here : (props.entries.lookup key).isSome := by
        obtain ⟨entry, mem, same⟩ := List.mem_map.mp present
        exact List.lookup_isSome_iff.mpr ⟨entry, mem, by simp [same]⟩
      obtain ⟨old, here⟩ := Option.isSome_iff_exists.mp here
      rw [here]
      rfl
  · next absent =>
      have none : props.entries.lookup key = none := by
        refine List.lookup_eq_none_iff.mpr fun entry mem => bne_iff_ne.mpr ?_
        rintro rfl
        exact absent (List.mem_map_of_mem mem)
      rw [get?, List.lookup_append, List.lookup_cons, List.lookup_nil]
      by_cases same : other = key
      · subst same
        simp [none]
      · simp [same, beq_false_of_ne same, get?]

end Properties

namespace Gql

open Outcome List Function

/-- There is a node with a label and properties. -/
def Bears (contents : Contents) (label : String) (props : List (String × Property)) (id : Nat) :
    Prop :=
  ∃ node, contents.nodes id = some node ∧ node.label = label ∧
    ∀ entry ∈ props, node.properties.get? entry.1 = some entry.2

/-- Some candidate is picked where there are any. -/
structure Picks (pick : List Nat → Option Nat) : Prop where
  mem : ∀ {ids id}, pick ids = some id → id ∈ ids
  none : ∀ {ids}, pick ids = none → ids = []

section Lookup

variable {graph : GraphAccess} {contents : Contents} {runtime : Runtime}
  {pick : List Nat → Option Nat}

theorem mem_narrowed (graph : GraphAccess) (label : String) (props : List (String × Property))
    (ids : List Nat) (id : Nat) : ∃ narrowed, (props.foldl (fun candidates entry =>
        let ids := graph.nodesByLabelAndProperty label entry.1 entry.2
        match candidates with
        | none => some ids
        | some earlier => some (earlier.filter (· ∈ ids))) (some ids)) = some narrowed ∧
      (id ∈ narrowed ↔ id ∈ ids ∧
        ∀ entry ∈ props, id ∈ graph.nodesByLabelAndProperty label entry.1 entry.2) := by
  induction props generalizing ids with
  | nil => exact ⟨ids, rfl, by simp⟩
  | cons entry rest ih =>
    obtain ⟨narrowed, same, members⟩ :=
      ih (ids.filter (· ∈ graph.nodesByLabelAndProperty label entry.1 entry.2))
    refine ⟨narrowed, same, members.trans ?_⟩
    rw [mem_filter, decide_eq_true_eq, forall_mem_cons, and_assoc]

variable {id : Nat}

theorem mem_mergeCandidates (serves : graph.Serves contents) {label : String}
    {props : List (String × Property)} (asked : props ≠ []) :
    id ∈ (mergeCandidates graph label props).getD [] ↔ Bears contents label props id := by
  cases props with
  | nil => exact absurd rfl asked
  | cons entry rest =>
    obtain ⟨narrowed, same, members⟩ := mem_narrowed graph label rest
      (graph.nodesByLabelAndProperty label entry.1 entry.2) id
    have found : mergeCandidates graph label (entry :: rest) = some narrowed := same
    have every : id ∈ narrowed ↔ ∀ other ∈ entry :: rest,
        id ∈ graph.nodesByLabelAndProperty label other.1 other.2 := by
      rw [forall_mem_cons, members]
    rw [found, Option.getD_some, every]
    constructor
    · intro everywhere
      obtain ⟨node, here, labelled, -⟩ := ((serves.nodesByLabelAndProperty label entry.1
        entry.2).mem_iff id).mp (everywhere entry mem_cons_self)
      refine ⟨node, here, labelled, fun other mem => ?_⟩
      obtain ⟨node', here', -, value⟩ := ((serves.nodesByLabelAndProperty label other.1
        other.2).mem_iff id).mp (everywhere other mem)
      rw [here] at here'
      rw [Option.some.inj here', value]
    · rintro ⟨node, here, labelled, values⟩ other mem
      exact ((serves.nodesByLabelAndProperty label other.1 other.2).mem_iff id).mpr
        ⟨node, here, labelled, values other mem⟩

variable {clause : MergeClause}

theorem bears_of_lookup (serves : graph.Serves contents) (picks : Picks pick)
    (found : (mergeLookup runtime pick graph clause).existingId = some id) :
    Bears contents clause.label (lookupProps runtime clause) id := by
  rw [mergeLookup] at found
  dsimp only at found
  split at found
  · next empty =>
      rw [List.isEmpty_iff] at empty
      obtain ⟨node, here, labelled⟩ :=
        ((serves.nodesByLabel clause.label).mem_iff id).mp (mem_of_head? found)
      rw [empty]
      exact ⟨node, here, labelled, fun _ mem => absurd mem not_mem_nil⟩
  · next asked =>
      rw [List.isEmpty_iff] at asked
      exact (mem_mergeCandidates serves asked).mp (picks.mem found)

theorem lookup_of_bears (serves : graph.Serves contents) (picks : Picks pick)
    (bears : Bears contents clause.label (lookupProps runtime clause) id) :
    (mergeLookup runtime pick graph clause).existingId ≠ none := by
  intro missing
  rw [mergeLookup] at missing
  dsimp only at missing
  split at missing
  · next empty =>
      obtain ⟨node, here, labelled, -⟩ := bears
      have mem := ((serves.nodesByLabel clause.label).mem_iff id).mpr ⟨node, here, labelled⟩
      rw [List.head?_eq_none_iff.mp missing] at mem
      exact absurd mem not_mem_nil
  · next asked =>
      rw [List.isEmpty_iff] at asked
      have mem := (mem_mergeCandidates serves asked).mpr bears
      rw [picks.none missing] at mem
      exact absurd mem not_mem_nil

end Lookup

/-- Writes that succeed change the contents as they say, and those that fail leave them. -/
structure GraphStore.Writes {σ : Type} (store : GraphStore σ) (contents : σ → Contents) : Prop where
  serves : ∀ s, (store.access s).Serves (contents s)
  addNode : ∀ label props s, Sat (store.addNode label props) s
    (fun id s' => (contents s).nodes id = none ∧ (contents s').edges = (contents s).edges ∧
      ∃ node, node.label = label ∧ node.properties = props ∧
        (contents s').nodes = update (contents s).nodes id (some node))
    (fun _ s' => contents s' = contents s)
  updateNode : ∀ id node s, node.id = id → Sat (store.updateNode id node) s
    (fun _ s' => (contents s').edges = (contents s).edges ∧
      (contents s').nodes = update (contents s).nodes id (some node))
    (fun _ s' => contents s' = contents s)

/-- There is one node more, which bears a label and properties; all else is as before. -/
structure Grown (before : Contents) (label : String) (props : List (String × Property)) (id : Nat)
    (after : Contents) : Prop where
  fresh : before.nodes id = none
  others : ∀ other, other ≠ id → after.nodes other = before.nodes other
  edges : after.edges = before.edges
  bears : Bears after label props id

/-- The properties that a node is looked up by stay as they are. -/
def SetClause.Keeps (runtime : Runtime) (params : Params) (props : List (String × Property))
    (clause : SetClause) : Prop :=
  ∀ assignment ∈ clause.assignments, ∀ change count,
    assigned runtime params assignment = .ok (some (change, count)) →
      ∀ properties, ∀ entry ∈ props, (change properties).get? entry.1 = properties.get? entry.1

/-- A MERGE names no property twice, and its assignments keep what it looks a node up by. -/
structure MergeClause.Steady (runtime : Runtime) (params : Params) (clause : MergeClause) :
    Prop where
  distinct : (clause.props.map Prod.fst).Nodup
  onCreate : ∀ set, clause.onCreate = some set →
    set.Keeps runtime params (lookupProps runtime clause)
  onMatch : ∀ set, clause.onMatch = some set → set.Keeps runtime params (lookupProps runtime clause)

theorem Grown.only {before after : Contents} {label : String} {props : List (String × Property)}
    {id other : Nat} (grown : Grown before label props id after)
    (absent : ∀ id, ¬Bears before label props id) (bears : Bears after label props other) :
    other = id := by
  by_contra apart
  obtain ⟨node, here, rest⟩ := bears
  rw [grown.others other apart] at here
  exact absent other ⟨node, here, rest⟩

variable {props : Properties} {entries : List (String × Property)}

theorem get?_collectProps_of_notMem {key : String} (absent : key ∉ entries.map Prod.fst) :
    (entries.foldl (fun props entry => props.insert entry.1 entry.2) props).get? key =
      props.get? key := by
  induction entries generalizing props with
  | nil => rfl
  | cons entry rest ih =>
    rw [map_cons, mem_cons, not_or] at absent
    rw [foldl_cons, ih absent.2, Properties.get?_insert, if_neg absent.1]

theorem get?_foldl_insert (distinct : (entries.map Prod.fst).Nodup) {entry : String × Property}
    (mem : entry ∈ entries) :
    (entries.foldl (fun props entry => props.insert entry.1 entry.2) props).get? entry.1 =
      some entry.2 := by
  induction entries generalizing props with
  | nil => exact absurd mem not_mem_nil
  | cons first rest ih =>
    rw [map_cons, nodup_cons] at distinct
    rw [foldl_cons]
    rcases mem_cons.mp mem with rfl | later
    · rw [get?_collectProps_of_notMem distinct.1, Properties.get?_insert, if_pos rfl]
    · exact ih distinct.2 later

theorem MergeClause.Steady.lookup_nodup {runtime : Runtime} {params : Params} {clause : MergeClause}
    (steady : clause.Steady runtime params) : ((lookupProps runtime clause).map Prod.fst).Nodup := by
  refine steady.distinct.sublist ?_
  rw [lookupProps, map_filterMap]
  generalize clause.props = entries
  induction entries with
  | nil => exact nil_sublist _
  | cons entry rest ih =>
    rw [filterMap_cons, map_cons]
    cases gqlValueToProperty (executeExpr runtime entry.2) with
    | none => exact ih.cons _
    | some value => exact ih.cons_cons _

section Steps

variable {σ : Type} {store : GraphStore σ} {contents : σ → Contents} {runtime : Runtime}
  {params : Params}
variable {s : σ}

theorem sat_onGraph {α : Type} {x : EStateM Error σ α} {post : α → σ → Prop}
    {fail : MutationError → σ → Prop} :
    Sat (onGraph x) s post fail ↔ Sat x s post fun e s' => fail (.gql (.graph e)) s' := by
  unfold Sat onGraph
  simp only [EStateM.run]
  cases x s with
  | ok a s' => rfl
  | error e s' => rfl

theorem sat_readNode {id : Nat} : Sat (readNode store id) s
    (fun node s' => s' = s ∧ (store.access s).node id = .ok node) (fun _ s' => s' = s) := by
  rw [readNode, sat_bind, sat_get, ofGraph]
  cases (store.access s).node id with
  | ok node => exact ⟨rfl, rfl⟩
  | error e => exact rfl

theorem sat_projectMerged {returnVar : Option String} {id : Nat} :
    Sat (projectMerged store returnVar id) s (fun _ s' => s' = s) (fun _ s' => s' = s) := by
  cases returnVar with
  | none => exact rfl
  | some var =>
    rw [projectMerged, sat_bind, projectNodeAsMap, sat_bind]
    exact sat_readNode.mono (fun _ _ read => read.1) fun _ _ same => same

variable {before : Contents} {label : String} {props : List (String × Property)} {id : Nat}

theorem Grown.update {after after' : Contents} (grown : Grown before label props id after)
    {node : Node} (here : after.nodes id = some node) {properties : Properties}
    (same : ∀ entry ∈ props, properties.get? entry.1 = node.properties.get? entry.1)
    (edges : after'.edges = after.edges)
    (nodes : after'.nodes = update after.nodes id (some { node with properties })) :
    Grown before label props id after' := by
  refine ⟨grown.fresh, fun other apart => ?_, edges.trans grown.edges, ?_⟩
  · rw [nodes, update_of_ne apart, grown.others other apart]
  · obtain ⟨node', here', labelled, values⟩ := grown.bears
    obtain rfl : node = node' := Option.some.inj (here.symm.trans here')
    refine ⟨{ node with properties }, ?_, labelled, fun entry mem => ?_⟩
    · rw [nodes, update_self]
    · exact (same entry mem).trans (values entry mem)

theorem sat_applyOneSetAssignment (writes : store.Writes contents) {assignment : SetAssignment}
    (keeps : ∀ change count, assigned runtime params assignment = .ok (some (change, count)) →
      ∀ properties, ∀ entry ∈ props, (change properties).get? entry.1 = properties.get? entry.1)
    (grown : Grown before label props id (contents s)) :
    Sat (applyOneSetAssignment store runtime params id assignment) s
      (fun _ s' => Grown before label props id (contents s'))
      (fun _ s' => Grown before label props id (contents s')) := by
  rw [applyOneSetAssignment, sat_bind, sat_ofResult]
  refine ⟨fun outcome assigned => ?_, fun _ _ => grown⟩
  match outcome with
  | none => exact grown
  | some (change, count) =>
    simp only [sat_bind, sat_onGraph, sat_pure]
    refine sat_readNode.mono ?_ fun _ _ same => same ▸ grown
    rintro node s' ⟨rfl, read⟩
    rw [(writes.serves s').node id] at read
    cases here : (contents s').nodes id with
    | none =>
      rw [here] at read
      cases read
    | some found =>
      rw [here] at read
      obtain rfl : found = node := Except.ok.inj read
      have named : found.id = id := (contents s').node_id here
      have updated := writes.updateNode id
        { found with properties := change found.properties } s' named
      refine updated.mono ?_ fun _ s'' same => same ▸ grown
      rintro _ s'' ⟨edges, nodes⟩
      exact grown.update here (keeps change count assigned _) edges nodes

theorem sat_applyOptionalSet (writes : store.Writes contents) {clause : Option SetClause}
    (keeps : ∀ set, clause = some set → set.Keeps runtime params props)
    (grown : Grown before label props id (contents s)) :
    Sat (applyOptionalSet store runtime params id clause) s
      (fun _ s' => Grown before label props id (contents s'))
      (fun _ s' => Grown before label props id (contents s')) := by
  cases clause with
  | none => exact grown
  | some set =>
    refine sat_foldlM_of_invariant (fun _ s' => Grown before label props id (contents s')) grown ?_
    intro assignment mem count s' held
    rw [sat_bind]
    exact sat_applyOneSetAssignment writes (keeps set rfl assignment mem) held

end Steps

section Merges

variable {σ : Type} {store : GraphStore σ} {contents : σ → Contents} {runtime : Runtime}
  {params : Params} {clause : MergeClause} (writes : store.Writes contents)
  (steady : clause.Steady runtime params)
include writes steady
variable {lookup : MergeLookup}

theorem sat_applyMergeWrite_existing {before : Contents} {s : σ} {id : Nat}
    (existing : lookup.existingId = some id)
    (grown : Grown before clause.label (lookupProps runtime clause) id (contents s)) :
    Sat (applyMergeWrite store runtime params clause lookup) s
      (fun _ s' => Grown before clause.label (lookupProps runtime clause) id (contents s'))
      (fun _ s' => Grown before clause.label (lookupProps runtime clause) id (contents s')) := by
  simp only [applyMergeWrite, existing, mergeExisting, sat_bind, sat_pure]
  refine (sat_applyOptionalSet writes steady.onMatch grown).mono (fun _ s' held => ?_)
    fun _ _ held => held
  exact sat_projectMerged.mono (fun _ _ same => same ▸ held) fun _ _ same => same ▸ held

theorem sat_applyMergeWrite_new {s : σ} (existing : lookup.existingId = none)
    (props : lookup.lookupProps = lookupProps runtime clause) :
    Sat (applyMergeWrite store runtime params clause lookup) s
      (fun _ s' => ∃ id,
        Grown (contents s) clause.label (lookupProps runtime clause) id (contents s'))
      (fun _ s' => contents s' = contents s ∨ ∃ id,
        Grown (contents s) clause.label (lookupProps runtime clause) id (contents s')) := by
  simp only [applyMergeWrite, existing, mergeNew, props, sat_bind, sat_pure, sat_onGraph]
  refine (writes.addNode _ _ s).mono ?_ fun _ _ same => .inl same
  rintro id s' ⟨fresh, edges, node, labelled, carried, nodes⟩
  have grown : Grown (contents s) clause.label (lookupProps runtime clause) id (contents s') := by
    refine ⟨fresh, fun other apart => ?_, edges, node, ?_, labelled, fun entry mem => ?_⟩
    · rw [nodes, update_of_ne apart]
    · rw [nodes, update_self]
    · rw [carried]
      exact get?_foldl_insert steady.lookup_nodup mem
  refine (sat_applyOptionalSet writes steady.onCreate grown).mono (fun _ s'' held => ?_)
    fun _ s'' held => .inr ⟨id, held⟩
  exact sat_projectMerged.mono (fun _ _ same => ⟨id, same ▸ held⟩)
    fun _ _ same => .inr ⟨id, same ▸ held⟩

end Merges

end Gql

end ErmyaGraph
