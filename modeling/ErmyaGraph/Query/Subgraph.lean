import ErmyaGraph.Query.Traversal

/-! # Subgraphs

A subgraph has the nodes that a traversal visits, and the edges between them. -/

namespace ErmyaGraph.Query

open Gql Search List

structure Subgraph where
  nodes : List Node
  edges : List Edge

/-- Push the edges that are kept, each id once. -/
def pushNew (keep : Edge → Bool) : List Edge → (edges : List Edge) → List Edge
  | [], edges => edges
  | edge :: rest, edges =>
    if keep edge && edge.id ∉ edges.map Edge.id then pushNew keep rest (edges ++ [edge])
    else pushNew keep rest edges

section Extract

variable (graph : GraphAccess) (label : Option String)

/-- Push the edges between a node and the node set. -/
def pushAround (ids : List Nat) (edges : List Edge) (id : Nat) : Except Error (List Edge) := do
  let matchesLabel (edge : Edge) := label.all (edge.label = ·)
  let outgoing ← graph.outgoingEdges id
  let edges := pushNew (fun edge => edge.target ∈ ids && matchesLabel edge) outgoing edges
  let incoming ← graph.incomingEdges id
  return pushNew (fun edge => edge.source ∈ ids && matchesLabel edge) incoming edges

def extract (start : Nat) (direction : Direction) (limit : Option Nat) : Except Error Subgraph := do
  if !graph.nodeExists start then throw (.nodeNotFound start)
  let ids ← collectNodes graph start direction label limit .bfs
  let nodes ← ids.mapM graph.node
  let edges ← ids.foldlM (pushAround graph label ids) []
  return ⟨nodes, edges⟩

end Extract

variable {graph : GraphAccess} {contents : Contents} {label : Option String} {ids : List Nat}
  {edges : List Edge}

/-- Edges that are there, each once. -/
structure Listed (contents : Contents) (edges : List Edge) : Prop where
  nodup : (edges.map Edge.id).Nodup
  real : ∀ edge ∈ edges, contents.edges edge.id = some edge

/-- The nodes with a property and the edges between them whose label passes, each once. -/
structure Induced (contents : Contents) (label : Option String) (near : Nat → Prop)
    (sub : Subgraph) : Prop where
  nodup : (sub.nodes.map Node.id).Nodup
  nodes : ∀ node, node ∈ sub.nodes ↔ contents.nodes node.id = some node ∧ near node.id
  listed : Listed contents sub.edges
  edges : ∀ edge, edge ∈ sub.edges ↔ contents.edges edge.id = some edge ∧
    label.all (edge.label = ·) ∧ near edge.source ∧ near edge.target

theorem pushNew_listed (keep : Edge → Bool) {items : List Edge} (listed : Listed contents edges)
    (real : ∀ edge ∈ items, contents.edges edge.id = some edge) :
    Listed contents (pushNew keep items edges) ∧
      ∀ edge, edge ∈ pushNew keep items edges ↔ edge ∈ edges ∨ edge ∈ items ∧ keep edge := by
  induction items generalizing edges with
  | nil => exact ⟨listed, by simp [pushNew]⟩
  | cons first rest ih =>
    obtain ⟨here, later⟩ := forall_mem_cons.mp real
    rw [pushNew]
    split
    · next new =>
        obtain ⟨kept, fresh⟩ : keep first ∧ first.id ∉ edges.map Edge.id := by simpa using new
        have listed' : Listed contents (edges ++ [first]) := by
          refine ⟨?_, forall_mem_append.mpr ⟨listed.real, forall_mem_singleton.mpr here⟩⟩
          rw [map_append, map_singleton]
          exact nodup_append_comm.mp (nodup_cons.mpr ⟨fresh, listed.nodup⟩)
        refine ⟨(ih listed' later).1, fun edge => ?_⟩
        rw [(ih listed' later).2, mem_append, mem_singleton, mem_cons]
        by_cases same : edge = first
        · simp [same, kept]
        · simp [same]
    · next old =>
        refine ⟨(ih listed later).1, fun edge => ?_⟩
        rw [(ih listed later).2, mem_cons, or_and_right, ← or_assoc]
        refine or_congr_left (or_iff_left_of_imp ?_).symm
        rintro ⟨rfl, keeps⟩
        obtain ⟨other, mem, same⟩ : ∃ other ∈ edges, other.id = edge.id := by
          simpa [keeps] using old
        have there := listed.real other mem
        rw [same, here] at there
        exact Option.some.inj there ▸ mem

variable (serves : graph.Serves contents)
include serves

theorem foldlM_pushAround_ok {rest : List Nat} (present : ∀ id ∈ rest, (contents.nodes id).isSome)
    (listed : Listed contents edges) :
    ∃ edges', rest.foldlM (pushAround graph label ids) edges = .ok edges' ∧
      Listed contents edges' ∧
      ∀ edge, edge ∈ edges' ↔ edge ∈ edges ∨ contents.edges edge.id = some edge ∧
        label.all (edge.label = ·) ∧
          (edge.source ∈ rest ∧ edge.target ∈ ids ∨ edge.target ∈ rest ∧ edge.source ∈ ids) := by
  induction rest generalizing edges with
  | nil => exact ⟨edges, rfl, listed, by simp⟩
  | cons id rest ih =>
    obtain ⟨here, later⟩ := forall_mem_cons.mp present
    obtain ⟨outgoing, leaving, leaves⟩ := serves.outgoingEdges id here
    obtain ⟨incoming, arriving, arrives⟩ := serves.incomingEdges id here
    obtain ⟨listed', members'⟩ := pushNew_listed
      (fun edge => edge.target ∈ ids && label.all (edge.label = ·)) listed
      fun edge mem => ((leaves.mem_iff edge).mp mem).1
    obtain ⟨listed'', members''⟩ := pushNew_listed
      (fun edge => edge.source ∈ ids && label.all (edge.label = ·)) listed'
      fun edge mem => ((arrives.mem_iff edge).mp mem).1
    obtain ⟨edges', ran, listed, members⟩ := ih later listed''
    refine ⟨edges', by rw [foldlM_cons, pushAround, leaving, arriving]; exact ran, listed,
      fun edge => ?_⟩
    rw [members, members'', members', leaves.mem_iff, arrives.mem_iff, mem_cons, mem_cons,
      Bool.and_eq_true, Bool.and_eq_true, decide_eq_true_iff, decide_eq_true_iff]
    tauto

/-- **What is extracted** is induced by the nodes within the limit, whichever way edges run. -/
theorem extract_induced {start : Nat} {direction : Direction} {limit : Option Nat}
    (present : (contents.nodes start).isSome) :
    ∃ sub, extract graph label start direction limit = .ok sub ∧
      Induced contents label (Within (Allowed contents direction label) limit start) sub := by
  obtain ⟨visits, found, visited, -, complete⟩ :=
    @traverseWith_visits _ _ _ direction label limit serves present .bfs
  have collected : collectNodes graph start direction label limit .bfs =
      .ok (visits.map Prod.fst) := by
    rw [collectNodes_eq, found]
    rfl
  have near (id : Nat) : id ∈ visits.map Prod.fst ↔
      Within (Allowed contents direction label) limit start id :=
    ⟨fun mem => by
      obtain ⟨visit, here, rfl⟩ := mem_map.mp mem
      exact within_of_visit (visited.valid visit here),
    fun near => (complete (.inl rfl) id near).resolve_left not_mem_nil⟩
  have nodup := visited.nodup
  generalize visits.map Prod.fst = ids at collected near nodup
  have there (id : Nat) (mem : id ∈ ids) : (contents.nodes id).isSome := by
    obtain ⟨n, reach, -⟩ := (near id).mp mem
    exact reach_allowed_present present reach
  let nodeAt (id : Nat) : Node := (contents.nodes id).getD ⟨id, "", .empty, {}⟩
  have isNode (id : Nat) (mem : id ∈ ids) : contents.nodes id = some (nodeAt id) := by
    obtain ⟨node, here⟩ := Option.isSome_iff_exists.mp (there id mem)
    simp [nodeAt, here]
  have nodes : ids.mapM graph.node = .ok (ids.map nodeAt) :=
    Joins.mapM_of_ok fun id mem => by rw [serves.node, isNode id mem]
  have named : (ids.map nodeAt).map Node.id = ids := by
    rw [map_map]
    exact (map_congr_left fun id mem => contents.node_id (isNode id mem)).trans ids.map_id
  obtain ⟨edges, pushed, listed, members⟩ := @foldlM_pushAround_ok _ _ label ids [] serves ids there
    ⟨nodup_nil, forall_mem_nil _⟩
  have listedStart : graph.nodeExists start = true := by rw [serves.nodeExists, present]
  refine ⟨⟨ids.map nodeAt, edges⟩, ?_, by rw [named]; exact nodup, fun node => ?_, listed,
    fun edge => ?_⟩
  · simp only [extract, listedStart, collected, nodes, bind, Except.bind, pushed]
    rfl
  · rw [← near, mem_map]
    constructor
    · rintro ⟨id, mem, rfl⟩
      rw [contents.node_id (isNode id mem)]
      exact ⟨isNode id mem, mem⟩
    · rintro ⟨here, mem⟩
      exact ⟨_, mem, Option.some.inj ((isNode _ mem).symm.trans here)⟩
  · rw [members, ← near, ← near]
    simp only [not_mem_nil, false_or, and_comm, or_self]

omit serves in
theorem extract_induced_detour : ∃ sub, extract detour.access none 0 .outgoing (some 1) = .ok sub ∧
    Induced detour.contents none (Within (Allowed detour.contents .outgoing none) (some 1) 0) sub :=
  extract_induced detour.serves (by decide)

end ErmyaGraph.Query
