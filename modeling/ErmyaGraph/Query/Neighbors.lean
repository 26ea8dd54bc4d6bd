import ErmyaGraph.Gql.PathSearch

/-! # Neighbours

The queries over a graph follow the edges around a node in a direction, those with one label if
one is asked for. What they find is a path. -/

namespace ErmyaGraph.Query

open Gql Search

/-- Nodes, and the edges between them. -/
structure Path where
  nodes : List Nat := []
  edges : List Nat := []
deriving DecidableEq, Repr

namespace Path

def single (node : Nat) : Path := ⟨[node], []⟩

/-- The path goes on over an edge. An empty path has no edge. -/
def push (path : Path) (node edge : Nat) : Path :=
  ⟨path.nodes ++ [node], if path.nodes.isEmpty then path.edges else path.edges ++ [edge]⟩

def along (start : Nat) (steps : List (Nat × Nat)) : Path :=
  ⟨walkNodes start steps, steps.map Prod.fst⟩

theorem push_along (start : Nat) (steps : List (Nat × Nat)) (edge node : Nat) :
    (along start steps).push node edge = along start (steps ++ [(edge, node)]) := by
  simp [push, along, walkNodes]

end Path

variable (graph : GraphAccess)

/-- The edges around a node, by the index of labels if only one label counts. -/
def collect (node : Nat) (direction : Direction) (label : Option String) :
    Except Error (List Edge) := do
  if !graph.nodeExists node then throw (.nodeNotFound node)
  match label with
  | some label =>
    match direction with
    | .outgoing => graph.outgoingEdgesByLabel node label
    | .incoming => graph.incomingEdgesByLabel node label
    | .both => do
      let outgoing ← graph.outgoingEdgesByLabel node label
      let incoming ← graph.incomingEdgesByLabel node label
      return outgoing ++ incoming
  | none => getEdgesForDirection graph node direction

/-- The edges around a node whose label passes. -/
def filteredEdges (direction : Direction) (label : Option String) (node : Nat) :
    Except Error (List Edge) := do
  let edges ← collect graph node direction none
  return edges.filter fun edge => label.all fun label => edge.label = label

/-- The neighbours of a node, each with the id of the edge to it. -/
def filteredNeighbors (direction : Direction) (label : Option String) (node : Nat) :
    Except Error (List (Nat × Nat)) := do
  let edges ← filteredEdges graph direction label node
  return edges.map fun edge => (neighborId node edge, edge.id)

/-- An edge can be followed from one node to another in a direction, and its label passes. -/
def Allowed (contents : Contents) (direction : Direction) (label : Option String)
    (source id target : Nat) : Prop :=
  ∃ edge, contents.edges id = some edge ∧ (∀ l ∈ label, edge.label = l) ∧
    direction.Joins edge source target

theorem Allowed.present {contents : Contents} {direction : Direction} {label : Option String}
    {source id target : Nat} (allowed : Allowed contents direction label source id target) :
    (contents.nodes target).isSome := by
  obtain ⟨edge, there, -, joins⟩ := allowed
  have arrives := contents.target_some there
  have leaves := contents.source_some there
  cases direction <;> simp only [Direction.Joins] at joins
  · exact joins.2 ▸ arrives
  · exact joins.2 ▸ leaves
  · rcases joins with ⟨-, rfl⟩ | ⟨-, rfl⟩
    · exact arrives
    · exact leaves

section Served

variable {graph} {contents : Contents} (serves : graph.Serves contents)
include serves
variable {node : Nat}

theorem filteredEdges_ok (present : (contents.nodes node).isSome) (direction : Direction)
    (label : Option String) :
    ∃ edges, filteredEdges graph direction label node = .ok edges ∧
      ∀ edge, edge ∈ edges ↔ contents.edges edge.id = some edge ∧ (∀ l ∈ label, edge.label = l) ∧
        direction.Touches edge node := by
  obtain ⟨edges, read, members⟩ := getEdgesForDirection_ok serves present direction
  have listed := serves.nodeExists node
  rw [present] at listed
  refine ⟨_, by simp [filteredEdges, collect, listed, read, bind, Except.bind]; rfl, fun edge => ?_⟩
  rw [List.mem_filter, members, and_assoc, and_congr_right_iff]
  intro _
  cases label <;> simp [and_comm]

theorem filteredNeighbors_ok (present : (contents.nodes node).isSome) (direction : Direction)
    (label : Option String) :
    ∃ around, filteredNeighbors graph direction label node = .ok around ∧
      ∀ target id, (target, id) ∈ around ↔ Allowed contents direction label node id target := by
  obtain ⟨edges, read, members⟩ := filteredEdges_ok serves present direction label
  refine ⟨_, by rw [filteredNeighbors, read]; rfl, fun target id => ?_⟩
  rw [List.mem_map]
  constructor
  · rintro ⟨edge, mem, same⟩
    obtain ⟨rfl, rfl⟩ := Prod.mk.injEq .. ▸ same
    obtain ⟨there, labelled, touched⟩ := (members edge).mp mem
    exact ⟨edge, there, labelled, Direction.joins_iff.mpr ⟨touched, rfl⟩⟩
  · rintro ⟨edge, there, labelled, joins⟩
    obtain ⟨touched, rfl⟩ := Direction.joins_iff.mp joins
    obtain rfl : edge.id = id := contents.edge_id there
    exact ⟨edge, (members edge).mpr ⟨there, labelled, touched⟩, rfl⟩

omit serves in
theorem reach_allowed_present {direction : Direction} {label : Option String} {start n : Nat}
    (present : (contents.nodes start).isSome)
    (reach : Reach (Allowed contents direction label) start n node) :
    (contents.nodes node).isSome := by
  cases reach with
  | start => exact present
  | step _ edge => exact edge.present

end Served

/-- Two ways lead to the third node: straight from the first, and by the second. -/
def detour : PropertyGraph where
  nodes := [⟨0, "N", .empty, {}⟩, ⟨1, "N", .empty, {}⟩, ⟨2, "N", .empty, {}⟩, ⟨3, "N", .empty, {}⟩]
  edges :=
    [⟨0, "R", 0, 1, .empty⟩, ⟨1, "R", 0, 2, .empty⟩, ⟨2, "R", 1, 2, .empty⟩,
      ⟨3, "R", 2, 3, .empty⟩]
  nodes_nodup := by decide
  edges_nodup := by decide
  ends := by decide

end ErmyaGraph.Query
