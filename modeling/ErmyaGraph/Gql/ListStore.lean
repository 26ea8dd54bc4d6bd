import ErmyaGraph.Gql.Mutation

/-! # Writing a graph in lists

A graph that keeps its nodes and edges in lists and gives out ids in order. -/

namespace ErmyaGraph.Gql

open Outcome List Function PropertyGraph

/-- The nodes and edges, and the next ids. -/
structure ListGraph where
  graph : PropertyGraph
  nextNode : Nat
  nextEdge : Nat
  nodes_lt : ∀ node ∈ graph.nodes, node.id < nextNode
  edges_lt : ∀ edge ∈ graph.edges, edge.id < nextEdge

namespace ListGraph

/-- Nothing is there yet. -/
def empty : ListGraph where
  graph := ⟨[], [], nodup_nil, nodup_nil, no_ends⟩
  nextNode := 1
  nextEdge := 1
  nodes_lt := nofun
  edges_lt := nofun

variable (s : ListGraph)

def newNode (label : String) (props : Properties) : Node := ⟨s.nextNode, label, props, {}⟩

theorem newNode_fresh : s.nextNode ∉ s.graph.nodes.map Node.id := by
  intro mem
  obtain ⟨node, here, same⟩ := mem_map.mp mem
  have below := s.nodes_lt node here
  omega

theorem newEdge_fresh : s.nextEdge ∉ s.graph.edges.map Edge.id := by
  intro mem
  obtain ⟨edge, here, same⟩ := mem_map.mp mem
  have below := s.edges_lt edge here
  omega

def addNode (label : String) (props : Properties) : ListGraph where
  graph := {
    nodes := s.graph.nodes ++ [s.newNode label props]
    edges := s.graph.edges
    nodes_nodup := by
      rw [map_append, map_singleton]
      exact s.graph.nodes_nodup.append (nodup_singleton _)
        (disjoint_singleton.mpr s.newNode_fresh)
    edges_nodup := s.graph.edges_nodup
    ends := fun edge member => by
      have ends := s.graph.ends edge member
      rw [map_append]
      exact ⟨mem_append_left _ ends.1, mem_append_left _ ends.2⟩ }
  nextNode := s.nextNode + 1
  nextEdge := s.nextEdge
  nodes_lt node member := by
    rcases mem_append.mp member with earlier | last
    · exact Nat.lt_succ_of_lt (s.nodes_lt node earlier)
    · rw [mem_singleton.mp last]
      exact Nat.lt_succ_self s.nextNode
  edges_lt := s.edges_lt

def addEdge (label : String) (source target : Nat) (props : Properties)
    (ends : (s.graph.findNode source).isSome ∧ (s.graph.findNode target).isSome) : ListGraph where
  graph := {
    nodes := s.graph.nodes
    edges := s.graph.edges ++ [⟨s.nextEdge, label, source, target, props⟩]
    nodes_nodup := s.graph.nodes_nodup
    edges_nodup := by
      rw [map_append, map_singleton]
      exact s.graph.edges_nodup.append (nodup_singleton _)
        (disjoint_singleton.mpr s.newEdge_fresh)
    ends := fun edge member => by
      rcases mem_append.mp member with earlier | last
      · exact s.graph.ends edge earlier
      · rw [mem_singleton.mp last]
        exact ⟨isSome_findNode.mp ends.1, isSome_findNode.mp ends.2⟩ }
  nextNode := s.nextNode
  nextEdge := s.nextEdge + 1
  nodes_lt := s.nodes_lt
  edges_lt edge member := by
    rcases mem_append.mp member with earlier | last
    · exact Nat.lt_succ_of_lt (s.edges_lt edge earlier)
    · rw [mem_singleton.mp last]
      exact Nat.lt_succ_self s.nextEdge

def replaced (node other : Node) : Node := if other.id = node.id then node else other

theorem replaced_id (node other : Node) : (replaced node other).id = other.id := by
  rw [replaced]
  split
  · next same => exact same.symm
  · rfl

theorem map_replaced_id (node : Node) (nodes : List Node) :
    (nodes.map (replaced node)).map Node.id = nodes.map Node.id := by
  rw [map_map]
  exact map_congr_left fun other _ => replaced_id node other

def updateNode (node : Node) : ListGraph where
  graph := {
    nodes := s.graph.nodes.map (replaced node)
    edges := s.graph.edges
    nodes_nodup := by
      rw [map_replaced_id]
      exact s.graph.nodes_nodup
    edges_nodup := s.graph.edges_nodup
    ends := fun edge member => by
      rw [map_replaced_id]
      exact s.graph.ends edge member }
  nextNode := s.nextNode
  nextEdge := s.nextEdge
  nodes_lt other member := by
    obtain ⟨old, here, rfl⟩ := mem_map.mp member
    rw [replaced_id]
    exact s.nodes_lt old here
  edges_lt := s.edges_lt

/-- The edges of a node go with it. -/
def removeNode (id : Nat) : ListGraph where
  graph := {
    nodes := s.graph.nodes.filter (·.id ≠ id)
    edges := s.graph.edges.filter fun edge => edge.source ≠ id ∧ edge.target ≠ id
    nodes_nodup := s.graph.nodes_nodup.sublist (filter_sublist.map _)
    edges_nodup := s.graph.edges_nodup.sublist (filter_sublist.map _)
    ends := fun edge member => by
      obtain ⟨here, apart⟩ := mem_filter.mp member
      obtain ⟨apartSource, apartTarget⟩ := of_decide_eq_true apart
      obtain ⟨source, target⟩ := s.graph.ends edge here
      obtain ⟨node, there, same⟩ := mem_map.mp source
      obtain ⟨node', there', same'⟩ := mem_map.mp target
      refine ⟨mem_map.mpr ⟨node, mem_filter.mpr ⟨there, ?_⟩, same⟩,
        mem_map.mpr ⟨node', mem_filter.mpr ⟨there', ?_⟩, same'⟩⟩
      · exact decide_eq_true (same ▸ apartSource)
      · exact decide_eq_true (same' ▸ apartTarget) }
  nextNode := s.nextNode
  nextEdge := s.nextEdge
  nodes_lt node member := s.nodes_lt node (mem_of_mem_filter member)
  edges_lt edge member := s.edges_lt edge (mem_of_mem_filter member)

def removeEdge (id : Nat) : ListGraph where
  graph := {
    nodes := s.graph.nodes
    edges := s.graph.edges.filter (·.id ≠ id)
    nodes_nodup := s.graph.nodes_nodup
    edges_nodup := s.graph.edges_nodup.sublist (filter_sublist.map _)
    ends := fun edge member => s.graph.ends edge (mem_of_mem_filter member) }
  nextNode := s.nextNode
  nextEdge := s.nextEdge
  nodes_lt := s.nodes_lt
  edges_lt edge member := s.edges_lt edge (mem_of_mem_filter member)

theorem findNode_addNode (label : String) (props : Properties) :
    (s.addNode label props).graph.findNode =
      update s.graph.findNode s.nextNode (some (s.newNode label props)) := by
  funext other
  refine Option.ext fun node => ?_
  rw [findNode_eq_some]
  simp only [addNode, mem_append, mem_singleton]
  by_cases last : other = s.nextNode
  · subst last
    rw [update_self, Option.some.injEq]
    constructor
    · rintro ⟨earlier | rfl, named⟩
      · exact absurd (mem_map.mpr ⟨node, earlier, named⟩) s.newNode_fresh
      · rfl
    · rintro rfl
      exact ⟨.inr rfl, rfl⟩
  · rw [update_of_ne last, findNode_eq_some]
    refine ⟨fun ⟨either, named⟩ => ⟨either.resolve_right ?_, named⟩,
      fun ⟨earlier, named⟩ => ⟨.inl earlier, named⟩⟩
    rintro rfl
    exact last named.symm

theorem findNode_updateNode {node : Node} (here : (s.graph.findNode node.id).isSome) :
    (s.updateNode node).graph.findNode = update s.graph.findNode node.id (some node) := by
  funext other
  refine Option.ext fun found => ?_
  rw [findNode_eq_some]
  simp only [updateNode, mem_map]
  by_cases same : other = node.id
  · subst same
    rw [update_self, Option.some.injEq]
    constructor
    · rintro ⟨⟨old, -, rfl⟩, named⟩
      rw [replaced_id] at named
      rw [replaced, if_pos named]
    · rintro rfl
      obtain ⟨old, there⟩ := Option.isSome_iff_exists.mp here
      obtain ⟨mem, named⟩ := findNode_eq_some.mp there
      exact ⟨⟨old, mem, if_pos named⟩, rfl⟩
  · rw [update_of_ne same, findNode_eq_some]
    constructor
    · rintro ⟨⟨old, mem, rfl⟩, named⟩
      rw [replaced_id] at named
      rw [replaced, if_neg (named ▸ same)]
      exact ⟨mem, named⟩
    · rintro ⟨mem, named⟩
      exact ⟨⟨found, mem, if_neg (named ▸ same)⟩, named⟩

end ListGraph

/-- A store that keeps its nodes and edges in lists. -/
def listStore : GraphStore ListGraph where
  access s := s.graph.access
  addNode label props s := .ok s.nextNode (s.addNode label props)
  addEdge label source target props s :=
    if ends : (s.graph.findNode source).isSome ∧ (s.graph.findNode target).isSome then
      .ok s.nextEdge (s.addEdge label source target props ends)
    else if (s.graph.findNode source).isSome then .error (.nodeNotFound target) s
    else .error (.nodeNotFound source) s
  updateNode id node s :=
    if (s.graph.findNode id).isSome then .ok () (s.updateNode { node with id })
    else .error (.nodeNotFound id) s
  removeNode id s :=
    match s.graph.findNode id with
    | some node => .ok node (s.removeNode id)
    | none => .error (.nodeNotFound id) s
  removeEdge id s :=
    match s.graph.findEdge id with
    | some edge => .ok edge (s.removeEdge id)
    | none => .error (.edgeNotFound id) s

end ErmyaGraph.Gql
