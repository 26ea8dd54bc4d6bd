import ErmyaGraph.Mvcc

/-! # What a query sees of a graph

A query reads a graph through a few calls, and other stores can stand behind
them. A graph without version chains answers every call from its contents. -/

namespace ErmyaGraph.Gql

open List

inductive GqlError where
  | graph (error : Error)
  | invalidPattern (message : String)
  | patternVariableNotFound (var : String)
  | gqlCompileError (message : String)
deriving DecidableEq, Repr

inductive Direction where
  | outgoing
  | incoming
  | both
deriving DecidableEq, Repr

/-- The reads of a graph that a query makes. -/
structure GraphAccess where
  nodeIds : List Nat
  nodesByLabel : String → List Nat
  nodesByLabelAndProperty : String → String → Property → List Nat
  nodeExists : Nat → Bool
  nodeVisible : Nat → Bool
  node : Nat → Except Error Node
  nodeLabel : Nat → Except Error String
  outgoingEdges : Nat → Except Error (List Edge)
  incomingEdges : Nat → Except Error (List Edge)
  outgoingEdgesByLabel : Nat → String → Except Error (List Edge)
  incomingEdgesByLabel : Nat → String → Except Error (List Edge)

/-- Nodes and edges under their ids; the ends of an edge are there. -/
structure Contents where
  nodes : Nat → Option Node
  edges : Nat → Option Edge
  node_id : ∀ {id node}, nodes id = some node → node.id = id
  edge_id : ∀ {id edge}, edges id = some edge → edge.id = id
  source_some : ∀ {id edge}, edges id = some edge → (nodes edge.source).isSome
  target_some : ∀ {id edge}, edges id = some edge → (nodes edge.target).isSome

/-- A list has the elements with a property, each once. -/
structure Enumerates {α : Type} (items : List α) (holds : α → Prop) : Prop where
  nodup : items.Nodup
  mem_iff : ∀ a, a ∈ items ↔ holds a

/-- A call answers with the elements that have a property, in some order. -/
def Answers {α : Type} (answer : Except Error (List α)) (holds : α → Prop) : Prop :=
  ∃ items, answer = .ok items ∧ Enumerates items holds

/-- Every call is answered from the contents. An index finds a property by its stored form. -/
structure GraphAccess.Serves (graph : GraphAccess) (contents : Contents) : Prop where
  nodeIds : Enumerates graph.nodeIds fun id => (contents.nodes id).isSome
  nodesByLabel : ∀ label, Enumerates (graph.nodesByLabel label) fun id =>
    ∃ node, contents.nodes id = some node ∧ node.label = label
  nodesByLabelAndProperty : ∀ label key value,
    Enumerates (graph.nodesByLabelAndProperty label key value) fun id =>
      ∃ node, contents.nodes id = some node ∧ node.label = label ∧
        node.properties.get? key = some value
  nodeExists : ∀ id, graph.nodeExists id = (contents.nodes id).isSome
  nodeVisible : ∀ id, graph.nodeVisible id = (contents.nodes id).isSome
  node : ∀ id, graph.node id = match contents.nodes id with
    | some node => .ok node
    | none => .error (.nodeNotFound id)
  nodeLabel : ∀ id, graph.nodeLabel id = (graph.node id).map Node.label
  outgoingEdges : ∀ id, (contents.nodes id).isSome → Answers (graph.outgoingEdges id) fun edge =>
    contents.edges edge.id = some edge ∧ edge.source = id
  incomingEdges : ∀ id, (contents.nodes id).isSome → Answers (graph.incomingEdges id) fun edge =>
    contents.edges edge.id = some edge ∧ edge.target = id
  outgoingEdgesByLabel : ∀ id label, (contents.nodes id).isSome →
    Answers (graph.outgoingEdgesByLabel id label) fun edge =>
      contents.edges edge.id = some edge ∧ edge.source = id ∧ edge.label = label
  incomingEdgesByLabel : ∀ id label, (contents.nodes id).isSome →
    Answers (graph.incomingEdgesByLabel id label) fun edge =>
      contents.edges edge.id = some edge ∧ edge.target = id ∧ edge.label = label

theorem find?_key_eq_some {α : Type} {key : α → Nat} {items : List α}
    (distinct : (items.map key).Nodup) {id : Nat} {a : α} :
    items.find? (fun a => key a = id) = some a ↔ a ∈ items ∧ key a = id := by
  constructor
  · intro found
    have here := List.find?_some found
    exact ⟨mem_of_find?_eq_some found, of_decide_eq_true here⟩
  · rintro ⟨mem, rfl⟩
    rw [List.find?_eq_some_iff_append]
    obtain ⟨before, after, split⟩ := append_of_mem mem
    refine ⟨decide_eq_true rfl, before, after, split, fun other earlier => ?_⟩
    rw [split, map_append, map_cons, nodup_append] at distinct
    have apart := distinct.2.2 (key other) (mem_map_of_mem earlier) (key a) mem_cons_self
    simp [apart]

/-- Nodes and edges in lists, each under an id of its own. -/
structure PropertyGraph where
  nodes : List Node
  edges : List Edge
  nodes_nodup : (nodes.map Node.id).Nodup
  edges_nodup : (edges.map Edge.id).Nodup
  ends : ∀ edge ∈ edges, edge.source ∈ nodes.map Node.id ∧ edge.target ∈ nodes.map Node.id

namespace PropertyGraph

theorem no_ends : ∀ edge ∈ ([] : List Edge), edge.source ∈ ([] : List Nat) ∧
    edge.target ∈ ([] : List Nat) := nofun

variable (graph : PropertyGraph)

def findNode (id : Nat) : Option Node := graph.nodes.find? fun node => node.id = id

def findEdge (id : Nat) : Option Edge := graph.edges.find? fun edge => edge.id = id

variable {graph} {id : Nat}

theorem findNode_eq_some {node : Node} :
    graph.findNode id = some node ↔ node ∈ graph.nodes ∧ node.id = id :=
  find?_key_eq_some graph.nodes_nodup

theorem findEdge_eq_some {edge : Edge} :
    graph.findEdge id = some edge ↔ edge ∈ graph.edges ∧ edge.id = id :=
  find?_key_eq_some graph.edges_nodup

theorem isSome_findNode : (graph.findNode id).isSome ↔ id ∈ graph.nodes.map Node.id := by
  rw [Option.isSome_iff_exists, mem_map]
  exact exists_congr fun node => findNode_eq_some

variable (graph)

def contents : Contents where
  nodes := graph.findNode
  edges := graph.findEdge
  node_id found := (findNode_eq_some.mp found).2
  edge_id found := (findEdge_eq_some.mp found).2
  source_some found := isSome_findNode.mpr (graph.ends _ (findEdge_eq_some.mp found).1).1
  target_some found := isSome_findNode.mpr (graph.ends _ (findEdge_eq_some.mp found).1).2

def readNode (id : Nat) : Except Error Node :=
  match graph.findNode id with
  | some node => .ok node
  | none => .error (.nodeNotFound id)

def nodesWhere (holds : Node → Bool) : List Nat := (graph.nodes.filter holds).map Node.id

/-- The edges with a property, around a node that is there. -/
def edgesAt (id : Nat) (holds : Edge → Bool) : Except Error (List Edge) :=
  if (graph.findNode id).isSome then .ok (graph.edges.filter holds) else .error (.nodeNotFound id)

/-- A store that scans its lists for every call. -/
def access : GraphAccess where
  nodeIds := graph.nodes.map Node.id
  nodesByLabel label := graph.nodesWhere fun node => node.label = label
  nodesByLabelAndProperty label key value :=
    graph.nodesWhere fun node => node.label = label ∧ node.properties.get? key = some value
  nodeExists id := (graph.findNode id).isSome
  nodeVisible id := (graph.findNode id).isSome
  node := graph.readNode
  nodeLabel id := (graph.readNode id).map Node.label
  outgoingEdges id := graph.edgesAt id fun edge => edge.source = id
  incomingEdges id := graph.edgesAt id fun edge => edge.target = id
  outgoingEdgesByLabel id label :=
    graph.edgesAt id fun edge => edge.source = id ∧ edge.label = label
  incomingEdgesByLabel id label :=
    graph.edgesAt id fun edge => edge.target = id ∧ edge.label = label

variable {graph}

theorem enumerates_nodesWhere (holds : Node → Prop) [DecidablePred holds] :
    Enumerates (graph.nodesWhere fun node => holds node) fun id =>
      ∃ node, graph.contents.nodes id = some node ∧ holds node := by
  constructor
  · exact graph.nodes_nodup.sublist (filter_sublist.map Node.id)
  · intro id
    simp only [nodesWhere, contents, mem_map, mem_filter, findNode_eq_some, decide_eq_true_eq]
    exact exists_congr fun node => and_right_comm

theorem answers_edgesAt (holds : Edge → Prop) [DecidablePred holds]
    (present : (graph.contents.nodes id).isSome) :
    Answers (graph.edgesAt id fun edge => holds edge) fun edge =>
      graph.contents.edges edge.id = some edge ∧ holds edge := by
  refine ⟨_, if_pos present, (List.Nodup.of_map _ graph.edges_nodup).filter _, fun edge => ?_⟩
  simp only [contents, mem_filter, findEdge_eq_some, decide_eq_true_eq, and_true]

theorem serves (graph : PropertyGraph) : graph.access.Serves graph.contents where
  nodeIds := ⟨graph.nodes_nodup, fun _ => isSome_findNode.symm⟩
  nodesByLabel _ := enumerates_nodesWhere _
  nodesByLabelAndProperty _ _ _ := enumerates_nodesWhere _
  nodeExists _ := rfl
  nodeVisible _ := rfl
  node _ := rfl
  nodeLabel _ := rfl
  outgoingEdges _ := answers_edgesAt _
  incomingEdges _ := answers_edgesAt _
  outgoingEdgesByLabel _ _ := answers_edgesAt _
  incomingEdgesByLabel _ _ := answers_edgesAt _

end PropertyGraph

end ErmyaGraph.Gql
