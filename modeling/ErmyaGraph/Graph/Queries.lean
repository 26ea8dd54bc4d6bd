import ErmyaGraph.Graph.State

/-! # Queries by label

Reads that go through the label, property and pair indexes, or filter an edge
list by label. -/

namespace ErmyaGraph.Graph

open Outcome

def nodesByLabel (graph : Graph) (label : String) : Finset Nat := graph.index.label .node label

def edgesByLabel (graph : Graph) (label : String) : Finset Nat := graph.index.label .edge label

def nodesByLabelAndProperty (graph : Graph) (label key : String) (value : Property) : Finset Nat :=
  graph.index.property label key value

def readEdgeLabelHash (graph : Graph) (id : Nat) : Except Error UInt32 :=
  if graph.exists? (.edge id) then (graph.store.readSlot (.edge id)).map Slot.labelHash
  else .error (.edgeNotFound id)

/-- Keep an edge id if its edge is visible and carries the label. Without version chains the
stored hash is compared before the edge is read. -/
def matchingEdge (graph : Graph) (label : String) (startTs : Nat) (reader : Option Nat)
    (id : Nat) : Except Error (Option Edge) :=
  if graph.mvcc.isNone then do
    let hash ← graph.readEdgeLabelHash id
    if hash ≠ labelHash label then
      return none
    let record ← graph.store.readRecord (.edge id)
    return if record.label = label then some record.toEdge else none
  else
    match graph.resolveVisible (.edge id) startTs reader with
    | .ok record => .ok (if record.label = label then some record.toEdge else none)
    | .error (.edgeNotFound _) => .ok none
    | .error e => .error e

/-- The edges of a node in one direction that carry a label and that a snapshot shows. -/
def edgesForDirectionByLabel (node : Nat) (direction : AdjDirection) (label : String)
    (startTs : Nat) (reader : Option Nat) : GraphM (List Edge) := do
  let ptr ← resolveAdjPointer node
  let graph ← get
  let stored ← ofResult (graph.listedEdgeIds node direction (ptr.getD {}))
  let linked := (stored ++ graph.pendingEdges node direction).filter fun id =>
    graph.exists? (.edge id)
  let own := graph.pendingTxnEdgeIds node direction reader
  let found ← ofResult ((linked ++ own).mapM (graph.matchingEdge label startTs reader))
  return found.reduceOption

def outgoingEdgesByLabel (node : Nat) (label : String) : GraphM (List Edge) := do
  let graph ← get
  if graph.exists? (.node node) then
    edgesForDirectionByLabel node .outgoing label graph.autoCommitStartTs none
  else throw (.nodeNotFound node)

def incomingEdgesByLabel (node : Nat) (label : String) : GraphM (List Edge) := do
  let graph ← get
  if graph.exists? (.node node) then
    edgesForDirectionByLabel node .incoming label graph.autoCommitStartTs none
  else throw (.nodeNotFound node)

/-- The edges between two nodes that carry a label, through the pair index. -/
def edgesBetween (graph : Graph) (source target : Nat) (label : String) :
    Except Error (List Edge) := do
  if !graph.exists? (.node source) then
    throw (.nodeNotFound source)
  if !graph.exists? (.node target) then
    throw (.nodeNotFound target)
  let edges ← graph.visibleEdges graph.autoCommitStartTs none
    (graph.index.pair (source, target, labelHash label))
  return edges.filter fun edge => edge.label = label

end ErmyaGraph.Graph
