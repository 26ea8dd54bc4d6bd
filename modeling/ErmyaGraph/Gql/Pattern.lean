import ErmyaGraph.Gql.Access
import ErmyaGraph.Lib.Joins

/-! # Matching one path pattern

A pattern of fixed hops is compiled to steps, and the steps are executed hop by
hop from the candidates for the start node. -/

namespace ErmyaGraph.Gql

inductive Literal where
  | int (value : Int64)
  | float (bits : UInt64)
  | str (value : String)
  | bool (value : Bool)
  | null
  | list (items : List Literal)

/-- Null and lists are no property values. -/
def literalToProperty : Literal → Option Property
  | .int value => some (.i64 value)
  | .float bits => some (.f64 bits)
  | .str value => some (.string value)
  | .bool value => some (.bool value)
  | .null | .list _ => none

inductive EdgeLength where
  | fixed
  | variable (min max : Option UInt32)
deriving DecidableEq, Repr

structure NodePattern where
  var : Option String := none
  labels : List String := []
  props : List (String × Literal) := []

structure EdgePattern where
  var : Option String := none
  labels : List String := []
  props : List (String × Literal) := []
  direction : Direction := .outgoing
  length : EdgeLength := .fixed

structure PathPattern where
  start : NodePattern
  hops : List (EdgePattern × NodePattern) := []

structure MatchClause where
  patterns : List PathPattern
  pathVar : Option String := none

structure NodeConstraint where
  var : String
  label : Option String
  props : List (String × Property)

structure EdgeConstraint where
  var : Option String
  direction : Direction
  label : Option String
  props : List (String × Property)

inductive PatternStep where
  | node (constraint : NodeConstraint)
  | edge (constraint : EdgeConstraint)

structure Hop where
  edge : EdgeConstraint
  node : NodeConstraint

/-- A linear path pattern. -/
structure Segment where
  node : NodeConstraint
  hops : List Hop

/-- A match binds variables to nodes and edges. -/
structure PatternMatch where
  nodes : String → Option Node := fun _ => none
  edges : String → Option Edge := fun _ => none

namespace PatternMatch

/-- Two matches in one; of two bindings of a variable the later one wins. -/
def merge (left right : PatternMatch) : PatternMatch where
  nodes var := (right.nodes var).or (left.nodes var)
  edges var := (right.edges var).or (left.edges var)

def bindNode (row : PatternMatch) (var : String) (node : Node) : PatternMatch :=
  { row with nodes := Function.update row.nodes var (some node) }

def bindEdge (row : PatternMatch) (var : Option String) (edge : Edge) : PatternMatch :=
  match var with
  | some var => { row with edges := Function.update row.edges var (some edge) }
  | none => row

end PatternMatch

def compileProps (props : List (String × Literal)) : List (String × Property) :=
  props.filterMap fun entry => (literalToProperty entry.2).map fun value => (entry.1, value)

/-- A node without a name gets one from a counter. -/
def compileNodeToBuilder (np : NodePattern) (anonCounter : Nat) : NodeConstraint × Nat :=
  let rest := (np.labels.head?, compileProps np.props)
  match np.var with
  | some var => (⟨var, rest.1, rest.2⟩, anonCounter)
  | none => (⟨s!"_anon_{anonCounter}", rest.1, rest.2⟩, anonCounter + 1)

def compileEdgeToBuilder (ep : EdgePattern) : EdgeConstraint where
  var := ep.var
  direction := ep.direction
  label := ep.labels.head?
  props := compileProps ep.props

def compileHops : (hops : List (EdgePattern × NodePattern)) → (anonCounter : Nat) → List PatternStep
  | [], _ => []
  | (ep, np) :: rest, anonCounter =>
    let compiled := compileNodeToBuilder np anonCounter
    .edge (compileEdgeToBuilder ep) :: .node compiled.1 :: compileHops rest compiled.2

def compileSteps (pp : PathPattern) : List PatternStep :=
  let compiled := compileNodeToBuilder pp.start 0
  .node compiled.1 :: compileHops pp.hops compiled.2

def validateNoEmptyVars (steps : List PatternStep) : Except GqlError Unit :=
  steps.forM fun
    | .node constraint =>
      if constraint.var = "" then
        .error (.invalidPattern
          "empty node variable name is not allowed; use a descriptive name")
      else .ok ()
    | .edge constraint =>
      if constraint.var = some "" then
        .error (.invalidPattern "empty edge variable name is not allowed")
      else .ok ()

def parseHops : List PatternStep → Except GqlError (List Hop)
  | [] => .ok []
  | .node _ :: _ => .error (.invalidPattern "consecutive node steps without an edge")
  | [.edge _] =>
    .error (.invalidPattern "pattern ends with an edge step (missing final node)")
  | .edge _ :: .edge _ :: _ =>
    .error (.invalidPattern "consecutive edge steps without a node")
  | .edge edge :: .node node :: rest => do
      let hops ← parseHops rest
      return ⟨edge, node⟩ :: hops

def parseSegment : List PatternStep → Except GqlError (Option Segment)
  | [] => .ok none
  | .edge _ :: _ => .error (.invalidPattern "pattern must start with a node step")
  | .node node :: rest => do
      let hops ← parseHops rest
      return some ⟨node, hops⟩

def validateHopVars (seen : List String) : List Hop → Except GqlError Unit
  | [] => .ok ()
  | hop :: rest =>
    if hop.node.var ∈ seen then
      .error (.invalidPattern ("duplicate node variable: '" ++ hop.node.var ++ "'"))
    else
      match hop.edge.var with
      | none => validateHopVars (hop.node.var :: seen) rest
      | some var =>
        if var ∈ hop.node.var :: seen then
          .error (.invalidPattern ("duplicate edge variable: '" ++ var ++ "'"))
        else validateHopVars (var :: hop.node.var :: seen) rest

def validateUniqueVars (segment : Segment) : Except GqlError Unit :=
  validateHopVars [segment.node.var] segment.hops

def isNaN (bits : UInt64) : Bool :=
  bits &&& 0x7FF0000000000000 = 0x7FF0000000000000 && bits &&& 0x000FFFFFFFFFFFFF ≠ 0

/-- Equality of property values: a float that is no number equals none, and both zeros are
equal. -/
def propertyEq : Property → Property → Bool
  | .f64 left, .f64 right =>
    !isNaN left && !isNaN right && (left = right || left <<< 1 = 0 && right <<< 1 = 0)
  | left, right => left = right

def propsMatch (properties : Properties) (props : List (String × Property)) : Bool :=
  props.all fun entry => (properties.get? entry.1).any fun actual => propertyEq actual entry.2

def nodeMatches (node : Node) (constraint : NodeConstraint) : Bool :=
  (constraint.label.all fun label => node.label = label) &&
    propsMatch node.properties constraint.props

/-- The label of an edge was compared when the edges were listed. -/
def edgeMatches (edge : Edge) (constraint : EdgeConstraint) : Bool :=
  propsMatch edge.properties constraint.props

section Execution

variable (graph : GraphAccess)

/-- Candidates for a node, from the indexes. A set has no order; here it keeps the one it was
collected in. -/
def narrowCandidates (constraint : NodeConstraint) : List Nat :=
  match constraint.label with
  | none => graph.nodeIds
  | some label =>
    match constraint.props with
    | [] => graph.nodesByLabel label
    | (key, value) :: rest =>
      rest.foldl (fun candidates entry => candidates.filter fun id =>
          id ∈ graph.nodesByLabelAndProperty label entry.1 entry.2)
        (graph.nodesByLabelAndProperty label key value).dedup

def liftGraph {α : Type} (answer : Except Error α) : Except GqlError α := answer.mapError .graph

/-- Load a candidate, if this read sees it, and check it. -/
def loadCandidate (constraint : NodeConstraint) (id : Nat) : Except GqlError (Option Node) :=
  if graph.nodeVisible id then do
    let node ← liftGraph (graph.node id)
    return if nodeMatches node constraint then some node else none
  else .ok none

def initialCandidates (constraint : NodeConstraint) : Except GqlError (List Node) := do
  let loaded ← (narrowCandidates graph constraint).mapM (loadCandidate graph constraint)
  return loaded.reduceOption

/-- The edges around a node in a direction, with a label if one is asked for. -/
def neighborEdges (node : Nat) (direction : Direction) (label : Option String) :
    Except Error (List Edge) :=
  if graph.nodeExists node then
    match label, direction with
    | some label, .outgoing => graph.outgoingEdgesByLabel node label
    | some label, .incoming => graph.incomingEdgesByLabel node label
    | some label, .both => do
        let outgoing ← graph.outgoingEdgesByLabel node label
        let incoming ← graph.incomingEdgesByLabel node label
        return outgoing ++ incoming
    | none, .outgoing => graph.outgoingEdges node
    | none, .incoming => graph.incomingEdges node
    | none, .both => do
        let outgoing ← graph.outgoingEdges node
        let incoming ← graph.incomingEdges node
        return outgoing ++ incoming
  else .error (.nodeNotFound node)

/-- The end of an edge that is not the source of a hop. -/
def neighborId (source : Nat) (edge : Edge) : Nat :=
  if edge.source = source then edge.target else edge.source

/-- A constraint on the label alone is checked before the node is loaded. -/
def labelAdmits (constraint : NodeConstraint) (id : Nat) : Except GqlError Bool :=
  match constraint.label, constraint.props with
  | some required, [] => (liftGraph (graph.nodeLabel id)).map fun actual => actual = required
  | _, _ => .ok true

/-- Where a hop arrives along an edge. -/
def hopAlong (source : Nat) (hop : Hop) (edge : Edge) : Except GqlError (Option (Edge × Node)) :=
  if edgeMatches edge hop.edge then do
    if ← labelAdmits graph hop.node (neighborId source edge) then
      let node ← liftGraph (graph.node (neighborId source edge))
      return if nodeMatches node hop.node then some (edge, node) else none
    else return none
  else .ok none

def PatternMatch.bindHop (row : PatternMatch) (hop : Hop) (step : Edge × Node) : PatternMatch :=
  (row.bindNode hop.node.var step.2).bindEdge hop.edge.var step.1

/-- All ways on from a partial match. -/
def expandHop (source : Nat) (hop : Hop) (row : PatternMatch) :
    Except GqlError (List PatternMatch) := do
  let edges ← liftGraph (neighborEdges graph source hop.edge.direction hop.edge.label)
  let arrived ← edges.mapM (hopAlong graph source hop)
  return arrived.reduceOption.map (row.bindHop hop)

/-- Expand a partial match from the node that it bound last. -/
def expandRow (prevVar : String) (hop : Hop) (row : PatternMatch) :
    Except GqlError (List PatternMatch) :=
  match row.nodes prevVar with
  | some prev => expandHop graph prev.id hop row
  | none => .error (.patternVariableNotFound prevVar)

/-- Expand hop after hop. -/
def expandHops (prevVar : String) : List Hop → List PatternMatch →
    Except GqlError (List PatternMatch)
  | [], current => .ok current
  | hop :: rest, current => do
      let next ← current.mapM (expandRow graph prevVar hop)
      expandHops hop.node.var rest next.flatten

/-- Execute the steps of a pattern. -/
def execute (steps : List PatternStep) : Except GqlError (List PatternMatch) := do
  validateNoEmptyVars steps
  match ← parseSegment steps with
  | none => return []
  | some segment =>
    validateUniqueVars segment
    let candidates ← initialCandidates graph segment.node
    expandHops graph segment.node.var segment.hops
      (candidates.map fun node => PatternMatch.bindNode {} segment.node.var node)

def compilePathPatternFixed (pp : PathPattern) : Except GqlError (List PatternMatch) :=
  execute graph (compileSteps pp)

end Execution

end ErmyaGraph.Gql
