import ErmyaGraph.Gql.Pattern

/-! # Matching a clause

Patterns with a hop of variable length are expanded breadth first. The patterns
of a clause are matched one by one, and their rows are joined crosswise. -/

namespace ErmyaGraph.Gql

def deadlineCheckMask : Nat := 0x3FF

def timeoutError : GqlError := .gqlCompileError "__query_timeout__: query exceeded time budget"

/-- Look at the clock in some rounds; `late` says whether it shows a time past the deadline. -/
def checkDeadline (late : Nat → Bool) (counter : Nat) : Except GqlError Unit :=
  if counter &&& deadlineCheckMask ≠ 0 then .ok ()
  else if late counter then .error timeoutError
  else .ok ()

def variableHopSafetyCap : Nat := 100

def hasVariableLengthHop (pp : PathPattern) : Bool := pp.hops.any fun hop => hop.1.length ≠ .fixed

def literalPropsMatch (properties : Properties) (props : List (String × Literal)) : Bool :=
  props.all fun entry =>
    match literalToProperty entry.2 with
    | some expected => (properties.get? entry.1).any fun actual => propertyEq actual expected
    | none => true

def nodeMatchesPattern (node : Node) (np : NodePattern) : Bool :=
  (np.labels.head?.all fun label => node.label = label) &&
    literalPropsMatch node.properties np.props

def edgeMatchesPattern (edge : Edge) (ep : EdgePattern) : Bool :=
  (ep.labels.head?.all fun label => edge.label = label) &&
    literalPropsMatch edge.properties ep.props

/-- The node an edge leads to from another in a direction. -/
def edgeNeighbor (edge : Edge) (origin : Nat) (direction : Direction) : Option Nat :=
  match direction with
  | .outgoing => if edge.source = origin then some edge.target else none
  | .incoming => if edge.target = origin then some edge.source else none
  | .both =>
    if edge.source = origin then some edge.target
    else if edge.target = origin then some edge.source
    else none

section Expansion

variable (graph : GraphAccess)

def getEdgesForDirection (node : Nat) (direction : Direction) : Except Error (List Edge) :=
  match direction with
  | .outgoing => graph.outgoingEdges node
  | .incoming => graph.incomingEdges node
  | .both => do
      let outgoing ← graph.outgoingEdges node
      let incoming ← graph.incomingEdges node
      return outgoing ++ incoming

/-- The rows of the start node, and the variable that it is bound to. -/
def seedStartNode (np : NodePattern) : List PatternMatch × String × Nat :=
  let named := compileNodeToBuilder np 0
  let candidates :=
    match np.labels, np.props with
    | label :: _, (key, lit) :: _ =>
      match literalToProperty lit with
      | some value => graph.nodesByLabelAndProperty label key value
      | none => graph.nodesByLabel label
    | label :: _, [] => graph.nodesByLabel label
    | [], _ => graph.nodeIds
  let rows := candidates.filterMap fun id =>
    match graph.node id with
    | .ok node =>
      if nodeMatchesPattern node np then some (PatternMatch.bindNode {} named.1.var node) else none
    | .error _ => none
  (rows, named.1.var, named.2)

/-- Expand a row along one edge; a node that cannot be read is passed over. -/
def fixedHopAlong (start : Nat) (endVar : String) (ep : EdgePattern) (np : NodePattern)
    (row : PatternMatch) (edge : Edge) : Option PatternMatch :=
  if edgeMatchesPattern edge ep then
    (edgeNeighbor edge start ep.direction).bind fun next =>
      match graph.node next with
      | .ok node =>
        if nodeMatchesPattern node np then some ((row.bindNode endVar node).bindEdge ep.var edge)
        else none
      | .error _ => none
  else none

def expandFixedHop (startVar endVar : String) (ep : EdgePattern) (np : NodePattern)
    (current : List PatternMatch) : Except GqlError (List PatternMatch) := do
  let expanded ← current.mapM fun row =>
    match row.nodes startVar with
    | some start => do
        let edges ← liftGraph (getEdgesForDirection graph start.id ep.direction)
        return edges.filterMap (fixedHopAlong graph start.id endVar ep np row)
    | none => return []
  return expanded.flatten

/-- What a traversal has still to visit: nodes with their depth and the edge that led there. -/
abbrev Frontier := List (Nat × Nat × Edge)

/-- Enter the unvisited ends of edges into the queue; they count as visited from now on. -/
def enqueue (ep : EdgePattern) (origin depth : Nat) : List Edge → (visited : List Nat) →
    List Nat × Frontier
  | [], visited => (visited, [])
  | edge :: rest, visited =>
    match if edgeMatchesPattern edge ep then edgeNeighbor edge origin ep.direction else none with
    | some next =>
      if next ∈ visited then enqueue ep origin depth rest visited
      else
        let later := enqueue ep origin depth rest (next :: visited)
        (later.1, (next, depth, edge) :: later.2)
    | none => enqueue ep origin depth rest visited

/-- The row of a node that a variable hop ends at. Its edge variable is the last edge. -/
def variableHopRow (endVar : String) (ep : EdgePattern) (np : NodePattern) (row : PatternMatch)
    (edge : Edge) (node : Node) : List PatternMatch :=
  if nodeMatchesPattern node np then [(row.bindNode endVar node).bindEdge ep.var edge] else []

section Variable

variable (late : Nat → Bool) (endVar : String) (ep : EdgePattern) (np : NodePattern)
  (min max : Nat)

/-- Take the queue from its front. A node that cannot be read is neither emitted nor expanded. -/
def traverse (row : PatternMatch) : (fuel counter : Nat) → (visited : List Nat) → Frontier →
    Except GqlError (Nat × List PatternMatch)
  | 0, counter, _, _ => .ok (counter, [])
  | _ + 1, counter, _, [] => .ok (counter, [])
  | fuel + 1, counter, visited, (id, depth, edge) :: queue => do
      checkDeadline late counter
      if max < depth then traverse row fuel (counter + 1) visited queue
      else
        let emitted? :=
          if min ≤ depth then
            (graph.node id).toOption.map (variableHopRow endVar ep np row edge)
          else some []
        let edges? :=
          if depth < max then (getEdgesForDirection graph id ep.direction).toOption else some []
        match emitted?, edges? with
        | none, _ => traverse row fuel (counter + 1) visited queue
        | some emitted, none => do
            let later ← traverse row fuel (counter + 1) visited queue
            return (later.1, emitted ++ later.2)
        | some emitted, some edges => do
            let next := enqueue ep id (depth + 1) edges visited
            let later ← traverse row fuel (counter + 1) next.1 (queue ++ next.2)
            return (later.1, emitted ++ later.2)

/-- Every round takes one node out of the queue, and a node enters it once. -/
def traversalFuel : Nat := graph.nodeIds.length + 1

/-- Expand one row. -/
def expandVariableRow (startVar : String) (counter : Nat) (row : PatternMatch) :
    Except GqlError (Nat × List PatternMatch) :=
  match row.nodes startVar with
  | none => .ok (counter, [])
  | some start => do
      let zeroth? :=
        if min = 0 then
          (graph.node start.id).toOption.map fun node =>
            if nodeMatchesPattern node np then [row.bindNode endVar node] else []
        else some []
      match zeroth? with
      | none => return (counter, [])
      | some zeroth => do
          let edges ← liftGraph (getEdgesForDirection graph start.id ep.direction)
          let seeded := enqueue ep start.id 1 edges [start.id]
          let found ← traverse graph late endVar ep np min max row (traversalFuel graph) counter
            seeded.1 seeded.2
          return (found.1, zeroth ++ found.2)

/-- Expand row after row; the rounds are counted over all of them. -/
def expandVariableHop (startVar : String) : (counter : Nat) → List PatternMatch →
    Except GqlError (List PatternMatch)
  | _, [] => .ok []
  | counter, row :: rest => do
      let found ← expandVariableRow graph late endVar ep np min max startVar counter row
      let later ← expandVariableHop startVar found.1 rest
      return found.2 ++ later

end Variable

/-- Expand the hops of a pattern in turn. -/
def expandPatternHops (late : Nat → Bool) : (prevVar : String) → (anonCounter : Nat) →
    List (EdgePattern × NodePattern) → List PatternMatch → Except GqlError (List PatternMatch)
  | _, _, [], current => .ok current
  | prevVar, anonCounter, (ep, np) :: rest, current => do
      let named := compileNodeToBuilder np anonCounter
      let next ← match ep.length with
        | .fixed => expandFixedHop graph prevVar named.1.var ep np current
        | .variable min max =>
          expandVariableHop graph late named.1.var ep np (min.elim 0 UInt32.toNat)
            (max.elim variableHopSafetyCap UInt32.toNat) prevVar 0 current
      expandPatternHops late named.1.var named.2 rest next

def compilePathPatternWithVarlen (late : Nat → Bool) (pp : PathPattern) :
    Except GqlError (List PatternMatch) :=
  let seeded := seedStartNode graph pp.start
  expandPatternHops graph late seeded.2.1 seeded.2.2 pp.hops seeded.1

def compilePathPattern (late : Nat → Bool) (pp : PathPattern) :
    Except GqlError (List PatternMatch) :=
  if hasVariableLengthHop pp then compilePathPatternWithVarlen graph late pp
  else compilePathPatternFixed graph pp

/-- Merge every row of one set with every row of another, counting the rounds. -/
def joinRows (late : Nat → Bool) (counter : Nat) (pairs : List (PatternMatch × PatternMatch)) :
    Except GqlError (List PatternMatch) :=
  pairs.zipIdx.mapM fun entry => do
    checkDeadline late (counter + entry.2)
    return entry.1.1.merge entry.1.2

def crossJoin (late : Nat → Bool) : (counter : Nat) → (joined : List PatternMatch) →
    List (List PatternMatch) → Except GqlError (List PatternMatch)
  | _, joined, [] => .ok joined
  | counter, joined, right :: rest => do
      let pairs := joined.flatMap fun left => right.map (left, ·)
      let next ← joinRows late counter pairs
      crossJoin late (counter + pairs.length) next rest

/-- Match every pattern by itself, then join the rows. -/
def compileMatch (late : Nat → Bool) (mc : MatchClause) : Except GqlError (List PatternMatch) := do
  let sets ← mc.patterns.mapM (compilePathPattern graph late)
  match sets with
  | [] => return []
  | first :: rest => crossJoin late 0 first rest

end Expansion

end ErmyaGraph.Gql
