import ErmyaGraph.Gql.Operators

/-! # Shortest paths inside of expressions

An expression can ask for the ids along a shortest path between two nodes of its
row. The search goes breadth first and has no deadline here. -/

namespace ErmyaGraph.Gql

/-- A queue of nodes with their distances from the start. -/
abbrev NodeQueue := List (Nat × Nat)

/-- Neighbours that are not visited yet join the queue, until the goal is one of them. -/
def visitNeighbors (goal current depth : Nat) : List Nat → (visited : List Nat) →
    (parent : List (Nat × Nat)) → NodeQueue → Bool × List Nat × List (Nat × Nat) × NodeQueue
  | [], visited, parent, queue => (false, visited, parent, queue)
  | next :: rest, visited, parent, queue =>
    if next ∈ visited then visitNeighbors goal current depth rest visited parent queue
    else if next = goal then (true, next :: visited, (next, current) :: parent, queue)
    else
      visitNeighbors goal current depth rest (next :: visited) ((next, current) :: parent)
        (queue ++ [(next, depth + 1)])

/-- Take the queue from its front, down to a distance. -/
def searchGoal (neighbors : Nat → List Nat) (limit : Option Nat) (goal : Nat) : (fuel : Nat) →
    (visited : List Nat) → (parent : List (Nat × Nat)) → NodeQueue → Option (List (Nat × Nat))
  | 0, _, _, _ => none
  | _ + 1, _, _, [] => none
  | fuel + 1, visited, parent, (current, depth) :: queue =>
    if limit.any fun limit => limit ≤ depth then
      searchGoal neighbors limit goal fuel visited parent queue
    else
      match visitNeighbors goal current depth (neighbors current) visited parent queue with
      | (true, _, parent, _) => some parent
      | (false, visited, parent, queue) =>
        searchGoal neighbors limit goal fuel visited parent queue

def idsTo (start : Nat) (parent : List (Nat × Nat)) : (fuel : Nat) → (node : Nat) → List Nat
  | 0, _ => []
  | fuel + 1, node =>
    if node = start then [start]
    else (parent.lookup node).elim [] fun before => idsTo start parent fuel before ++ [node]

def searchIds (neighbors : Nat → List Nat) (limit : Option Nat) (nodes start goal : Nat) :
    Option (List Nat) :=
  if start = goal then some [start]
  else
    (searchGoal neighbors limit goal (nodes + 1) [start] [] [(start, 0)]).map fun parent =>
      idsTo start parent (parent.length + 1) goal

section Graph

variable (graph : GraphAccess)

def edgesOr (answer : Except Error (List Edge)) : List Edge := answer.toOption.getD []

def shortestPathBfs (start goal : Nat) : Option (List Nat) :=
  searchIds (fun id => (edgesOr (graph.outgoingEdges id)).map Edge.target) none
    graph.nodeIds.length start goal

def shortestPathBfsConstrained (start goal : Nat) (maxDepth : Option UInt32)
    (labelFilter : Option String) (direction : Direction) : Option (List Nat) :=
  let passes (edge : Edge) : Bool := labelFilter.all fun label => edge.label = label
  let outgoing (id : Nat) :=
    if direction ≠ .incoming then
      ((edgesOr (graph.outgoingEdges id)).filter passes).map Edge.target
    else []
  let incoming (id : Nat) :=
    if direction ≠ .outgoing then
      ((edgesOr (graph.incomingEdges id)).filter passes).map Edge.source
    else []
  searchIds (fun id => outgoing id ++ incoming id)
    (some (maxDepth.elim variableHopSafetyCap UInt32.toNat)) graph.nodeIds.length start goal

def idValue (id : Nat) : GqlValue := .int (Int64.ofNat id).toInt

def idsValue (ids : Option (List Nat)) : GqlValue :=
  ids.elim .null fun ids => .list (ids.map idValue)

/-- The variable that an argument is. -/
def argVar (args : List Expr) (i : Nat) : Option String :=
  match args[i]? with
  | some (.var name) => some name
  | _ => none

/-- `shortestPath(a, b)`, for two variables. -/
def evalShortestPath (args : List Expr) (row : PatternMatch) : GqlValue :=
  match (argVar args 0).bind row.nodes, (argVar args 1).bind row.nodes with
  | some start, some final => idsValue (shortestPathBfs graph start.id final.id)
  | _, _ => .null

/-- `shortestPath((a)-[...]->(b))`, for a pattern of one hop. -/
def evalShortestPathPattern (pattern : PathPattern) (row : PatternMatch) : GqlValue :=
  match pattern.hops with
  | [(ep, np)] =>
    match pattern.start.var.bind row.nodes, np.var.bind row.nodes with
    | some start, some final =>
      let maxDepth :=
        match ep.length with
        | .variable _ max => max
        | .fixed => some 1
      idsValue (shortestPathBfsConstrained graph start.id final.id maxDepth ep.labels.head?
        ep.direction)
    | _, _ => .null
  | _ => .null

end Graph

end ErmyaGraph.Gql
