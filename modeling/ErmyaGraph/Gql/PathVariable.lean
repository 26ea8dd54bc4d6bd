import ErmyaGraph.Gql.MatchClause

/-! # The path of a row

A clause can name the path that it matches. The path is rebuilt from a finished
row: from the variables of the row where the pattern names every place, and by
another search between its two ends where it does not. -/

namespace ErmyaGraph.Gql

/-- A path. Its nodes and relationships carry the id, the label, the ends and the properties of
the entities that they are made from; here they are these entities. -/
structure GqlPath where
  nodes : List Node
  rels : List Edge
deriving DecidableEq

abbrev PathBindings := String → Option GqlPath

/-- Read a path off the variables of a row. -/
def materialiseFixedPath (row : PatternMatch) (nodeVars edgeVars : List String) : Option GqlPath :=
  if nodeVars.length ≠ edgeVars.length + 1 then none
  else do
    let nodes ← nodeVars.mapM row.nodes
    let rels ← edgeVars.mapM row.edges
    return ⟨nodes, rels⟩

/-- For every discovered node the one it was discovered from, and the edge that led there. -/
abbrev Parents := List (Nat × Nat × Edge)

/-- Follow the edges around a node until the end is discovered: whether it was, the visited nodes,
their parents and the queue. -/
def discover (ep : EdgePattern) (endId current : Nat) : List Edge → (visited : List Nat) →
    Parents → (queue : List Nat) → Bool × List Nat × Parents × List Nat
  | [], visited, parent, queue => (false, visited, parent, queue)
  | edge :: rest, visited, parent, queue =>
    match if edgeMatchesPattern edge ep then edgeNeighbor edge current ep.direction else none with
    | some next =>
      if next ∈ visited then discover ep endId current rest visited parent queue
      else if next = endId then
        (true, next :: visited, (next, current, edge) :: parent, queue)
      else
        discover ep endId current rest (next :: visited) ((next, current, edge) :: parent)
          (queue ++ [next])
    | none => discover ep endId current rest visited parent queue

section Search

variable (graph : GraphAccess)

/-- Take the queue from its front. A node whose edges cannot be read is passed over. -/
def searchParents (ep : EdgePattern) (endId : Nat) : (fuel : Nat) → (visited : List Nat) →
    Parents → (queue : List Nat) → Option Parents
  | 0, _, _, _ => none
  | _ + 1, _, _, [] => none
  | fuel + 1, visited, parent, current :: queue =>
    match getEdgesForDirection graph current ep.direction with
    | .error _ => searchParents ep endId fuel visited parent queue
    | .ok edges =>
      match discover ep endId current edges visited parent queue with
      | (true, _, parent, _) => some parent
      | (false, visited, parent, queue) => searchParents ep endId fuel visited parent queue

/-- Walk back from a node to the start. -/
def walkBack (startId : Nat) (parent : Parents) : (fuel : Nat) → (node : Nat) → Option (List Edge)
  | 0, _ => none
  | fuel + 1, node =>
    if node = startId then some []
    else
      (parent.lookup node).bind fun entry =>
        (walkBack startId parent fuel entry.1).map fun edges => edges ++ [entry.2]

/-- The nodes along edges: each edge leads to whichever end is not the node before it. -/
def nodesAlong : (prev : Nat) → List Edge → Option (List Node)
  | _, [] => some []
  | prev, edge :: rest => do
      let next := if edge.source = prev then edge.target else edge.source
      let node ← (graph.node next).toOption
      let later ← nodesAlong next rest
      return node :: later

def reconstructVarlenPath (startId endId : Nat) (parent : Parents) : Option GqlPath := do
  let rels ← walkBack startId parent (parent.length + 1) endId
  let start ← (graph.node startId).toOption
  let nodes ← nodesAlong graph startId rels
  return ⟨start :: nodes, rels⟩

/-- A shortest path between two nodes along edges that match a pattern. -/
def materialiseVarlenPath (startId endId : Nat) (ep : EdgePattern) : Option GqlPath :=
  if startId = endId then (graph.node startId).toOption.map fun node => ⟨[node], []⟩
  else
    (searchParents graph ep endId (graph.nodeIds.length + 1) [startId] [] [startId]).bind
      (reconstructVarlenPath graph startId endId)

/-- No hop is of variable length, and every edge has a name. -/
def allFixedNamed (pp : PathPattern) : Bool :=
  !hasVariableLengthHop pp && pp.hops.all fun hop => hop.1.var.isSome

/-- The path between the ends of a row. It follows the edge pattern of the last hop. -/
def searchedPath (row : PatternMatch) (pp : PathPattern) : Option GqlPath := do
  let startVar ← pp.start.var
  let (finalEdge, finalNode) ← pp.hops.getLast?
  let endVar ← finalNode.var
  let start ← row.nodes startVar
  let final ← row.nodes endVar
  materialiseVarlenPath graph start.id final.id finalEdge

def materialisePathForMatch (row : PatternMatch) (pp : PathPattern) : Option GqlPath :=
  match pp.start.var with
  | some startVar =>
    if allFixedNamed pp ∧ pp.hops.all fun hop => hop.2.var.isSome then
      materialiseFixedPath row (startVar :: pp.hops.filterMap fun hop => hop.2.var)
        (pp.hops.filterMap fun hop => hop.1.var)
    else searchedPath graph row pp
  | none => searchedPath graph row pp

/-- The path variable of a clause belongs to its first pattern. -/
def materialisePathBindings (mc : MatchClause) (row : PatternMatch) : PathBindings :=
  match mc.pathVar with
  | none => fun _ => none
  | some pathVar =>
    match mc.patterns.head?.bind (materialisePathForMatch graph row) with
    | none => fun _ => none
    | some path => Function.update (fun _ => none) pathVar (some path)

end Search

end ErmyaGraph.Gql
