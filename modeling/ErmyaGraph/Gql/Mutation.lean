import ErmyaGraph.Lib.Outcome
import ErmyaGraph.Gql.Execute
import ErmyaGraph.Gql.Statement

/-! # Executing a mutation

A mutation first finds what it works on and then writes, one row and one pattern
after the other. What was written before an error stays written. -/

namespace ErmyaGraph.Gql

open Outcome

/-- The writes to a graph, each of which commits on its own, beside its reads. -/
structure GraphStore (σ : Type) where
  access : σ → GraphAccess
  addNode : String → Properties → EStateM Error σ Nat
  addEdge : String → (source target : Nat) → Properties → EStateM Error σ Nat
  updateNode : Nat → Node → EStateM Error σ Unit
  removeNode : Nat → EStateM Error σ Node
  removeEdge : Nat → EStateM Error σ Edge

/-- How a mutation is executed apart from what is defined here. -/
structure Runtime where
  evaluators : Evaluators
  debugClause : MutationClause → String
  debugValue : GqlValue → String

abbrev Params := String → Option GqlValue

inductive MutationError where
  | gql (error : GqlError)
  | deleteConnectedNode (node relationships : Nat)
  | unsupported (message : String)
deriving DecidableEq, Repr

abbrev MutationM (σ : Type) := EStateM MutationError σ

structure GqlMutationResult where
  nodesCreated : Nat := 0
  edgesCreated : Nat := 0
  nodesDeleted : Nat := 0
  edgesDeleted : Nat := 0
  propertiesSet : Nat := 0
  labelsAdded : Nat := 0
deriving DecidableEq, Repr

/-- The nodes and the edges that the variables of a matched row stand for. -/
structure MatchRow where
  nodes : String → Option Nat := fun _ => none
  edges : String → Option Nat := fun _ => none

def gqlValueToProperty : GqlValue → Option Property
  | .int value => some (.i64 (Int64.ofInt value))
  | .float bits => some (.f64 bits)
  | .str value => some (.string value)
  | .bool value => some (.bool value)
  | .null | .list _ | .map _ | .node _ | .relationship _ | .path _ => none

/-- Insert what can be stored; the rest is passed over. -/
def insertValues (props : Properties) (entries : List (String × GqlValue)) : Properties :=
  entries.foldl (fun props entry =>
    match gqlValueToProperty entry.2 with
    | some value => props.insert entry.1 value
    | none => props) props

def countLabel (label : String) : Nat := if label.isEmpty then 0 else 1

def nodeVars (mc : MatchClause) : List String :=
  mc.patterns.flatMap fun pp => (pp.start.var :: pp.hops.map fun hop => hop.2.var).reduceOption

def edgeVars (mc : MatchClause) : List String :=
  mc.patterns.flatMap fun pp => (pp.hops.map fun hop => hop.1.var).reduceOption

/-- The rows of a clause, with ids for the nodes and edges that its patterns name. -/
def compileMatchRows (graph : GraphAccess) (late : Nat → Bool) (mc : MatchClause) :
    Except GqlError (List MatchRow) := do
  let rows ← compileMatch graph late mc
  return rows.map fun row =>
    { nodes := fun var => if var ∈ nodeVars mc then (row.nodes var).map Node.id else none
      edges := fun var => if var ∈ edgeVars mc then (row.edges var).map Edge.id else none }

def compileError (message : String) : MutationError := .gql (.gqlCompileError message)

def unboundByMatch (var : String) : MutationError :=
  compileError ("variable '" ++ var ++ "' not bound by MATCH clause")

section Executing

variable {σ : Type} (store : GraphStore σ) (runtime : Runtime) (params : Params)

def onGraph {α : Type} (x : EStateM Error σ α) : MutationM σ α := fun s =>
  match x.run s with
  | .ok a s' => .ok a s'
  | .error e s' => .error (.gql (.graph e)) s'

def ofGraph {α : Type} (r : Except Error α) : MutationM σ α :=
  ofResult (r.mapError fun e => .gql (.graph e))

def readNode (id : Nat) : MutationM σ Node := do
  ofGraph ((store.access (← get)).node id)

/-- The value of an expression that no row is given to. -/
def executeExpr (expr : Expr) : GqlValue := evalAlong runtime.evaluators (fun _ => none) {} expr

def resolveCreateProps (eval : Expr → GqlValue) (props : List (String × Expr)) : Properties :=
  insertValues .empty (props.map fun entry => (entry.1, eval entry.2))

/-- A map parameter is still to be looked up; any other expression has to give a map. -/
def resolveMapExpr (expr : Expr) (opLabel : String) :
    Except MutationError (List (String × GqlValue)) :=
  match expr with
  | .paramRef (.named name) =>
    match params name with
    | some (.map entries) => .ok entries
    | some other => .error (compileError
        (opLabel ++ ": parameter $" ++ name ++ " is not a Map (got " ++
          runtime.debugValue other ++ ")"))
    | none => .error (compileError (opLabel ++ ": missing Map parameter $" ++ name))
  | expr =>
    match executeExpr runtime expr with
    | .map entries => .ok entries
    | other => .error (compileError
        (opLabel ++ ": expected a Map value, got " ++ runtime.debugValue other))

def resolveCreateNodeProps (props : List (String × Expr)) (propMap : Option Expr) :
    Except MutationError Properties :=
  match propMap with
  | some expr => (resolveMapExpr runtime params expr "CREATE (n $map)").map (insertValues .empty)
  | none => .ok (resolveCreateProps (executeExpr runtime) props)

def projectNodeAsMap (id : Nat) : MutationM σ GqlValue := do
  let node ← readNode store id
  return .map (node.properties.entries.map fun entry => (entry.1, gqlValueFromProperty entry.2))

/-- Only variables of nodes can be returned. -/
def projectMutationItem (bound : MatchRow) (row : GqlRow) (item : ReturnItem) :
    MutationM σ GqlRow :=
  match item.expr with
  | .var var =>
    match bound.nodes var with
    | some id => do
        let value ← projectNodeAsMap store id
        return Function.update row (item.columnAlias.getD var) (some value)
    | none => throw (compileError ("RETURN variable '" ++ var ++ "' not bound by the mutation"))
  | _ => throw (compileError
      "RETURN after a mutation supports only bare node variables (e.g. RETURN n)")

def projectMutationReturn (clause : ReturnClause) (rows : List MatchRow) :
    MutationM σ (List GqlRow) :=
  rows.mapM fun bound => clause.items.foldlM (projectMutationItem store bound) fun _ => none

def projectReturn (clause : Option ReturnClause) (rows : List MatchRow) :
    MutationM σ (List GqlRow) :=
  match clause with
  | some clause => projectMutationReturn store clause rows
  | none => return []

def setAssignmentVar : SetAssignment → String
  | .property var _ _ | .entityOverwrite var _ | .entityMerge var _ => var

def scalarEntryCount (entries : List (String × GqlValue)) : Nat :=
  entries.countP fun entry => (gqlValueToProperty entry.2).isSome

/-- What an assignment makes of properties, and how many of them it sets. An assignment of a value
that cannot be stored does nothing. -/
def assigned (assignment : SetAssignment) :
    Except MutationError (Option ((Properties → Properties) × Nat)) :=
  match assignment with
  | .property _ prop value =>
    .ok ((gqlValueToProperty (executeExpr runtime value)).map fun property =>
      (fun props => props.insert prop property, 1))
  | .entityOverwrite _ expr => do
      let entries ← resolveMapExpr runtime params expr "SET n = $map"
      return some (fun _ => insertValues .empty entries, scalarEntryCount entries)
  | .entityMerge _ expr => do
      let entries ← resolveMapExpr runtime params expr "SET n += $map"
      return some (fun props => insertValues props entries, scalarEntryCount entries)

def applyOneSetAssignment (id : Nat) (assignment : SetAssignment) : MutationM σ Nat := do
  match ← ofResult (assigned runtime params assignment) with
  | some (change, count) =>
    let node ← readNode store id
    onGraph (store.updateNode id { node with properties := change node.properties })
    return count
  | none => return 0

/-- Every assignment goes to one node, whatever it names. -/
def applyOnSetClause (id : Nat) (clause : SetClause) : MutationM σ Nat :=
  clause.assignments.foldlM (fun count assignment => do
    let set ← applyOneSetAssignment store runtime params id assignment
    return count + set) 0

def applyRowAssignment (row : MatchRow) (count : Nat) (assignment : SetAssignment) :
    MutationM σ Nat :=
  match row.nodes (setAssignmentVar assignment) with
  | some id => do
      let set ← applyOneSetAssignment store runtime params id assignment
      return count + set
  | none => throw (unboundByMatch (setAssignmentVar assignment))

/-- What a clause deleted so far, where it counts every node and edge once. -/
structure Deleted where
  nodes : List Nat := []
  edges : List Nat := []
  stats : GqlMutationResult := {}

def incidentEdgeIds (id : Nat) : MutationM σ (List Nat) := do
  let graph := store.access (← get)
  let outgoing ← ofGraph (graph.outgoingEdges id)
  let incoming ← ofGraph (graph.incomingEdges id)
  return (((outgoing ++ incoming).map Edge.id).mergeSort (· ≤ ·)).dedup

/-- Removing a node removes its edges with it. -/
def deleteNodeRow (detach : Bool) (deleted : Deleted) (id : Nat) : MutationM σ Deleted := do
  if id ∈ deleted.nodes then return deleted
  else
    let incident ← incidentEdgeIds store id
    if !detach && !incident.isEmpty then throw (.deleteConnectedNode id incident.length)
    else
      let _ ← onGraph (store.removeNode id)
      return { deleted with
        nodes := id :: deleted.nodes
        stats := { deleted.stats with
          nodesDeleted := deleted.stats.nodesDeleted + 1
          edgesDeleted := deleted.stats.edgesDeleted + incident.length } }

def deleteEdgeRow (deleted : Deleted) (id : Nat) : MutationM σ Deleted := do
  if id ∈ deleted.edges then return deleted
  else
    let _ ← onGraph (store.removeEdge id)
    return { deleted with
      edges := id :: deleted.edges
      stats := { deleted.stats with edgesDeleted := deleted.stats.edgesDeleted + 1 } }

/-- A variable stands for a node or, failing that, for an edge. -/
def deleteVar (detach : Bool) (row : MatchRow) (deleted : Deleted) (var : String) :
    MutationM σ Deleted :=
  match row.nodes var, row.edges var with
  | some id, _ => deleteNodeRow store detach deleted id
  | none, some id => deleteEdgeRow store deleted id
  | none, none => throw (unboundByMatch var)

def deleteRow (clause : DeleteClause) (deleted : Deleted) (row : MatchRow) : MutationM σ Deleted :=
  clause.vars.foldlM (deleteVar store clause.detach row) deleted

/-- What a clause created so far, and what its variables stand for. -/
structure Created where
  bound : MatchRow := {}
  stats : GqlMutationResult := {}

def Created.withNode (created : Created) (var : Option String) (label : String)
    (props : Properties) (id : Nat) : Created where
  bound :=
    match var with
    | some var => { created.bound with nodes := Function.update created.bound.nodes var (some id) }
    | none => created.bound
  stats := { created.stats with
    nodesCreated := created.stats.nodesCreated + 1
    labelsAdded := created.stats.labelsAdded + countLabel label
    propertiesSet := created.stats.propertiesSet + props.len }

def Created.withEdge (created : Created) (props : Properties) : Created :=
  { created with stats := { created.stats with
      edgesCreated := created.stats.edgesCreated + 1
      propertiesSet := created.stats.propertiesSet + props.len } }

def createBare (created : Created) (pattern : CreatePattern) : MutationM σ Created :=
  match pattern with
  | .node var label props propMap => do
      let properties ← ofResult (resolveCreateNodeProps runtime params props propMap)
      let id ← onGraph (store.addNode label properties)
      return created.withNode var label properties id
  | .edge _ _ _ _ => throw (compileError
      "edge creation in CREATE requires a MATCH clause to bind source and target variables")

/-- A pattern of MATCH … CREATE. Its new nodes are not bound, and a map is passed over. -/
def createMatched (row : MatchRow) (created : Created) (pattern : CreatePattern) :
    MutationM σ Created :=
  match pattern with
  | .node _ label props _ => do
      let properties := resolveCreateProps (executeExpr runtime) props
      let id ← onGraph (store.addNode label properties)
      return created.withNode none label properties id
  | .edge sourceVar relLabel relProps targetVar =>
    match row.nodes sourceVar, row.nodes targetVar with
    | none, _ => throw (unboundByMatch sourceVar)
    | some _, none => throw (unboundByMatch targetVar)
    | some source, some target => do
        let properties := resolveCreateProps (executeExpr runtime) relProps
        let _ ← onGraph (store.addEdge relLabel source target properties)
        return created.withEdge properties

def unboundByCreate (var : String) : MutationError :=
  compileError ("variable '" ++ var ++ "' not bound by MATCH or CREATE")

/-- A pattern of UNWIND … CREATE, for an element and a row. -/
def createUnwound (eval : Expr → GqlValue) (row : MatchRow) (created : Created)
    (pattern : CreatePattern) : MutationM σ Created :=
  match pattern with
  | .node var label props propMap => do
      if propMap.isSome then
        throw (compileError
          "CREATE (n:Label $map) is not supported inside an UNWIND pipeline")
      else
        let properties := resolveCreateProps eval props
        let id ← onGraph (store.addNode label properties)
        return created.withNode var label properties id
  | .edge sourceVar relLabel relProps targetVar =>
    match (created.bound.nodes sourceVar).or (row.nodes sourceVar),
      (created.bound.nodes targetVar).or (row.nodes targetVar) with
    | none, _ => throw (unboundByCreate sourceVar)
    | some _, none => throw (unboundByCreate targetVar)
    | some source, some target => do
        let properties := resolveCreateProps eval relProps
        let _ ← onGraph (store.addEdge relLabel source target properties)
        return created.withEdge properties

end Executing

end ErmyaGraph.Gql
