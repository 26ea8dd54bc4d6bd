import ErmyaGraph.Lib.Phases
import ErmyaGraph.Gql.Mutation

/-! # Statements between two locks

A mutation reads what it needs under a shared lock, gives that up, and writes
under an exclusive one. What other clients write in between is not looked at
again. -/

namespace ErmyaGraph.Gql

open Outcome

/-- A statement as a client sends it. A set of candidates is walked in no particular order, so that
any of them may come first, and the time that matching may take is limited. -/
structure MutationRequest where
  statement : MutationStatement
  params : Params := fun _ => none
  pick : List Nat → Option Nat
  late : Nat → Bool

abbrev MutationOutput := List GqlRow × GqlMutationResult

structure MergeLookup where
  existingId : Option Nat
  lookupProps : List (String × Property)

/-- What a mutation takes from the shared lock to the exclusive one. -/
inductive MutationFound where
  | bare
  | rows (rows : List MatchRow)
  | merge (clause : MergeClause) (lookup : MergeLookup)
  | elements (unwind : UnwindClause) (elements : List GqlValue) (rows : List MatchRow)

section Merging

variable {σ : Type} (store : GraphStore σ) (runtime : Runtime) (params : Params)

def lookupProps (clause : MergeClause) : List (String × Property) :=
  clause.props.filterMap fun entry =>
    (gqlValueToProperty (executeExpr runtime entry.2)).map fun value => (entry.1, value)

/-- The nodes that the index finds under every property. -/
def mergeCandidates (graph : GraphAccess) (label : String) (props : List (String × Property)) :
    Option (List Nat) :=
  props.foldl (fun candidates entry =>
    let ids := graph.nodesByLabelAndProperty label entry.1 entry.2
    match candidates with
    | none => some ids
    | some earlier => some (earlier.filter (· ∈ ids))) none

def mergeLookup (pick : List Nat → Option Nat) (graph : GraphAccess) (clause : MergeClause) :
    MergeLookup where
  existingId :=
    if (lookupProps runtime clause).isEmpty then (graph.nodesByLabel clause.label).head?
    else pick ((mergeCandidates graph clause.label (lookupProps runtime clause)).getD [])
  lookupProps := lookupProps runtime clause

def collectProps (entries : List (String × Property)) : Properties :=
  entries.foldl (fun props entry => props.insert entry.1 entry.2) .empty

def applyOptionalSet (id : Nat) (clause : Option SetClause) : MutationM σ Nat :=
  match clause with
  | some clause => applyOnSetClause store runtime params id clause
  | none => return 0

def mergeExisting (clause : MergeClause) (id : Nat) : MutationM σ (Nat × GqlMutationResult) := do
  let set ← applyOptionalSet store runtime params id clause.onMatch
  return (id, { propertiesSet := set })

def mergeNew (clause : MergeClause) (props : List (String × Property)) :
    MutationM σ (Nat × GqlMutationResult) := do
  let id ← onGraph (store.addNode clause.label (collectProps props))
  let set ← applyOptionalSet store runtime params id clause.onCreate
  return (id, {
    nodesCreated := 1
    propertiesSet := set
    labelsAdded := countLabel clause.label })

def projectMerged (returnVar : Option String) (id : Nat) : MutationM σ (List GqlRow) :=
  match returnVar with
  | some var => do
      let value ← projectNodeAsMap store id
      return [Function.update (fun _ => none) var (some value)]
  | none => return []

def applyMergeWrite (clause : MergeClause) (lookup : MergeLookup) :
    MutationM σ MutationOutput := do
  let merged ←
    match lookup.existingId with
    | some id => mergeExisting store runtime params clause id
    | none => mergeNew store runtime params clause lookup.lookupProps
  let rows ← projectMerged store clause.returnVar merged.1
  return (rows, merged.2)

end Merging

section Bodies

variable {σ : Type} (store : GraphStore σ) (runtime : Runtime) (params : Params)

def executeBareMutation (statement : MutationStatement) : MutationM σ MutationOutput :=
  match statement.mutation with
  | .create clause => do
      let created ← clause.patterns.foldlM (createBare store runtime params) {}
      let rows ← projectReturn store statement.returnClause [created.bound]
      return (rows, created.stats)
  | .delete _ => throw (compileError
      ("DELETE requires a variable bound by a preceding MATCH, UNWIND, or WITH clause; " ++
        "a bare DELETE has nothing to delete"))
  | other => throw (compileError
      ("mutation clause not yet supported: " ++ runtime.debugClause other))

def createRow (clause : CreateClause) (stats : GqlMutationResult) (row : MatchRow) :
    MutationM σ GqlMutationResult := do
  let created ← clause.patterns.foldlM (createMatched store runtime row) { stats }
  return created.stats

def applyMatchMutationBody (statement : MutationStatement) (rows : List MatchRow) :
    MutationM σ MutationOutput :=
  match statement.mutation with
  | .create clause => do
      if statement.returnClause.isSome then
        throw (compileError
          ("RETURN after MATCH … CREATE is not supported; the created nodes are not bound " ++
            "for projection"))
      else
        let stats ← rows.foldlM (createRow store runtime clause) {}
        return ([], stats)
  | .set clause => do
      let count ← rows.foldlM (fun count row =>
        clause.assignments.foldlM (applyRowAssignment store runtime params row) count) 0
      let projected ← projectReturn store statement.returnClause rows
      return (projected, { propertiesSet := count })
  | .delete clause => do
      let deleted ← rows.foldlM (deleteRow store clause) {}
      return ([], deleted.stats)
  | other => throw (compileError
      ("mutation clause not yet supported with MATCH context: " ++ runtime.debugClause other))

/-- Without a MATCH there is one row that binds nothing. The rows bind nodes only. -/
def unwindRows (graph : GraphAccess) (late : Nat → Bool) (statement : MutationStatement) :
    Except GqlError (List MatchRow) :=
  match statement.matchClause with
  | some mc =>
    (compileMatchRows graph late mc).map fun rows =>
      rows.map fun row => { row with edges := fun _ => none }
  | none => .ok [{}]

/-- For every element and every row, the patterns in turn. -/
def applyUnwindCreateBody (unwind : UnwindClause) (clause : CreateClause)
    (elements : List GqlValue) (rows : List MatchRow) : MutationM σ GqlMutationResult :=
  elements.foldlM (fun stats element =>
    rows.foldlM (fun stats row => do
      let eval := evalUnwound runtime.evaluators unwind.var {} element
      let created ← clause.patterns.foldlM (createUnwound store eval row) { stats }
      return created.stats) stats) {}

def applyUnwindDeleteBody (clause : DeleteClause) (rows : List MatchRow) :
    MutationM σ GqlMutationResult := do
  let deleted ← rows.foldlM (deleteRow store clause) {}
  return deleted.stats

end Bodies

section Locks

variable {σ : Type} (store : GraphStore σ) (runtime : Runtime) (request : MutationRequest)

abbrev MutationAnswer := Except MutationError MutationOutput

def unwindable : MutationClause → Bool
  | .create _ | .delete _ => true
  | .set _ | .merge _ => false

def unsupportedUnwind : MutationError :=
  .unsupported ("mutation clause not yet supported with UNWIND: " ++
    runtime.debugClause request.statement.mutation)

/-- Under the shared lock. Where there is nothing to write, the answer is given at once. -/
def lookUp (graph : GraphAccess) : MutationFound ⊕ MutationAnswer :=
  match request.statement.unwindClause, request.statement.matchClause with
  | some unwind, _ =>
    if unwindable request.statement.mutation then
      match unwindRows graph request.late request.statement with
      | .error e => .inr (.error (.gql e))
      | .ok rows =>
        let elements := unwindElements (executeExpr runtime unwind.expr)
        if elements.isEmpty || rows.isEmpty then .inr (.ok ([], {}))
        else .inl (.elements unwind elements rows)
    else .inr (.error (unsupportedUnwind runtime request))
  | none, some mc =>
    match compileMatchRows graph request.late mc with
    | .error e => .inr (.error (.gql e))
    | .ok rows => if rows.isEmpty then .inr (.ok ([], {})) else .inl (.rows rows)
  | none, none =>
    match request.statement.mutation with
    | .merge clause => .inl (.merge clause (mergeLookup runtime request.pick graph clause))
    | _ => .inl .bare

/-- Under the exclusive lock. -/
def writeFound (found : MutationFound) : MutationM σ MutationOutput :=
  match found with
  | .bare => executeBareMutation store runtime request.params request.statement
  | .rows rows =>
    applyMatchMutationBody store runtime request.params request.statement rows
  | .merge clause lookup => applyMergeWrite store runtime request.params clause lookup
  | .elements unwind elements rows =>
    match request.statement.mutation with
    | .create clause => do
        let stats ← applyUnwindCreateBody store runtime unwind clause elements rows
        return ([], stats)
    | .delete clause => do
        let stats ← applyUnwindDeleteBody store clause rows
        return ([], stats)
    | _ => throw (unsupportedUnwind runtime request)

def mutationClient : Phases.Client σ MutationFound MutationAnswer where
  look s := lookUp runtime request (store.access s)
  change found s := (answer (writeFound store runtime request found) s,
      final (writeFound store runtime request found) s)

end Locks

end ErmyaGraph.Gql
