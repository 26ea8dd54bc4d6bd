import ErmyaGraph.Gql.Apart
import ErmyaGraph.Gql.Where

/-! # The values of a write

A write should have the values that RETURN has in its row, on the graph as it was
before the statement. The executors evaluate without a row, and after a MATCH they
pass over the map of a node. -/

namespace ErmyaGraph.Gql

variable {expr : Expr} {assignment : SetAssignment}

open Outcome

def SetAssignment.value : SetAssignment → Expr
  | .property _ _ expr | .entityOverwrite _ expr | .entityMerge _ expr => expr

def CreatePattern.values : CreatePattern → List Expr
  | .node _ _ props _ => props.map Prod.snd
  | .edge _ _ relProps _ => relProps.map Prod.snd

/-- A pattern has a map in the place of its properties. -/
def CreatePattern.HasMap : CreatePattern → Prop
  | .node _ _ _ propMap => propMap.isSome
  | .edge _ _ _ _ => False

section Given

variable {σ : Type} (store : GraphStore σ) (runtime : Runtime) (params : Params)
variable (eval : Expr → GqlValue)

/-- A value that has to be a map. -/
def entriesOf (opLabel : String) : GqlValue → Except MutationError (List (String × GqlValue))
  | .map entries => .ok entries
  | other => .error (compileError
      (opLabel ++ ": expected a Map value, got " ++ runtime.debugValue other))

def mapBy (expr : Expr) (opLabel : String) : Except MutationError (List (String × GqlValue)) :=
  match expr with
  | .paramRef (.named name) => resolveMapExpr runtime params (.paramRef (.named name)) opLabel
  | expr => entriesOf runtime opLabel (eval expr)

def assignedBy (assignment : SetAssignment) :
    Except MutationError (Option ((Properties → Properties) × Nat)) :=
  match assignment with
  | .property _ prop value =>
    .ok ((gqlValueToProperty (eval value)).map fun property =>
      (fun props => props.insert prop property, 1))
  | .entityOverwrite _ expr => do
      let entries ← mapBy runtime params eval expr "SET n = $map"
      return some (fun _ => insertValues .empty entries, scalarEntryCount entries)
  | .entityMerge _ expr => do
      let entries ← mapBy runtime params eval expr "SET n += $map"
      return some (fun props => insertValues props entries, scalarEntryCount entries)

def setBy (id : Nat) (assignment : SetAssignment) : MutationM σ Nat := do
  match ← ofResult (assignedBy runtime params eval assignment) with
  | some (change, count) =>
    let node ← readNode store id
    onGraph (store.updateNode id { node with properties := change node.properties })
    return count
  | none => return 0

def setRowBy (row : MatchRow) (count : Nat) (assignment : SetAssignment) : MutationM σ Nat :=
  match row.nodes (setAssignmentVar assignment) with
  | some id => do
      let set ← setBy store runtime params eval id assignment
      return count + set
  | none => throw (unboundByMatch (setAssignmentVar assignment))

def setMergedBy (id : Nat) (clause : Option SetClause) : MutationM σ Nat :=
  match clause with
  | some clause => clause.assignments.foldlM (fun count assignment => do
      let set ← setBy store runtime params eval id assignment
      return count + set) 0
  | none => return 0

/-- The properties of a new node, with its map where it has one. -/
def createdPropsBy (props : List (String × Expr)) (propMap : Option Expr) :
    Except MutationError Properties :=
  match propMap with
  | some expr => (mapBy runtime params eval expr "CREATE (n $map)").map (insertValues .empty)
  | none => .ok (resolveCreateProps eval props)

def createBy (row : MatchRow) (created : Created) (pattern : CreatePattern) :
    MutationM σ Created :=
  match pattern with
  | .node _ label props propMap => do
      let properties ← ofResult (createdPropsBy runtime params eval props propMap)
      let id ← onGraph (store.addNode label properties)
      return created.withNode none label properties id
  | .edge sourceVar relLabel relProps targetVar =>
    match row.nodes sourceVar, row.nodes targetVar with
    | none, _ => throw (unboundByMatch sourceVar)
    | some _, none => throw (unboundByMatch targetVar)
    | some source, some target => do
        let properties := resolveCreateProps eval relProps
        let _ ← onGraph (store.addEdge relLabel source target properties)
        return created.withEdge properties

end Given

section Congruence

variable {σ : Type} (store : GraphStore σ) (runtime : Runtime) (params : Params)
variable {eval : Expr → GqlValue}

theorem resolveMapExpr_eq (other : ∀ name, expr = .paramRef (.named name) → False)
    (opLabel : String) :
    resolveMapExpr runtime params expr opLabel =
      entriesOf runtime opLabel (executeExpr runtime expr) := by
  cases expr with
  | paramRef ref =>
    cases ref with
    | named name => exact (other name rfl).elim
    | positional index => rfl
  | _ => rfl

theorem mapBy_eq (same : eval expr = executeExpr runtime expr) (opLabel : String) :
    mapBy runtime params eval expr opLabel = resolveMapExpr runtime params expr opLabel := by
  unfold mapBy
  split
  case h_1 => rfl
  case h_2 other =>
    exact (congrArg (entriesOf runtime opLabel) same).trans
      (resolveMapExpr_eq runtime params other opLabel).symm

theorem assignedBy_eq (same : eval assignment.value = executeExpr runtime assignment.value) :
    assignedBy runtime params eval assignment = assigned runtime params assignment := by
  cases assignment with
  | property var prop value =>
    have same : eval value = executeExpr runtime value := same
    rw [assignedBy, same, assigned]
  | entityOverwrite var expr =>
    have same : eval expr = executeExpr runtime expr := same
    rw [assignedBy, mapBy_eq runtime params same, assigned]
  | entityMerge var expr =>
    have same : eval expr = executeExpr runtime expr := same
    rw [assignedBy, mapBy_eq runtime params same, assigned]

theorem setBy_eq (same : eval assignment.value = executeExpr runtime assignment.value) (id : Nat) :
    setBy store runtime params eval id assignment =
      applyOneSetAssignment store runtime params id assignment :=
  congrArg (ofResult · >>= _) (assignedBy_eq runtime params same)

theorem resolveCreateProps_eq {props : List (String × Expr)}
    (same : ∀ expr ∈ props.map Prod.snd, eval expr = executeExpr runtime expr) :
    resolveCreateProps eval props = resolveCreateProps (executeExpr runtime) props := by
  have entries : (props.map fun entry => (entry.1, eval entry.2)) =
      props.map fun entry => (entry.1, executeExpr runtime entry.2) := by
    apply List.map_congr_left
    intro entry mem
    rw [same entry.2 (List.mem_map_of_mem mem)]
  rw [resolveCreateProps, entries, resolveCreateProps]

theorem createBy_eq {pattern : CreatePattern}
    (same : ∀ expr ∈ pattern.values, eval expr = executeExpr runtime expr)
    (noMap : ¬pattern.HasMap) (row : MatchRow) (created : Created) :
    createBy store runtime params eval row created pattern =
      createMatched store runtime row created pattern := by
  cases pattern with
  | node var label props propMap =>
    cases propMap with
    | some expr => exact absurd rfl noMap
    | none =>
      exact congrArg (fun properties => (do
        let id ← onGraph (store.addNode label properties)
        return created.withNode none label properties id : MutationM σ Created))
        (resolveCreateProps_eq runtime same)
  | edge sourceVar relLabel relProps targetVar =>
    exact congrArg (fun properties => (match row.nodes sourceVar, row.nodes targetVar with
      | none, _ => throw (unboundByMatch sourceVar)
      | some _, none => throw (unboundByMatch targetVar)
      | some source, some target => do
          let _ ← onGraph (store.addEdge relLabel source target properties)
          return created.withEdge properties : MutationM σ Created))
      (resolveCreateProps_eq runtime same)

theorem setRowBy_eq (same : eval assignment.value = executeExpr runtime assignment.value)
    (row : MatchRow) (count : Nat) :
    setRowBy store runtime params eval row count assignment =
      applyRowAssignment store runtime params row count assignment := by
  rw [setRowBy, applyRowAssignment]
  cases row.nodes (setAssignmentVar assignment) with
  | none => rfl
  | some id =>
    exact congrArg (· >>= fun set => pure (count + set)) (setBy_eq store runtime params same id)

theorem setMergedBy_eq {clause : Option SetClause}
    (same : ∀ set ∈ clause, ∀ assignment ∈ set.assignments,
      eval assignment.value = executeExpr runtime assignment.value) (id : Nat) :
    setMergedBy store runtime params eval id clause =
      applyOptionalSet store runtime params id clause := by
  cases clause with
  | none => rfl
  | some set =>
    apply foldlM_congr_mem
    intro assignment mem count
    rw [setBy_eq store runtime params (same set rfl assignment mem)]

theorem createdPropsBy_eq (same : ∀ expr, eval expr = executeExpr runtime expr)
    (props : List (String × Expr)) (propMap : Option Expr) :
    createdPropsBy runtime params eval props propMap =
      resolveCreateNodeProps runtime params props propMap := by
  cases propMap with
  | none =>
    rw [createdPropsBy, resolveCreateProps_eq runtime fun expr _ => same expr,
      resolveCreateNodeProps]
  | some expr => rw [createdPropsBy, mapBy_eq runtime params (same expr), resolveCreateNodeProps]

end Congruence

/-- The row of a MERGE, which binds the node that was found or created. -/
def mergedRow (var : Option String) (node : Node) : PatternMatch :=
  var.elim {} fun var => PatternMatch.bindNode {} var node

/-- A statement that writes: after a MATCH, a MERGE for what its lookup found, and a CREATE on its
own. -/
inductive Write where
  | matched (late : Nat → Bool) (mc : MatchClause) (statement : MutationStatement)
  | merged (clause : MergeClause) (lookup : MergeLookup) (node : Node)
  | bare (patterns : List CreatePattern) (returnClause : Option ReturnClause)

section Statements

variable {σ : Type} (store : GraphStore σ) (runtime : Runtime) (params : Params)
variable (platform : Platform) (before now : GraphAccess) (rest : Evaluators)

def onAccess : Runtime := { runtime with evaluators := platform.evaluators now rest }

def returned (mc : MatchClause) (row : PatternMatch) : Expr → GqlValue :=
  platform.evalExpr before row (materialisePathBindings before mc row)

def returnedMerged (var : Option String) (node : Node) : Expr → GqlValue :=
  platform.evalExpr before (mergedRow var node) fun _ => none

def returnedBare : Expr → GqlValue := platform.evalExpr before {} fun _ => none

def createRowBy (clause : CreateClause) (mc : MatchClause) (stats : GqlMutationResult)
    (row : PatternMatch) : MutationM σ GqlMutationResult := do
  let created ← clause.patterns.foldlM
    (createBy store runtime params (returned platform before mc row) (matchRowOf mc row)) { stats }
  return created.stats

def bodyBy (mc : MatchClause) (statement : MutationStatement) (rows : List PatternMatch) :
    MutationM σ MutationOutput :=
  match statement.mutation with
  | .create clause => do
      if statement.returnClause.isSome then
        throw (compileError
          ("RETURN after MATCH … CREATE is not supported; the created nodes are not bound " ++
            "for projection"))
      else
        let stats ← rows.foldlM (createRowBy store runtime params platform before clause mc) {}
        return ([], stats)
  | .set clause => do
      let count ← rows.foldlM (fun count row =>
        clause.assignments.foldlM (setRowBy store runtime params
          (returned platform before mc row) (matchRowOf mc row)) count) 0
      let projected ← projectReturn store statement.returnClause (rows.map (matchRowOf mc))
      return (projected, { propertiesSet := count })
  | _ => applyMatchMutationBody store runtime params statement (rows.map (matchRowOf mc))

def mergeExistingBy (eval : Expr → GqlValue) (clause : MergeClause) (id : Nat) :
    MutationM σ (Nat × GqlMutationResult) := do
  let set ← setMergedBy store runtime params eval id clause.onMatch
  return (id, { propertiesSet := set })

def mergeNewBy (eval : Expr → GqlValue) (clause : MergeClause)
    (props : List (String × Property)) : MutationM σ (Nat × GqlMutationResult) := do
  let id ← onGraph (store.addNode clause.label (collectProps props))
  let set ← setMergedBy store runtime params eval id clause.onCreate
  return (id, {
    nodesCreated := 1
    propertiesSet := set
    labelsAdded := countLabel clause.label })

def mergeBy (eval : Expr → GqlValue) (clause : MergeClause) (lookup : MergeLookup) :
    MutationM σ MutationOutput := do
  let merged ←
    match lookup.existingId with
    | some id => mergeExistingBy store runtime params eval clause id
    | none => mergeNewBy store runtime params eval clause lookup.lookupProps
  let rows ← projectMerged store clause.returnVar merged.1
  return (rows, merged.2)

def createBareBy (created : Created) (pattern : CreatePattern) : MutationM σ Created :=
  match pattern with
  | .node var label props propMap => do
      let properties ← ofResult (createdPropsBy runtime params (returnedBare platform before)
        props propMap)
      let id ← onGraph (store.addNode label properties)
      return created.withNode var label properties id
  | .edge _ _ _ _ => throw (compileError
      "edge creation in CREATE requires a MATCH clause to bind source and target variables")

/-- A statement with the values that RETURN has on the graph before it. -/
def Write.byReturn : Write → MutationM σ MutationOutput
  | .matched late mc statement => do
      let rows ← ofResult ((compileMatch before late mc).mapError MutationError.gql)
      bodyBy store runtime params platform before mc statement rows
  | .merged clause lookup node =>
    mergeBy store runtime params (returnedMerged platform before clause.var node) clause lookup
  | .bare patterns returnClause => do
      let created ← patterns.foldlM (createBareBy store runtime params platform before) {}
      let rows ← projectReturn store returnClause [created.bound]
      return (rows, created.stats)

/-- A statement as it is executed. -/
def Write.execute : Write → MutationM σ MutationOutput
  | .matched late mc statement => do
      let rows ← ofResult ((compileMatchRows before late mc).mapError MutationError.gql)
      applyMatchMutationBody store runtime params statement rows
  | .merged clause lookup _ => applyMergeWrite store runtime params clause lookup
  | .bare patterns returnClause =>
    executeBareMutation store runtime params
      { unwindClause := none, matchClause := none, mutation := .create ⟨patterns⟩,
        setClause := none, returnClause }

def Away (mc : MatchClause) (row : PatternMatch) (expr : Expr) : Prop :=
  ∀ x ∈ expr.lookups [], row.Free x ∧ materialisePathBindings before mc row x = none

/-- No value of a statement looks up a variable of its row, and no node created after a MATCH has
a map. -/
def Write.Apart : Write → Prop
  | .matched late mc statement => ∀ rows, compileMatch before late mc = .ok rows → ∀ row ∈ rows,
        match statement.mutation with
        | .set clause => ∀ assignment ∈ clause.assignments, Away before mc row assignment.value
        | .create clause => ∀ pattern ∈ clause.patterns,
            (∀ expr ∈ pattern.values, Away before mc row expr) ∧ ¬pattern.HasMap
        | .delete _ | .merge _ => True
  | .merged clause _ _ => ∀ var ∈ clause.var,
      (∀ set ∈ clause.onMatch, ∀ assignment ∈ set.assignments, var ∉ assignment.value.lookups []) ∧
      ∀ set ∈ clause.onCreate, ∀ assignment ∈ set.assignments, var ∉ assignment.value.lookups []
  | .bare _ _ => True

theorem executeExpr_onAccess (expr : Expr) :
    executeExpr (onAccess runtime platform now rest) expr =
      platform.evalExpr now {} (fun _ => none) expr :=
  Platform.evalAlong_evaluators platform now rest _ _ expr

variable {mc : MatchClause}

theorem returned_apart {row : PatternMatch} (away : Away before mc row expr) :
    returned platform before mc row expr =
      executeExpr (onAccess runtime platform now rest) expr := by
  rw [executeExpr_onAccess]
  exact platform.evalExpr_apart before now expr away

variable {var : Option String}

theorem returnedMerged_apart {node : Node} (away : ∀ x ∈ var, x ∉ expr.lookups []) :
    returnedMerged platform before var node expr =
      executeExpr (onAccess runtime platform now rest) expr := by
  rw [executeExpr_onAccess]
  apply platform.evalExpr_apart before now expr
  intro x mem
  refine ⟨?_, rfl⟩
  cases var with
  | none => exact ⟨rfl, rfl⟩
  | some var =>
    have ne : x ≠ var := fun same => away var rfl (same ▸ mem)
    exact ⟨Function.update_of_ne ne .., rfl⟩

theorem returnedBare_eq (expr : Expr) :
    returnedBare platform before expr = executeExpr (onAccess runtime platform now rest) expr := by
  rw [executeExpr_onAccess]
  exact platform.evalExpr_apart before now expr fun _ _ => ⟨⟨rfl, rfl⟩, rfl⟩

variable {before now}

theorem bodyBy_eq {statement : MutationStatement} {rows : List PatternMatch} (apart : ∀ row ∈ rows,
      match statement.mutation with
      | .set clause => ∀ assignment ∈ clause.assignments, Away before mc row assignment.value
      | .create clause => ∀ pattern ∈ clause.patterns,
          (∀ expr ∈ pattern.values, Away before mc row expr) ∧ ¬pattern.HasMap
      | .delete _ | .merge _ => True) :
    bodyBy store (onAccess runtime platform now rest) params platform before mc statement rows =
      applyMatchMutationBody store (onAccess runtime platform now rest) params statement
        (rows.map (matchRowOf mc)) := by
  obtain ⟨unwind, clause, mutation, setClause, returnClause⟩ := statement
  cases mutation with
  | set set =>
    have folds : ∀ row ∈ rows, ∀ count : Nat,
        set.assignments.foldlM (setRowBy store (onAccess runtime platform now rest) params
          (returned platform before mc row) (matchRowOf mc row)) count =
        set.assignments.foldlM (applyRowAssignment store (onAccess runtime platform now rest)
          params (matchRowOf mc row)) count := by
      intro row mem count
      apply foldlM_congr_mem
      intro assignment inside count
      exact setRowBy_eq store _ params
        (returned_apart runtime platform before now rest (apart row mem assignment inside)) _ _
    simp only [bodyBy, applyMatchMutationBody, List.foldlM_map]
    exact congrArg (· >>= _) (foldlM_congr_mem folds 0)
  | create create =>
    have folds : ∀ row ∈ rows, ∀ stats,
        createRowBy store (onAccess runtime platform now rest) params platform before create mc
          stats row =
        createRow store (onAccess runtime platform now rest) create stats
          (matchRowOf mc row) := by
      intro row mem stats
      have inner : ∀ pattern ∈ create.patterns, ∀ created,
          createBy store (onAccess runtime platform now rest) params
            (returned platform before mc row) (matchRowOf mc row) created pattern =
          createMatched store (onAccess runtime platform now rest) (matchRowOf mc row) created
            pattern := by
        intro pattern inside created
        obtain ⟨away, noMap⟩ := apart row mem pattern inside
        exact createBy_eq store _ params
          (fun expr listed => returned_apart runtime platform before now rest (away expr listed))
          noMap _ _
      rw [createRowBy, createRow]
      exact congrArg (· >>= _) (foldlM_congr_mem inner _)
    simp only [bodyBy, applyMatchMutationBody, List.foldlM_map]
    split
    · rfl
    · exact congrArg (· >>= _) (foldlM_congr_mem folds {})
  | delete _ => rfl
  | merge _ => rfl

theorem setMerged_apart (before now : GraphAccess) (node : Node) {clause : Option SetClause}
    (away : ∀ x ∈ var, ∀ set ∈ clause, ∀ assignment ∈ set.assignments,
      x ∉ assignment.value.lookups []) (id : Nat) :
    setMergedBy store (onAccess runtime platform now rest) params
        (returnedMerged platform before var node) id clause =
      applyOptionalSet store (onAccess runtime platform now rest) params id clause := by
  apply setMergedBy_eq
  intro set has assignment mem
  exact returnedMerged_apart runtime platform before now rest
    fun x is => away x is set has assignment mem

theorem mergeBy_eq {clause : MergeClause} {lookup : MergeLookup} {node : Node}
    (onMatch : ∀ var ∈ clause.var, ∀ set ∈ clause.onMatch, ∀ assignment ∈ set.assignments,
      var ∉ assignment.value.lookups [])
    (onCreate : ∀ var ∈ clause.var, ∀ set ∈ clause.onCreate, ∀ assignment ∈ set.assignments,
      var ∉ assignment.value.lookups []) :
    mergeBy store (onAccess runtime platform now rest) params
        (returnedMerged platform before clause.var node) clause lookup =
      applyMergeWrite store (onAccess runtime platform now rest) params clause lookup := by
  have matched := setMerged_apart store runtime params platform rest before now node onMatch
  have created := setMerged_apart store runtime params platform rest before now node onCreate
  have existing (id : Nat) : mergeExistingBy store (onAccess runtime platform now rest) params
      (returnedMerged platform before clause.var node) clause id =
      mergeExisting store (onAccess runtime platform now rest) params clause id :=
    congrArg (· >>= _) (matched id)
  have new : mergeNewBy store (onAccess runtime platform now rest) params
      (returnedMerged platform before clause.var node) clause lookup.lookupProps =
      mergeNew store (onAccess runtime platform now rest) params clause lookup.lookupProps :=
    bind_congr fun id => congrArg (· >>= _) (created id)
  unfold mergeBy applyMergeWrite
  cases lookup.existingId with
  | some id => exact congrArg (· >>= _) (existing id)
  | none => exact congrArg (· >>= _) new

theorem execute_eq_byReturn {write : Write} (apart : write.Apart before) :
    write.execute store (onAccess runtime platform now rest) params before =
      write.byReturn store (onAccess runtime platform now rest) params platform before := by
  cases write with
  | matched late mc statement =>
    rw [Write.execute, Write.byReturn, compileMatchRows_eq]
    cases found : compileMatch before late mc with
    | error e => rfl
    | ok rows =>
      exact (bodyBy_eq store runtime params platform rest (apart rows found)).symm
  | merged clause lookup node =>
    exact (mergeBy_eq store runtime params platform rest (fun var is => (apart var is).1)
      fun var is => (apart var is).2).symm
  | bare patterns returnClause =>
    have folds : ∀ pattern ∈ patterns, ∀ created,
        createBare store (onAccess runtime platform now rest) params created pattern =
        createBareBy store (onAccess runtime platform now rest) params platform before created
          pattern := by
      intro pattern _ created
      cases pattern with
      | node var label props propMap =>
        rw [createBare, createBareBy, createdPropsBy_eq _ _ (returnedBare_eq runtime platform
          before now rest)]
      | edge => rfl
    exact congrArg (· >>= _) (foldlM_congr_mem folds {})

end Statements

end ErmyaGraph.Gql
