import ErmyaGraph.Gql.PipelineStages
import ErmyaGraph.Gql.RowNames

/-! # A list in front of a query

A query with a list in front answers with the rows that it has for every element,
one element after the other, or aggregates all of them. It does so where only
operators look at the variable and no path is looked up, and where there is
something to aggregate. A pipeline with a list in front is an error. -/

namespace ErmyaGraph.Gql

open List

variable {lit : Literal}

namespace Platform

variable (platform : Platform) (graph : GraphAccess)

section WithoutPath

variable {row : PatternMatch} {paths : PathBindings}

mutual

theorem evalExpr_withoutPath : (expr : Expr) → (∀ x ∈ expr.lookups [], paths x = none) →
    evalExpr platform graph row paths expr = evalExpr platform graph row (fun _ => none) expr
  | .literal _, _ | .paramRef _, _ | .aggregate _ _, _ | .propAccess _ _, _ | .shortestPath _, _ =>
    rfl
  | .var name, free => by
    rw [evalExpr, evalExpr, free name (mem_singleton_self name)]
  | .binaryOp left op right, free => by
    obtain ⟨first, second⟩ := forall_mem_append.mp free
    rw [evalExpr, evalExpr, evalExpr_withoutPath left first, evalExpr_withoutPath right second]
  | .unaryOp op expr, free => by
    rw [evalExpr, evalExpr, evalExpr_withoutPath expr free]
  | .isNull expr negated, free => by
    rw [evalExpr, evalExpr, evalExpr_withoutPath expr free]
  | .listLit items, free => by
    rw [evalExpr, evalExpr, evalExprs_withoutPath items free]
  | .subscript list index, free => by
    obtain ⟨first, second⟩ := forall_mem_append.mp free
    rw [evalExpr, evalExpr, evalExpr_withoutPath list first, evalExpr_withoutPath index second]
  | .functionCall name args, free => by
    obtain ⟨named, inner⟩ := forall_mem_append.mp free
    have same : evalEntityFunction graph name args row paths =
        evalEntityFunction graph name args row fun _ => none := by
      unfold evalEntityFunction
      rw [argVar_bind 0 named, argVar_bind 0 fun _ _ => rfl]
    rw [evalExpr, evalExpr, evalFunctionCall_eq, evalFunctionCall_eq, same,
      evalExprs_withoutPath args inner]
  | .listPredicate kind var list predicate, free => by
    obtain ⟨first, _⟩ := forall_mem_append.mp free
    simp only [evalExpr, evalExpr_withoutPath list first]

theorem evalExprs_withoutPath : (exprs : List Expr) → (∀ x ∈ lookupsOf [] exprs, paths x = none) →
    evalExprs platform graph row paths exprs = evalExprs platform graph row (fun _ => none) exprs
  | [], _ => rfl
  | expr :: rest, free => by
    obtain ⟨first, second⟩ := forall_mem_append.mp free
    rw [evalExprs, evalExprs, evalExpr_withoutPath expr first, evalExprs_withoutPath rest second]

end

end WithoutPath

section Query

variable (rest : Evaluators)

/-- An expression of RETURN with a literal for the variable. -/
def replacedExpr (x : String) (lit : Literal) : Expr → Expr
  | .aggregate func arg => .aggregate func (arg.map (Expr.replace x lit))
  | expr => expr.replace x lit

/-- An item with a literal for the variable, in the column that it has with the variable. -/
def replacedItem (x : String) (lit : Literal) (item : ReturnItem) : ReturnItem where
  expr := replacedExpr x lit item.expr
  columnAlias := some (columnName (platform.evaluators graph rest).rowwise item)

/-- A query with a literal for the variable, without what applies to the rows of all literals. -/
def replacedQuery (query : GqlQuery) (x : String) (lit : Literal) : GqlQuery where
  matchClause := query.matchClause
  whereClause := query.whereClause.map (Expr.replace x lit)
  returnClause := { items := query.returnClause.items.map (replacedItem platform graph rest x lit) }

/-- The rows of the query for each literal, one literal after the other. -/
def concatenation (query : GqlQuery) (x : String) (lits : List Literal) :
    Except GqlError (List GqlRow) := do
  let parts ← lits.mapM fun lit =>
    executeWithDeadline (platform.evaluators graph rest) graph {} 0
      (replacedQuery platform graph rest query x lit)
  return parts.flatten

/-- ORDER BY, DISTINCT and LIMIT. -/
def appliedToAll (query : GqlQuery) (rows : List GqlRow) : List GqlRow :=
  let sorted := query.orderBy.elim rows fun order =>
    sortByColumns (platform.evaluators graph rest) query.returnClause.items order rows
  limitTo query.limit (distinctRows (platform.evaluators graph rest) query.returnClause sorted)

/-- The matches of the query for each literal, with the literal. -/
def matchesFor (query : GqlQuery) (x : String) (lits : List Literal) :
    Except GqlError (List (PatternMatch × Literal)) := do
  let parts ← lits.mapM fun lit => do
    let rows ← matchedRows (platform.evaluators graph rest) graph {}
      (replacedQuery platform graph rest query x lit)
    return rows.map (·, lit)
  return parts.flatten

/-- The value of an expression in a match, with its literal for the variable. -/
def valueFor (query : GqlQuery) (x : String) (expr : Expr) (row : PatternMatch × Literal) :
    GqlValue :=
  evalAlong (platform.evaluators graph rest)
    (materialisePathBindings graph query.matchClause row.1) row.1 (expr.replace x row.2)

def aggregateFor (query : GqlQuery) (x : String) (rows : List (PatternMatch × Literal)) :
    Expr → Except GqlError GqlValue
  | .aggregate func arg =>
    let values := arg.elim [] fun inner => rows.map (valueFor platform graph rest query x inner)
    .ok (evalAggregateCore (platform.evaluators graph rest).rowwise func values rows.length
      arg.isNone)
  | _ => .error (.gqlCompileError "expected aggregate expression")

/-- The aggregates over all matches in one row. -/
def aggregation (query : GqlQuery) (x : String) (lits : List Literal) :
    Except GqlError (List GqlRow) := do
  let rows ← matchesFor platform graph rest query x lits
  let row ← query.returnClause.items.foldlM (fun columns item => do
    let value ← aggregateFor platform graph rest query x rows item.expr
    return Function.update columns (columnName (platform.evaluators graph rest).rowwise item)
      (some value)) fun _ => none
  return [row]

/-- What a query without GROUP BY answers with behind a list. -/
def answerFor (query : GqlQuery) (x : String) (lits : List Literal) (isAggregate : Bool) :
    Except GqlError (List GqlRow) :=
  if isAggregate then aggregation platform graph rest query x lits
  else (concatenation platform graph rest query x lits).map (appliedToAll platform graph rest query)

/-- An expression looks at the variable below operators only, or the element is null, and it looks
at no path. -/
structure Plain (query : GqlQuery) (x : String) (lit : Literal) (expr : Expr) : Prop where
  kept : lit = .null ∨ expr.losesVar x = false
  noPath : ∀ p ∈ query.matchClause.pathVar, p ∉ (expr.replace x lit).lookups []

/-- A query that has its variable and its paths where it looks at them. -/
structure Unwindable (query : GqlQuery) (unwind : UnwindClause) (lits : List Literal)
    (isAggregate : Bool) : Prop where
  unwinds : query.unwindClause = some unwind
  listed : platform.evalExpr graph {} (fun _ => none) unwind.expr = .list (lits.map compileLiteral)
  unnamed : query.matchClause.Unnamed unwind.var
  ungrouped : query.groupBy = none
  valid : validateAggregation (platform.evaluators graph rest) query.returnClause.items none =
    .ok isAggregate
  scope : ∀ lit ∈ lits, validateScope (replacedQuery platform graph rest query unwind.var lit)
    (collectBoundVars query.matchClause) = .ok ()
  condition : ∀ lit ∈ lits, ∀ predicate ∈ query.whereClause, Plain query unwind.var lit predicate
  items : ∀ lit ∈ lits, ∀ item ∈ query.returnClause.items, Plain query unwind.var lit item.expr
  arguments : ∀ lit ∈ lits, ∀ item ∈ query.returnClause.items, ∀ func inner,
    item.expr = .aggregate func (some inner) → Plain query unwind.var lit inner

end Query

section Matches

variable (rest : Evaluators)

theorem materialisePathBindings_other {mc : MatchClause} {y : String}
    (other : ∀ p ∈ mc.pathVar, p ≠ y) (row : PatternMatch) :
    materialisePathBindings graph mc row y = none := by
  unfold materialisePathBindings
  cases named : mc.pathVar with
  | none => rfl
  | some pathVar =>
    cases mc.patterns.head?.bind (materialisePathForMatch graph row) with
    | none => rfl
    | some path => exact Function.update_of_ne (other pathVar named).symm _ _

variable {row : PatternMatch}

theorem evalUnwound_plain {query : GqlQuery} {x : String} {expr : Expr}
    (plain : Plain query x lit expr) (free : row.Free x) :
    evalUnwound (platform.evaluators graph rest) x row (compileLiteral lit) expr =
      valueFor platform graph rest query x expr (row, lit) := by
  have unbound : ({ pm := row } : Binding).Free x := ⟨rfl, free⟩
  have noPath (y : String) (looked : y ∈ (expr.replace x lit).lookups []) :
      materialisePathBindings graph query.matchClause row y = none := by
    refine materialisePathBindings_other graph (fun p named same => ?_) row
    exact plain.noPath p named (same ▸ looked)
  rw [evalUnwound_evaluators, evalExprWithUnwindVar_kept platform graph free lit expr plain.kept,
    ← evalExprOnBinding_replace platform graph unbound lit expr, ← evalExpr_noPaths, valueFor,
    evalAlong_evaluators, evalExpr_withoutPath platform graph _ noPath]

variable {query : GqlQuery} {unwind : UnwindClause} {lits : List Literal} {isAggregate : Bool}
  {matched : List PatternMatch}

theorem checkDeadline_inTime (counter : Nat) : checkDeadline inTime counter = .ok () := by
  unfold checkDeadline inTime
  split <;> rfl

theorem forM_inTime (rounds : List Nat) : rounds.forM (checkDeadline inTime) = .ok PUnit.unit := by
  induction rounds with
  | nil => rfl
  | cons round rest ih =>
    have step : (round :: rest).forM (checkDeadline inTime) =
        (checkDeadline inTime round >>= fun _ => rest.forM (checkDeadline inTime)) := rfl
    rw [step, checkDeadline_inTime]
    exact ih

/-- The matches that pass the condition with a literal in place of the variable. -/
def passing (query : GqlQuery) (x : String) (matched : List PatternMatch) (lit : Literal) :
    List PatternMatch :=
  query.whereClause.elim matched fun predicate => matched.filter fun row =>
    (valueFor platform graph rest query x predicate (row, lit)).isTrue

theorem passing_subset {x : String}
    (mem : row ∈ passing platform graph rest query x matched lit) : row ∈ matched := by
  unfold passing at mem
  cases condition : query.whereClause with
  | none => simpa only [condition, Option.elim_none] using mem
  | some predicate =>
    rw [condition] at mem
    exact mem_of_mem_filter mem

theorem matchedRows_replaced (query : GqlQuery) (x : String) (lit : Literal) :
    matchedRows (platform.evaluators graph rest) graph {}
      (replacedQuery platform graph rest query x lit) =
        (compileMatch graph inTime query.matchClause).map fun matched =>
          passing platform graph rest query x matched lit := by
  have same : compileMatch graph ({} : Clock).matching
      (replacedQuery platform graph rest query x lit).matchClause =
        compileMatch graph inTime query.matchClause := rfl
  unfold matchedRows
  rw [same]
  cases compileMatch graph inTime query.matchClause with
  | error e => rfl
  | ok matched =>
    simp only [bind, Except.bind, Except.map, Bool.and_false, Bool.false_eq_true, if_false]
    unfold passing replacedQuery
    cases query.whereClause with
    | none => rfl
    | some predicate => rfl

theorem unwoundRows_eq (unwindable : Unwindable platform graph rest query unwind lits isAggregate)
    (free : ∀ row ∈ matched, row.Free unwind.var) :
    unwoundRows (platform.evaluators graph rest) query unwind.var (lits.map compileLiteral)
      matched = lits.flatMap fun lit =>
        (passing platform graph rest query unwind.var matched lit).map
          (·, compileLiteral lit) := by
  unfold unwoundRows passing
  rw [flatMap_map]
  cases condition : query.whereClause with
  | none => rfl
  | some predicate =>
    rw [Option.elim_some, filter_flatMap]
    refine flatMap_congr fun lit mem => ?_
    rw [Option.elim_some, filter_map]
    refine congrArg _ (filter_congr fun row here => ?_)
    have plain := unwindable.condition lit mem predicate condition
    rw [Function.comp_apply, evalUnwound_plain platform graph rest plain (free row here)]

mutual

theorem exprHasAggregate_replace (x : String) (lit : Literal) : (expr : Expr) →
    exprHasAggregate (expr.replace x lit) = exprHasAggregate expr
  | .literal _ | .paramRef _ | .aggregate _ _ | .propAccess _ _ | .shortestPath _
  | .listLit _ | .subscript _ _ | .listPredicate _ _ _ _ => rfl
  | .var name => by
    rw [Expr.replace]
    split <;> rfl
  | .binaryOp left op right => by
    rw [Expr.replace, exprHasAggregate, exprHasAggregate, exprHasAggregate_replace x lit left,
      exprHasAggregate_replace x lit right]
  | .unaryOp op expr => by
    rw [Expr.replace, exprHasAggregate, exprHasAggregate, exprHasAggregate_replace x lit expr]
  | .isNull expr negated => by
    rw [Expr.replace, exprHasAggregate, exprHasAggregate, exprHasAggregate_replace x lit expr]
  | .functionCall name args => by
    rw [Expr.replace, exprHasAggregate, exprHasAggregate, anyHasAggregate_replaceAll x lit args]

theorem anyHasAggregate_replaceAll (x : String) (lit : Literal) : (exprs : List Expr) →
    anyHasAggregate (replaceAll x lit exprs) = anyHasAggregate exprs
  | [] => rfl
  | expr :: rest => by
    rw [replaceAll, anyHasAggregate, anyHasAggregate, exprHasAggregate_replace x lit expr,
      anyHasAggregate_replaceAll x lit rest]

end

theorem replacedExpr_eq (x : String) (lit : Literal) {expr : Expr}
    (plain : exprHasAggregate expr = false) : replacedExpr x lit expr = expr.replace x lit := by
  cases expr with
  | aggregate func arg => cases plain
  | _ => rfl

variable {items : List ReturnItem}

theorem no_aggregate
    (valid : validateAggregation (platform.evaluators graph rest) items none = .ok false) :
    ∀ item ∈ items, exprHasAggregate item.expr = false := by
  unfold validateAggregation at valid
  dsimp only at valid
  split at valid
  · cases valid
  · intro item mem
    exact Bool.eq_false_iff.mpr (any_eq_false.mp (Except.ok.inj valid) item mem)

theorem valid_replaced (x : String) (lit : Literal)
    (alone : ∀ item ∈ items, exprHasAggregate item.expr = false) :
    validateAggregation (platform.evaluators graph rest)
      (items.map (replacedItem platform graph rest x lit)) none = .ok false := by
  have any : ((items.map (replacedItem platform graph rest x lit)).any fun item =>
      exprHasAggregate item.expr) = false := by
    refine any_eq_false.mpr fun replaced mem => ?_
    obtain ⟨item, inside, rfl⟩ := mem_map.mp mem
    have here := alone item inside
    rw [Bool.not_eq_true]
    exact (congrArg exprHasAggregate (replacedExpr_eq x lit here)).trans
      ((exprHasAggregate_replace x lit item.expr).trans here)
  unfold validateAggregation
  simp only [any, Bool.false_and, Bool.false_eq_true, if_false]

/-- The row of a match for a literal. -/
def rowFor (query : GqlQuery) (x : String) (lit : Literal) (row : PatternMatch) : GqlRow :=
  projectRow (platform.evaluators graph rest)
    (materialisePathBindings graph query.matchClause row)
    (query.returnClause.items.map (replacedItem platform graph rest x lit)) row

theorem projectUnwound_eq (unwindable : Unwindable platform graph rest query unwind lits false)
    (mem : lit ∈ lits) (free : row.Free unwind.var) :
    projectUnwound (platform.evaluators graph rest) unwind.var query.returnClause.items
      (row, compileLiteral lit) = rowFor platform graph rest query unwind.var lit row := by
  have alone := no_aggregate platform graph rest unwindable.valid
  unfold projectUnwound rowFor projectRow
  rw [foldl_map]
  refine foldl_ext _ _ _ fun columns item inside => ?_
  have value := evalUnwound_plain platform graph rest
    (unwindable.items lit mem item inside) free
  have replaced := replacedExpr_eq unwind.var lit (alone item inside)
  rw [value, valueFor, ← replaced]
  rfl

theorem executeProjected_bare (bare : GqlQuery) (unordered : bare.orderBy = none)
    (unlimited : bare.limit = none) (repeated : bare.returnClause.distinct = false)
    (rows : List PatternMatch) :
    executeProjected (platform.evaluators graph rest) graph {} bare rows =
      .ok (rows.map fun row => projectRow (platform.evaluators graph rest)
        (materialisePathBindings graph bare.matchClause row) bare.returnClause.items row) := by
  have each (indexed : PatternMatch × Nat) :
      projectMatch (platform.evaluators graph rest) graph {} bare indexed =
        .ok (indexed.1, projectRow (platform.evaluators graph rest)
          (materialisePathBindings graph bare.matchClause indexed.1) bare.returnClause.items
          indexed.1) := by
    have looked := checkDeadline_inTime indexed.2
    unfold inTime at looked
    unfold projectMatch
    simp only [looked, bind, Except.bind, Bool.false_eq_true, if_false]
    rfl
  unfold executeProjected
  rw [Joins.mapM_of_ok fun indexed _ => each indexed]
  simp only [bind, Except.bind, unordered, unlimited, repeated, Option.elim_none, map_map,
    limitTo, distinctRows, Bool.false_eq_true, if_false]
  refine congrArg Except.ok ?_
  conv_rhs => rw [← zipIdx_map_fst 0 rows, map_map]
  rfl

section

variable (unwindable : Unwindable platform graph rest query unwind lits false)
include unwindable

theorem executeWithDeadline_replaced (mem : lit ∈ lits) :
    executeWithDeadline (platform.evaluators graph rest) graph {} 0
      (replacedQuery platform graph rest query unwind.var lit) =
        (compileMatch graph inTime query.matchClause).map fun matched =>
          (passing platform graph rest query unwind.var matched lit).map
            (rowFor platform graph rest query unwind.var lit) := by
  have alone := no_aggregate platform graph rest unwindable.valid
  have valid : validateAggregation (platform.evaluators graph rest)
      (replacedQuery platform graph rest query unwind.var lit).returnClause.items
      (replacedQuery platform graph rest query unwind.var lit).groupBy = .ok false :=
    valid_replaced platform graph rest unwind.var lit alone
  have scope : validateScope (replacedQuery platform graph rest query unwind.var lit)
      (collectBoundVars (replacedQuery platform graph rest query unwind.var lit).matchClause) =
        .ok () := unwindable.scope lit mem
  have unwindless : (replacedQuery platform graph rest query unwind.var lit).unwindClause = none :=
    rfl
  have ungrouped : (replacedQuery platform graph rest query unwind.var lit).groupBy = none := rfl
  unfold executeWithDeadline executePlain
  rw [unwindless]
  dsimp only
  rw [scope, valid, matchedRows_replaced]
  cases compileMatch graph inTime query.matchClause with
  | error e => rfl
  | ok matched =>
    simp only [bind, Except.bind, Except.map, Bool.false_and, Bool.false_eq_true, if_false,
      lt_irrefl, false_and, ungrouped]
    exact executeProjected_bare platform graph rest
      (replacedQuery platform graph rest query unwind.var lit) rfl rfl rfl _

theorem concatenation_eq (nonempty : lits ≠ []) :
    concatenation platform graph rest query unwind.var lits =
      (compileMatch graph inTime query.matchClause).map fun matched => lits.flatMap fun lit =>
        (passing platform graph rest query unwind.var matched lit).map
          (rowFor platform graph rest query unwind.var lit) := by
  unfold concatenation
  rw [Joins.mapM_shared nonempty (compileMatch graph inTime query.matchClause) _ fun lit mem =>
    executeWithDeadline_replaced platform graph rest unwindable mem]
  cases compileMatch graph inTime query.matchClause with
  | error e => rfl
  | ok matched => exact congrArg Except.ok flatMap_def.symm

theorem returnUnwound_eq (free : ∀ row ∈ matched, row.Free unwind.var) :
    returnUnwound (platform.evaluators graph rest) query unwind.var
      (lits.flatMap fun lit => (passing platform graph rest query unwind.var matched lit).map
        (·, compileLiteral lit)) false =
      .ok (appliedToAll platform graph rest query (lits.flatMap fun lit =>
        (passing platform graph rest query unwind.var matched lit).map
          (rowFor platform graph rest query unwind.var lit))) := by
  have rows : (lits.flatMap fun lit => (passing platform graph rest query unwind.var matched
      lit).map (·, compileLiteral lit)).map
        (projectUnwound (platform.evaluators graph rest) unwind.var query.returnClause.items) =
      lits.flatMap fun lit => (passing platform graph rest query unwind.var matched lit).map
        (rowFor platform graph rest query unwind.var lit) := by
    rw [map_flatMap]
    refine flatMap_congr fun lit mem => ?_
    rw [map_map]
    refine map_congr_left fun row here => ?_
    exact projectUnwound_eq platform graph rest unwindable mem
      (free row (passing_subset platform graph rest here))
  unfold returnUnwound appliedToAll
  simp only [rows, Bool.false_eq_true, if_false]

end

theorem executeWithUnwind_eq
    (unwindable : Unwindable platform graph rest query unwind lits isAggregate)
    (nonempty : lits ≠ []) (found : matched ≠ [])
    (ran : compileMatch graph inTime query.matchClause = .ok matched) :
    executeWithUnwind (platform.evaluators graph rest) graph {} query unwind =
      returnUnwound (platform.evaluators graph rest) query unwind.var
        (lits.flatMap fun lit => (passing platform graph rest query unwind.var matched lit).map
          (·, compileLiteral lit)) isAggregate := by
  have free := compileMatch_free unwindable.unnamed ran
  have elements : unwindElements (Gql.evalExpr (platform.evaluators graph rest).rowwise {}
      unwind.expr) = lits.map compileLiteral := by
    rw [evalExpr_rowwise, ← evalExpr_noPaths, unwindable.listed, unwindElements]
  have present : (lits.map compileLiteral).isEmpty = false := by
    rw [isEmpty_map]
    exact isEmpty_eq_false_iff.mpr nonempty
  have some : matched.isEmpty = false := isEmpty_eq_false_iff.mpr found
  have looked : (List.range ((lits.map compileLiteral).length * matched.length)).forM
      (checkDeadline ({} : Clock).joining) = .ok () := forM_inTime _
  have ran : compileMatch graph ({} : Clock).matching query.matchClause = .ok matched := ran
  have rows := unwoundRows_eq platform graph rest unwindable free
  unfold executeWithUnwind
  rw [elements, ran, unwindable.ungrouped, unwindable.valid]
  simp only [bind, Except.bind, present, some, Bool.false_eq_true, if_false, looked, rows]

def allPassing (query : GqlQuery) (x : String) (matched : List PatternMatch)
    (lits : List Literal) : List (PatternMatch × Literal) :=
  lits.flatMap fun lit => (passing platform graph rest query x matched lit).map (·, lit)

theorem matchesFor_eq (query : GqlQuery) (x : String) (nonempty : lits ≠ []) :
    matchesFor platform graph rest query x lits =
      (compileMatch graph inTime query.matchClause).map fun matched =>
        allPassing platform graph rest query x matched lits := by
  have each (lit : Literal) : (do
      let rows ← matchedRows (platform.evaluators graph rest) graph {}
        (replacedQuery platform graph rest query x lit)
      return rows.map (·, lit)) = (compileMatch graph inTime query.matchClause).map fun matched =>
        (passing platform graph rest query x matched lit).map (·, lit) := by
    rw [matchedRows_replaced]
    cases compileMatch graph inTime query.matchClause <;> rfl
  unfold matchesFor
  rw [Joins.mapM_shared nonempty (compileMatch graph inTime query.matchClause) _ fun lit _ =>
    each lit]
  cases compileMatch graph inTime query.matchClause with
  | error e => rfl
  | ok matched => exact congrArg Except.ok flatMap_def.symm

theorem evalAggregateUnwound_eq
    (unwindable : Unwindable platform graph rest query unwind lits isAggregate)
    (free : ∀ row ∈ matched, row.Free unwind.var) {item : ReturnItem}
    (mem : item ∈ query.returnClause.items) :
    evalAggregateUnwound (platform.evaluators graph rest) unwind.var
      ((allPassing platform graph rest query unwind.var matched lits).map fun row =>
        (row.1, compileLiteral row.2)) item.expr =
      aggregateFor platform graph rest query unwind.var
        (allPassing platform graph rest query unwind.var matched lits) item.expr := by
  cases is : item.expr with
  | aggregate func arg =>
    cases arg with
    | none =>
      rw [evalAggregateUnwound, aggregateFor, length_map]
      rfl
    | some inner =>
      have values : ((allPassing platform graph rest query unwind.var matched lits).map
          fun row => (row.1, compileLiteral row.2)).map (fun row => evalUnwound
            (platform.evaluators graph rest) unwind.var row.1 row.2 inner) =
          (allPassing platform graph rest query unwind.var matched lits).map
            (valueFor platform graph rest query unwind.var inner) := by
        rw [map_map]
        refine map_congr_left fun row here => ?_
        obtain ⟨lit, inside, here⟩ := mem_flatMap.mp here
        obtain ⟨found, there, rfl⟩ := mem_map.mp here
        exact evalUnwound_plain platform graph rest
          (unwindable.arguments lit inside item mem func inner is)
          (free found (passing_subset platform graph rest there))
      rw [evalAggregateUnwound, aggregateFor, length_map, Option.elim_some,
        Option.elim_some, values]
  | _ => rfl

theorem returnUnwound_aggregated
    (unwindable : Unwindable platform graph rest query unwind lits isAggregate)
    (free : ∀ row ∈ matched, row.Free unwind.var) :
    returnUnwound (platform.evaluators graph rest) query unwind.var
      (lits.flatMap fun lit => (passing platform graph rest query unwind.var matched lit).map
        (·, compileLiteral lit)) true =
      (do
        let row ← query.returnClause.items.foldlM (fun columns item => do
          let value ← aggregateFor platform graph rest query unwind.var
            (allPassing platform graph rest query unwind.var matched lits) item.expr
          return Function.update columns
            (columnName (platform.evaluators graph rest).rowwise item) (some value)) fun _ => none
        return [row]) := by
  have rows : (lits.flatMap fun lit => (passing platform graph rest query unwind.var matched
      lit).map (·, compileLiteral lit)) =
      (allPassing platform graph rest query unwind.var matched lits).map fun row =>
        (row.1, compileLiteral row.2) := by
    rw [allPassing, map_flatMap]
    refine flatMap_congr fun lit _ => ?_
    rw [map_map]
    rfl
  unfold returnUnwound
  rw [rows, if_pos rfl]
  refine congrArg (· >>= _) (Joins.foldlM_congr (fun columns item mem => ?_) _)
  rw [evalAggregateUnwound_eq platform graph rest unwindable free mem]

theorem executeWithUnwind_empty (query : GqlQuery)
    (listed : platform.evalExpr graph {} (fun _ => none) unwind.expr = .list []) :
    executeWithUnwind (platform.evaluators graph rest) graph {} query unwind = .ok [] := by
  unfold executeWithUnwind
  rw [evalExpr_rowwise, ← evalExpr_noPaths, listed]
  rfl

theorem executeWithUnwind_unmatched
    (unwindable : Unwindable platform graph rest query unwind lits isAggregate)
    (ran : compileMatch graph inTime query.matchClause = .ok []) :
    executeWithUnwind (platform.evaluators graph rest) graph {} query unwind = .ok [] := by
  have ran : compileMatch graph ({} : Clock).matching query.matchClause = .ok [] := ran
  unfold executeWithUnwind
  rw [ran, unwindable.ungrouped, unwindable.valid]
  simp only [bind, Except.bind, isEmpty_nil, if_true]
  split <;> rfl

theorem executeWithUnwind_error {e : GqlError}
    (unwindable : Unwindable platform graph rest query unwind lits isAggregate)
    (nonempty : lits ≠ []) (ran : compileMatch graph inTime query.matchClause = .error e) :
    executeWithUnwind (platform.evaluators graph rest) graph {} query unwind = .error e := by
  have ran : compileMatch graph ({} : Clock).matching query.matchClause = .error e := ran
  have present : (lits.map compileLiteral).isEmpty = false := by
    rw [isEmpty_map]
    exact isEmpty_eq_false_iff.mpr nonempty
  unfold executeWithUnwind
  rw [evalExpr_rowwise, ← evalExpr_noPaths, unwindable.listed, ran]
  simp only [unwindElements, present, Bool.false_eq_true, if_false]
  rfl

theorem appliedToAll_nil (query : GqlQuery) : appliedToAll platform graph rest query [] = [] := by
  have sorted : query.orderBy.elim [] (fun order => sortByColumns (platform.evaluators graph rest)
      query.returnClause.items order []) = [] := by
    cases query.orderBy <;> rfl
  have distinct : distinctRows (platform.evaluators graph rest) query.returnClause [] = [] := by
    unfold distinctRows
    split <;> rfl
  unfold appliedToAll limitTo
  rw [sorted]
  dsimp only
  rw [distinct]
  cases query.limit with
  | none => rfl
  | some count => exact take_nil

theorem aggregation_ne_nil (query : GqlQuery) (x : String) (lits : List Literal) :
    aggregation platform graph rest query x lits ≠ .ok [] := by
  intro same
  obtain ⟨rows, _, same⟩ := Outcome.ok_of_bind same
  obtain ⟨row, _, same⟩ := Outcome.ok_of_bind same
  cases same

theorem executeWithDeadline_unwinds
    (unwindable : Unwindable platform graph rest query unwind lits isAggregate) (maxRows : Nat) :
    executeWithDeadline (platform.evaluators graph rest) graph {} maxRows query =
      executeWithUnwind (platform.evaluators graph rest) graph {} query unwind := by
  unfold executeWithDeadline
  rw [unwindable.unwinds]

theorem executeWithUnwind_concatenates
    (unwindable : Unwindable platform graph rest query unwind lits false) :
    executeWithUnwind (platform.evaluators graph rest) graph {} query unwind =
      answerFor platform graph rest query unwind.var lits false := by
  rw [answerFor, if_neg Bool.false_ne_true]
  by_cases empty : lits = []
  · subst empty
    rw [executeWithUnwind_empty platform graph rest query unwindable.listed]
    exact congrArg Except.ok (appliedToAll_nil platform graph rest query).symm
  rw [concatenation_eq platform graph rest unwindable empty]
  cases ran : compileMatch graph inTime query.matchClause with
  | error e => exact executeWithUnwind_error platform graph rest unwindable empty ran
  | ok matched =>
    by_cases found : matched = []
    · subst found
      have nothing : (lits.flatMap fun lit =>
          (passing platform graph rest query unwind.var [] lit).map
            (rowFor platform graph rest query unwind.var lit)) = [] := by
        refine flatMap_eq_nil_iff.mpr fun lit _ => ?_
        rw [map_eq_nil_iff]
        exact eq_nil_iff_forall_not_mem.mpr fun row mem =>
          not_mem_nil (passing_subset platform graph rest mem)
      rw [executeWithUnwind_unmatched platform graph rest unwindable ran, Except.map, nothing]
      exact congrArg Except.ok (appliedToAll_nil platform graph rest query).symm
    · rw [executeWithUnwind_eq platform graph rest unwindable empty found ran,
        returnUnwound_eq platform graph rest unwindable
          (compileMatch_free unwindable.unnamed ran)]
      rfl

theorem executeWithUnwind_aggregates
    (unwindable : Unwindable platform graph rest query unwind lits true) :
    executeWithUnwind (platform.evaluators graph rest) graph {} query unwind =
        answerFor platform graph rest query unwind.var lits true ↔
      lits ≠ [] ∧ compileMatch graph inTime query.matchClause ≠ .ok [] := by
  rw [answerFor, if_pos rfl]
  constructor
  · intro same
    have never := aggregation_ne_nil platform graph rest query unwind.var lits
    refine ⟨fun empty => never ?_, fun ran => never ?_⟩
    · subst empty
      exact same.symm.trans (executeWithUnwind_empty platform graph rest query unwindable.listed)
    · exact same.symm.trans (executeWithUnwind_unmatched platform graph rest unwindable ran)
  · rintro ⟨nonempty, some⟩
    unfold aggregation
    rw [matchesFor_eq platform graph rest query unwind.var nonempty]
    cases ran : compileMatch graph inTime query.matchClause with
    | error e => exact executeWithUnwind_error platform graph rest unwindable nonempty ran
    | ok matched =>
      have found : matched ≠ [] := fun none => some (none ▸ ran)
      rw [executeWithUnwind_eq platform graph rest unwindable nonempty found ran,
        returnUnwound_aggregated platform graph rest unwindable
          (compileMatch_free unwindable.unnamed ran)]
      rfl

end Matches

end Platform

/-- `UNWIND [items] AS x MATCH (n:Person) RETURN expr AS y` -/
def unwoundPersons (items : List Literal) (expr : Expr) : GqlQuery where
  unwindClause := some ⟨.listLit (items.map .literal), "x"⟩
  matchClause := persons
  returnClause := { items := [⟨expr, some "y"⟩] }

/-- Reads `(n:Person)`, lists of one number and variables. -/
def listGrammar : Grammar Unit :=
  { personGrammar with
    parseExpr := fun _ tokens =>
      match tokens.map SpannedToken.token with
      | .lBracket :: .intLit value :: .rBracket :: _ => .ok (.listLit [.literal (.int value)], 3)
      | .ident name :: _ => .ok (.var name, 1)
      | _ => .error (.gqlSyntaxError 1 1 "") }

/-- `UNWIND [1] AS x MATCH (n:Person) WITH n AS n RETURN n` -/
def unwoundPipeline : List SpannedToken :=
  ([.kwUnwind, .lBracket, .intLit 1, .rBracket, .kwAs, .ident "x", .kwMatch, .lParen, .ident "n",
    .colon, .ident "Person", .rParen, .kwWith, .ident "n", .kwAs, .ident "n", .kwReturn, .ident "n",
    .eof] : List Token).map fun token => { token }

def personPipeline : PipelineQuery where
  stages := [.unwinding ⟨.listLit [.literal (.int 1)], "x"⟩, .matching persons none,
    .withStage { items := [⟨.var "n", some "n"⟩] }]
  terminal := .ret { items := [⟨.var "n", none⟩] } none none none

theorem parse_unwoundPipeline :
    parseStatement (pipelineGrammar listGrammar) unwoundPipeline =
      .ok (.pipeline personPipeline) := rfl

theorem unnamed_persons : persons.Unnamed "x" := by
  refine ⟨by decide, fun n same => ?_⟩
  have lengths : 1 = 6 + (toString n).length :=
    (congrArg String.length same).trans (String.length_append ..)
  omega

end ErmyaGraph.Gql
