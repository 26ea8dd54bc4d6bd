import ErmyaGraph.Gql.Aggregate
import ErmyaGraph.Lib.Sorting

/-! # Executing a query

A query matches its patterns, filters the rows, and groups, aggregates or
projects them. The rows that it returns are sorted before repetitions and the
rows beyond its limit are dropped. -/

namespace ErmyaGraph.Gql

open Sorting

mutual

/-- Equality of literals; floating point numbers are compared as numbers. -/
def sameLiteral : Literal → Literal → Bool
  | .int left, .int right => left = right
  | .float left, .float right => propertyEq (.f64 left) (.f64 right)
  | .str left, .str right => left = right
  | .bool left, .bool right => left = right
  | .null, .null => true
  | .list left, .list right => sameLiterals left right
  | _, _ => false

def sameLiterals : List Literal → List Literal → Bool
  | [], [] => true
  | left :: lefts, right :: rights => sameLiteral left right && sameLiterals lefts rights
  | _, _ => false

end

def sameProps : List (String × Literal) → List (String × Literal) → Bool
  | [], [] => true
  | left :: lefts, right :: rights =>
    left.1 = right.1 && sameLiteral left.2 right.2 && sameProps lefts rights
  | _, _ => false

def sameNodePattern (left right : NodePattern) : Bool :=
  left.var = right.var && left.labels = right.labels && sameProps left.props right.props

def sameEdgePattern (left right : EdgePattern) : Bool :=
  left.var = right.var && left.labels = right.labels && sameProps left.props right.props &&
    left.direction = right.direction && left.length = right.length

def sameHops : List (EdgePattern × NodePattern) → List (EdgePattern × NodePattern) → Bool
  | [], [] => true
  | left :: lefts, right :: rights =>
    sameEdgePattern left.1 right.1 && sameNodePattern left.2 right.2 && sameHops lefts rights
  | _, _ => false

mutual

def sameExpr : Expr → Expr → Bool
  | .literal left, .literal right => sameLiteral left right
  | .var left, .var right => left = right
  | .propAccess var prop, .propAccess var' prop' => var = var' && prop = prop'
  | .binaryOp left op right, .binaryOp left' op' right' =>
    sameExpr left left' && op = op' && sameExpr right right'
  | .unaryOp op expr, .unaryOp op' expr' => op = op' && sameExpr expr expr'
  | .isNull expr negated, .isNull expr' negated' => sameExpr expr expr' && negated = negated'
  | .aggregate func none, .aggregate func' none => func = func'
  | .aggregate func (some arg), .aggregate func' (some arg') => func = func' && sameExpr arg arg'
  | .functionCall name args, .functionCall name' args' => name = name' && sameExprs args args'
  | .listPredicate kind var list predicate, .listPredicate kind' var' list' predicate' =>
    kind = kind' && var = var' && sameExpr list list' && sameExpr predicate predicate'
  | .shortestPath pp, .shortestPath pp' =>
    sameNodePattern pp.start pp'.start && sameHops pp.hops pp'.hops
  | .subscript list index, .subscript list' index' => sameExpr list list' && sameExpr index index'
  | .listLit items, .listLit items' => sameExprs items items'
  | .paramRef ref, .paramRef ref' => ref = ref'
  | _, _ => false

def sameExprs : List Expr → List Expr → Bool
  | [], [] => true
  | left :: lefts, right :: rights => sameExpr left right && sameExprs lefts rights
  | _, _ => false

end

mutual

/-- The variables that an expression refers to from outside. -/
def collectExprVars : Expr → List String
  | .var var => [var]
  | .propAccess var _ => [var]
  | .binaryOp left _ right => collectExprVars left ++ collectExprVars right
  | .unaryOp _ expr => collectExprVars expr
  | .isNull expr _ => collectExprVars expr
  | .aggregate _ none => []
  | .aggregate _ (some arg) => collectExprVars arg
  | .literal _ => []
  | .paramRef _ => []
  | .functionCall _ args => collectExprsVars args
  | .shortestPath pp => pp.start.var.toList ++ pp.hops.flatMap fun hop => hop.2.var.toList
  | .subscript list index => collectExprVars list ++ collectExprVars index
  | .listLit items => collectExprsVars items
  | .listPredicate _ var list predicate =>
    collectExprVars list ++ (collectExprVars predicate).filter fun inner => inner ≠ var

def collectExprsVars : List Expr → List String
  | [] => []
  | expr :: rest => collectExprVars expr ++ collectExprsVars rest

end

mutual

def exprHasAggregate : Expr → Bool
  | .aggregate _ _ => true
  | .binaryOp left _ right => exprHasAggregate left || exprHasAggregate right
  | .unaryOp _ expr => exprHasAggregate expr
  | .isNull expr _ => exprHasAggregate expr
  | .functionCall _ args => anyHasAggregate args
  | _ => false

def anyHasAggregate : List Expr → Bool
  | [] => false
  | expr :: rest => exprHasAggregate expr || anyHasAggregate rest

end

def collectBoundVars (mc : MatchClause) : List String :=
  mc.pathVar.toList ++ mc.patterns.flatMap fun pp =>
    pp.start.var.toList ++ pp.hops.flatMap fun hop => hop.1.var.toList ++ hop.2.var.toList

/-- Everything that a query refers to is bound by its patterns. -/
def validateScope (query : GqlQuery) (bound : List String) : Except GqlError Unit :=
  let referenced := query.whereClause.elim [] collectExprVars ++
    (query.returnClause.items.flatMap fun item => collectExprVars item.expr) ++
    (query.orderBy.elim [] fun order => order.flatMap fun item => collectExprVars item.expr) ++
    query.groupBy.elim [] fun keys => keys.flatMap collectExprVars
  match referenced.find? fun var => var ∉ bound with
  | some var => .error (.gqlCompileError ("variable '" ++ var ++ "' is not bound in MATCH"))
  | none => .ok ()

/-- A row of a pipeline: the entities that it binds, and its values. -/
structure Binding where
  pm : PatternMatch := {}
  vals : String → Option GqlValue := fun _ => none

/-- How a query is evaluated apart from what is defined here. Grouping and DISTINCT compare values
and rows by the text that they are written out to. -/
structure Evaluators where
  float : FloatArith
  surfaceName : Expr → String
  scalar : PathBindings → Expr → PatternMatch → GqlValue
  binary : BinOp → GqlValue → GqlValue → GqlValue
  unary : UnaryOp → GqlValue → GqlValue
  debugValues : List GqlValue → String
  debugRow : GqlRow → String
  onBinding : Binding → Expr → GqlValue
  aggregateOverBindings : Expr → List Binding → GqlValue
  sliceKey : List GqlValue → String
  bindingKey : Binding → String

/-- What the clock shows where it is looked at, and where the search for a shortest path inside of
an expression ran out of time. -/
structure Clock where
  matching : Nat → Bool := fun _ => false
  joining : Nat → Bool := fun _ => false
  projecting : Nat → Bool := fun _ => false
  filterAborted : Bool := false
  rowAborted : Nat → Bool := fun _ => false

/-- The members of groups, in the order in which the groups begin. -/
def addToGroup {α : Type} (key : String) (row : α) :
    List (String × List α) → List (String × List α)
  | [] => [(key, [row])]
  | group :: rest =>
    if group.1 = key then (key, group.2 ++ [row]) :: rest else group :: addToGroup key row rest

def groupRows {α : Type} (key : α → String) (rows : List α) : List (List α) :=
  (rows.foldl (fun groups row => addToGroup (key row) row groups) []).map Prod.snd

/-- Keep what is not a repetition of something before. -/
def retainDistinct {α : Type} (key : α → String) : (seen : List String) → List α → List α
  | _, [] => []
  | seen, row :: rest =>
    if key row ∈ seen then retainDistinct key seen rest
    else row :: retainDistinct key (key row :: seen) rest

def GqlValue.isTrue : GqlValue → Bool
  | .bool value => value
  | _ => false

section Executing

variable (evaluators : Evaluators)

def Evaluators.rowwise : Evaluation :=
  ⟨evaluators.float, evaluators.surfaceName, evaluators.scalar fun _ => none⟩

/-- The value of an expression in a row, a path variable among its variables. -/
def evalAlong (paths : PathBindings) (row : PatternMatch) : Expr → GqlValue
  | .var name =>
    match paths name with
    | some path => .path path
    | none => evalExpr evaluators.rowwise row (.var name)
  | .aggregate _ _ => .null
  | .propAccess var prop => evalExpr evaluators.rowwise row (.propAccess var prop)
  | expr => evaluators.scalar paths expr row

/-- The value of an expression in a row with an element of the unwound list. -/
def evalUnwound (unwindVar : String) (row : PatternMatch) (elem : GqlValue) : Expr → GqlValue
  | .var name => if name = unwindVar then elem else evalExpr evaluators.rowwise row (.var name)
  | .propAccess var prop =>
    if var = unwindVar then .null else evalExpr evaluators.rowwise row (.propAccess var prop)
  | .binaryOp left op right =>
    evaluators.binary op (evalUnwound unwindVar row elem left)
      (evalUnwound unwindVar row elem right)
  | .unaryOp op expr => evaluators.unary op (evalUnwound unwindVar row elem expr)
  | .isNull expr negated =>
    let null := (evalUnwound unwindVar row elem expr).isNull
    .bool (if negated then !null else null)
  | expr => evalExpr evaluators.rowwise row expr

/-- Null comes last, and values that are not compared count as equal. -/
def compareSortKeys (left right : GqlValue) : Ordering :=
  match left, right with
  | .null, .null => .eq
  | .null, _ => .gt
  | _, .null => .lt
  | _, _ => (gqlValueCmp evaluators.rowwise left right).getD .eq

def directed (item : OrderItem) (compared : Ordering) : Ordering :=
  if item.ascending then compared else compared.swap

/-- The first item that does not compare as equal decides. -/
def compareItems (compared : OrderItem → Ordering) : List OrderItem → Ordering
  | [] => .eq
  | item :: rest => (directed item (compared item)).then (compareItems compared rest)

/-- Sort the indexes of the rows by their keys, and move the rows accordingly. -/
def orderByKeys {α : Type} (key : α → Expr → GqlValue) (order : List OrderItem) (rows : List α) :
    List α :=
  if rows.isEmpty || order.isEmpty then rows
  else
    let indices := sortBy (fun a b : Fin rows.length => compareItems (fun item =>
      compareSortKeys evaluators (key (rows.get a) item.expr) (key (rows.get b) item.expr)) order)
      (List.finRange rows.length)
    let moved := applyPermutation (fun i => indices[i]?.getD i)
      (⟨rows.toArray, rfl⟩ : Vector α rows.length)
    moved.toList

/-- The rows are sorted by what their patterns match, without a path. -/
def applyOrderBy (order : List OrderItem) (pairs : List (PatternMatch × GqlRow)) :
    List (PatternMatch × GqlRow) :=
  orderByKeys evaluators (fun pair expr => evalExpr evaluators.rowwise pair.1 expr) order pairs

/-- The column that an ORDER BY expression reads: that of the same expression, or the one that
would have its name. -/
def orderColumn (items : List ReturnItem) (item : OrderItem) : String :=
  match items.find? fun returned => sameExpr returned.expr item.expr with
  | some returned => columnName evaluators.rowwise returned
  | none => evaluators.surfaceName item.expr

/-- Sort projected rows by their columns. -/
def sortByColumns (items : List ReturnItem) (order : List OrderItem) (rows : List GqlRow) :
    List GqlRow :=
  sortBy (fun a b => compareItems (fun item =>
    let column := orderColumn evaluators items item
    (gqlValueCmp evaluators.rowwise ((a column).getD .null) ((b column).getD .null)).getD .eq) order)
    rows

def validateAggregation (items : List ReturnItem) (groupBy : Option (List Expr)) :
    Except GqlError Bool :=
  let anyAgg := items.any fun item => exprHasAggregate item.expr
  match groupBy with
  | some keys =>
    match items.find? fun item =>
      !exprHasAggregate item.expr && !keys.any (sameExpr · item.expr) with
    | some item => .error (.gqlCompileError ("non-aggregate expression '" ++
        evaluators.surfaceName item.expr ++ "' in RETURN must appear in GROUP BY"))
    | none => .ok true
  | none =>
    if anyAgg && !items.all fun item => exprHasAggregate item.expr then
      .error (.gqlCompileError
        "cannot mix aggregate and non-aggregate expressions in RETURN without GROUP BY")
    else .ok anyAgg

def projectRow (paths : PathBindings) (items : List ReturnItem) (row : PatternMatch) : GqlRow :=
  items.foldl (fun columns item => Function.update columns (columnName evaluators.rowwise item)
    (some (evalAlong evaluators paths row item.expr))) fun _ => none

/-- A column of a group: an aggregate over its members, or the value of its key. -/
def groupValue (keys : List Expr) (members : List PatternMatch) (item : ReturnItem) :
    Except GqlError GqlValue :=
  if exprHasAggregate item.expr then evalAggregate evaluators.rowwise members item.expr
  else
    match keys.find? (sameExpr · item.expr), members with
    | some key, first :: _ => .ok (evalExpr evaluators.rowwise first key)
    | _, _ => .ok .null

def groupRow (keys : List Expr) (items : List ReturnItem) (members : List PatternMatch) :
    Except GqlError GqlRow :=
  items.foldlM (fun columns item => do
    let value ← groupValue evaluators keys members item
    return Function.update columns (columnName evaluators.rowwise item) (some value)) fun _ => none

def groupsOf (keys : List Expr) (rows : List PatternMatch) : List (List PatternMatch) :=
  groupRows (fun row => evaluators.debugValues (keys.map (evalExpr evaluators.rowwise row))) rows

/-- Repetitions are dropped only where DISTINCT asks for it. -/
def distinctRows (clause : ReturnClause) (rows : List GqlRow) : List GqlRow :=
  if clause.distinct then retainDistinct evaluators.debugRow [] rows else rows

def limitTo {α : Type} (limit : Option Nat) (rows : List α) : List α := limit.elim rows rows.take

def executeGrouped (rows : List PatternMatch) (keys : List Expr) (clause : ReturnClause)
    (order : Option (List OrderItem)) (limit : Option Nat) : Except GqlError (List GqlRow) := do
  let projected ← (groupsOf evaluators keys rows).mapM (groupRow evaluators keys clause.items)
  let sorted := order.elim projected fun order =>
    sortByColumns evaluators clause.items order projected
  return limitTo limit (distinctRows evaluators clause sorted)

/-- A value that is no list is a list of one. -/
def unwindElements : GqlValue → List GqlValue
  | .list items => items
  | .null => []
  | value => [value]

def evalAggregateUnwound (unwindVar : String) (rows : List (PatternMatch × GqlValue)) :
    Expr → Except GqlError GqlValue
  | .aggregate func arg =>
    let values := arg.elim [] fun inner =>
      rows.map fun row => evalUnwound evaluators unwindVar row.1 row.2 inner
    .ok (evalAggregateCore evaluators.rowwise func values rows.length arg.isNone)
  | _ => .error (.gqlCompileError "expected aggregate expression")

def projectUnwound (unwindVar : String) (items : List ReturnItem) (row : PatternMatch × GqlValue) :
    GqlRow :=
  items.foldl (fun columns item => Function.update columns (columnName evaluators.rowwise item)
    (some (evalUnwound evaluators unwindVar row.1 row.2 item.expr))) fun _ => none

section Graph

variable (graph : GraphAccess) (clock : Clock)

/-- Every element of the list with every match that passes the WHERE clause. -/
def unwoundRows (query : GqlQuery) (unwindVar : String) (elements : List GqlValue)
    (matched : List PatternMatch) : List (PatternMatch × GqlValue) :=
  let combined := elements.flatMap fun elem => matched.map fun row => (row, elem)
  query.whereClause.elim combined fun predicate =>
    combined.filter fun row => (evalUnwound evaluators unwindVar row.1 row.2 predicate).isTrue

/-- Aggregate the rows, or project and sort them. -/
def returnUnwound (query : GqlQuery) (unwindVar : String) (rows : List (PatternMatch × GqlValue))
    (isAggregate : Bool) : Except GqlError (List GqlRow) :=
  if isAggregate then do
    let row ← query.returnClause.items.foldlM (fun columns item => do
      let value ← evalAggregateUnwound evaluators unwindVar rows item.expr
      return Function.update columns (columnName evaluators.rowwise item) (some value))
      fun _ => none
    return [row]
  else
    let projected := rows.map (projectUnwound evaluators unwindVar query.returnClause.items)
    let sorted := query.orderBy.elim projected fun order =>
      sortByColumns evaluators query.returnClause.items order projected
    .ok (limitTo query.limit (distinctRows evaluators query.returnClause sorted))

def executeWithUnwind (query : GqlQuery) (unwind : UnwindClause) :
    Except GqlError (List GqlRow) := do
  let elements := unwindElements (evalExpr evaluators.rowwise {} unwind.expr)
  if elements.isEmpty then return []
  let matched ← compileMatch graph clock.matching query.matchClause
  let isAggregate ← validateAggregation evaluators query.returnClause.items query.groupBy
  if matched.isEmpty then return []
  (List.range (elements.length * matched.length)).forM (checkDeadline clock.joining)
  let rows := unwoundRows evaluators query unwind.var elements matched
  returnUnwound evaluators query unwind.var rows isAggregate

/-- The matches that pass the WHERE clause. -/
def matchedRows (query : GqlQuery) : Except GqlError (List PatternMatch) := do
  let matched ← compileMatch graph clock.matching query.matchClause
  let filtered := query.whereClause.elim matched fun predicate => matched.filter fun row =>
    (evalAlong evaluators (materialisePathBindings graph query.matchClause row) row
      predicate).isTrue
  if query.whereClause.isSome && clock.filterAborted then .error timeoutError
  else return filtered

def projectMatch (query : GqlQuery) (indexed : PatternMatch × Nat) :
    Except GqlError (PatternMatch × GqlRow) := do
  checkDeadline clock.projecting indexed.2
  if clock.rowAborted indexed.2 then .error timeoutError
  else
    let paths := materialisePathBindings graph query.matchClause indexed.1
    return (indexed.1, projectRow evaluators paths query.returnClause.items indexed.1)

def executeProjected (query : GqlQuery) (rows : List PatternMatch) :
    Except GqlError (List GqlRow) := do
  let pairs ← rows.zipIdx.mapM (projectMatch evaluators graph clock query)
  let sorted := query.orderBy.elim pairs fun order => applyOrderBy evaluators order pairs
  return limitTo query.limit
    (distinctRows evaluators query.returnClause (sorted.map Prod.snd))

def executePlain (maxRows : Nat) (query : GqlQuery) (isAggregate : Bool) :
    Except GqlError (List GqlRow) := do
  let rows ← matchedRows evaluators graph clock query
  if 0 < maxRows ∧ maxRows < rows.length then
    .error (.gqlCompileError ("__result_cap__: query matched " ++ toString rows.length ++
      " rows, exceeds max_result_rows=" ++ toString maxRows))
  else
    match query.groupBy with
    | some keys =>
      executeGrouped evaluators rows keys query.returnClause query.orderBy query.limit
    | none =>
      if isAggregate then do
        let row ← applyAggregation evaluators.rowwise rows query.returnClause.items
        return [row]
      else executeProjected evaluators graph clock query rows

/-- Run a query. A query that only aggregates may be answered without matching. -/
def executeWithDeadline (maxRows : Nat) (query : GqlQuery) : Except GqlError (List GqlRow) :=
  match query.unwindClause with
  | some unwind => executeWithUnwind evaluators graph clock query unwind
  | none => do
      validateScope query (collectBoundVars query.matchClause)
      let isAggregate ← validateAggregation evaluators query.returnClause.items query.groupBy
      match if isAggregate && query.groupBy.isNone then
          tryAggregatePushdown evaluators.rowwise graph query else none with
      | some answer => answer
      | none => executePlain evaluators graph clock maxRows query isAggregate

end Graph

end Executing

end ErmyaGraph.Gql
