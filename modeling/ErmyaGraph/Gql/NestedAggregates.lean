import ErmyaGraph.Gql.Agreement
import ErmyaGraph.Gql.StageSorted

/-! # Aggregates inside of expressions

A stage looks for aggregates in its items, writes their values in their places
and evaluates what is left. Each of the three goes through an expression on its
own. -/

namespace ErmyaGraph.Gql

open Option

mutual

/-- An expression has an aggregate somewhere. -/
def Expr.containsAggregate : Expr → Bool
  | .aggregate _ _ => true
  | .binaryOp left _ right => left.containsAggregate || right.containsAggregate
  | .unaryOp _ expr => expr.containsAggregate
  | .isNull expr _ => expr.containsAggregate
  | .functionCall _ args => anyContains args
  | .listPredicate _ _ list predicate => list.containsAggregate || predicate.containsAggregate
  | .subscript list index => list.containsAggregate || index.containsAggregate
  | .listLit items => anyContains items
  | _ => false

def anyContains : List Expr → Bool
  | [] => false
  | expr :: rest => expr.containsAggregate || anyContains rest

end

/-- An aggregate is reached through operators, null tests and arguments of functions alone. -/
inductive Expr.Reached : Expr → Prop
  | aggregate (func : AggFunc) (arg : Option Expr) : Reached (.aggregate func arg)
  | left {left : Expr} (op : BinOp) (right : Expr) :
      left.Reached → Reached (.binaryOp left op right)
  | right (left : Expr) (op : BinOp) {right : Expr} :
      right.Reached → Reached (.binaryOp left op right)
  | unaryOp (op : UnaryOp) {expr : Expr} : expr.Reached → Reached (.unaryOp op expr)
  | isNull {expr : Expr} (negated : Bool) : expr.Reached → Reached (.isNull expr negated)
  | argument (name : String) {args : List Expr} {arg : Expr} (inside : arg ∈ args) :
      arg.Reached → Reached (.functionCall name args)

theorem anyHasAggregate_eq_any (exprs : List Expr) :
    anyHasAggregate exprs = exprs.any exprHasAggregate := by
  induction exprs with
  | nil => rfl
  | cons expr rest ih => rw [anyHasAggregate, ih, List.any_cons]

mutual

theorem reached_of_exprHasAggregate : ∀ expr : Expr, exprHasAggregate expr → expr.Reached
  | .aggregate func arg, _ => .aggregate func arg
  | .binaryOp left op right, found => by
    rw [exprHasAggregate, Bool.or_eq_true] at found
    rcases found with here | here
    · exact .left op right (reached_of_exprHasAggregate left here)
    · exact .right left op (reached_of_exprHasAggregate right here)
  | .unaryOp op expr, found => .unaryOp op (reached_of_exprHasAggregate expr found)
  | .isNull expr negated, found => .isNull negated (reached_of_exprHasAggregate expr found)
  | .functionCall name args, found => by
    obtain ⟨arg, inside, reached⟩ := reached_of_anyHasAggregate args found
    exact .argument name inside reached

theorem reached_of_anyHasAggregate : ∀ exprs : List Expr, anyHasAggregate exprs →
    ∃ expr ∈ exprs, expr.Reached
  | expr :: rest, found => by
    rw [anyHasAggregate, Bool.or_eq_true] at found
    rcases found with here | later
    · exact ⟨expr, .head _, reached_of_exprHasAggregate expr here⟩
    · obtain ⟨other, inside, reached⟩ := reached_of_anyHasAggregate rest later
      exact ⟨other, .tail _ inside, reached⟩

end

theorem exprHasAggregate_iff {expr : Expr} : exprHasAggregate expr ↔ expr.Reached := by
  constructor
  · exact reached_of_exprHasAggregate expr
  · intro reached
    induction reached with
    | aggregate func arg => rfl
    | left op right _ ih => rw [exprHasAggregate, ih, Bool.true_or]
    | right left op _ ih => rw [exprHasAggregate, ih, Bool.or_true]
    | unaryOp op _ ih => exact ih
    | isNull negated _ ih => exact ih
    | argument name inside _ ih =>
      rw [exprHasAggregate, anyHasAggregate_eq_any, List.any_eq_true]
      exact ⟨_, inside, ih⟩

namespace Platform

variable (platform : Platform) (graph : GraphAccess) (rest : Evaluators)

/-- The integers and the floating point numbers of a sum, and whether there are any of these. -/
def addToTotal (total : Int × UInt64 × Bool) : GqlValue → Int × UInt64 × Bool
  | .int i => (wrappingAdd total.1 i, total.2)
  | .float bits => (total.1, platform.add total.2.1 bits, true)
  | _ => total

def sumOfValues (values : List GqlValue) : GqlValue :=
  let total := values.foldl (addToTotal platform) (0, 0, false)
  if total.2.2 then .float (platform.add total.2.1 (platform.ofInt total.1)) else .int total.1

/-- The first of the least values, or the last of the greatest. -/
def extremeOf (compared : GqlValue → GqlValue → Ordering) (isMax : Bool) :
    List GqlValue → GqlValue
  | [] => .null
  | first :: others => others.foldl (fun kept value =>
    if isMax then if compared kept value = .gt then kept else value
    else if compared kept value = .gt then value else kept) first

/-- An aggregate with an argument, of its values. -/
def aggregateOfValues (func : AggFunc) (values : List GqlValue) : GqlValue :=
  let known := values.filter fun value => !value.isNull
  match func with
  | .count => .int known.length
  | .sum => sumOfValues platform values
  | .avg => aggregateAvg (platform.evaluators graph rest).rowwise values
  | .min => extremeOf (compareSortKeys (platform.evaluators graph rest)) false known
  | .max => extremeOf (compareSortKeys (platform.evaluators graph rest)) true known
  | .collect => .list known

/-- An aggregate of a stage over the rows of a group. -/
def stageCall (rows : List Binding) (func : AggFunc) (values : Option (List GqlValue)) : GqlValue :=
  values.elim (.int rows.length) (aggregateOfValues platform graph rest func)

mutual

/-- An expression that stands for a value. Maps, entities and paths have none, and null does. -/
def gqlValueToLiteralExpr : GqlValue → Expr
  | .null | .map _ | .node _ | .relationship _ | .path _ => .literal .null
  | .bool value => .literal (.bool value)
  | .int value => .literal (.int (Int64.ofInt value))
  | .float bits => .literal (.float bits)
  | .str value => .literal (.str value)
  | .list items => .listLit (gqlValuesToLiteralExprs items)

def gqlValuesToLiteralExprs : List GqlValue → List Expr
  | [] => []
  | value :: others => gqlValueToLiteralExpr value :: gqlValuesToLiteralExprs others

end

/-- The value of an aggregate over rows; its argument is evaluated in each of them. -/
def aggregateOfRows (rows : List Binding) (func : AggFunc) (arg : Option Expr) : GqlValue :=
  stageCall platform graph rest rows func
    (arg.map fun inner => rows.map fun b => platform.evalExprOnBinding graph b inner)

mutual

/-- Write the values of aggregates in their places. List predicates are left as they are. -/
def substituteAggregates (rows : List Binding) : Expr → Expr
  | .aggregate func arg => gqlValueToLiteralExpr (aggregateOfRows platform graph rest rows func arg)
  | .binaryOp left op right =>
    .binaryOp (substituteAggregates rows left) op (substituteAggregates rows right)
  | .unaryOp op expr => .unaryOp op (substituteAggregates rows expr)
  | .isNull expr negated => .isNull (substituteAggregates rows expr) negated
  | .functionCall name args => .functionCall name (substituteAll rows args)
  | .listLit items => .listLit (substituteAll rows items)
  | .subscript list index =>
    .subscript (substituteAggregates rows list) (substituteAggregates rows index)
  | expr => expr

def substituteAll (rows : List Binding) : List Expr → List Expr
  | [] => []
  | expr :: others => substituteAggregates rows expr :: substituteAll rows others

end

/-- The value of an item over the rows of a group. -/
def evalAggregateOverBindings (rows : List Binding) : Expr → GqlValue
  | .aggregate func arg => aggregateOfRows platform graph rest rows func arg
  | expr =>
    if exprHasAggregate expr then
      platform.evalExprOnBinding graph (rows.headD {})
        (substituteAggregates platform graph rest rows expr)
    else rows.head?.elim .null fun b => platform.evalExprOnBinding graph b expr

mutual

/-- What an expression is over the rows of a group, in one of its rows: a call of an aggregate is
its value over the rows, wherever it stands. -/
def evalOverGroup (call : AggFunc → Option (List GqlValue) → GqlValue) (rows : List Binding) :
    Expr → Binding → GqlValue
  | .literal lit, _ => compileLiteral lit
  | .var name, b => (b.vals name).getD (entityValue b.pm name)
  | .binaryOp left op right, b =>
    evalBinaryOp platform op (evalOverGroup call rows left b) (evalOverGroup call rows right b)
  | .unaryOp op expr, b => evalUnaryOp op (evalOverGroup call rows expr b)
  | .isNull expr negated, b =>
    let null := (evalOverGroup call rows expr b).isNull
    .bool (if negated then !null else null)
  | .aggregate func none, _ => call func none
  | .aggregate func (some arg), _ =>
    call func (some (rows.map fun r => evalOverGroup call rows arg r))
  | .listLit items, b => .list (evalAllOverGroup call rows items b)
  | .subscript list index, b =>
    evalSubscript (evalOverGroup call rows list b) (evalOverGroup call rows index b)
  | .functionCall name args, b =>
    evalBuiltinFunctionCall platform graph name args (evalAllOverGroup call rows args b) b
  | .listPredicate kind var list predicate, b =>
    match evalOverGroup call rows list b with
    | .list items =>
      applyListQuantifier kind items fun item =>
        evalAsTribool (evalOverGroup call rows predicate (b.bindValue var item))
    | _ => .null
  | .propAccess var prop, b => platform.evalExprOnBinding graph b (.propAccess var prop)
  | .shortestPath pattern, b => evalShortestPathPattern graph pattern b.pm
  | .paramRef _, _ => .null

def evalAllOverGroup (call : AggFunc → Option (List GqlValue) → GqlValue) (rows : List Binding) :
    List Expr → Binding → List GqlValue
  | [], _ => []
  | expr :: others, b => evalOverGroup call rows expr b :: evalAllOverGroup call rows others b

end

section Values

variable {call : AggFunc → Option (List GqlValue) → GqlValue} {rows : List Binding}

mutual

theorem evalOverGroup_of_not_contains : ∀ (expr : Expr) (b : Binding),
    expr.containsAggregate = false →
      evalOverGroup platform graph call rows expr b = platform.evalExprOnBinding graph b expr
  | .literal _, _, _ | .var _, _, _ | .propAccess _ _, _, _ | .shortestPath _, _, _
  | .paramRef _, _, _ => by simp only [evalOverGroup, evalExprOnBinding]
  | .binaryOp left op right, b, free => by
    rw [Expr.containsAggregate, Bool.or_eq_false_iff] at free
    simp only [evalOverGroup, evalExprOnBinding, evalOverGroup_of_not_contains left b free.1,
      evalOverGroup_of_not_contains right b free.2]
  | .unaryOp op expr, b, free => by
    simp only [evalOverGroup, evalExprOnBinding, evalOverGroup_of_not_contains expr b free]
  | .isNull expr negated, b, free => by
    simp only [evalOverGroup, evalExprOnBinding, evalOverGroup_of_not_contains expr b free]
  | .functionCall name args, b, free => by
    simp only [evalOverGroup, evalExprOnBinding, evalAllOverGroup_of_not_contains args b free]
  | .listLit items, b, free => by
    simp only [evalOverGroup, evalExprOnBinding, evalAllOverGroup_of_not_contains items b free]
  | .subscript list index, b, free => by
    rw [Expr.containsAggregate, Bool.or_eq_false_iff] at free
    simp only [evalOverGroup, evalExprOnBinding, evalOverGroup_of_not_contains list b free.1,
      evalOverGroup_of_not_contains index b free.2]
  | .listPredicate kind var list predicate, b, free => by
    rw [Expr.containsAggregate, Bool.or_eq_false_iff] at free
    have onward (item : GqlValue) :=
      evalOverGroup_of_not_contains predicate (b.bindValue var item) free.2
    rw [evalOverGroup, evalExprOnBinding, evalOverGroup_of_not_contains list b free.1]
    cases platform.evalExprOnBinding graph b list <;> simp only [onward]

theorem evalAllOverGroup_of_not_contains : ∀ (exprs : List Expr) (b : Binding),
    anyContains exprs = false → evalAllOverGroup platform graph call rows exprs b =
        platform.evalExprsOnBinding graph b exprs
  | [], _, _ => rfl
  | expr :: others, b, free => by
    rw [anyContains, Bool.or_eq_false_iff] at free
    simp only [evalAllOverGroup, evalExprsOnBinding, evalOverGroup_of_not_contains expr b free.1,
      evalAllOverGroup_of_not_contains others b free.2]

end

theorem evalOverGroup_call (func : AggFunc) {arg : Option Expr}
    (plain : ∀ inner ∈ arg, inner.containsAggregate = false) (b : Binding) :
    evalOverGroup platform graph call rows (.aggregate func arg) b =
      call func (arg.map fun inner =>
        rows.map fun r => platform.evalExprOnBinding graph r inner) := by
  cases arg with
  | none => rw [evalOverGroup, map_none]
  | some inner =>
    have each (r : Binding) := @evalOverGroup_of_not_contains platform graph call rows inner r
      (plain inner rfl)
    rw [evalOverGroup, map_some]
    simp only [each]

end Values

mutual

/-- A value can be written as an expression: no map, entity or path is in it, and its integers have
64 bits. -/
def HasLiteral : GqlValue → Prop
  | .null | .bool _ | .float _ | .str _ => True
  | .int value => -2 ^ 63 ≤ value ∧ value < 2 ^ 63
  | .list items => HaveLiterals items
  | .map _ | .node _ | .relationship _ | .path _ => False

def HaveLiterals : List GqlValue → Prop
  | [] => True
  | value :: others => HasLiteral value ∧ HaveLiterals others

end

mutual

theorem evalExprOnBinding_literalExpr (b : Binding) : ∀ value : GqlValue, HasLiteral value →
    platform.evalExprOnBinding graph b (gqlValueToLiteralExpr value) = value
  | .null, _ | .bool _, _ | .float _, _ | .str _, _ => rfl
  | .int value, within => by
    rw [HasLiteral] at within
    have back : (Int64.ofInt value).toInt = value := Int64.toInt_ofInt_of_le within.1 within.2
    rw [gqlValueToLiteralExpr, evalExprOnBinding, compileLiteral, back]
  | .list items, each => by
    rw [HasLiteral] at each
    rw [gqlValueToLiteralExpr, evalExprOnBinding, evalExprsOnBinding_literalExprs b items each]

theorem evalExprsOnBinding_literalExprs (b : Binding) : ∀ values : List GqlValue,
    HaveLiterals values →
      platform.evalExprsOnBinding graph b (gqlValuesToLiteralExprs values) = values
  | [], _ => rfl
  | value :: others, each => by
    rw [HaveLiterals] at each
    rw [gqlValuesToLiteralExprs, evalExprsOnBinding, evalExprOnBinding_literalExpr b value each.1,
      evalExprsOnBinding_literalExprs b others each.2]

end

mutual

/-- The values of the aggregates can be written in their places: they have literals, and no
aggregate is in a list predicate or in the argument of another. -/
def Substitutable (rows : List Binding) : Expr → Prop
  | .aggregate func arg =>
    (∀ inner ∈ arg, inner.containsAggregate = false) ∧
      HasLiteral (aggregateOfRows platform graph rest rows func arg)
  | .binaryOp left _ right => Substitutable rows left ∧ Substitutable rows right
  | .unaryOp _ expr => Substitutable rows expr
  | .isNull expr _ => Substitutable rows expr
  | .functionCall _ args => SubstitutableAll rows args
  | .listLit items => SubstitutableAll rows items
  | .subscript list index => Substitutable rows list ∧ Substitutable rows index
  | .listPredicate _ _ list predicate =>
    list.containsAggregate = false ∧ predicate.containsAggregate = false
  | _ => True

def SubstitutableAll (rows : List Binding) : List Expr → Prop
  | [] => True
  | expr :: others => Substitutable rows expr ∧ SubstitutableAll rows others

end

variable (rows : List Binding) (args : List Expr)

theorem getElem?_substituteAll (i : Nat) :
    (substituteAll platform graph rest rows args)[i]? =
      args[i]?.map (substituteAggregates platform graph rest rows) := by
  induction args generalizing i with
  | nil => simp only [substituteAll, List.getElem?_nil, map_none]
  | cons expr others ih =>
    cases i with
    | zero => simp only [substituteAll, List.getElem?_cons_zero, map_some]
    | succ i => simp only [substituteAll, List.getElem?_cons_succ, ih]

theorem argVar_substituteAll (i : Nat) :
    argVar (substituteAll platform graph rest rows args) i = argVar args i := by
  unfold argVar
  rw [getElem?_substituteAll]
  cases args[i]? with
  | none => rfl
  | some arg =>
    cases arg with
    | aggregate func inner =>
      rw [map_some, substituteAggregates]
      cases aggregateOfRows platform graph rest rows func inner <;> rfl
    | _ => rfl

theorem evalBuiltinFunctionCall_substituteAll (name : String) (args : List Expr)
    (values : List GqlValue) (b : Binding) :
    evalBuiltinFunctionCall platform graph name (substituteAll platform graph rest rows args)
        values b =
      evalBuiltinFunctionCall platform graph name args values b := by
  unfold evalBuiltinFunctionCall
  simp only [evalEntityFunction, evalShortestPath, argVar_substituteAll]

mutual

/-- With the values of its aggregates written in, an expression has its value over the group. -/
theorem evalExprOnBinding_substituteAggregates (rows : List Binding) (b : Binding) :
    ∀ expr : Expr, Substitutable platform graph rest rows expr →
      platform.evalExprOnBinding graph b (substituteAggregates platform graph rest rows expr) =
        evalOverGroup platform graph (stageCall platform graph rest rows) rows expr b
  | .literal _, _ | .var _, _ | .propAccess _ _, _ | .shortestPath _, _ | .paramRef _, _ => by
    simp only [substituteAggregates, evalOverGroup, evalExprOnBinding]
  | .aggregate func arg, can => by
    rw [Substitutable] at can
    rw [substituteAggregates, evalExprOnBinding_literalExpr platform graph b _ can.2,
      evalOverGroup_call platform graph func can.1 b]
    rfl
  | .binaryOp left op right, can => by
    rw [Substitutable] at can
    simp only [substituteAggregates, evalExprOnBinding, evalOverGroup,
      evalExprOnBinding_substituteAggregates rows b left can.1,
      evalExprOnBinding_substituteAggregates rows b right can.2]
  | .unaryOp op expr, can => by
    simp only [substituteAggregates, evalExprOnBinding, evalOverGroup,
      evalExprOnBinding_substituteAggregates rows b expr can]
  | .isNull expr negated, can => by
    simp only [substituteAggregates, evalExprOnBinding, evalOverGroup,
      evalExprOnBinding_substituteAggregates rows b expr can]
  | .functionCall name args, can => by
    simp only [substituteAggregates, evalExprOnBinding, evalOverGroup,
      evalExprsOnBinding_substituteAll rows b args can, evalBuiltinFunctionCall_substituteAll]
  | .listLit items, can => by
    simp only [substituteAggregates, evalExprOnBinding, evalOverGroup,
      evalExprsOnBinding_substituteAll rows b items can]
  | .subscript list index, can => by
    rw [Substitutable] at can
    simp only [substituteAggregates, evalExprOnBinding, evalOverGroup,
      evalExprOnBinding_substituteAggregates rows b list can.1,
      evalExprOnBinding_substituteAggregates rows b index can.2]
  | .listPredicate kind var list predicate, can => by
    rw [Substitutable] at can
    rw [substituteAggregates]
    · refine (evalOverGroup_of_not_contains platform graph _ b ?_).symm
      rw [Expr.containsAggregate, can.1, can.2]
      rfl
    all_goals nofun

theorem evalExprsOnBinding_substituteAll (rows : List Binding) (b : Binding) :
    ∀ exprs : List Expr, SubstitutableAll platform graph rest rows exprs →
      platform.evalExprsOnBinding graph b (substituteAll platform graph rest rows exprs) =
        evalAllOverGroup platform graph (stageCall platform graph rest rows) rows exprs b
  | [], _ => rfl
  | expr :: others, can => by
    rw [SubstitutableAll] at can
    simp only [substituteAll, evalExprsOnBinding, evalAllOverGroup,
      evalExprOnBinding_substituteAggregates rows b expr can.1,
      evalExprsOnBinding_substituteAll rows b others can.2]

end

/-- The aggregates of an item are found and their values can be written in their places. An item
that is one aggregate needs none of the latter. -/
def ItemEvaluable (rows : List Binding) : Expr → Prop
  | .aggregate _ arg => ∀ inner ∈ arg, inner.containsAggregate = false
  | expr => expr.Reached ∧ Substitutable platform graph rest rows expr

def plainCall (rows : Nat) (func : AggFunc) (values : Option (List GqlValue)) : GqlValue :=
  evalAggregateCore (platform.evaluators graph rest).rowwise func (values.getD []) rows
    values.isNone

theorem evalExpr_rowwise (row : PatternMatch) (expr : Expr) :
    Gql.evalExpr (platform.evaluators graph rest).rowwise row expr =
      platform.evalExprOnBinding graph { pm := row } expr := by
  rw [← evalExpr_noPaths, ← evalAlong_evaluators platform graph rest]
  cases expr <;> rfl

theorem evalAggregate_overGroup {rows : List PatternMatch} {expr : Expr} {value : GqlValue}
    (b : Binding) (plain : ∀ func arg, expr = .aggregate func arg →
      ∀ inner ∈ arg, inner.containsAggregate = false)
    (ran : evalAggregate (platform.evaluators graph rest).rowwise rows expr = .ok value) :
    value = evalOverGroup platform graph (plainCall platform graph rest rows.length)
      (rows.map fun row => { pm := row }) expr b := by
  cases expr with
  | aggregate func arg =>
    cases ran
    rw [evalOverGroup_call platform graph func (plain func arg rfl) b, plainCall]
    cases arg with
    | none => rfl
    | some inner =>
      have each (row : PatternMatch) := evalExpr_rowwise platform graph rest row inner
      simp only [elim_some, each, map_some, getD_some, isNone_some, List.map_map]
      rfl
  | _ => cases ran

end Platform

def oneAndTwo : List Binding :=
  [Binding.bindValue {} "x" (.int 1), Binding.bindValue {} "x" (.int 2)]

def collectX : Expr := .aggregate .collect (some (.var "x"))

end ErmyaGraph.Gql
