import ErmyaGraph.Gql.ShortestPath
import ErmyaGraph.Gql.Pipeline
import ErmyaGraph.Gql.Inline

/-! # Evaluating expressions

An expression is evaluated in a row of a match, in a row of a pipeline, or in a
row of a match next to an element of an unwound list. Each of the three has an
evaluator of its own. -/

namespace ErmyaGraph.Gql

namespace Platform

variable (platform : Platform) (graph : GraphAccess)

/-- Functions of what a variable stands for. -/
def evalEntityFunction (name : String) (args : List Expr) (row : PatternMatch)
    (paths : PathBindings) : GqlValue :=
  let node := (argVar args 0).bind row.nodes
  let edge := (argVar args 0).bind row.edges
  match name with
  | "shortestpath" => evalShortestPath graph args row
  | "nodes" | "relationships" | "length" =>
    ((argVar args 0).bind paths).elim .null (computePathFunction name)
  | "id" => node.elim .null fun node => idValue node.id
  | "type" => edge.elim .null fun edge => .str edge.label
  | "labels" => node.elim .null fun node => .list [.str node.label]
  | "properties" =>
    match node with
    | some node => computeProperties node.properties
    | none => edge.elim .null fun edge => computeProperties edge.properties
  | _ => .null

/-- A function of arguments and their values. -/
def evalFunctionCall (name : String) (args : List Expr) (values : List GqlValue)
    (row : PatternMatch) (paths : PathBindings) : GqlValue :=
  match name with
  | "range" => computeRangeOf values
  | "size" => values.head?.elim .null computeSize
  | "tolower" => values.head?.elim .null (computeToLower platform)
  | "toupper" => values.head?.elim .null (computeToUpper platform)
  | "coalesce" => computeCoalesce values
  | name => evalEntityFunction graph name args row paths

/-- A variable of a row. -/
def entityValue (row : PatternMatch) (name : String) : GqlValue :=
  match row.nodes name with
  | some node => .node node
  | none => (row.edges name).elim .null .relationship

def entityProperty (row : PatternMatch) (var prop : String) : GqlValue :=
  match row.nodes var with
  | some node => propertyValue node.properties prop
  | none => (row.edges var).elim .null fun edge => propertyValue edge.properties prop

/-- A function of arguments and their values, where no path is known. -/
def evalBuiltinFunctionCall (name : String) (args : List Expr) (values : List GqlValue)
    (b : Binding) : GqlValue :=
  match name with
  | "range" => computeRangeOf values
  | "size" => values.head?.elim .null computeSize
  | "tolower" => values.head?.elim .null (computeToLower platform)
  | "toupper" => values.head?.elim .null (computeToUpper platform)
  | "coalesce" => computeCoalesce values
  | "id" | "type" | "labels" | "properties" | "shortestpath" | "nodes" | "relationships"
  | "length" => evalEntityFunction graph name args b.pm fun _ => none
  | _ => .null

mutual

/-- The value of an expression in a row of a pipeline. Values shadow entities. -/
def evalExprOnBinding (b : Binding) : Expr → GqlValue
  | .literal lit => compileLiteral lit
  | .var name => (b.vals name).getD (entityValue b.pm name)
  | .binaryOp left op right =>
    evalBinaryOp platform op (evalExprOnBinding b left) (evalExprOnBinding b right)
  | .unaryOp op expr => evalUnaryOp op (evalExprOnBinding b expr)
  | .isNull expr negated =>
    let null := (evalExprOnBinding b expr).isNull
    .bool (if negated then !null else null)
  | .aggregate _ _ => .null
  | .listLit items => .list (evalExprsOnBinding b items)
  | .subscript list index => evalSubscript (evalExprOnBinding b list) (evalExprOnBinding b index)
  | .functionCall name args =>
    evalBuiltinFunctionCall platform graph name args (evalExprsOnBinding b args) b
  | .listPredicate kind var list predicate =>
    match evalExprOnBinding b list with
    | .list items =>
      applyListQuantifier kind items fun item =>
        evalAsTribool (evalExprOnBinding (b.bindValue var item) predicate)
    | _ => .null
  | .propAccess var prop =>
    match b.vals var with
    | some (.node node) => propertyValue node.properties prop
    | some (.relationship edge) => propertyValue edge.properties prop
    | some (.map entries) => (entries.lookup prop).getD .null
    | some _ => .null
    | none => entityProperty b.pm var prop
  | .shortestPath pattern => evalShortestPathPattern graph pattern b.pm
  | .paramRef _ => .null

def evalExprsOnBinding (b : Binding) : List Expr → List GqlValue
  | [] => []
  | expr :: rest => evalExprOnBinding b expr :: evalExprsOnBinding b rest

end

mutual

/-- The value of an expression in a row of a match, a path variable among its variables. The
elements of a list predicate are values of a pipeline. -/
def evalExpr (row : PatternMatch) (paths : PathBindings) : Expr → GqlValue
  | .literal lit => compileLiteral lit
  | .paramRef _ => .null
  | .var name => (paths name).elim (entityValue row name) .path
  | .aggregate _ _ => .null
  | .propAccess var prop => entityProperty row var prop
  | .binaryOp left op right =>
    evalBinaryOp platform op (evalExpr row paths left) (evalExpr row paths right)
  | .unaryOp op expr => evalUnaryOp op (evalExpr row paths expr)
  | .isNull expr negated =>
    let null := (evalExpr row paths expr).isNull
    .bool (if negated then !null else null)
  | .functionCall name args =>
    evalFunctionCall platform graph name args (evalExprs row paths args) row paths
  | .shortestPath pattern => evalShortestPathPattern graph pattern row
  | .listLit items => .list (evalExprs row paths items)
  | .subscript list index => evalSubscript (evalExpr row paths list) (evalExpr row paths index)
  | .listPredicate kind var list predicate =>
    match evalExpr row paths list with
    | .list items =>
      applyListQuantifier kind items fun item =>
        evalAsTribool (evalExprOnBinding platform graph
          (Binding.bindValue { pm := row } var item) predicate)
    | _ => .null

def evalExprs (row : PatternMatch) (paths : PathBindings) : List Expr → List GqlValue
  | [] => []
  | expr :: rest => evalExpr row paths expr :: evalExprs row paths rest

end

/-- The value of an expression in a row of a match, next to an element of the unwound list. What
is not an operator is evaluated without the element. -/
def evalExprWithUnwindVar (row : PatternMatch) (unwindVar : String) (elem : GqlValue) :
    Expr → GqlValue
  | .var name =>
    if name = unwindVar then elem else evalExpr platform graph row (fun _ => none) (.var name)
  | .propAccess var prop =>
    if var = unwindVar then .null
    else evalExpr platform graph row (fun _ => none) (.propAccess var prop)
  | .binaryOp left op right =>
    evalBinaryOp platform op (evalExprWithUnwindVar row unwindVar elem left)
      (evalExprWithUnwindVar row unwindVar elem right)
  | .unaryOp op expr => evalUnaryOp op (evalExprWithUnwindVar row unwindVar elem expr)
  | .isNull expr negated =>
    let null := (evalExprWithUnwindVar row unwindVar elem expr).isNull
    .bool (if negated then !null else null)
  | expr => evalExpr platform graph row (fun _ => none) expr

/-- Executors that evaluate with these evaluators. -/
def evaluators (rest : Evaluators) : Evaluators :=
  { rest with
    float := platform.toFloatArith
    scalar := fun paths expr row => evalExpr platform graph row paths expr
    binary := evalBinaryOp platform
    unary := evalUnaryOp
    onBinding := evalExprOnBinding platform graph }

variable (rest : Evaluators)

theorem evalExpr_var (evaluation : Evaluation) (row : PatternMatch) (name : String) :
    Gql.evalExpr evaluation row (.var name) = entityValue row name := rfl

theorem evalAlong_evaluators (paths : PathBindings) (row : PatternMatch) (expr : Expr) :
    evalAlong (platform.evaluators graph rest) paths row expr =
      platform.evalExpr graph row paths expr := by
  cases expr with
  | var name =>
    cases found : paths name with
    | some path => simp only [evalAlong, evalExpr, found, Option.elim_some]
    | none =>
      simp only [evalAlong, evalExpr, found, Option.elim_none]
      exact evalExpr_var _ row name
  | _ => rfl

theorem evalOnBinding_evaluators (b : Binding) (expr : Expr) :
    evalOnBinding (platform.evaluators graph rest) b expr =
      platform.evalExprOnBinding graph b expr := by
  cases expr with
  | var name =>
    cases found : b.vals name with
    | some value => simp only [evalOnBinding, evalExprOnBinding, found, Option.getD_some]
    | none =>
      simp only [evalOnBinding, evalExprOnBinding, found, Option.getD_none]
      exact evalExpr_var _ b.pm name
  | _ => rfl

theorem evalUnwound_evaluators (unwindVar : String) (row : PatternMatch) (elem : GqlValue)
    (expr : Expr) :
    evalUnwound (platform.evaluators graph rest) unwindVar row elem expr =
      platform.evalExprWithUnwindVar graph row unwindVar elem expr := by
  have onward (inner : Expr) :
      Gql.evalExpr (platform.evaluators graph rest).rowwise row inner =
        platform.evalExpr graph row (fun _ => none) inner := by
    rw [← evalAlong_evaluators platform graph rest]
    cases inner <;> rfl
  fun_induction evalExprWithUnwindVar platform graph row unwindVar elem expr with
  | case1 | case2 | case3 | case4 => simp_all only [evalUnwound, if_true, if_false]
  | case5 left op right ihl ihr =>
    simp only [evalUnwound, ihl, ihr]
    rfl
  | case6 op inner ih =>
    simp only [evalUnwound, ih]
    rfl
  | case7 inner negated null ih => simp only [evalUnwound, ih, null]
  | case8 => simp_all [evalUnwound]

end Platform

end ErmyaGraph.Gql
