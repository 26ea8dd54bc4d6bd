import ErmyaGraph.Gql.PathVariable

/-! # Aggregation

A query that only aggregates yields one row. It is computed from the rows of the
match, or, where the pattern is short enough, from the candidates for its start
node without any rows. -/

namespace ErmyaGraph.Gql

inductive BinOp where
  | eq
  | notEq
  | lt
  | gt
  | ltEq
  | gtEq
  | and
  | or
  | add
  | sub
  | mul
  | div
  | startsWith
  | endsWith
  | contains
  | inList
deriving DecidableEq, Repr

inductive UnaryOp where
  | not
  | neg
deriving DecidableEq, Repr

inductive ListPredKind where
  | all
  | any
  | none
  | single
deriving DecidableEq, Repr

inductive ParamRef where
  | named (name : String)
  | positional (index : UInt32)
deriving DecidableEq, Repr

inductive AggFunc where
  | count
  | sum
  | avg
  | min
  | max
  | collect
deriving DecidableEq, Repr

inductive Expr where
  | literal (value : Literal)
  | var (name : String)
  | propAccess (var prop : String)
  | binaryOp (left : Expr) (op : BinOp) (right : Expr)
  | unaryOp (op : UnaryOp) (expr : Expr)
  | isNull (expr : Expr) (negated : Bool)
  | aggregate (func : AggFunc) (arg : Option Expr)
  | functionCall (name : String) (args : List Expr)
  | listPredicate (kind : ListPredKind) (var : String) (list predicate : Expr)
  | shortestPath (pattern : PathPattern)
  | subscript (list index : Expr)
  | listLit (items : List Expr)
  | paramRef (ref : ParamRef)

structure ReturnItem where
  expr : Expr
  columnAlias : Option String := none

structure ReturnClause where
  distinct : Bool := false
  items : List ReturnItem

structure UnwindClause where
  expr : Expr
  var : String

structure OrderItem where
  expr : Expr
  ascending : Bool := true

structure GqlQuery where
  unwindClause : Option UnwindClause := none
  matchClause : MatchClause
  whereClause : Option Expr := none
  returnClause : ReturnClause
  groupBy : Option (List Expr) := none
  orderBy : Option (List OrderItem) := none
  limit : Option Nat := none

/-- A value of an expression. Integers are in the range of 64 bits. -/
inductive GqlValue where
  | null
  | bool (value : Bool)
  | int (value : Int)
  | float (bits : UInt64)
  | str (value : String)
  | list (items : List GqlValue)
  | map (entries : List (String × GqlValue))
  | node (node : Node)
  | relationship (edge : Edge)
  | path (path : GqlPath)

mutual

/-- The value that a literal is written for. -/
def compileLiteral : Literal → GqlValue
  | .int value => .int value.toInt
  | .float bits => .float bits
  | .str value => .str value
  | .bool value => .bool value
  | .null => .null
  | .list items => .list (compileLiterals items)

def compileLiterals : List Literal → List GqlValue
  | [] => []
  | item :: rest => compileLiteral item :: compileLiterals rest

end

abbrev GqlRow := String → Option GqlValue

/-- 64-bit floating point, on the bits of its numbers. -/
structure FloatArith where
  ofInt : Int → UInt64
  add : UInt64 → UInt64 → UInt64
  div : UInt64 → UInt64 → UInt64

/-- How a query is evaluated apart from matching and aggregating: floating point, the names that
columns get, and the expressions other than variables, their properties and aggregates. -/
structure Evaluation where
  float : FloatArith
  surfaceName : Expr → String
  scalar : Expr → PatternMatch → GqlValue

def GqlValue.isNull : GqlValue → Bool
  | .null => true
  | _ => false

def GqlValue.isFloat : GqlValue → Bool
  | .float _ => true
  | _ => false

def gqlValueFromProperty : Property → GqlValue
  | .string value => .str value
  | .i64 value => .int value.toInt
  | .f64 bits => .float bits
  | .bool value => .bool value
  | .bytes _ => .null

def propertyValue (properties : Properties) (key : String) : GqlValue :=
  (properties.get? key).elim .null gqlValueFromProperty

def wrappingAdd (left right : Int) : Int := (Int64.ofInt (left + right)).toInt

/-- The sum of 64-bit integers, or the bound that it exceeds. -/
def saturatingAdd (left right : Int) : Int := max (-2 ^ 63) (min (2 ^ 63 - 1) (left + right))

/-- Where a floating point number stands in their total order: the greater the magnitude of a
negative number, the further down. -/
def floatRank (bits : UInt64) : Int :=
  if bits.toNat < 2 ^ 63 then bits.toNat else 2 ^ 63 - 1 - bits.toNat

def totalCmp (left right : UInt64) : Ordering := compare (floatRank left) (floatRank right)

def addInt (sum : Int) : GqlValue → Int
  | .int i => wrappingAdd sum i
  | _ => sum

section Evaluating

variable (evaluation : Evaluation)

/-- Values of different kinds, other than numbers, are not compared. -/
def gqlValueCmp : GqlValue → GqlValue → Option Ordering
  | .int left, .int right => some (compare left right)
  | .float left, .float right => some (totalCmp left right)
  | .str left, .str right => some (compare left right)
  | .bool left, .bool right => some (compare left right)
  | .int left, .float right => some (totalCmp (evaluation.float.ofInt left) right)
  | .float left, .int right => some (totalCmp left (evaluation.float.ofInt right))
  | _, _ => none

/-- The value of an expression in a row that has no path. -/
def evalExpr (row : PatternMatch) : Expr → GqlValue
  | .var name =>
    match row.nodes name with
    | some node => .node node
    | none => (row.edges name).elim .null .relationship
  | .aggregate _ _ => .null
  | .propAccess var prop =>
    match row.nodes var with
    | some node => propertyValue node.properties prop
    | none => (row.edges var).elim .null fun edge => propertyValue edge.properties prop
  | expr => evaluation.scalar expr row

def columnName (item : ReturnItem) : String :=
  item.columnAlias.getD (evaluation.surfaceName item.expr)

def addFloat (sum : UInt64) : GqlValue → UInt64
  | .int i => evaluation.float.add sum (evaluation.float.ofInt i)
  | .float bits => evaluation.float.add sum bits
  | _ => sum

/-- Integers stay integers, and one float makes the sum a float. -/
def aggregateSum (values : List GqlValue) : GqlValue :=
  if values.all GqlValue.isNull then .null
  else if values.any GqlValue.isFloat then .float (values.foldl (addFloat evaluation) 0)
  else .int (values.foldl addInt 0)

def averageOf (sum : UInt64) (count : Nat) : GqlValue :=
  if count = 0 then .null
  else .float (evaluation.float.div sum (evaluation.float.ofInt count))

def addToAverage (sofar : UInt64 × Nat) : GqlValue → UInt64 × Nat
  | .int i => (evaluation.float.add sofar.1 (evaluation.float.ofInt i), sofar.2 + 1)
  | .float bits => (evaluation.float.add sofar.1 bits, sofar.2 + 1)
  | _ => sofar

def aggregateAvg (values : List GqlValue) : GqlValue :=
  let total := values.foldl (addToAverage evaluation) (0, 0)
  averageOf evaluation total.1 total.2

/-- The value to keep of two, when one in an order is looked for. -/
def better (wanted : Ordering) (kept value : GqlValue) : GqlValue :=
  match gqlValueCmp evaluation value kept with
  | some order => if order = wanted then value else kept
  | none => kept

def aggregateMinMax (values : List GqlValue) (isMax : Bool) : GqlValue :=
  match values.filter fun value => !value.isNull with
  | [] => .null
  | first :: rest => rest.foldl (better evaluation (if isMax then .gt else .lt)) first

def evalAggregateCore (func : AggFunc) (values : List GqlValue) (rowCount : Nat)
    (argIsNone : Bool) : GqlValue :=
  match func with
  | .count =>
    if argIsNone then .int rowCount
    else .int (values.filter fun value => !value.isNull).length
  | .sum => aggregateSum evaluation values
  | .avg => aggregateAvg evaluation values
  | .min => aggregateMinMax evaluation values false
  | .max => aggregateMinMax evaluation values true
  | .collect => .list (values.filter fun value => !value.isNull)

def evalAggregate (rows : List PatternMatch) : Expr → Except GqlError GqlValue
  | .aggregate func arg =>
    let values := arg.elim [] fun inner => rows.map fun row => evalExpr evaluation row inner
    .ok (evalAggregateCore evaluation func values rows.length arg.isNone)
  | _ => .error (.gqlCompileError "expected aggregate expression")

def applyAggregation (rows : List PatternMatch) (items : List ReturnItem) :
    Except GqlError GqlRow :=
  items.foldlM (fun row item => do
    let value ← evalAggregate evaluation rows item.expr
    return Function.update row (columnName evaluation item) (some value)) fun _ => none

/-- Match, then aggregate the rows. -/
def matchAndAggregate (graph : GraphAccess) (late : Nat → Bool) (query : GqlQuery) :
    Except GqlError (List GqlRow) := do
  let rows ← compileMatch graph late query.matchClause
  let row ← applyAggregation evaluation rows query.returnClause.items
  return [row]

/-- A single pattern, of no hop or of one fixed hop without a variable, and nothing else. -/
def isPushdownEligible (query : GqlQuery) : Bool :=
  query.unwindClause.isNone && query.whereClause.isNone && query.orderBy.isNone &&
    query.limit.isNone && !query.returnClause.distinct &&
      match query.matchClause.patterns with
      | [pp] =>
        match pp.hops with
        | [] => true
        | [(ep, _)] => ep.length = .fixed && ep.var.isNone
        | _ => false
      | _ => false

/-- What an aggregate is over: a variable, and a property of it. -/
def aggregateTarget : Expr → Option (String × Option String)
  | .aggregate _ none => some ("*", none)
  | .aggregate _ (some (.var var)) => some (var, none)
  | .aggregate _ (some (.propAccess var prop)) => some (var, some prop)
  | _ => none

/-- The state of one aggregate. -/
inductive AggAccum where
  | count (n : Int)
  | sum (intSum : Int) (floatSum : UInt64) (hasFloat hasAny : Bool)
  | avg (sum : UInt64) (count : Nat)
  | min (current : Option GqlValue)
  | max (current : Option GqlValue)
  | collect (items : List GqlValue)

def AggAccum.fromFunc : AggFunc → AggAccum
  | .count => .count 0
  | .sum => .sum 0 0 false false
  | .avg => .avg 0 0
  | .min => .min none
  | .max => .max none
  | .collect => .collect []

def AggAccum.feed (value : GqlValue) (accum : AggAccum) : AggAccum :=
  if value.isNull then accum
  else
    match accum with
    | .count n => .count (n + 1)
    | .sum intSum floatSum hasFloat _ =>
      match value with
      | .int i => .sum (saturatingAdd intSum i) floatSum hasFloat true
      | .float bits => .sum intSum (evaluation.float.add floatSum bits) true true
      | _ => .sum intSum floatSum hasFloat true
    | .avg sofar n =>
      let total := addToAverage evaluation (sofar, n) value
      .avg total.1 total.2
    | .min current => .min (some (current.elim value fun kept => better evaluation .lt kept value))
    | .max current => .max (some (current.elim value fun kept => better evaluation .gt kept value))
    | .collect items => .collect (items ++ [value])

def AggAccum.finalize : AggAccum → GqlValue
  | .count n => .int n
  | .sum intSum floatSum hasFloat hasAny =>
    if !hasAny then .null
    else if hasFloat then
      .float (evaluation.float.add floatSum (evaluation.float.ofInt intSum))
    else .int intSum
  | .avg sofar n => averageOf evaluation sofar n
  | .min current | .max current => current.getD .null
  | .collect items => .list items

/-- A column under way: its name, its state and the property it is fed. -/
abbrev Column := String × AggAccum × Option String

def columnOf (item : ReturnItem) : Except GqlError Column :=
  match item.expr with
  | .aggregate func arg =>
    match arg with
    | none | some (.var _) => .ok (columnName evaluation item, .fromFunc func, none)
    | some (.propAccess _ prop) => .ok (columnName evaluation item, .fromFunc func, some prop)
    | _ => .error (.gqlCompileError "unsupported aggregate argument in pushdown")
  | _ => .error (.gqlCompileError "expected aggregate in pushdown")

def fedValue (node : Node) (key : Option String) : GqlValue :=
  key.elim (.int node.id) (propertyValue node.properties)

def feedColumns (node : Node) (columns : List Column) : List Column :=
  columns.map fun column =>
    (column.1, column.2.1.feed evaluation (fedValue node column.2.2), column.2.2)

def pushdownWithNodeLoad (graph : GraphAccess) (ids : List Nat) (items : List ReturnItem) :
    Except GqlError (List GqlRow) := do
  let columns ← items.mapM (columnOf evaluation)
  let fed ← ids.foldlM (fun columns id => do
    let node ← liftGraph (graph.node id)
    return feedColumns evaluation node columns) columns
  return [fed.foldl (fun row column =>
    Function.update row column.1 (some (column.2.1.finalize evaluation))) fun _ => none]

/-- The edges of a hop as the indexes list them. -/
def listEdges (graph : GraphAccess) (node : Nat) (direction : Direction) (label : Option String) :
    Except Error (List Edge) :=
  match label, direction with
  | some label, .outgoing => graph.outgoingEdgesByLabel node label
  | some label, .incoming => graph.incomingEdgesByLabel node label
  | some label, .both => do
      let outgoing ← graph.outgoingEdgesByLabel node label
      let incoming ← graph.incomingEdgesByLabel node label
      return outgoing ++ incoming
  | none, .outgoing => graph.outgoingEdges node
  | none, .incoming => graph.incomingEdges node
  | none, .both => do
      let outgoing ← graph.outgoingEdges node
      let incoming ← graph.incomingEdges node
      return outgoing ++ incoming

/-- Whether the end of an edge has the label that the pattern wants there. -/
def endHasLabel (graph : GraphAccess) (start : Nat) (endLabel : Option String) (edge : Edge) :
    Except Error Bool :=
  match endLabel with
  | some required => (graph.nodeLabel (neighborId start edge)).map fun actual => actual = required
  | none => .ok true

def countHop (graph : GraphAccess) (ep : EdgePattern) (np : NodePattern) (total : Nat)
    (start : Nat) : Except Error Nat := do
  let edges ← listEdges graph start ep.direction ep.labels.head?
  edges.foldlM (fun total edge => do
    if ← endHasLabel graph start np.labels.head? edge then return total + 1 else return total)
    total

def countRow (items : List ReturnItem) (count : Nat) : GqlRow :=
  items.foldl (fun row item =>
    Function.update row (columnName evaluation item) (some (.int count))) fun _ => none

/-- Aggregate without materialising rows, or leave it to the rows. -/
def tryAggregatePushdown (graph : GraphAccess) (query : GqlQuery) :
    Option (Except GqlError (List GqlRow)) :=
  if isPushdownEligible query then
    match query.matchClause.patterns with
    | pp :: _ =>
      let ids := narrowCandidates graph (compileNodeToBuilder pp.start 0).1
      let items := query.returnClause.items
      if items.all fun item => (aggregateTarget item.expr).isSome then
        let needsNodeLoad := items.any fun item =>
          (aggregateTarget item.expr).any fun target => target.2.isSome
        match pp.hops with
        | (ep, np) :: _ =>
          if needsNodeLoad then none
          else some (do
            let total ← liftGraph (ids.foldlM (countHop graph ep np) 0)
            return [countRow evaluation items total])
        | [] =>
          if needsNodeLoad then some (pushdownWithNodeLoad evaluation graph ids items)
          else
            let visible := ids.countP fun id => graph.nodeVisible id
            some (.ok [countRow evaluation items visible])
      else none
    | [] => none
  else none

end Evaluating

end ErmyaGraph.Gql
