import ErmyaGraph.Gql.Execute

/-! # Stages of a pipeline

A WITH stage projects, groups or aggregates the rows that come in, and sorts what
it makes of them. The RETURN at the end of a pipeline is such a stage whose rows
are written out to columns. -/

namespace ErmyaGraph.Gql

structure WithClause where
  distinct : Bool := false
  items : List ReturnItem
  whereClause : Option Expr := none
  orderBy : Option (List OrderItem) := none
  skip : Option Nat := none
  limit : Option Nat := none

namespace Binding

def bindNode (b : Binding) (name : String) (node : Node) : Binding :=
  { b with pm := b.pm.bindNode name node }

def bindEdge (b : Binding) (name : String) (edge : Edge) : Binding :=
  { b with pm := b.pm.bindEdge (some name) edge }

def bindValue (b : Binding) (name : String) (value : GqlValue) : Binding :=
  { b with vals := Function.update b.vals name (some value) }

end Binding

section Stages

variable (evaluators : Evaluators)

/-- The value of an expression in a row of a pipeline. Values shadow entities. -/
def evalOnBinding (b : Binding) : Expr → GqlValue
  | .var name =>
    match b.vals name with
    | some value => value
    | none => evalExpr evaluators.rowwise b.pm (.var name)
  | .propAccess var prop =>
    match b.vals var with
    | some (.node node) => propertyValue node.properties prop
    | some (.relationship edge) => propertyValue edge.properties prop
    | some (.map entries) => (entries.lookup prop).getD .null
    | some _ => .null
    | none => evalExpr evaluators.rowwise b.pm (.propAccess var prop)
  | .aggregate _ _ => .null
  | expr => evaluators.onBinding b expr

section Projection

variable (graph : GraphAccess) (edgeOf : Nat → Except Error Edge)

/-- A projected node or edge is read again, and bound as what is read. -/
def bindProjected (b : Binding) (name : String) (value : GqlValue) : Binding :=
  match value with
  | .node node =>
    match if node.id < 2 ^ 63 then (graph.node node.id).toOption else none with
    | some node => b.bindNode name node
    | none => b.bindValue name value
  | .relationship edge =>
    match if edge.id < 2 ^ 63 then (edgeOf edge.id).toOption else none with
    | some edge => b.bindEdge name edge
    | none => b.bindValue name value
  | value => b.bindValue name value

/-- A variable takes its entity along; the entity is not there for a second item. -/
def projectItem (b : Binding) (sofar : PatternMatch × Binding) (item : ReturnItem) :
    PatternMatch × Binding :=
  let name := columnName evaluators.rowwise item
  let evaluated := bindProjected graph edgeOf sofar.2 name (evalOnBinding evaluators b item.expr)
  match item.expr with
  | .var var =>
    match sofar.1.nodes var, sofar.1.edges var, b.vals var with
    | some node, _, _ =>
      ({ sofar.1 with nodes := Function.update sofar.1.nodes var none }, sofar.2.bindNode name node)
    | none, some edge, _ =>
      ({ sofar.1 with edges := Function.update sofar.1.edges var none }, sofar.2.bindEdge name edge)
    | none, none, some value => (sofar.1, sofar.2.bindValue name value)
    | none, none, none => (sofar.1, evaluated)
  | _ => (sofar.1, evaluated)

def projectWithItems (items : List ReturnItem) (b : Binding) : Binding :=
  (items.foldl (projectItem evaluators graph edgeOf b) (b.pm, {})).2

/-- An item of a group: an aggregate over the members, or its value on the first of them. -/
def groupItem (members : List Binding) (representative : Binding) (sofar : Binding)
    (item : ReturnItem) : Binding :=
  let name := columnName evaluators.rowwise item
  if exprHasAggregate item.expr then
    sofar.bindValue name (evaluators.aggregateOverBindings item.expr members)
  else
    match item.expr with
    | .var var =>
      match representative.pm.nodes var, representative.pm.edges var with
      | some node, _ => sofar.bindNode name node
      | none, some edge => sofar.bindEdge name edge
      | none, none => sofar.bindValue name ((representative.vals var).getD .null)
    | expr => sofar.bindValue name (evalOnBinding evaluators representative expr)

def projectGroup (items : List ReturnItem) (members : List Binding) : Binding :=
  items.foldl (groupItem evaluators members (members.headD {})) {}

def groupBindings (items : List ReturnItem) (incoming : List Binding) : List (List Binding) :=
  let keyItems := items.filter fun item => !exprHasAggregate item.expr
  groupRows (fun b => evaluators.sliceKey
    (keyItems.map fun item => evalOnBinding evaluators b item.expr)) incoming

def aggregateAll (items : List ReturnItem) (incoming : List Binding) : Binding :=
  items.foldl (fun sofar item => sofar.bindValue (columnName evaluators.rowwise item)
    (evaluators.aggregateOverBindings item.expr incoming)) {}

/-- Project, group or aggregate, as the items ask for it. -/
def projectStage (items : List ReturnItem) (incoming : List Binding) : List Binding :=
  if items.any fun item => exprHasAggregate item.expr then
    if items.all fun item => exprHasAggregate item.expr then
      [aggregateAll evaluators items incoming]
    else (groupBindings evaluators items incoming).map (projectGroup evaluators items)
  else incoming.map (projectWithItems evaluators graph edgeOf items)

def orderBindingsBy (order : List OrderItem) (bindings : List Binding) : List Binding :=
  orderByKeys evaluators (evalOnBinding evaluators) order bindings

def executeWithStage (clause : WithClause) (incoming : List Binding) : List Binding :=
  let projected := projectStage evaluators graph edgeOf clause.items incoming
  let distinct :=
    if clause.distinct then retainDistinct evaluators.bindingKey [] projected else projected
  let filtered := clause.whereClause.elim distinct fun predicate =>
    distinct.filter fun b => (evalOnBinding evaluators b predicate).isTrue
  let ordered := clause.orderBy.elim filtered fun order => orderBindingsBy evaluators order filtered
  limitTo clause.limit (clause.skip.elim ordered ordered.drop)

/-- A column is a value of the row or an entity that it binds. -/
def returnRow (items : List ReturnItem) (b : Binding) : GqlRow :=
  items.foldl (fun row item =>
    let column := columnName evaluators.rowwise item
    let value := (b.vals column).getD
      (if (b.pm.nodes column).isSome ∨ (b.pm.edges column).isSome then
        evalOnBinding evaluators b (.var column)
      else .null)
    Function.update row column (some value)) fun _ => none

/-- The last stage of a pipeline. -/
def executePipelineReturn (clause : ReturnClause) (orderBy : Option (List OrderItem))
    (skip limit : Option Nat) (incoming : List Binding) : List GqlRow :=
  (executeWithStage evaluators graph edgeOf
    { distinct := clause.distinct, items := clause.items, orderBy, skip, limit }
    incoming).map (returnRow evaluators clause.items)

end Projection

end Stages

end ErmyaGraph.Gql
