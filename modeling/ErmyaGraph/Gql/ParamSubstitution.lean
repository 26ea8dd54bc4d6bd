import ErmyaGraph.Gql.PipelineStages
import ErmyaGraph.Lib.Walks

/-! # Parameters

The parameters of a statement are put into its tree before it is compiled. A reference becomes
the literal of its value; a map has none, and the executor takes it from the parameters itself. -/

namespace ErmyaGraph.Gql

variable {stmt : GqlStatement PipelineQuery} {params : Params} {expr : Expr}

open Walks List

/-- A reference as a query writes it. -/
inductive WrittenRef where
  | named (name : String)
  | positional (index : Int64) (from_one : 1 ≤ index.toInt)

namespace WrittenRef

def token : WrittenRef → Token
  | .named name => .ident name
  | .positional index _ => .intLit index

/-- The name of the parameter, or the digits of its index. -/
def key : WrittenRef → String
  | .named name => name
  | .positional index _ => toString index.toInt

def parsed : WrittenRef → ParamRef
  | .named name => .named name
  | .positional index _ => .positional (UInt32.ofNat index.toInt.toNat)

end WrittenRef

/-- The name of a parameter, or an index. -/
def parseParamRef {Pipeline : Type} (grammar : Grammar Pipeline) : Parser Expr := do
  advance
  match ← peek with
  | .ident name => do
      advance
      return .paramRef (.named name)
  | .intLit index => do
      if 1 ≤ index.toInt then
        advance
        return .paramRef (.positional (UInt32.ofNat index.toInt.toNat))
      else
        syntaxError "positional parameter index must be >= 1 (Bolt uses 1-based indexing)"
  | other =>
    syntaxError ("expected parameter name or positional index after '$', found " ++
      other.display grammar.floatText)

theorem parseParamRef_written {Pipeline : Type} (grammar : Grammar Pipeline) (ref : WrittenRef)
    {dollar next : SpannedToken} (rest : List SpannedToken) (written : next.token = ref.token) :
    parseParamRef grammar (dollar :: next :: rest) = .ok (.paramRef ref.parsed, rest) := by
  cases ref with
  | named name =>
    obtain ⟨token, line, col⟩ := next
    obtain rfl : token = .ident name := written
    rfl
  | positional index from_one =>
    obtain ⟨token, line, col⟩ := next
    obtain rfl : token = .intLit index := written
    simp only [parseParamRef, advance, peek, tokenAt, StateT.bind, bind, Except.bind]
    simp [from_one, advance, StateT.bind, bind, Except.bind, WrittenRef.parsed]
    rfl

inductive ParamError where
  | missingParameter (name : String)
  | missingPositionalParameter (index : UInt32)
  | unsupportedParamValue (name got : String)
deriving DecidableEq

mutual

def gqlValueToLiteral (key : String) : GqlValue → Except ParamError Literal
  | .null => .ok .null
  | .bool value => .ok (.bool value)
  | .int value => .ok (.int (Int64.ofInt value))
  | .float bits => .ok (.float bits)
  | .str value => .ok (.str value)
  | .list items => (gqlValuesToLiterals key items).map .list
  | .map _ => .error (.unsupportedParamValue key "Map")
  | .node _ => .error (.unsupportedParamValue key "Node")
  | .relationship _ => .error (.unsupportedParamValue key "Relationship")
  | .path _ => .error (.unsupportedParamValue key "Path")

def gqlValuesToLiterals (key : String) : List GqlValue → Except ParamError (List Literal)
  | [] => .ok []
  | item :: rest =>
    (gqlValueToLiteral key item).bind fun literal =>
      (gqlValuesToLiterals key rest).map (literal :: ·)

end

def ParamRef.key : ParamRef → String
  | .named name => name
  | .positional index => toString index.toNat

def ParamRef.missing : ParamRef → ParamError
  | .named name => .missingParameter name
  | .positional index => .missingPositionalParameter index

/-- What a reference is replaced by. A reference to a map stays. -/
def resolveRef (params : Params) (ref : ParamRef) : Except ParamError Expr :=
  match params ref.key with
  | none => .error ref.missing
  | some (.map _) => .ok (.paramRef ref)
  | some value => (gqlValueToLiteral ref.key value).map .literal

section VisitExpr

variable (resolve : ParamRef → Except ParamError Expr)

mutual

/-- Replace the references in an expression. -/
def visitExpr : Expr → Except ParamError Expr
  | .paramRef ref => resolve ref
  | .literal value => .ok (.literal value)
  | .var name => .ok (.var name)
  | .propAccess var prop => .ok (.propAccess var prop)
  | .binaryOp left op right =>
    (visitExpr left).bind fun left => (visitExpr right).map fun right => .binaryOp left op right
  | .unaryOp op inner => (visitExpr inner).map (.unaryOp op)
  | .isNull inner negated => (visitExpr inner).map fun inner => .isNull inner negated
  | .aggregate func (some inner) =>
    (visitExpr inner).map fun inner => .aggregate func (some inner)
  | .aggregate func none => .ok (.aggregate func none)
  | .functionCall name args => (visitExprs args).map (.functionCall name)
  -- The properties of a path pattern are literals.
  | .shortestPath pattern => .ok (.shortestPath pattern)
  | .subscript list index =>
    (visitExpr list).bind fun list => (visitExpr index).map fun index => .subscript list index
  | .listLit items => (visitExprs items).map .listLit
  | .listPredicate kind var list predicate =>
    (visitExpr list).bind fun list =>
      (visitExpr predicate).map fun predicate => .listPredicate kind var list predicate

def visitExprs : List Expr → Except ParamError (List Expr)
  | [] => .ok []
  | expr :: rest =>
    (visitExpr expr).bind fun expr => (visitExprs rest).map (expr :: ·)

end

end VisitExpr

mutual

/-- The references in an expression, from the left. -/
def Expr.refs : Expr → List ParamRef
  | .paramRef ref => [ref]
  | .literal _ | .var _ | .propAccess _ _ | .aggregate _ none | .shortestPath _ => []
  | .binaryOp left _ right => left.refs ++ right.refs
  | .unaryOp _ inner | .isNull inner _ | .aggregate _ (some inner) => inner.refs
  | .functionCall _ args => refsOfAll args
  | .listPredicate _ _ list predicate => list.refs ++ predicate.refs
  | .subscript list index => list.refs ++ index.refs
  | .listLit items => refsOfAll items

def refsOfAll : List Expr → List ParamRef
  | [] => []
  | expr :: rest => expr.refs ++ refsOfAll rest

end

/-! ### Statements

The expressions of a statement are ordinary ones or the operands that may be maps: of `SET n = e`,
of `SET n += e` and of `CREATE (n $map)`. -/

inductive Place where
  | inner
  | operand
deriving DecidableEq

variable {one : Place × ParamRef}

section Visit

variable (visit : Place × Expr → Except ParamError Expr)

def visitUnwind (clause : UnwindClause) : Except ParamError UnwindClause := do
  let expr ← visit (.inner, clause.expr)
  return { clause with expr }

def visitReturnItem (item : ReturnItem) : Except ParamError ReturnItem := do
  let expr ← visit (.inner, item.expr)
  return { item with expr }

def visitOrderItem (item : OrderItem) : Except ParamError OrderItem := do
  let expr ← visit (.inner, item.expr)
  return { item with expr }

def visitOrderBy (items : List OrderItem) : Except ParamError (List OrderItem) :=
  items.mapM (visitOrderItem visit)

/-- Of an expression and what it is for, the expression. -/
def visitProp (prop : String × Expr) : Except ParamError (String × Expr) := do
  let expr ← visit (.inner, prop.2)
  return (prop.1, expr)

def visitWhere (predicate : Expr) : Except ParamError Expr := visit (.inner, predicate)

def visitReturn (clause : ReturnClause) : Except ParamError ReturnClause := do
  let items ← clause.items.mapM (visitReturnItem visit)
  return { clause with items }

def visitQuery (q : GqlQuery) : Except ParamError GqlQuery := do
  let unwindClause ← q.unwindClause.mapM (visitUnwind visit)
  let whereClause ← q.whereClause.mapM (visitWhere visit)
  let groupBy ← q.groupBy.mapM fun keys => keys.mapM fun key => visit (.inner, key)
  let orderBy ← q.orderBy.mapM (visitOrderBy visit)
  let returnClause ← visitReturn visit q.returnClause
  return { q with unwindClause, whereClause, groupBy, orderBy, returnClause }

def visitCreatePattern : CreatePattern → Except ParamError CreatePattern
  | .node var label props propMap => do
      let props ← props.mapM (visitProp visit)
      let propMap ← propMap.mapM fun expr => visit (.operand, expr)
      return .node var label props propMap
  | .edge sourceVar relLabel relProps targetVar => do
      let relProps ← relProps.mapM (visitProp visit)
      return .edge sourceVar relLabel relProps targetVar

def visitCreate (clause : CreateClause) : Except ParamError CreateClause := do
  let patterns ← clause.patterns.mapM (visitCreatePattern visit)
  return { clause with patterns }

def visitSetAssignment : SetAssignment → Except ParamError SetAssignment
  | .property var prop value => return .property var prop (← visit (.inner, value))
  | .entityOverwrite var mapExpr => return .entityOverwrite var (← visit (.operand, mapExpr))
  | .entityMerge var mapExpr => return .entityMerge var (← visit (.operand, mapExpr))

def visitSet (clause : SetClause) : Except ParamError SetClause := do
  let assignments ← clause.assignments.mapM (visitSetAssignment visit)
  return { clause with assignments }

def visitMerge (clause : MergeClause) : Except ParamError MergeClause := do
  let props ← clause.props.mapM (visitProp visit)
  let onCreate ← clause.onCreate.mapM (visitSet visit)
  let onMatch ← clause.onMatch.mapM (visitSet visit)
  return { clause with props, onCreate, onMatch }

def visitMutationClause : MutationClause → Except ParamError MutationClause
  | .create clause => return .create (← visitCreate visit clause)
  | .set clause => return .set (← visitSet visit clause)
  | .merge clause => return .merge (← visitMerge visit clause)
  | .delete clause => return .delete clause

def visitMutation (m : MutationStatement) : Except ParamError MutationStatement := do
  let unwindClause ← m.unwindClause.mapM (visitUnwind visit)
  let mutation ← visitMutationClause visit m.mutation
  let setClause ← m.setClause.mapM (visitSet visit)
  let returnClause ← m.returnClause.mapM (visitReturn visit)
  return { m with unwindClause, mutation, setClause, returnClause }

def visitWith (clause : WithClause) : Except ParamError WithClause := do
  let items ← clause.items.mapM (visitReturnItem visit)
  let whereClause ← clause.whereClause.mapM (visitWhere visit)
  let orderBy ← clause.orderBy.mapM (visitOrderBy visit)
  return { clause with items, whereClause, orderBy }

def visitStage : PipelineStage → Except ParamError PipelineStage
  | .matching clause whereClause =>
    return .matching clause (← whereClause.mapM (visitWhere visit))
  | .unwinding clause => return .unwinding (← visitUnwind visit clause)
  | .withStage clause => return .withStage (← visitWith visit clause)

def visitTerminal : PipelineTerminal → Except ParamError PipelineTerminal
  | .ret clause orderBy skip limit => do
      let clause ← visitReturn visit clause
      let orderBy ← orderBy.mapM (visitOrderBy visit)
      return .ret clause orderBy skip limit
  | .set clause => return .set (← visitSet visit clause)
  | .create clause => return .create (← visitCreate visit clause)
  | .delete clause => return .delete clause

def visitPipeline (p : PipelineQuery) : Except ParamError PipelineQuery := do
  let stages ← p.stages.mapM (visitStage visit)
  let terminal ← visitTerminal visit p.terminal
  return { p with stages, terminal }

def visitConstReturn (c : ConstReturnQuery) : Except ParamError ConstReturnQuery := do
  let items ← c.items.mapM (visitReturnItem visit)
  let skip ← c.skip.mapM fun expr => visit (.inner, expr)
  let limit ← c.limit.mapM fun expr => visit (.inner, expr)
  return { c with items, skip, limit }

def visitStatement : GqlStatement PipelineQuery → Except ParamError (GqlStatement PipelineQuery)
  | .query q => return .query (← visitQuery visit q)
  | .mutation m => return .mutation (← visitMutation visit m)
  | .pipeline p => return .pipeline (← visitPipeline visit p)
  | .constReturn c => return .constReturn (← visitConstReturn visit c)

end Visit

/-- Replace the references of a statement. Every expression is visited alike. -/
def apply (params : Params) (stmt : GqlStatement PipelineQuery) :
    Except ParamError (GqlStatement PipelineQuery) :=
  visitStatement (fun part => visitExpr (resolveRef params) part.2) stmt

/-- The references in the expression that a reference is replaced by. -/
def refsLeft (_ : ParamRef) (expr : Expr) : List ParamRef := expr.refs

mutual

theorem visitExpr_walks : ∀ expr : Expr,
    At refsLeft (fun resolve => visitExpr resolve expr) expr.refs Expr.refs
  | .paramRef ref => .part ref fun _ => rfl
  | .literal _ | .var _ | .propAccess _ _ | .aggregate _ none | .shortestPath _ => .still rfl
  | .binaryOp left _ right =>
    (visitExpr_walks left).both (visitExpr_walks right) fun _ _ => rfl
  | .unaryOp _ inner => (visitExpr_walks inner).map fun _ => rfl
  | .isNull inner _ => (visitExpr_walks inner).map fun _ => rfl
  | .aggregate _ (some inner) => (visitExpr_walks inner).map fun _ => rfl
  | .functionCall _ args => (visitExprs_walks args).map fun _ => rfl
  | .listPredicate _ _ list predicate =>
    (visitExpr_walks list).both (visitExpr_walks predicate) fun _ _ => rfl
  | .subscript list index =>
    (visitExpr_walks list).both (visitExpr_walks index) fun _ _ => rfl
  | .listLit items => (visitExprs_walks items).map fun _ => rfl

theorem visitExprs_walks : ∀ exprs : List Expr,
    At refsLeft (fun resolve => visitExprs resolve exprs) (refsOfAll exprs) refsOfAll
  | [] => .still rfl
  | expr :: rest => (visitExpr_walks expr).both (visitExprs_walks rest) fun _ _ => rfl

end

/-- A part of a statement: an expression and where it stands. -/
abbrev Part := Place × Expr

def partLeft (part : Part) (expr : Expr) : List Part := [(part.1, expr)]

def unwindParts (clause : UnwindClause) : List Part := [(.inner, clause.expr)]

def returnItemParts (item : ReturnItem) : List Part := [(.inner, item.expr)]

def orderByParts (items : List OrderItem) : List Part :=
  items.flatMap fun item => [(.inner, item.expr)]

def propParts (prop : String × Expr) : List Part := [(.inner, prop.2)]

def innerParts (expr : Expr) : List Part := [(.inner, expr)]

def operandParts (expr : Expr) : List Part := [(.operand, expr)]

def returnParts (clause : ReturnClause) : List Part := clause.items.flatMap returnItemParts

def queryParts (q : GqlQuery) : List Part :=
  q.unwindClause.toList.flatMap unwindParts ++ q.whereClause.toList.flatMap innerParts ++
    q.groupBy.toList.flatMap (·.flatMap innerParts) ++ q.orderBy.toList.flatMap orderByParts ++
    returnParts q.returnClause

def createPatternParts : CreatePattern → List Part
  | .node _ _ props propMap =>
    props.flatMap propParts ++ propMap.toList.flatMap operandParts
  | .edge _ _ relProps _ => relProps.flatMap propParts

def createParts (clause : CreateClause) : List Part := clause.patterns.flatMap createPatternParts

def setAssignmentParts : SetAssignment → List Part
  | .property _ _ value => innerParts value
  | .entityOverwrite _ mapExpr | .entityMerge _ mapExpr => operandParts mapExpr

def setParts (clause : SetClause) : List Part := clause.assignments.flatMap setAssignmentParts

def mergeParts (clause : MergeClause) : List Part :=
  clause.props.flatMap propParts ++ clause.onCreate.toList.flatMap setParts ++
    clause.onMatch.toList.flatMap setParts

def mutationClauseParts : MutationClause → List Part
  | .create clause => createParts clause
  | .set clause => setParts clause
  | .merge clause => mergeParts clause
  | .delete _ => []

def mutationParts (m : MutationStatement) : List Part :=
  m.unwindClause.toList.flatMap unwindParts ++ mutationClauseParts m.mutation ++
    m.setClause.toList.flatMap setParts ++ m.returnClause.toList.flatMap returnParts

def withParts (clause : WithClause) : List Part :=
  clause.items.flatMap returnItemParts ++ clause.whereClause.toList.flatMap innerParts ++
    clause.orderBy.toList.flatMap orderByParts

def stageParts : PipelineStage → List Part
  | .matching _ whereClause => whereClause.toList.flatMap innerParts
  | .unwinding clause => unwindParts clause
  | .withStage clause => withParts clause

def terminalParts : PipelineTerminal → List Part
  | .ret clause orderBy _ _ => returnParts clause ++ orderBy.toList.flatMap orderByParts
  | .set clause => setParts clause
  | .create clause => createParts clause
  | .delete _ => []

def pipelineParts (p : PipelineQuery) : List Part :=
  p.stages.flatMap stageParts ++ terminalParts p.terminal

def constReturnParts (c : ConstReturnQuery) : List Part :=
  c.items.flatMap returnItemParts ++ c.skip.toList.flatMap innerParts ++
    c.limit.toList.flatMap innerParts

/-- All expressions of a statement. -/
def statementParts : GqlStatement PipelineQuery → List Part
  | .query q => queryParts q
  | .mutation m => mutationParts m
  | .pipeline p => pipelineParts p
  | .constReturn c => constReturnParts c

/-- A walk over statements visits their expressions. -/
abbrev Visits {α : Type} (visit : (Part → Except ParamError Expr) → α → Except ParamError α)
    (parts : α → List Part) : Prop :=
  ∀ a, At partLeft (fun visitPart => visit visitPart a) (parts a) parts

theorem visitInner_visits :
    Visits (fun visit (expr : Expr) => visit (Place.inner, expr)) innerParts :=
  fun expr => .part (Place.inner, expr) fun _ => rfl

theorem visitOperand_visits :
    Visits (fun visit (expr : Expr) => visit (Place.operand, expr)) operandParts :=
  fun expr => .part (Place.operand, expr) fun _ => rfl

theorem visitUnwind_visits : Visits visitUnwind unwindParts :=
  fun clause => (visitInner_visits clause.expr).map fun _ => rfl

theorem visitReturnItem_visits : Visits visitReturnItem returnItemParts :=
  fun item => (visitInner_visits item.expr).map fun _ => rfl

theorem visitProp_visits : Visits visitProp propParts :=
  fun prop => (visitInner_visits prop.2).map fun _ => rfl

theorem Visits.list {α : Type} {visit : (Part → Except ParamError Expr) → α → Except ParamError α}
    {parts : α → List Part} (visits : Visits visit parts) :
    Visits (fun visitPart (items : List α) => items.mapM (visit visitPart)) (·.flatMap parts) :=
  fun _ => .mapM fun a _ => visits a

theorem Visits.option {α : Type} {visit : (Part → Except ParamError Expr) → α → Except ParamError α}
    {parts : α → List Part} (visits : Visits visit parts) :
    Visits (fun visitPart (item : Option α) => item.mapM (visit visitPart))
      (·.toList.flatMap parts) :=
  fun _ => .optional fun a _ => visits a

theorem visitOrderBy_visits : Visits visitOrderBy orderByParts :=
  Visits.list fun item => (visitInner_visits item.expr).map fun _ => rfl

theorem visitReturn_visits : Visits visitReturn returnParts :=
  fun clause => (visitReturnItem_visits.list clause.items).map fun _ => rfl

theorem visitWhere_visits : Visits visitWhere innerParts := visitInner_visits

theorem visitQuery_visits : Visits visitQuery queryParts := by
  intro q
  have walks := ((((visitUnwind_visits.option q.unwindClause).pair
    (visitWhere_visits.option q.whereClause)).pair
      (visitInner_visits.list.option q.groupBy)).pair
        (visitOrderBy_visits.option q.orderBy)).both (visitReturn_visits q.returnClause)
          (f := fun found returnClause => { q with
            unwindClause := found.1.1.1, whereClause := found.1.1.2, groupBy := found.1.2,
            orderBy := found.2, returnClause }) (g := queryParts) fun _ _ => rfl
  refine walks.congr fun visit => ?_
  simp only [visitQuery, bind_assoc, pure_bind]

theorem visitCreatePattern_visits : Visits visitCreatePattern createPatternParts
  | .node _ _ props propMap =>
    (visitProp_visits.list props).both (visitOperand_visits.option propMap) fun _ _ => rfl
  | .edge _ _ relProps _ => (visitProp_visits.list relProps).map fun _ => rfl

theorem visitCreate_visits : Visits visitCreate createParts :=
  fun clause => (visitCreatePattern_visits.list clause.patterns).map fun _ => rfl

theorem visitSetAssignment_visits : Visits visitSetAssignment setAssignmentParts
  | .property _ _ value => (visitInner_visits value).map fun _ => rfl
  | .entityOverwrite _ mapExpr => (visitOperand_visits mapExpr).map fun _ => rfl
  | .entityMerge _ mapExpr => (visitOperand_visits mapExpr).map fun _ => rfl

theorem visitSet_visits : Visits visitSet setParts :=
  fun clause => (visitSetAssignment_visits.list clause.assignments).map fun _ => rfl

theorem visitMerge_visits : Visits visitMerge mergeParts := by
  intro clause
  have walks := ((visitProp_visits.list clause.props).pair
    (visitSet_visits.option clause.onCreate)).both (visitSet_visits.option clause.onMatch)
      (f := fun found onMatch => { clause with props := found.1, onCreate := found.2, onMatch })
      (g := mergeParts) fun _ _ => rfl
  refine walks.congr fun visit => ?_
  simp only [visitMerge, bind_assoc, pure_bind]

theorem visitMutationClause_visits : Visits visitMutationClause mutationClauseParts
  | .create clause => (visitCreate_visits clause).map fun _ => rfl
  | .set clause => (visitSet_visits clause).map fun _ => rfl
  | .merge clause => (visitMerge_visits clause).map fun _ => rfl
  | .delete _ => .still rfl

theorem visitMutation_visits : Visits visitMutation mutationParts := by
  intro m
  have walks := (((visitUnwind_visits.option m.unwindClause).pair
    (visitMutationClause_visits m.mutation)).pair (visitSet_visits.option m.setClause)).both
      (visitReturn_visits.option m.returnClause)
        (f := fun found returnClause => { m with
          unwindClause := found.1.1, mutation := found.1.2, setClause := found.2, returnClause })
        (g := mutationParts) fun _ _ => rfl
  refine walks.congr fun visit => ?_
  simp only [visitMutation, bind_assoc, pure_bind]

theorem visitWith_visits : Visits visitWith withParts := by
  intro clause
  have walks := ((visitReturnItem_visits.list clause.items).pair
    (visitWhere_visits.option clause.whereClause)).both
      (visitOrderBy_visits.option clause.orderBy)
        (f := fun found orderBy => { clause with
          items := found.1, whereClause := found.2, orderBy })
        (g := withParts) fun _ _ => rfl
  refine walks.congr fun visit => ?_
  simp only [visitWith, bind_assoc, pure_bind]

theorem visitStage_visits : Visits visitStage stageParts
  | .matching _ whereClause => (visitWhere_visits.option whereClause).map fun _ => rfl
  | .unwinding clause => (visitUnwind_visits clause).map fun _ => rfl
  | .withStage clause => (visitWith_visits clause).map fun _ => rfl

theorem visitTerminal_visits : Visits visitTerminal terminalParts
  | .ret clause orderBy _ _ =>
    (visitReturn_visits clause).both (visitOrderBy_visits.option orderBy) fun _ _ => rfl
  | .set clause => (visitSet_visits clause).map fun _ => rfl
  | .create clause => (visitCreate_visits clause).map fun _ => rfl
  | .delete _ => .still rfl

theorem visitPipeline_visits : Visits visitPipeline pipelineParts :=
  fun p => (visitStage_visits.list p.stages).both (visitTerminal_visits p.terminal) fun _ _ => rfl

theorem visitConstReturn_visits : Visits visitConstReturn constReturnParts := by
  intro c
  have walks := ((visitReturnItem_visits.list c.items).pair
    (visitInner_visits.option c.skip)).both (visitInner_visits.option c.limit)
      (f := fun found limit => { c with items := found.1, skip := found.2, limit })
      (g := constReturnParts) fun _ _ => rfl
  refine walks.congr fun visit => ?_
  simp only [visitConstReturn, bind_assoc, pure_bind]

theorem visitStatement_visits : Visits visitStatement statementParts
  | .query q => (visitQuery_visits q).map fun _ => rfl
  | .mutation m => (visitMutation_visits m).map fun _ => rfl
  | .pipeline p => (visitPipeline_visits p).map fun _ => rfl
  | .constReturn c => (visitConstReturn_visits c).map fun _ => rfl

/-- The references of a part, each at its place. Only a reference that is the whole operand
stands at the place of one. -/
def partRefs : Part → List (Place × ParamRef)
  | (.operand, .paramRef ref) => [(.operand, ref)]
  | (_, expr) => expr.refs.map (Place.inner, ·)

def statementRefs (stmt : GqlStatement PipelineQuery) : List (Place × ParamRef) :=
  (statementParts stmt).flatMap partRefs

/-- Replace the references of a part. -/
def visitPart (resolve : Place × ParamRef → Except ParamError Expr) :
    Part → Except ParamError Expr
  | (.operand, .paramRef ref) => resolve (.operand, ref)
  | (_, expr) => visitExpr (fun ref => resolve (.inner, ref)) expr

/-- What a value stands for: a literal, or a map that the executor takes from the parameters. -/
inductive Form where
  | literal (value : Literal)
  | map (entries : List (String × GqlValue))

/-- What the value under a key stands for at a place, if it has a form there. -/
def formUnder (params : Params) (place : Place) (key : String) : Option Form :=
  match params key, place with
  | none, _ => none
  | some (.map entries), .operand => some (.map entries)
  | some value, _ => (gqlValueToLiteral key value).toOption.map .literal

/-- What a reference is to be replaced by at its place. The error is of no interest. -/
def formAt (params : Params) (at_place : Place × ParamRef) : Except ParamError Expr :=
  match formUnder params at_place.1 at_place.2.key with
  | some (.literal value) => .ok (.literal value)
  | some (.map _) => .ok (.paramRef at_place.2)
  | none => .error at_place.2.missing

/-- The statement with its references replaced by what they stand for. -/
def substituted (params : Params) (stmt : GqlStatement PipelineQuery) :
    Except ParamError (GqlStatement PipelineQuery) :=
  visitStatement (visitPart (formAt params)) stmt

/-- A statement and its references as its text writes them. -/
structure WrittenStatement where
  stmt : GqlStatement PipelineQuery
  written : List (Place × WrittenRef)
  parsed : statementRefs stmt = written.map fun one => (one.1, one.2.parsed)

/-- The substitution does what is asked of it: its result has every reference replaced by what
the value under the written key stands for, and it fails exactly if one of these values has no
form at its place. -/
def SubstitutesExactly (params : Params) (q : WrittenStatement) : Prop :=
  match apply params q.stmt with
  | .ok result => substituted params q.stmt = .ok result ∧
      ∀ one ∈ q.written, formUnder params one.1 one.2.parsed.key = formUnder params one.1 one.2.key
  | .error _ => ∃ one ∈ q.written, formUnder params one.1 one.2.key = none

/-- The parameter is missing, or its value is neither a map nor has a literal. -/
def Refused (params : Params) (ref : ParamRef) : Prop :=
  ∀ expr, resolveRef params ref ≠ .ok expr

/-- The parameter is a map, and the executor does not look for one at this place. -/
def StrayMap (params : Params) (at_place : Place × ParamRef) : Prop :=
  at_place.1 = .inner ∧ ∃ entries, params at_place.2.key = some (.map entries)

variable (resolve : Place × ParamRef → Except ParamError Expr)

theorem visitPart_done (part : Part) :
    (∃ expr, visitPart resolve part = .ok expr) ↔
      ∀ one ∈ partRefs part, ∃ expr, resolve one = .ok expr := by
  obtain ⟨place, expr⟩ := part
  have walked := ((visitExpr_walks expr).renamed (o := fun _ => Expr.refs) (Place.inner, ·)
    fun _ _ => rfl).done resolve
  cases place with
  | inner => exact walked
  | operand =>
    cases expr with
    | paramRef ref => simp [visitPart, partRefs]
    | _ => exact walked

theorem visitPart_reads {resolve resolve' : Place × ParamRef → Except ParamError Expr}
    (part : Part) (agree : ∀ one ∈ partRefs part, resolve one = resolve' one) :
    visitPart resolve part = visitPart resolve' part := by
  obtain ⟨place, expr⟩ := part
  have walked := ((visitExpr_walks expr).renamed (o := fun _ => Expr.refs) (Place.inner, ·)
    fun _ _ => rfl).reads resolve resolve'
  cases place with
  | inner => exact walked agree
  | operand =>
    cases expr with
    | paramRef ref => exact agree _ mem_cons_self
    | _ => exact walked agree

theorem visitStatement_done (stmt : GqlStatement PipelineQuery) :
    (∃ result, visitStatement (visitPart resolve) stmt = .ok result) ↔
      ∀ one ∈ statementRefs stmt, ∃ expr, resolve one = .ok expr := by
  rw [(visitStatement_visits stmt).done, statementRefs, forall_mem_flatMap]
  exact forall₂_congr fun part _ => visitPart_done resolve part

theorem visitStatement_reads {resolve resolve' : Place × ParamRef → Except ParamError Expr}
    (agree : ∀ one ∈ statementRefs stmt, resolve one = resolve' one) :
    visitStatement (visitPart resolve) stmt = visitStatement (visitPart resolve') stmt :=
  (visitStatement_visits stmt).reads _ _ fun part mem =>
    visitPart_reads part fun one inPart =>
      agree one (mem_flatMap.mpr ⟨part, mem, inPart⟩)

theorem apply_eq (params : Params) (stmt : GqlStatement PipelineQuery) :
    apply params stmt = visitStatement (visitPart fun one => resolveRef params one.2) stmt := by
  refine (visitStatement_visits stmt).reads _ _ fun part _ => ?_
  obtain ⟨place, expr⟩ := part
  cases place with
  | inner => rfl
  | operand => cases expr <;> rfl

theorem literal_form_iff (lowered : Except ParamError Literal) (ref : ParamRef) (expr : Expr) :
    lowered.map Expr.literal = .ok expr ↔ (match lowered.toOption.map Form.literal with
        | some (.literal value) => .ok (.literal value)
        | some (.map _) => .ok (.paramRef ref)
        | none => .error ref.missing : Except ParamError Expr) = .ok expr := by
  cases lowered <;> simp [Except.toOption, Except.map]

theorem resolveRef_eq (expr : Expr) (ordinary : ¬ StrayMap params one) :
    resolveRef params one.2 = .ok expr ↔ formAt params one = .ok expr := by
  obtain ⟨place, ref⟩ := one
  simp only [resolveRef, formAt, formUnder]
  cases found : params ref.key with
  | none => simp
  | some value =>
    cases value with
    | map entries =>
      cases place with
      | inner => exact absurd ⟨rfl, entries, found⟩ ordinary
      | operand => simp
    | _ => exact literal_form_iff _ ref expr

theorem formAt_stray (stray : StrayMap params one) : formUnder params one.1 one.2.key = none := by
  obtain ⟨place, ref⟩ := one
  obtain ⟨rfl, entries, found⟩ := stray
  change formUnder params .inner ref.key = none
  simp only at found
  simp [formUnder, found, gqlValueToLiteral, Except.toOption]

theorem formAt_ok_iff :
    (∃ expr, formAt params one = .ok expr) ↔ formUnder params one.1 one.2.key ≠ none := by
  rw [formAt]
  cases formUnder params one.1 one.2.key with
  | none => simp
  | some form => cases form <;> simp

theorem apply_eq_substituted {result : GqlStatement PipelineQuery}
    (ordinary : ∀ one ∈ statementRefs stmt, ¬ StrayMap params one)
    (applied : apply params stmt = .ok result) : substituted params stmt = .ok result := by
  rw [apply_eq] at applied
  have resolved := (visitStatement_done _ stmt).mp ⟨result, applied⟩
  rw [substituted, ← applied]
  refine visitStatement_reads fun one mem => ?_
  obtain ⟨expr, here⟩ := resolved one mem
  rw [here]
  exact (resolveRef_eq expr (ordinary one mem)).mp here

theorem apply_ok_iff (params : Params) (stmt : GqlStatement PipelineQuery) :
    (∃ result, apply params stmt = .ok result) ↔
      ∀ one ∈ statementRefs stmt, ¬ Refused params one.2 := by
  rw [apply_eq, visitStatement_done]
  simp only [Refused, not_forall, not_not]

theorem substituted_ok_iff (params : Params) (stmt : GqlStatement PipelineQuery) :
    (∃ result, substituted params stmt = .ok result) ↔
      ∀ one ∈ statementRefs stmt, formUnder params one.1 one.2.key ≠ none := by
  rw [substituted, visitStatement_done]
  exact forall₂_congr fun one _ => formAt_ok_iff

/-- The text `RETURN $ref`. -/
def returning (ref : WrittenRef) : WrittenStatement where
  stmt := .constReturn ⟨[⟨.paramRef ref.parsed, none⟩], false, none, none⟩
  written := [(.inner, ref)]
  parsed := rfl

def oneParam (key : String) (value : GqlValue) : Params := fun name =>
  if name = key then some value else none

def wideIndex : WrittenRef := .positional 4294967297 (by decide)

theorem wideIndex_parsed : wideIndex.parsed.key = "1" := by decide

theorem wideIndex_key : wideIndex.key = "4294967297" := by decide

end ErmyaGraph.Gql
