import ErmyaGraph.Lib.Settles
import ErmyaGraph.Gql.NestedAggregates

/-! # Where an evaluation stops

An arithmetic operation of the source can stop the process instead of having a
value. The evaluators are given here once more with these stops. Overflow checks
and debug assertions are those of a debug build. -/

namespace ErmyaGraph.Gql

open Settles

/-- The least integer divided by -1, whose quotient is no 64-bit integer. -/
def DivisionOverflows (op : BinOp) (left right : GqlValue) : Prop :=
  op = .div ∧ left = .int (-2 ^ 63) ∧ right = .int (-1)

/-- Division stops on the one quotient that is out of range, and so does an operator that is
not arithmetic. -/
def evalIntArithmetic? (left : Int) (op : BinOp) (right : Int) : Option GqlValue :=
  match op with
  | .add | .sub | .mul => some (evalIntArithmetic left op right)
  | .div =>
    if right = 0 then some .null
    else if left = -2 ^ 63 ∧ right = -1 then none
    else some (evalIntArithmetic left .div right)
  | _ => none

namespace Platform

variable (platform : Platform)

def evalFloatArithmetic? (left : UInt64) (op : BinOp) (right : UInt64) : Option GqlValue :=
  match op with
  | .add | .sub | .mul | .div => some (evalFloatArithmetic platform left op right)
  | _ => none

def evalArithmetic? (left : GqlValue) (op : BinOp) (right : GqlValue) : Option GqlValue :=
  match left, right with
  | .int left, .int right => evalIntArithmetic? left op right
  | .float left, .float right => platform.evalFloatArithmetic? left op right
  | .int left, .float right => platform.evalFloatArithmetic? (platform.ofInt left) op right
  | .float left, .int right => platform.evalFloatArithmetic? left op (platform.ofInt right)
  | _, _ => some .null

def evalComparison? (left : GqlValue) (op : BinOp) (right : GqlValue) : Option GqlValue :=
  match gqlValueCmp platform.comparing left right with
  | none => some .null
  | some compared =>
    match op with
    | .lt => some (.bool compared.isLT)
    | .gt => some (.bool compared.isGT)
    | .ltEq => some (.bool compared.isLE)
    | .gtEq => some (.bool compared.isGE)
    | _ => none

def evalBinaryOp? (op : BinOp) (left right : GqlValue) : Option GqlValue :=
  match op with
  | .lt | .gt | .ltEq | .gtEq => platform.evalComparison? left op right
  | .add | .sub | .mul | .div => platform.evalArithmetic? left op right
  | op => some (evalBinaryOp platform op left right)

theorem settles_evalIntArithmetic? {op : BinOp} (left right : Int)
    (arithmetic : op = .add ∨ op = .sub ∨ op = .mul ∨ op = .div) :
    At (evalIntArithmetic? left op right) (evalIntArithmetic left op right)
      ¬DivisionOverflows op (.int left) (.int right) := by
  rcases arithmetic with rfl | rfl | rfl | rfl
  · exact (At.pure _).congr (iff_of_true trivial nofun)
  · exact (At.pure _).congr (iff_of_true trivial nofun)
  · exact (At.pure _).congr (iff_of_true trivial nofun)
  · have overflows : DivisionOverflows .div (.int left) (.int right) ↔
        left = -2 ^ 63 ∧ right = -1 := by
      simp only [DivisionOverflows, GqlValue.int.injEq, true_and]
    rw [overflows, evalIntArithmetic?]
    by_cases zero : right = 0
    · have fine : ¬(left = -2 ^ 63 ∧ right = -1) := by omega
      rw [if_pos zero, evalIntArithmetic, if_pos zero]
      exact (At.pure _).congr (iff_of_true trivial fine)
    · rw [if_neg zero]
      by_cases beyond : left = -2 ^ 63 ∧ right = -1
      · rw [if_pos beyond]
        exact ⟨fun fine => absurd beyond fine, fun _ => rfl⟩
      · rw [if_neg beyond]
        exact (At.pure _).congr (iff_of_true trivial beyond)

theorem settles_evalArithmetic? {op : BinOp} (left right : GqlValue)
    (arithmetic : op = .add ∨ op = .sub ∨ op = .mul ∨ op = .div) :
    At (platform.evalArithmetic? left op right) (evalArithmetic platform left op right)
      ¬DivisionOverflows op left right := by
  have floats : ∀ l r, platform.evalFloatArithmetic? l op r =
      some (evalFloatArithmetic platform l op r) := by
    intro l r
    rcases arithmetic with rfl | rfl | rfl | rfl <;> rfl
  have other : ∀ {x : Option GqlValue} {a : GqlValue}, x = some a →
      ¬(left = .int (-2 ^ 63) ∧ right = .int (-1)) → At x a ¬DivisionOverflows op left right := by
    intro x a has fine
    rw [has]
    exact (At.pure a).congr (iff_of_true trivial fun overflows => fine overflows.2)
  cases left <;> cases right
  all_goals first
    | exact settles_evalIntArithmetic? _ _ arithmetic
    | exact other (floats _ _) (by simp)
    | exact other rfl (by simp)

theorem evalComparison?_eq (left right : GqlValue) :
    platform.evalComparison? left .lt right =
        some (evalComparison platform left Ordering.isLT right) ∧
      platform.evalComparison? left .gt right =
        some (evalComparison platform left Ordering.isGT right) ∧
      platform.evalComparison? left .ltEq right =
        some (evalComparison platform left Ordering.isLE right) ∧
      platform.evalComparison? left .gtEq right =
        some (evalComparison platform left Ordering.isGE right) := by
  unfold evalComparison? evalComparison
  cases gqlValueCmp platform.comparing left right with
  | none => exact ⟨rfl, rfl, rfl, rfl⟩
  | some compared => exact ⟨rfl, rfl, rfl, rfl⟩

theorem settles_evalBinaryOp? (op : BinOp) (left right : GqlValue) :
    At (platform.evalBinaryOp? op left right) (evalBinaryOp platform op left right)
      ¬DivisionOverflows op left right := by
  have other : ∀ {x : Option GqlValue} {a : GqlValue}, x = some a → op ≠ .div →
      At x a ¬DivisionOverflows op left right := by
    intro x a has ne
    rw [has]
    exact (At.pure a).congr (iff_of_true trivial fun overflows => ne overflows.1)
  obtain ⟨lt, gt, ltEq, gtEq⟩ := platform.evalComparison?_eq left right
  cases op with
  | add => exact platform.settles_evalArithmetic? left right (.inl rfl)
  | sub => exact platform.settles_evalArithmetic? left right (.inr (.inl rfl))
  | mul => exact platform.settles_evalArithmetic? left right (.inr (.inr (.inl rfl)))
  | div => exact platform.settles_evalArithmetic? left right (.inr (.inr (.inr rfl)))
  | lt => exact other lt nofun
  | gt => exact other gt nofun
  | ltEq => exact other ltEq nofun
  | gtEq => exact other gtEq nofun
  | _ => exact other rfl nofun

/-- What a call comes to, whose other functions do not evaluate their arguments. -/
def callValue (name : String) (values : List GqlValue) (otherwise : GqlValue) : GqlValue :=
  match name with
  | "range" => computeRangeOf values
  | "size" => values.head?.elim .null computeSize
  | "tolower" => values.head?.elim .null (computeToLower platform)
  | "toupper" => values.head?.elim .null (computeToUpper platform)
  | "coalesce" => computeCoalesce values
  | _ => otherwise

/-- A range evaluates two arguments, and some functions the first alone. -/
def evalCall? (name : String) (count : Nat) (all : Option (List GqlValue))
    (first : Option (Option GqlValue)) (otherwise : GqlValue) : Option GqlValue :=
  match name with
  | "range" => if count = 2 then all.map computeRangeOf else some .null
  | "size" => first.map fun value => value.elim .null computeSize
  | "tolower" => first.map fun value => value.elim .null (computeToLower platform)
  | "toupper" => first.map fun value => value.elim .null (computeToUpper platform)
  | "coalesce" => all.map computeCoalesce
  | _ => some otherwise

def CallSafe (name : String) (count : Nat) (all first : Prop) : Prop :=
  match name with
  | "range" => count = 2 → all
  | "size" | "tolower" | "toupper" => first
  | "coalesce" => all
  | _ => True

theorem settles_evalCall? {name : String} {all : Option (List GqlValue)}
    {first : Option (Option GqlValue)} {values : List GqlValue} {allSafe firstSafe : Prop}
    (everyArg : At all values allSafe) (firstArg : At first values.head? firstSafe)
    (otherwise : GqlValue) :
    At (platform.evalCall? name values.length all first otherwise)
      (platform.callValue name values otherwise)
      (CallSafe name values.length allSafe firstSafe) := by
  unfold evalCall? callValue CallSafe
  split
  · by_cases two : values.length = 2
    · rw [if_pos two]
      exact (everyArg.map computeRangeOf).congr ⟨fun safe _ => safe, fun safe => safe two⟩
    · rw [if_neg two, computeRangeOf_of_length two]
      exact (At.pure _).congr (iff_of_true trivial fun same => absurd same two)
  · exact firstArg.map fun value => value.elim .null computeSize
  · exact firstArg.map fun value => value.elim .null (computeToLower platform)
  · exact firstArg.map fun value => value.elim .null (computeToUpper platform)
  · exact everyArg.map computeCoalesce
  · exact At.pure otherwise

variable (graph : GraphAccess)

/-- A function of what a variable stands for, in a row of a pipeline. -/
def entityCall (name : String) (args : List Expr) (b : Binding) : GqlValue :=
  match name with
  | "id" | "type" | "labels" | "properties" | "shortestpath" | "nodes" | "relationships"
  | "length" => evalEntityFunction graph name args b.pm fun _ => none
  | _ => .null

theorem evalBuiltinFunctionCall_eq (name : String) (args : List Expr) (values : List GqlValue)
    (b : Binding) : platform.evalBuiltinFunctionCall graph name args values b =
      platform.callValue name values (entityCall graph name args b) := by
  unfold evalBuiltinFunctionCall callValue entityCall
  split
  all_goals first | rfl | simp_all

theorem evalFunctionCall_eq (name : String) (args : List Expr) (values : List GqlValue)
    (row : PatternMatch) (paths : PathBindings) :
    platform.evalFunctionCall graph name args values row paths =
      platform.callValue name values (evalEntityFunction graph name args row paths) := by
  unfold evalFunctionCall callValue
  split
  all_goals first | rfl | simp_all

section Expressions

variable (debug : Bool)

mutual

/-- A value in a row of a pipeline. A parameter that is left is an assertion that fails. -/
def evalExprOnBinding? (b : Binding) : Expr → Option GqlValue
  | .literal lit => some (compileLiteral lit)
  | .var name => some ((b.vals name).getD (entityValue b.pm name))
  | .binaryOp left op right =>
    (evalExprOnBinding? b left).bind fun lv =>
      (evalExprOnBinding? b right).bind fun rv => platform.evalBinaryOp? op lv rv
  | .unaryOp op expr => (evalExprOnBinding? b expr).map (evalUnaryOp op)
  | .isNull expr negated =>
    (evalExprOnBinding? b expr).map fun value =>
      .bool (if negated then !value.isNull else value.isNull)
  | .aggregate _ _ => some .null
  | .listLit items => (evalExprsOnBinding? b items).map .list
  | .subscript list index =>
    (evalExprOnBinding? b list).bind fun listValue =>
      (evalExprOnBinding? b index).map fun indexValue => evalSubscript listValue indexValue
  | .functionCall name args =>
    platform.evalCall? name args.length (evalExprsOnBinding? b args) (evalFirstOnBinding? b args)
      (entityCall graph name args b)
  | .listPredicate kind var list predicate =>
    (evalExprOnBinding? b list).bind fun value =>
      match value with
      | .list items =>
        (items.mapM fun item => evalExprOnBinding? (b.bindValue var item) predicate).map
          fun truths => applyListQuantifier kind truths evalAsTribool
      | _ => some .null
  | .propAccess var prop => some (evalExprOnBinding platform graph b (.propAccess var prop))
  | .shortestPath pattern => some (evalShortestPathPattern graph pattern b.pm)
  | .paramRef _ => if debug then none else some .null

def evalExprsOnBinding? (b : Binding) : List Expr → Option (List GqlValue)
  | [] => some []
  | expr :: rest =>
    (evalExprOnBinding? b expr).bind fun value =>
      (evalExprsOnBinding? b rest).map fun values => value :: values

def evalFirstOnBinding? (b : Binding) : List Expr → Option (Option GqlValue)
  | [] => some none
  | expr :: _ => (evalExprOnBinding? b expr).map some

end

mutual

/-- No division that is come to overflows, and no parameter is left to assert on. -/
def SafeOnBinding (b : Binding) : Expr → Prop
  | .binaryOp left op right =>
    SafeOnBinding b left ∧ SafeOnBinding b right ∧
      ¬DivisionOverflows op (platform.evalExprOnBinding graph b left)
        (platform.evalExprOnBinding graph b right)
  | .unaryOp _ expr => SafeOnBinding b expr
  | .isNull expr _ => SafeOnBinding b expr
  | .listLit items => AllSafeOnBinding b items
  | .subscript list index => SafeOnBinding b list ∧ SafeOnBinding b index
  | .functionCall name args =>
    CallSafe name args.length (AllSafeOnBinding b args) (FirstSafeOnBinding b args)
  | .listPredicate _ var list predicate =>
    SafeOnBinding b list ∧ ∀ items, platform.evalExprOnBinding graph b list = .list items →
        ∀ item ∈ items, SafeOnBinding (b.bindValue var item) predicate
  | .paramRef _ => debug = false
  | .literal _ | .var _ | .aggregate _ _ | .propAccess _ _ | .shortestPath _ => True

def AllSafeOnBinding (b : Binding) : List Expr → Prop
  | [] => True
  | expr :: rest => SafeOnBinding b expr ∧ AllSafeOnBinding b rest

def FirstSafeOnBinding (b : Binding) : List Expr → Prop
  | [] => True
  | expr :: _ => SafeOnBinding b expr

end

theorem length_evalExprsOnBinding (b : Binding) (exprs : List Expr) :
    (platform.evalExprsOnBinding graph b exprs).length = exprs.length := by
  induction exprs with
  | nil => rfl
  | cons expr rest ih => rw [evalExprsOnBinding, List.length_cons, List.length_cons, ih]

variable (kind : ListPredKind)

theorem applyListQuantifier_map (items : List GqlValue) (value : GqlValue → GqlValue) :
    applyListQuantifier kind (items.map value) evalAsTribool =
      applyListQuantifier kind items fun item => evalAsTribool (value item) := by
  unfold applyListQuantifier
  simp only [List.countP_map, Function.comp_def]

theorem settles_paramRef :
    At (if debug then none else some GqlValue.null) .null (debug = false) := by
  cases debug
  · exact (At.pure _).congr (iff_of_true trivial rfl)
  · exact ⟨nofun, fun _ => rfl⟩

/-- What a list predicate says of a value, as the elements are tested. -/
def quantified (kind : ListPredKind) (truth : GqlValue → GqlValue) : GqlValue → GqlValue
  | .list items => applyListQuantifier kind items fun item => evalAsTribool (truth item)
  | _ => .null

theorem settles_quantified {list : Option GqlValue} {value : GqlValue} {safe : Prop}
    (settles : At list value safe) {test : GqlValue → Option GqlValue} {truth : GqlValue → GqlValue}
    {tested : GqlValue → Prop} (each : ∀ item, At (test item) (truth item) (tested item)) :
    At (list.bind fun value =>
        match value with
        | .list items =>
          (items.mapM test).map fun truths => applyListQuantifier kind truths evalAsTribool
        | _ => some .null)
      (quantified kind truth value)
      (safe ∧ ∀ items, value = .list items → ∀ item ∈ items, tested item) := by
  apply settles.bind
  cases value with
  | list items =>
    have tests : At (items.mapM test) (items.map truth) (∀ item ∈ items, tested item) :=
      At.mapM fun item _ => each item
    have all := tests.map fun truths => applyListQuantifier kind truths evalAsTribool
    rw [applyListQuantifier_map] at all
    rw [quantified]
    exact all.congr ⟨fun every _ same => by cases same; exact every, fun every => every items rfl⟩
  | _ => exact (At.pure _).congr (iff_of_true trivial (by rintro _ ⟨⟩))

mutual

theorem settles_onBinding : ∀ (expr : Expr) (b : Binding),
    At (evalExprOnBinding? platform graph debug b expr) (platform.evalExprOnBinding graph b expr)
      (SafeOnBinding platform graph debug b expr)
  | .literal _, _ | .var _, _ | .aggregate _ _, _ | .propAccess _ _, _ | .shortestPath _, _ =>
    At.pure _
  | .binaryOp left op right, b =>
    (settles_onBinding left b).bind ((settles_onBinding right b).bind
      (platform.settles_evalBinaryOp? op _ _))
  | .unaryOp op expr, b => (settles_onBinding expr b).map (evalUnaryOp op)
  | .isNull expr _, b => (settles_onBinding expr b).map _
  | .listLit items, b => (settles_allOnBinding items b).map GqlValue.list
  | .subscript list index, b =>
    (settles_onBinding list b).bind ((settles_onBinding index b).map _)
  | .functionCall name args, b => by
    rw [evalExprOnBinding?, evalExprOnBinding, evalBuiltinFunctionCall_eq, SafeOnBinding,
      ← length_evalExprsOnBinding platform graph b args]
    exact platform.settles_evalCall? (settles_allOnBinding args b) (settles_firstOnBinding args b)
      (entityCall graph name args b)
  | .listPredicate kind var list predicate, b => by
    have each (item : GqlValue) := settles_onBinding predicate (b.bindValue var item)
    rw [evalExprOnBinding?, evalExprOnBinding, SafeOnBinding]
    exact settles_quantified kind (settles_onBinding list b) each
  | .paramRef _, _ => settles_paramRef debug

theorem settles_allOnBinding : ∀ (exprs : List Expr) (b : Binding),
    At (evalExprsOnBinding? platform graph debug b exprs)
      (platform.evalExprsOnBinding graph b exprs)
      (AllSafeOnBinding platform graph debug b exprs)
  | [], _ => At.pure _
  | expr :: rest, b => (settles_onBinding expr b).bind ((settles_allOnBinding rest b).map _)

theorem settles_firstOnBinding : ∀ (exprs : List Expr) (b : Binding),
    At (evalFirstOnBinding? platform graph debug b exprs)
      (platform.evalExprsOnBinding graph b exprs).head?
      (FirstSafeOnBinding platform graph debug b exprs)
  | [], _ => At.pure _
  | expr :: _, b => (settles_onBinding expr b).map some

end

mutual

def evalExpr? (row : PatternMatch) (paths : PathBindings) : Expr → Option GqlValue
  | .literal lit => some (compileLiteral lit)
  | .paramRef _ => if debug then none else some .null
  | .var name => some ((paths name).elim (entityValue row name) .path)
  | .aggregate _ _ => some .null
  | .propAccess var prop => some (entityProperty row var prop)
  | .binaryOp left op right =>
    (evalExpr? row paths left).bind fun lv =>
      (evalExpr? row paths right).bind fun rv => platform.evalBinaryOp? op lv rv
  | .unaryOp op expr => (evalExpr? row paths expr).map (evalUnaryOp op)
  | .isNull expr negated =>
    (evalExpr? row paths expr).map fun value =>
      .bool (if negated then !value.isNull else value.isNull)
  | .functionCall name args =>
    platform.evalCall? name args.length (evalExprs? row paths args) (evalFirst? row paths args)
      (evalEntityFunction graph name args row paths)
  | .shortestPath pattern => some (evalShortestPathPattern graph pattern row)
  | .listLit items => (evalExprs? row paths items).map .list
  | .subscript list index =>
    (evalExpr? row paths list).bind fun listValue =>
      (evalExpr? row paths index).map fun indexValue => evalSubscript listValue indexValue
  | .listPredicate kind var list predicate =>
    (evalExpr? row paths list).bind fun value =>
      match value with
      | .list items =>
        (items.mapM fun item =>
          platform.evalExprOnBinding? graph debug (Binding.bindValue { pm := row } var item)
            predicate).map
          fun truths => applyListQuantifier kind truths evalAsTribool
      | _ => some .null

def evalExprs? (row : PatternMatch) (paths : PathBindings) :
    List Expr → Option (List GqlValue)
  | [] => some []
  | expr :: rest =>
    (evalExpr? row paths expr).bind fun value =>
      (evalExprs? row paths rest).map fun values => value :: values

def evalFirst? (row : PatternMatch) (paths : PathBindings) :
    List Expr → Option (Option GqlValue)
  | [] => some none
  | expr :: _ => (evalExpr? row paths expr).map some

end

mutual

def SafeOnRow (row : PatternMatch) (paths : PathBindings) : Expr → Prop
  | .binaryOp left op right =>
    SafeOnRow row paths left ∧ SafeOnRow row paths right ∧
      ¬DivisionOverflows op (platform.evalExpr graph row paths left)
        (platform.evalExpr graph row paths right)
  | .unaryOp _ expr => SafeOnRow row paths expr
  | .isNull expr _ => SafeOnRow row paths expr
  | .listLit items => AllSafeOnRow row paths items
  | .subscript list index => SafeOnRow row paths list ∧ SafeOnRow row paths index
  | .functionCall name args =>
    CallSafe name args.length (AllSafeOnRow row paths args) (FirstSafeOnRow row paths args)
  | .listPredicate _ var list predicate =>
    SafeOnRow row paths list ∧
      ∀ items, platform.evalExpr graph row paths list = .list items → ∀ item ∈ items,
        platform.SafeOnBinding graph debug (Binding.bindValue { pm := row } var item) predicate
  | .paramRef _ => debug = false
  | .literal _ | .var _ | .aggregate _ _ | .propAccess _ _ | .shortestPath _ => True

def AllSafeOnRow (row : PatternMatch) (paths : PathBindings) : List Expr → Prop
  | [] => True
  | expr :: rest => SafeOnRow row paths expr ∧ AllSafeOnRow row paths rest

def FirstSafeOnRow (row : PatternMatch) (paths : PathBindings) : List Expr → Prop
  | [] => True
  | expr :: _ => SafeOnRow row paths expr

end

theorem length_evalExprs (row : PatternMatch) (paths : PathBindings) (exprs : List Expr) :
    (platform.evalExprs graph row paths exprs).length = exprs.length := by
  induction exprs with
  | nil => rfl
  | cons expr rest ih => rw [evalExprs, List.length_cons, List.length_cons, ih]

section Row

variable (row : PatternMatch) (paths : PathBindings)

mutual

theorem settles_onRow : ∀ expr : Expr,
    At (evalExpr? platform graph debug row paths expr) (platform.evalExpr graph row paths expr)
      (SafeOnRow platform graph debug row paths expr)
  | .literal _ | .var _ | .aggregate _ _ | .propAccess _ _ | .shortestPath _ => At.pure _
  | .binaryOp left op right =>
    (settles_onRow left).bind ((settles_onRow right).bind (platform.settles_evalBinaryOp? op _ _))
  | .unaryOp op expr => (settles_onRow expr).map (evalUnaryOp op)
  | .isNull expr _ => (settles_onRow expr).map _
  | .listLit items => (settles_allOnRow items).map GqlValue.list
  | .subscript list index => (settles_onRow list).bind ((settles_onRow index).map _)
  | .functionCall name args => by
    rw [evalExpr?, evalExpr, evalFunctionCall_eq, SafeOnRow,
      ← length_evalExprs platform graph row paths args]
    exact platform.settles_evalCall? (settles_allOnRow args) (settles_firstOnRow args)
      (evalEntityFunction graph name args row paths)
  | .listPredicate kind var list predicate => by
    have each (item : GqlValue) := platform.settles_onBinding graph debug predicate
      (Binding.bindValue { pm := row } var item)
    rw [evalExpr?, evalExpr, SafeOnRow]
    exact settles_quantified kind (settles_onRow list) each
  | .paramRef _ => settles_paramRef debug

theorem settles_allOnRow : ∀ exprs : List Expr, At (evalExprs? platform graph debug row paths exprs)
      (platform.evalExprs graph row paths exprs)
      (AllSafeOnRow platform graph debug row paths exprs)
  | [] => At.pure _
  | expr :: rest => (settles_onRow expr).bind ((settles_allOnRow rest).map _)

theorem settles_firstOnRow : ∀ exprs : List Expr,
    At (evalFirst? platform graph debug row paths exprs)
      (platform.evalExprs graph row paths exprs).head?
      (FirstSafeOnRow platform graph debug row paths exprs)
  | [] => At.pure _
  | expr :: _ => (settles_onRow expr).map some

end

end Row

def evalExprWithUnwindVar? (row : PatternMatch) (unwindVar : String) (elem : GqlValue) :
    Expr → Option GqlValue
  | .var name =>
    if name = unwindVar then some elem
    else platform.evalExpr? graph debug row (fun _ => none) (.var name)
  | .propAccess var prop =>
    if var = unwindVar then some .null
    else platform.evalExpr? graph debug row (fun _ => none) (.propAccess var prop)
  | .binaryOp left op right =>
    (evalExprWithUnwindVar? row unwindVar elem left).bind fun lv =>
      (evalExprWithUnwindVar? row unwindVar elem right).bind fun rv =>
        platform.evalBinaryOp? op lv rv
  | .unaryOp op expr => (evalExprWithUnwindVar? row unwindVar elem expr).map (evalUnaryOp op)
  | .isNull expr negated =>
    (evalExprWithUnwindVar? row unwindVar elem expr).map fun value =>
      .bool (if negated then !value.isNull else value.isNull)
  | expr => platform.evalExpr? graph debug row (fun _ => none) expr

def SafeUnwound (row : PatternMatch) (unwindVar : String) (elem : GqlValue) : Expr → Prop
  | .var _ | .propAccess _ _ => True
  | .binaryOp left op right =>
    SafeUnwound row unwindVar elem left ∧ SafeUnwound row unwindVar elem right ∧
      ¬DivisionOverflows op (platform.evalExprWithUnwindVar graph row unwindVar elem left)
        (platform.evalExprWithUnwindVar graph row unwindVar elem right)
  | .unaryOp _ expr => SafeUnwound row unwindVar elem expr
  | .isNull expr _ => SafeUnwound row unwindVar elem expr
  | expr => platform.SafeOnRow graph debug row (fun _ => none) expr

theorem settles_unwound (row : PatternMatch) (unwindVar : String) (elem : GqlValue) :
    ∀ expr : Expr, At (platform.evalExprWithUnwindVar? graph debug row unwindVar elem expr)
        (platform.evalExprWithUnwindVar graph row unwindVar elem expr)
        (platform.SafeUnwound graph debug row unwindVar elem expr)
  | .var name => by
    rw [evalExprWithUnwindVar?, evalExprWithUnwindVar]
    split
    · exact At.pure elem
    · exact settles_onRow platform graph debug row _ (.var name)
  | .propAccess var prop => by
    rw [evalExprWithUnwindVar?, evalExprWithUnwindVar]
    split
    · exact At.pure _
    · exact settles_onRow platform graph debug row _ (.propAccess var prop)
  | .binaryOp left op right =>
    (settles_unwound row unwindVar elem left).bind
      ((settles_unwound row unwindVar elem right).bind (platform.settles_evalBinaryOp? op _ _))
  | .unaryOp op expr => (settles_unwound row unwindVar elem expr).map (evalUnaryOp op)
  | .isNull expr _ => (settles_unwound row unwindVar elem expr).map _
  | .literal lit => settles_onRow platform graph debug row _ (.literal lit)
  | .aggregate func arg => settles_onRow platform graph debug row _ (.aggregate func arg)
  | .functionCall name args => settles_onRow platform graph debug row _ (.functionCall name args)
  | .listPredicate kind var list predicate =>
    settles_onRow platform graph debug row _ (.listPredicate kind var list predicate)
  | .shortestPath pattern => settles_onRow platform graph debug row _ (.shortestPath pattern)
  | .subscript list index => settles_onRow platform graph debug row _ (.subscript list index)
  | .listLit items => settles_onRow platform graph debug row _ (.listLit items)
  | .paramRef ref => settles_onRow platform graph debug row _ (.paramRef ref)

end Expressions

end Platform

end ErmyaGraph.Gql
