import ErmyaGraph.Gql.Evaluate

/-! # The evaluators agree

A variable for an element can be bound to its value, or the value can be written
in its place. The evaluator for unwound elements looks the variable up below
operators only. -/

namespace ErmyaGraph.Gql

open Function Option Binding

variable {x : String} {row : PatternMatch}

mutual

/-- An expression with a literal for a variable. Where only a name can stand it stays, and so does
the variable that a list predicate introduces. -/
def Expr.replace (x : String) (lit : Literal) : Expr → Expr
  | .var name => if name = x then .literal lit else .var name
  | .binaryOp left op right => .binaryOp (left.replace x lit) op (right.replace x lit)
  | .unaryOp op expr => .unaryOp op (expr.replace x lit)
  | .isNull expr negated => .isNull (expr.replace x lit) negated
  | .functionCall name args => .functionCall name (replaceAll x lit args)
  | .listPredicate kind var list predicate =>
    .listPredicate kind var (list.replace x lit)
      (if var = x then predicate else predicate.replace x lit)
  | .subscript list index => .subscript (list.replace x lit) (index.replace x lit)
  | .listLit items => .listLit (replaceAll x lit items)
  | expr => expr

def replaceAll (x : String) (lit : Literal) : List Expr → List Expr
  | [] => []
  | expr :: rest => expr.replace x lit :: replaceAll x lit rest

end

/-- Whether a function looks at the value of an argument that is marked. -/
def lookedAt (name : String) (marks : List Bool) : Bool :=
  match name with
  | "range" => marks.length = 2 && marks.any id
  | "size" | "tolower" | "toupper" => marks.head?.getD false
  | "coalesce" => marks.any id
  | _ => false

mutual

/-- An expression looks at the value of a variable. A function of an entity looks at its name
alone, and literals have no properties. -/
def Expr.reads (x : String) : Expr → Bool
  | .var name => name = x
  | .binaryOp left _ right => left.reads x || right.reads x
  | .unaryOp _ expr => expr.reads x
  | .isNull expr _ => expr.reads x
  | .functionCall name args => lookedAt name (readsEach x args)
  | .listPredicate _ var list predicate =>
    list.reads x || (var ≠ x && predicate.reads x)
  | .subscript list index => list.reads x || index.reads x
  | .listLit items => (readsEach x items).any id
  | _ => false

def readsEach (x : String) : List Expr → List Bool
  | [] => []
  | expr :: rest => expr.reads x :: readsEach x rest

end

/-- Something other than an operator looks at the value of a variable. -/
def Expr.losesVar (x : String) : Expr → Bool
  | .var _ => false
  | .binaryOp left _ right => left.losesVar x || right.losesVar x
  | .unaryOp _ expr => expr.losesVar x
  | .isNull expr _ => expr.losesVar x
  | expr => expr.reads x

/-- A row of a match does not bind a variable. -/
structure PatternMatch.Free (row : PatternMatch) (x : String) : Prop where
  nodes : row.nodes x = none
  edges : row.edges x = none

structure Binding.Free (b : Binding) (x : String) : Prop where
  vals : b.vals x = none
  pm : b.pm.Free x

theorem Binding.bindValue_self (b : Binding) (x : String) (value other : GqlValue) :
    (b.bindValue x value).bindValue x other = b.bindValue x other := by
  simp only [bindValue, update_idem]

theorem Binding.bindValue_comm (b : Binding) {var : String} (ne : var ≠ x)
    (value item : GqlValue) :
    (b.bindValue x value).bindValue var item = (b.bindValue var item).bindValue x value := by
  simp only [bindValue, update_comm ne]

theorem Binding.Free.bindValue {b : Binding} {var : String} (free : b.Free x) (ne : var ≠ x)
    (item : GqlValue) : (b.bindValue var item).Free x :=
  ⟨by simp only [Binding.bindValue, update_of_ne ne.symm, free.vals], free.pm⟩

namespace Platform

theorem entityValue_of_free (free : row.Free x) : entityValue row x = .null := by
  simp only [entityValue, free.nodes, free.edges, elim_none]

theorem entityProperty_of_free (free : row.Free x) (prop : String) :
    entityProperty row x prop = .null := by
  simp only [entityProperty, free.nodes, free.edges, elim_none]

variable (platform : Platform) (graph : GraphAccess)

theorem property_of_literal (b : Binding) (x prop : String) (lit : Literal) :
    platform.evalExprOnBinding graph (b.bindValue x (compileLiteral lit)) (.propAccess x prop) =
      .null := by
  cases lit <;>
    simp only [evalExprOnBinding, bindValue, update_self, compileLiteral]

variable (args : List Expr)

theorem evalEntityFunction_unknown {name : String} (row : PatternMatch) (paths : PathBindings)
    (unknown : name ∉ ["id", "type", "labels", "properties", "shortestpath", "nodes",
      "relationships", "length"]) : evalEntityFunction graph name args row paths = .null := by
  simp only [List.mem_cons, List.not_mem_nil, or_false, not_or] at unknown
  unfold evalEntityFunction
  split <;> simp_all only [not_true_eq_false, and_false, false_and]

variable (name : String)

theorem evalFunctionCall_noPaths (args : List Expr) (values : List GqlValue) (row : PatternMatch) :
    evalFunctionCall platform graph name args values row (fun _ => none) =
      evalBuiltinFunctionCall platform graph name args values { pm := row } := by
  unfold evalFunctionCall
  split
  case h_6 unranged unsized unlowered unuppered uncoalesced =>
    unfold evalBuiltinFunctionCall
    split
    case h_14 =>
      apply evalEntityFunction_unknown
      simp_all only [List.mem_cons, List.not_mem_nil, imp_false, not_false_eq_true, or_false]
    all_goals first
      | rfl
      | contradiction
  all_goals rfl

mutual

theorem evalExpr_noPaths (row : PatternMatch) : (expr : Expr) →
    evalExpr platform graph row (fun _ => none) expr =
      evalExprOnBinding platform graph { pm := row } expr
  | .literal _ | .var _ | .aggregate _ _ | .shortestPath _ | .paramRef _ | .propAccess _ _ => rfl
  | .binaryOp left op right => by
    simp only [evalExpr, evalExprOnBinding, evalExpr_noPaths row left, evalExpr_noPaths row right]
  | .unaryOp op expr => by
    simp only [evalExpr, evalExprOnBinding, evalExpr_noPaths row expr]
  | .isNull expr negated => by
    simp only [evalExpr, evalExprOnBinding, evalExpr_noPaths row expr]
  | .functionCall name args => by
    simp only [evalExpr, evalExprOnBinding, evalExprs_noPaths row args, evalFunctionCall_noPaths]
  | .listLit items => by
    simp only [evalExpr, evalExprOnBinding, evalExprs_noPaths row items]
  | .subscript list index => by
    simp only [evalExpr, evalExprOnBinding, evalExpr_noPaths row list, evalExpr_noPaths row index]
  | .listPredicate kind var list predicate => by
    simp only [evalExpr, evalExprOnBinding, evalExpr_noPaths row list]

theorem evalExprs_noPaths (row : PatternMatch) : (exprs : List Expr) →
    evalExprs platform graph row (fun _ => none) exprs =
      evalExprsOnBinding platform graph { pm := row } exprs
  | [] => rfl
  | expr :: rest => by
    simp only [evalExprs, evalExprsOnBinding, evalExpr_noPaths row expr, evalExprs_noPaths row rest]

end

theorem getElem?_replaceAll (x : String) (lit : Literal) (args : List Expr) (i : Nat) :
    (replaceAll x lit args)[i]? = args[i]?.map (Expr.replace x lit) := by
  induction args generalizing i with
  | nil => simp only [replaceAll, List.getElem?_nil, map_none]
  | cons expr rest ih =>
    cases i with
    | zero => simp only [replaceAll, List.getElem?_cons_zero, map_some]
    | succ i => simp only [replaceAll, List.getElem?_cons_succ, ih]

theorem argVar_replaceAll {α : Type} (lit : Literal) (args : List Expr) (i : Nat)
    {lookup : String → Option α} (free : lookup x = none) :
    (argVar (replaceAll x lit args) i).bind lookup = (argVar args i).bind lookup := by
  unfold argVar
  rw [getElem?_replaceAll]
  cases args[i]? with
  | none => rfl
  | some arg =>
    cases arg with
    | var name =>
      by_cases same : name = x
      · subst same
        simp only [map_some, Expr.replace, if_true, bind_none, bind_some, free]
      · simp only [map_some, Expr.replace, if_neg same]
    | _ => simp only [map_some, Expr.replace]

theorem evalEntityFunction_replaceAll (args : List Expr) (free : row.Free x) (lit : Literal) :
    evalEntityFunction graph name (replaceAll x lit args) row (fun _ => none) =
      evalEntityFunction graph name args row (fun _ => none) := by
  simp only [evalEntityFunction, evalShortestPath, argVar_replaceAll lit args _ free.nodes,
    argVar_replaceAll lit args _ free.edges, bind_fun_none]

theorem evalBuiltinFunctionCall_replaceAll (args : List Expr) (values : List GqlValue) {b : Binding}
    (free : b.pm.Free x) (lit : Literal) (value : GqlValue) :
    evalBuiltinFunctionCall platform graph name (replaceAll x lit args) values b =
      evalBuiltinFunctionCall platform graph name args values (b.bindValue x value) := by
  unfold evalBuiltinFunctionCall
  split
  case h_6 | h_7 | h_8 | h_9 | h_10 | h_11 | h_12 | h_13 =>
    exact evalEntityFunction_replaceAll graph _ args free lit
  all_goals rfl

mutual

/-- A variable that is bound to a literal has the value of the literal. -/
theorem evalExprOnBinding_replace {b : Binding} (free : b.Free x) (lit : Literal) :
    (expr : Expr) →
    evalExprOnBinding platform graph b (expr.replace x lit) =
      evalExprOnBinding platform graph (b.bindValue x (compileLiteral lit)) expr
  | .literal _ | .aggregate _ _ | .shortestPath _ | .paramRef _ => rfl
  | .var name => by
    by_cases same : name = x
    · subst same
      simp only [Expr.replace, if_true, evalExprOnBinding, bindValue,
        update_self, getD_some]
    · simp only [Expr.replace, if_neg same, evalExprOnBinding, bindValue, update_of_ne same]
  | .propAccess var prop => by
    by_cases same : var = x
    · subst same
      rw [property_of_literal]
      simp only [Expr.replace, evalExprOnBinding, free.vals, entityProperty_of_free free.pm]
    · simp only [Expr.replace, evalExprOnBinding, bindValue, update_of_ne same]
  | .binaryOp left op right => by
    simp only [Expr.replace, evalExprOnBinding, evalExprOnBinding_replace free lit left,
      evalExprOnBinding_replace free lit right]
  | .unaryOp op expr => by
    simp only [Expr.replace, evalExprOnBinding, evalExprOnBinding_replace free lit expr]
  | .isNull expr negated => by
    simp only [Expr.replace, evalExprOnBinding, evalExprOnBinding_replace free lit expr]
  | .functionCall name args => by
    simp only [Expr.replace, evalExprOnBinding, evalExprsOnBinding_replace free lit args]
    exact evalBuiltinFunctionCall_replaceAll platform graph name args _ free.pm lit _
  | .listLit items => by
    simp only [Expr.replace, evalExprOnBinding, evalExprsOnBinding_replace free lit items]
  | .subscript list index => by
    simp only [Expr.replace, evalExprOnBinding, evalExprOnBinding_replace free lit list,
      evalExprOnBinding_replace free lit index]
  | .listPredicate kind var list predicate => by
    simp only [Expr.replace, evalExprOnBinding, evalExprOnBinding_replace free lit list]
    by_cases same : var = x
    · subst same
      simp only [if_true, bindValue_self]
    · have onward (item : GqlValue) := evalExprOnBinding_replace (free.bindValue same item) lit
        predicate
      simp only [if_neg same, onward, bindValue_comm b same]

theorem evalExprsOnBinding_replace {b : Binding} (free : b.Free x) (lit : Literal) :
    (exprs : List Expr) →
    evalExprsOnBinding platform graph b (replaceAll x lit exprs) =
      evalExprsOnBinding platform graph (b.bindValue x (compileLiteral lit)) exprs
  | [] => rfl
  | expr :: rest => by
    simp only [replaceAll, evalExprsOnBinding, evalExprOnBinding_replace free lit expr,
      evalExprsOnBinding_replace free lit rest]

end

/-- Values that agree where their arguments are not marked. -/
def SameUnmarked : List Bool → List GqlValue → List GqlValue → Prop
  | [], [], [] => True
  | mark :: marks, left :: lefts, right :: rights =>
    (mark = false → left = right) ∧ SameUnmarked marks lefts rights
  | _, _, _ => False

theorem SameUnmarked.lengths : {marks : List Bool} → {left right : List GqlValue} →
    SameUnmarked marks left right → left.length = marks.length ∧ right.length = marks.length
  | [], [], [], _ => ⟨rfl, rfl⟩
  | _ :: _, _ :: _, _ :: _, same => by
    have later := same.2.lengths
    simp only [List.length_cons, later, and_self]

theorem SameUnmarked.eq : {marks : List Bool} → {left right : List GqlValue} →
    SameUnmarked marks left right → marks.any id = false → left = right
  | [], [], [], _, _ => rfl
  | mark :: marks, _ :: _, _ :: _, same, unmarked => by
    rw [List.any_cons, Bool.or_eq_false_iff] at unmarked
    rw [same.1 unmarked.1, same.2.eq unmarked.2]

theorem SameUnmarked.head? : {marks : List Bool} → {left right : List GqlValue} →
    SameUnmarked marks left right → marks.head?.getD false = false → left.head? = right.head?
  | [], [], [], _, _ => rfl
  | _ :: _, _ :: _, _ :: _, same, unmarked => by
    rw [List.head?_cons, List.head?_cons, same.1 unmarked]

theorem evalBuiltinFunctionCall_unmarked {name : String} {marks : List Bool}
    {left right : List GqlValue} (same : SameUnmarked marks left right)
    (unmarked : lookedAt name marks = false) (b : Binding) (x : String) (value : GqlValue) :
    evalBuiltinFunctionCall platform graph name args left (b.bindValue x value) =
      evalBuiltinFunctionCall platform graph name args right b := by
  unfold evalBuiltinFunctionCall
  split
  case h_1 =>
    by_cases two : marks.length = 2
    · simp only [lookedAt, two, decide_true, Bool.true_and] at unmarked
      rw [same.eq unmarked]
    · have lengths := same.lengths
      rw [computeRangeOf_of_length (lengths.1 ▸ two), computeRangeOf_of_length (lengths.2 ▸ two)]
  case h_2 | h_3 | h_4 => rw [same.head? unmarked]
  case h_5 => rw [same.eq unmarked]
  all_goals rfl

mutual

/-- A variable that is bound to a literal is as good as none, if it is not looked at. -/
theorem evalExprOnBinding_unread {b : Binding} (free : b.Free x) (lit : Literal) :
    (expr : Expr) → lit = .null ∨ expr.reads x = false →
    evalExprOnBinding platform graph (b.bindValue x (compileLiteral lit)) expr =
      evalExprOnBinding platform graph b expr
  | .literal _, _ | .aggregate _ _, _ | .shortestPath _, _ | .paramRef _, _ => rfl
  | .var name, unread => by
    by_cases same : name = x
    · subst same
      obtain rfl := unread.resolve_right (by simp only [Expr.reads, decide_true, reduceCtorEq,
        not_false_eq_true])
      simp only [evalExprOnBinding, bindValue, update_self, getD_some,
        free.vals, getD_none, entityValue_of_free free.pm, compileLiteral]
    · simp only [evalExprOnBinding, bindValue, update_of_ne same]
  | .propAccess var prop, _ => by
    by_cases same : var = x
    · subst same
      rw [property_of_literal]
      simp only [evalExprOnBinding, free.vals, entityProperty_of_free free.pm]
    · simp only [evalExprOnBinding, bindValue, update_of_ne same]
  | .binaryOp left op right, unread => by
    simp only [Expr.reads, Bool.or_eq_false_iff] at unread
    simp only [evalExprOnBinding,
      evalExprOnBinding_unread free lit left (unread.imp_right And.left),
      evalExprOnBinding_unread free lit right (unread.imp_right And.right)]
  | .unaryOp op expr, unread => by
    simp only [evalExprOnBinding, evalExprOnBinding_unread free lit expr unread]
  | .isNull expr negated, unread => by
    simp only [evalExprOnBinding, evalExprOnBinding_unread free lit expr unread]
  | .functionCall name args, unread => by
    have both := evalExprsOnBinding_unread free lit args
    rcases unread with null | unread
    · simp only [evalExprOnBinding, both.1 null]
      rfl
    · exact evalBuiltinFunctionCall_unmarked platform graph args both.2 unread b x _
  | .listLit items, unread => by
    have both := evalExprsOnBinding_unread free lit items
    have same := unread.elim both.1 both.2.eq
    simp only [evalExprOnBinding, same]
  | .subscript list index, unread => by
    simp only [Expr.reads, Bool.or_eq_false_iff] at unread
    simp only [evalExprOnBinding,
      evalExprOnBinding_unread free lit list (unread.imp_right And.left),
      evalExprOnBinding_unread free lit index (unread.imp_right And.right)]
  | .listPredicate kind var list predicate, unread => by
    simp only [Expr.reads, Bool.or_eq_false_iff] at unread
    simp only [evalExprOnBinding,
      evalExprOnBinding_unread free lit list (unread.imp_right And.left)]
    by_cases same : var = x
    · subst same
      simp only [bindValue_self]
    · have inner : lit = .null ∨ predicate.reads x = false :=
        unread.imp_right fun both => by
          simpa only [ne_eq, same, not_false_eq_true, decide_true, Bool.true_and] using both.2
      have onward (item : GqlValue) :=
        evalExprOnBinding_unread (free.bindValue same item) lit predicate inner
      simp only [bindValue_comm b same, onward]

theorem evalExprsOnBinding_unread {b : Binding} (free : b.Free x) (lit : Literal) :
    (exprs : List Expr) →
    (lit = .null → evalExprsOnBinding platform graph (b.bindValue x (compileLiteral lit)) exprs =
        evalExprsOnBinding platform graph b exprs) ∧
    SameUnmarked (readsEach x exprs)
      (evalExprsOnBinding platform graph (b.bindValue x (compileLiteral lit)) exprs)
      (evalExprsOnBinding platform graph b exprs)
  | [] => ⟨fun _ => rfl, trivial⟩
  | expr :: rest => by
    have later := evalExprsOnBinding_unread free lit rest
    refine ⟨fun null => ?_, fun unread => ?_, later.2⟩
    · simp only [evalExprsOnBinding, evalExprOnBinding_unread free lit expr (.inl null),
        later.1 null]
    · exact evalExprOnBinding_unread free lit expr (.inr unread)

end

theorem evalExprWithUnwindVar_kept (free : row.Free x) (lit : Literal) (expr : Expr)
    (kept : lit = .null ∨ expr.losesVar x = false) :
    evalExprWithUnwindVar platform graph row x (compileLiteral lit) expr =
      evalExprOnBinding platform graph (bindValue { pm := row } x (compileLiteral lit))
        expr := by
  have unbound : ({ pm := row } : Binding).Free x := ⟨rfl, free⟩
  fun_induction evalExprWithUnwindVar platform graph row x (compileLiteral lit) expr with
  | case1 =>
    simp only [evalExprOnBinding, bindValue, update_self, getD_some]
  | case2 name ne =>
    simp only [evalExpr_noPaths, evalExprOnBinding, bindValue, update_of_ne ne]
  | case3 prop => rw [property_of_literal]
  | case4 var prop ne =>
    simp only [evalExpr_noPaths, evalExprOnBinding, bindValue, update_of_ne ne]
  | case5 left op right ihl ihr =>
    simp only [Expr.losesVar, Bool.or_eq_false_iff] at kept
    simp only [evalExprOnBinding, ihl (kept.imp_right And.left), ihr (kept.imp_right And.right)]
  | case6 op inner ih => simp only [evalExprOnBinding, ih kept]
  | case7 inner negated null ih => simp only [evalExprOnBinding, null, ih kept]
  | case8 expr unvar unprop unbinary ununary unnull =>
    have unread : lit = .null ∨ expr.reads x = false := by
      cases expr with
      | var name => exact absurd rfl (unvar name)
      | propAccess var prop => exact .inr rfl
      | binaryOp left op right => exact absurd rfl (unbinary left op right)
      | unaryOp op inner => exact absurd rfl (ununary op inner)
      | isNull inner negated => exact absurd rfl (unnull inner negated)
      | _ => exact kept
    rw [evalExpr_noPaths, evalExprOnBinding_unread platform graph unbound lit expr unread]

theorem evalExprsOnBinding_eq_map (b : Binding) (exprs : List Expr) :
    evalExprsOnBinding platform graph b exprs = exprs.map (evalExprOnBinding platform graph b) := by
  induction exprs with
  | nil => rfl
  | cons expr rest ih => rw [evalExprsOnBinding, List.map_cons, ih]

theorem compileLiteral_eq_null {lit : Literal} (null : compileLiteral lit = .null) :
    lit = .null := by
  cases lit <;> first | rfl | (simp only [compileLiteral, reduceCtorEq] at null)

theorem evalExprWithUnwindVar_listed (free : row.Free x) {lit : Literal} (present : lit ≠ .null)
    {items : List Expr} (listed : .var x ∈ items) :
    evalExprWithUnwindVar platform graph row x (compileLiteral lit) (.listLit items) ≠
      evalExprOnBinding platform graph (bindValue { pm := row } x (compileLiteral lit))
        (.listLit items) := by
  intro same
  simp only [evalExprWithUnwindVar, evalExpr_noPaths, evalExprOnBinding, GqlValue.list.injEq,
    evalExprsOnBinding_eq_map] at same
  have here := List.map_inj_left.mp same (.var x) listed
  simp only [evalExprOnBinding, getD_none, entityValue_of_free free, bindValue,
    update_self, getD_some] at here
  exact present (compileLiteral_eq_null here.symm)

/-- The evaluators agree on an expression, with a variable that is bound to a literal or replaced
by it. -/
structure Agree (row : PatternMatch) (x : String) (lit : Literal) (expr : Expr) : Prop where
  onBinding : evalExpr platform graph row (fun _ => none) expr =
    evalExprOnBinding platform graph { pm := row } expr
  replaced :
    evalExprOnBinding platform graph (bindValue { pm := row } x (compileLiteral lit)) expr =
      evalExpr platform graph row (fun _ => none) (expr.replace x lit)
  unwound : evalExprWithUnwindVar platform graph row x (compileLiteral lit) expr =
    evalExprOnBinding platform graph (bindValue { pm := row } x (compileLiteral lit)) expr

/-- Only the evaluator for unwound elements departs from the others. It does not where only
operators look at the variable or the element is null, and it does in a list literal with the
variable among its items. -/
theorem evaluators_agree {row : PatternMatch} {x : String} (free : row.Free x) (lit : Literal)
    (expr : Expr) :
    (platform.Agree graph row x lit expr ↔
      evalExprWithUnwindVar platform graph row x (compileLiteral lit) expr =
        evalExprOnBinding platform graph (bindValue { pm := row } x (compileLiteral lit))
          expr) ∧
    (lit = .null ∨ expr.losesVar x = false → platform.Agree graph row x lit expr) ∧
    ∀ items, expr = .listLit items → .var x ∈ items → lit ≠ .null →
      ¬platform.Agree graph row x lit expr := by
  have unbound : ({ pm := row } : Binding).Free x := ⟨rfl, free⟩
  have alone := platform.evalExpr_noPaths graph row expr
  have replaced := (platform.evalExprOnBinding_replace graph unbound lit expr).symm.trans
    (platform.evalExpr_noPaths graph row (expr.replace x lit)).symm
  refine ⟨⟨fun agree => agree.unwound, fun unwound => ⟨alone, replaced, unwound⟩⟩, ?_, ?_⟩
  · intro kept
    exact ⟨alone, replaced, platform.evalExprWithUnwindVar_kept graph free lit expr kept⟩
  · rintro items rfl listed present agree
    exact platform.evalExprWithUnwindVar_listed graph free present listed agree.unwound

end Platform

/-- Computes with integers. -/
def integers : Platform where
  ofInt _ := 0
  add _ _ := 0
  sub _ _ := 0
  mul _ _ := 0
  div _ _ := 0
  toLowercase text := text
  toUppercase text := text

def noNodes : PropertyGraph where
  nodes := []
  edges := []
  nodes_nodup := List.nodup_nil
  edges_nodup := List.nodup_nil
  ends := PropertyGraph.no_ends

/-- `x + 1` for `x = 1`. -/
theorem evaluators_agree_sum :
    integers.Agree noNodes.access {} "x" (.int 1) (.binaryOp (.var "x") .add (.literal (.int 1))) :=
  (integers.evaluators_agree noNodes.access ⟨rfl, rfl⟩ (.int 1) _).2.1 (.inr rfl)

/-- `[x]` for `x = 1`. -/
theorem unwound_list_differs :
    integers.evalExprWithUnwindVar noNodes.access {} "x" (.int 1) (.listLit [.var "x"]) =
        .list [.null] ∧
      integers.evalExprOnBinding noNodes.access (bindValue {} "x" (.int 1))
        (.listLit [.var "x"]) = .list [.int 1] ∧
      ¬integers.Agree noNodes.access {} "x" (.int 1) (.listLit [.var "x"]) := by
  refine ⟨rfl, rfl, fun agree => ?_⟩
  have same : GqlValue.list [.null] = .list [.int 1] := agree.unwound
  simp only [GqlValue.list.injEq, List.cons.injEq, reduceCtorEq, false_and] at same

end ErmyaGraph.Gql
