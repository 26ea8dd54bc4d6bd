import ErmyaGraph.Gql.Traps

/-! # Expressions apart from their row

An expression that looks up no variable of its row has one value in every row and
on every graph. -/

namespace ErmyaGraph.Gql

open List Function

variable {args : List Expr} {b b' : Binding} {x : String}

/-- The arguments that are variables. A function of an entity looks these up by name. -/
def varArgs (args : List Expr) : List String :=
  args.filterMap fun arg =>
    match arg with
    | .var name => some name
    | _ => none

mutual

/-- The variables that an expression looks up, apart from those of its list predicates. -/
def Expr.lookups (locals : List String) : Expr → List String
  | .var name => if name ∈ locals then [] else [name]
  | .propAccess var _ => if var ∈ locals then [] else [var]
  | .binaryOp left _ right => left.lookups locals ++ right.lookups locals
  | .unaryOp _ expr => expr.lookups locals
  | .isNull expr _ => expr.lookups locals
  | .functionCall _ args => varArgs args ++ lookupsOf locals args
  | .listPredicate _ var list predicate =>
    list.lookups locals ++ predicate.lookups (var :: locals)
  | .shortestPath pattern =>
    pattern.start.var.toList ++ pattern.hops.flatMap fun hop => hop.2.var.toList
  | .subscript list index => list.lookups locals ++ index.lookups locals
  | .listLit items => lookupsOf locals items
  | .literal _ | .paramRef _ | .aggregate _ _ => []

def lookupsOf (locals : List String) : List Expr → List String
  | [] => []
  | expr :: rest => expr.lookups locals ++ lookupsOf locals rest

end

namespace Platform

variable (platform : Platform)

theorem argVar_mem {i : Nat} {name : String} (is : argVar args i = some name) :
    name ∈ varArgs args := by
  unfold argVar at is
  split at is
  case h_1 found =>
    cases is
    exact mem_filterMap.mpr ⟨_, mem_of_getElem? found, rfl⟩
  case h_2 => cases is

theorem argVar_bind {α : Type} (i : Nat) {lookup : String → Option α}
    (free : ∀ x ∈ varArgs args, lookup x = none) : (argVar args i).bind lookup = none := by
  cases is : argVar args i with
  | none => rfl
  | some name => exact free name (argVar_mem is)

variable {row : PatternMatch} (graph : GraphAccess)

theorem evalEntityFunction_apart (name : String) {paths : PathBindings}
    (free : ∀ x ∈ varArgs args, row.Free x ∧ paths x = none) :
    evalEntityFunction graph name args row paths = .null := by
  have nodes (i : Nat) := argVar_bind i fun x mem => (free x mem).1.nodes
  have edges (i : Nat) := argVar_bind i fun x mem => (free x mem).1.edges
  have alongs (i : Nat) := argVar_bind i fun x mem => (free x mem).2
  unfold evalEntityFunction evalShortestPath
  simp only [nodes, edges, alongs, Option.elim_none]
  split <;> rfl

theorem entityCall_apart (name : String) (free : ∀ x ∈ varArgs args, b.pm.Free x) :
    entityCall graph name args b = .null := by
  unfold entityCall
  split
  all_goals first
    | exact evalEntityFunction_apart graph _ fun x mem => ⟨free x mem, rfl⟩
    | rfl

theorem evalShortestPathPattern_apart {pattern : PathPattern}
    (free : ∀ x ∈ pattern.start.var.toList, row.Free x) :
    evalShortestPathPattern graph pattern row = .null := by
  have start : pattern.start.var.bind row.nodes = none := by
    cases is : pattern.start.var with
    | none => rfl
    | some name => exact (free name (by rw [is]; exact mem_singleton_self name)).nodes
  unfold evalShortestPathPattern
  split
  · rw [start]
  · rfl

/-- Two rows that have the same value, if any, for a variable, which is no entity of theirs. -/
structure Alike (b b' : Binding) (x : String) : Prop where
  values : (b.vals x).getD .null = (b'.vals x).getD .null
  free : b.pm.Free x
  free' : b'.pm.Free x

theorem alike_empty (free : row.Free x) : Alike { pm := row } {} x := ⟨rfl, free, ⟨rfl, rfl⟩⟩

def SameLocals (b b' : Binding) (locals : List String) : Prop :=
  ∀ x ∈ locals, ∃ value, b.vals x = some value ∧ b'.vals x = some value

variable {locals : List String}

theorem SameLocals.bindValue (same : SameLocals b b' locals) (var : String) (item : GqlValue) :
    SameLocals (b.bindValue var item) (b'.bindValue var item) (var :: locals) := by
  intro x mem
  by_cases here : x = var
  · subst here
    exact ⟨item, update_self .., update_self ..⟩
  · obtain ⟨value, left, right⟩ := same x ((mem_cons.mp mem).resolve_left here)
    refine ⟨value, ?_, ?_⟩
    · exact (update_of_ne here ..).trans left
    · exact (update_of_ne here ..).trans right

theorem Alike.bindValue (alike : Alike b b' x) (var : String) (item : GqlValue) :
    Alike (b.bindValue var item) (b'.bindValue var item) x := by
  refine ⟨?_, alike.free, alike.free'⟩
  by_cases here : x = var
  · subst here
    simp only [Binding.bindValue, update_self]
  · simp only [Binding.bindValue, update_of_ne here]
    exact alike.values

theorem lookup_alike (same : SameLocals b b' locals)
    (alike : ∀ y ∈ (if x ∈ locals then [] else [x]), Alike b b' y) :
    (∃ value, b.vals x = some value ∧ b'.vals x = some value) ∨ Alike b b' x := by
  by_cases inside : x ∈ locals
  · exact .inl (same x inside)
  · rw [if_neg inside] at alike
    exact .inr (alike x (mem_singleton_self x))

theorem propAccess_alike {graph graph' : GraphAccess} (alike : Alike b b' x) (prop : String) :
    platform.evalExprOnBinding graph b (.propAccess x prop) =
      platform.evalExprOnBinding graph' b' (.propAccess x prop) := by
  have plain (graph : GraphAccess) (b : Binding) (free : b.pm.Free x) :
      platform.evalExprOnBinding graph b (.propAccess x prop) = platform.evalExprOnBinding graph
          (Binding.bindValue {} x ((b.vals x).getD .null)) (.propAccess x prop) := by
    simp only [evalExprOnBinding, Binding.bindValue, update_self]
    cases b.vals x with
    | none => exact entityProperty_of_free free prop
    | some value => cases value <;> rfl
  rw [plain graph b alike.free, plain graph' b' alike.free', alike.values]
  simp only [evalExprOnBinding, Binding.bindValue, update_self]

section OnBinding

variable (graph graph' : GraphAccess)

mutual

/-- Rows that are alike in what an expression looks up give it one value, on any graphs. -/
theorem evalExprOnBinding_alike : (expr : Expr) → {locals : List String} → {b b' : Binding} →
    SameLocals b b' locals → (∀ x ∈ expr.lookups locals, Alike b b' x) →
    evalExprOnBinding platform graph b expr = evalExprOnBinding platform graph' b' expr
  | .literal _, _, _, _, _, _ | .paramRef _, _, _, _, _, _ | .aggregate _ _, _, _, _, _, _ => rfl
  | .var name, locals, b, b', same, alike => by
    rcases lookup_alike same alike with ⟨value, left, right⟩ | alike
    · simp only [evalExprOnBinding, left, right, Option.getD_some]
    · rw [evalExprOnBinding, evalExprOnBinding, entityValue_of_free alike.free,
        entityValue_of_free alike.free', alike.values]
  | .propAccess var prop, locals, b, b', same, alike => by
    rcases lookup_alike same alike with ⟨value, left, right⟩ | alike
    · simp only [evalExprOnBinding, left, right]
      cases value <;> rfl
    · exact platform.propAccess_alike alike prop
  | .binaryOp left op right, locals, b, b', same, alike => by
    obtain ⟨first, second⟩ := forall_mem_append.mp alike
    rw [evalExprOnBinding, evalExprOnBinding, evalExprOnBinding_alike left same first,
      evalExprOnBinding_alike right same second]
  | .unaryOp op expr, locals, b, b', same, alike => by
    rw [evalExprOnBinding, evalExprOnBinding, evalExprOnBinding_alike expr same alike]
  | .isNull expr negated, locals, b, b', same, alike => by
    rw [evalExprOnBinding, evalExprOnBinding, evalExprOnBinding_alike expr same alike]
  | .listLit items, locals, b, b', same, alike => by
    rw [evalExprOnBinding, evalExprOnBinding, evalExprsOnBinding_alike items same alike]
  | .subscript list index, locals, b, b', same, alike => by
    obtain ⟨first, second⟩ := forall_mem_append.mp alike
    rw [evalExprOnBinding, evalExprOnBinding, evalExprOnBinding_alike list same first,
      evalExprOnBinding_alike index same second]
  | .functionCall name args, locals, b, b', same, alike => by
    obtain ⟨named, inner⟩ := forall_mem_append.mp alike
    rw [evalExprOnBinding, evalExprOnBinding, evalBuiltinFunctionCall_eq,
      evalBuiltinFunctionCall_eq,
      entityCall_apart graph name fun x mem => (named x mem).free,
      entityCall_apart graph' name fun x mem => (named x mem).free',
      evalExprsOnBinding_alike args same inner]
  | .listPredicate kind var list predicate, locals, b, b', same, alike => by
    obtain ⟨first, second⟩ := forall_mem_append.mp alike
    have each (item : GqlValue) := evalExprOnBinding_alike predicate (same.bindValue var item)
      fun x mem => (second x mem).bindValue var item
    simp only [evalExprOnBinding, evalExprOnBinding_alike list same first, each]
  | .shortestPath pattern, locals, b, b', same, alike => by
    obtain ⟨first, _⟩ := forall_mem_append.mp alike
    rw [evalExprOnBinding, evalExprOnBinding,
      evalShortestPathPattern_apart graph fun x mem => (first x mem).free,
      evalShortestPathPattern_apart graph' fun x mem => (first x mem).free']

theorem evalExprsOnBinding_alike : (exprs : List Expr) → {locals : List String} →
    {b b' : Binding} → SameLocals b b' locals →
    (∀ x ∈ lookupsOf locals exprs, Alike b b' x) →
    evalExprsOnBinding platform graph b exprs = evalExprsOnBinding platform graph' b' exprs
  | [], _, _, _, _, _ => rfl
  | expr :: rest, locals, b, b', same, alike => by
    obtain ⟨first, second⟩ := forall_mem_append.mp alike
    rw [evalExprsOnBinding, evalExprsOnBinding, evalExprOnBinding_alike expr same first,
      evalExprsOnBinding_alike rest same second]

end

variable {paths : PathBindings}

mutual

/-- A value that looks up no variable of its row is the value without a row. -/
theorem evalExpr_apart : (expr : Expr) → (∀ x ∈ expr.lookups [], row.Free x ∧ paths x = none) →
    evalExpr platform graph row paths expr = evalExpr platform graph' {} (fun _ => none) expr
  | .literal _, _ | .paramRef _, _ | .aggregate _ _, _ => rfl
  | .var name, free => by
    obtain ⟨here, along⟩ := free name (mem_singleton_self name)
    rw [evalExpr, evalExpr, along, Option.elim_none, Option.elim_none, entityValue_of_free here]
    rfl
  | .propAccess var prop, free => by
    rw [evalExpr, evalExpr, entityProperty_of_free (free var (mem_singleton_self var)).1]
    rfl
  | .binaryOp left op right, free => by
    obtain ⟨first, second⟩ := forall_mem_append.mp free
    rw [evalExpr, evalExpr, evalExpr_apart left first, evalExpr_apart right second]
  | .unaryOp op expr, free => by
    rw [evalExpr, evalExpr, evalExpr_apart expr free]
  | .isNull expr negated, free => by
    rw [evalExpr, evalExpr, evalExpr_apart expr free]
  | .listLit items, free => by
    rw [evalExpr, evalExpr, evalExprs_apart items free]
  | .subscript list index, free => by
    obtain ⟨first, second⟩ := forall_mem_append.mp free
    rw [evalExpr, evalExpr, evalExpr_apart list first, evalExpr_apart index second]
  | .functionCall name args, free => by
    obtain ⟨named, inner⟩ := forall_mem_append.mp free
    rw [evalExpr, evalExpr, evalFunctionCall_eq, evalFunctionCall_eq,
      evalEntityFunction_apart graph name named,
      evalEntityFunction_apart graph' name fun _ _ => ⟨⟨rfl, rfl⟩, rfl⟩,
      evalExprs_apart args inner]
  | .listPredicate kind var list predicate, free => by
    obtain ⟨first, second⟩ := forall_mem_append.mp free
    have none : SameLocals { pm := row } { pm := {} } [] := nofun
    have each (item : GqlValue) := platform.evalExprOnBinding_alike graph graph' predicate
      (none.bindValue var item) fun x mem =>
        (alike_empty (second x mem).1).bindValue var item
    simp only [evalExpr, evalExpr_apart list first, each]
  | .shortestPath pattern, free => by
    obtain ⟨first, _⟩ := forall_mem_append.mp free
    rw [evalExpr, evalExpr, evalShortestPathPattern_apart graph fun x mem => (first x mem).1,
      evalShortestPathPattern_apart graph' fun _ _ => ⟨rfl, rfl⟩]

theorem evalExprs_apart : (exprs : List Expr) →
    (∀ x ∈ lookupsOf [] exprs, row.Free x ∧ paths x = none) →
    evalExprs platform graph row paths exprs = evalExprs platform graph' {} (fun _ => none) exprs
  | [], _ => rfl
  | expr :: rest, free => by
    obtain ⟨first, second⟩ := forall_mem_append.mp free
    rw [evalExprs, evalExprs, evalExpr_apart expr first, evalExprs_apart rest second]

end

end OnBinding

end Platform

end ErmyaGraph.Gql
