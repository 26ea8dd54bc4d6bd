import ErmyaGraph.Gql.OrderBy
import ErmyaGraph.Gql.Pushdown

/-! # What ORDER BY promises

The rows of a query with an ORDER BY clause are the rows of the query without
it, in the order of its expressions, where the executor reads the values of these
expressions and they are of one kind. -/

namespace ErmyaGraph.Gql

variable {item : ReturnItem} {keys : List Expr}

open Sorting Joins List Function

/-- What an output row is projected from. -/
inductive Source where
  | row (pm : PatternMatch)
  | group (members : List PatternMatch)
  | unwound (pm : PatternMatch) (elem : GqlValue)

section Sources

variable (evaluators : Evaluators) (graph : GraphAccess) (query : GqlQuery)

/-- The value of an expression: in a row, over the members of a group, or next to an element. -/
def Source.value : Source → Expr → GqlValue
  | .row pm, expr =>
    evalAlong evaluators (materialisePathBindings graph query.matchClause pm) pm expr
  | .group members, expr =>
    if exprHasAggregate expr then
      (evalAggregate evaluators.rowwise members expr).toOption.getD .null
    else members.head?.elim .null fun first => evalExpr evaluators.rowwise first expr
  | .unwound pm elem, expr =>
    evalUnwound evaluators (query.unwindClause.elim "" UnwindClause.var) pm elem expr

def Source.project : Source → GqlRow
  | .row pm =>
    projectRow evaluators (materialisePathBindings graph query.matchClause pm)
      query.returnClause.items pm
  | .group members =>
    (groupRow evaluators (query.groupBy.getD []) query.returnClause.items members).toOption.getD
      fun _ => none
  | .unwound pm elem =>
    projectUnwound evaluators (query.unwindClause.elim "" UnwindClause.var)
      query.returnClause.items (pm, elem)

/-- What the rows of a query are projected from. -/
def sources (clock : Clock) : Except GqlError (List Source) :=
  match query.unwindClause with
  | some unwind =>
    (compileMatch graph clock.matching query.matchClause).map fun matched =>
      (unwoundRows evaluators query unwind.var
        (unwindElements (evalExpr evaluators.rowwise {} unwind.expr)) matched).map
          fun row => .unwound row.1 row.2
  | none =>
    (matchedRows evaluators graph clock query).map fun rows =>
      match query.groupBy with
      | some keys => (groupsOf evaluators keys rows).map .group
      | none => rows.map .row

/-- The sort reads columns: of a group, or of a row next to an element. -/
def SortsColumns : Prop := query.unwindClause.isSome ∨ query.groupBy.isSome

/-- Rows are projected from sources in order. One row alone is in order. -/
def Sorted (order : List OrderItem) (all : List Source) (rows : List GqlRow) : Prop :=
  ∃ chosen : List Source, chosen.Subperm all ∧
    rows = chosen.map (Source.project evaluators graph query) ∧
    InOrder evaluators (Source.value evaluators graph query) order chosen

/-- The ORDER BY expressions are returned, each in a column of its own. -/
structure Returned (order : List OrderItem) : Prop where
  names : (query.returnClause.items.map (columnName evaluators.rowwise)).Nodup
  found : ∀ item ∈ order, ∃ returned ∈ query.returnClause.items, sameExpr returned.expr item.expr
  exact_item : ∀ item ∈ order, ∀ returned ∈ query.returnClause.items,
    sameExpr returned.expr item.expr → returned.expr = item.expr
  exact_key : ∀ key ∈ query.groupBy.getD [], ∀ returned ∈ query.returnClause.items,
    sameExpr key returned.expr → key = returned.expr

/-- What the executor takes for granted of the values it sorts by. -/
structure Orderable (order : List OrderItem) (all : List Source) : Prop where
  kinds : OneKind (Source.value evaluators graph query) order all
  tells : query.returnClause.distinct → ∀ a ∈ all, ∀ b ∈ all,
    evaluators.debugRow (Source.project evaluators graph query a) =
        evaluators.debugRow (Source.project evaluators graph query b) →
      Source.project evaluators graph query a = Source.project evaluators graph query b
  pathless : ∀ pm, .row pm ∈ all → ∀ item ∈ order, evalExpr evaluators.rowwise pm item.expr =
      Source.value evaluators graph query (.row pm) item.expr
  nulls : SortsColumns query → NullForAll (Source.value evaluators graph query) order all
  returned : SortsColumns query → Returned evaluators query order

/-- Where the aggregates may be answered without rows, the answer is that of the rows. -/
def Countable : Prop :=
  query.groupBy = none → (∀ item ∈ query.returnClause.items, (aggregateTarget item.expr).isSome) →
    ∀ pp, query.matchClause.patterns = [pp] →
      isPushdownEligible { query with orderBy := none, limit := none } →
        graph.Agrees ∧ graph.NoFloats ∧ Confirms graph pp query.returnClause.items

end Sources

section Columns

variable {name : ReturnItem → String} {items : List ReturnItem} {row start : GqlRow}
variable {f : ReturnItem → Except GqlError GqlValue}

theorem foldlM_columns_frame (ran : items.foldlM (fun columns item => do
      let value ← f item
      return update columns (name item) (some value)) start = .ok row) {column : String}
    (other : column ∉ items.map name) : row column = start column := by
  induction items generalizing start with
  | nil =>
    cases ran
    rfl
  | cons item rest ih =>
    rw [map_cons, mem_cons, not_or] at other
    rw [foldlM_cons] at ran
    cases here : f item with
    | error e =>
      rw [here] at ran
      cases ran
    | ok value =>
      rw [here] at ran
      rw [ih ran other.2, update_of_ne other.1]

theorem foldlM_columns (names : (items.map name).Nodup) (ran : items.foldlM (fun columns item => do
      let value ← f item
      return update columns (name item) (some value)) start = .ok row) (mem : item ∈ items) :
    ∃ value, f item = .ok value ∧ row (name item) = some value := by
  induction items generalizing start with
  | nil => cases mem
  | cons first rest ih =>
    obtain ⟨fresh, names⟩ := nodup_cons.mp names
    rw [foldlM_cons] at ran
    cases here : f first with
    | error e =>
      rw [here] at ran
      cases ran
    | ok value =>
      rw [here] at ran
      rcases mem_cons.mp mem with rfl | later
      · refine ⟨value, here, ?_⟩
        rw [foldlM_columns_frame ran fresh, update_self]
      · exact ih names ran later

theorem foldl_columns {f : ReturnItem → GqlValue} (names : (items.map name).Nodup)
    (mem : item ∈ items) :
    items.foldl (fun columns item => update columns (name item) (some (f item))) start
      (name item) = some (f item) := by
  have ran : items.foldlM (fun columns item => (do
      let value ← Except.ok (f item)
      return update columns (name item) (some value) : Except GqlError GqlRow)) start =
        .ok (items.foldl (fun columns item =>
          update columns (name item) (some (f item))) start) :=
    foldlM_of_ok (fun _ _ _ => rfl) start
  obtain ⟨value, same, here⟩ := foldlM_columns names ran mem
  cases same
  exact here

end Columns

section Proofs

variable {evaluators : Evaluators} {graph : GraphAccess} {clock : Clock} {query : GqlQuery}
  {order : List OrderItem} {all : List Source}

theorem distinctRows_sorted (orderable : Orderable evaluators graph query order all) :
    let project := Source.project evaluators graph query
    let sorted := sortBy (byValues evaluators (Source.value evaluators graph query) order) all
    (distinctRows evaluators query.returnClause (sorted.map project)).Perm
        (distinctRows evaluators query.returnClause (all.map project)) ∧
      Sorted evaluators graph query order all
        (distinctRows evaluators query.returnClause (sorted.map project)) := by
  intro project sorted
  have perm : sorted.Perm all := sortBy_perm all
  have inOrder : InOrder evaluators (Source.value evaluators graph query) order sorted :=
    sortBy_inOrder orderable.kinds
  unfold distinctRows
  split
  · next distinct =>
      refine ⟨retainDistinct_perm (perm.map project) ?_, ?_⟩
      · intro row first row' second same
        obtain ⟨a, inside, rfl⟩ := mem_map.mp first
        obtain ⟨b, inside', rfl⟩ := mem_map.mp second
        exact orderable.tells distinct a (perm.mem_iff.mp inside) b (perm.mem_iff.mp inside') same
      · obtain ⟨chosen, part, same⟩ := sublist_map_iff.mp
          (retainDistinct_sublist [] (sorted.map project))
        exact ⟨chosen, part.subperm.trans perm.subperm, same, inOrder.sublist part⟩
  · exact ⟨perm.map project, sorted, perm.subperm, rfl, inOrder⟩

theorem compareItems_congr {compared compared' : OrderItem → Ordering}
    (same : ∀ item ∈ order, compared item = compared' item) :
    compareItems compared order = compareItems compared' order := by
  induction order with
  | nil => rfl
  | cons item rest ih =>
    rw [compareItems, compareItems, same item mem_cons_self,
      ih fun item mem => same item (mem_cons_of_mem _ mem)]

theorem applyOrderBy_eq {rows : List PatternMatch}
    (pathless : ∀ pm ∈ rows, ∀ item ∈ order, evalExpr evaluators.rowwise pm item.expr =
      Source.value evaluators graph query (.row pm) item.expr) :
    (applyOrderBy evaluators order (rows.map fun pm =>
        (pm, Source.project evaluators graph query (.row pm)))).map Prod.snd =
      (sortBy (byValues evaluators (Source.value evaluators graph query) order)
        (rows.map .row)).map (Source.project evaluators graph query) := by
  rw [applyOrderBy, orderByKeys_eq, sortBy_map, sortBy_map, map_map, map_map]
  refine congrArg (List.map _) (sortBy_congr fun a first b second => compareItems_congr ?_)
  intro item mem
  dsimp only
  rw [pathless a first item mem, pathless b second item mem]

variable {rows : List GqlRow} {matched : List PatternMatch}

theorem executeProjected_sorted (ordered : query.orderBy = some order)
    (orderable : Orderable evaluators graph query order (matched.map .row))
    (ran : executeProjected evaluators graph clock query matched = .ok rows) :
    ∃ full rows₀, rows = limitTo query.limit full ∧
      executeProjected evaluators graph clock { query with orderBy := none, limit := none }
        matched = .ok rows₀ ∧
      full.Perm rows₀ ∧ Sorted evaluators graph query order (matched.map .row) full := by
  unfold executeProjected at ran ⊢
  change (matched.zipIdx.mapM (projectMatch evaluators graph clock query)).bind _ = _ at ran
  change ∃ full rows₀, _ ∧ (matched.zipIdx.mapM (projectMatch evaluators graph clock query)).bind
    _ = _ ∧ _
  obtain ⟨pairs, projected, ran⟩ := Outcome.ok_of_bind ran
  rw [projected]
  have same : pairs = matched.map fun pm =>
      (pm, Source.project evaluators graph query (.row pm)) := by
    refine (eq_map_of_mapM (g := fun indexed : PatternMatch × Nat =>
      (indexed.1, Source.project evaluators graph query (.row indexed.1))) projected ?_).trans ?_
    · intro indexed _ pair done
      unfold projectMatch at done
      obtain ⟨_, -, done⟩ := Outcome.ok_of_bind done
      split at done
      · cases done
      · cases done
        rfl
    · conv_rhs => rw [← zipIdx_map_fst 0 matched, map_map]
      rfl
  obtain ⟨perm, sorted⟩ := distinctRows_sorted orderable
  simp only [ordered, Option.elim_some] at ran
  rw [same, applyOrderBy_eq fun pm mem =>
    orderable.pathless pm (mem_map_of_mem mem)] at ran
  refine ⟨_, _, (Except.ok.inj ran).symm, ?_, perm, sorted⟩
  simp only [Except.bind, Option.elim_none]
  rw [same, map_map, map_map]
  rfl

theorem Returned.orderColumn (returned : Returned evaluators query order) {item : OrderItem}
    (mem : item ∈ order) : ∃ column ∈ query.returnClause.items, column.expr = item.expr ∧
      orderColumn evaluators query.returnClause.items item =
        columnName evaluators.rowwise column := by
  unfold Gql.orderColumn
  cases found : query.returnClause.items.find? fun column => sameExpr column.expr item.expr with
  | none =>
    obtain ⟨column, inside, same⟩ := returned.found item mem
    exact absurd same (List.find?_eq_none.mp found column inside)
  | some column =>
    have inside := mem_of_find?_eq_some found
    have same : sameExpr column.expr item.expr := by simpa using List.find?_some found
    exact ⟨column, inside, returned.exact_item item mem column inside same, rfl⟩

theorem sortByColumns_sources (orderable : Orderable evaluators graph query order all)
    (sorts : SortsColumns query)
    (columns : ∀ source ∈ all, ∀ item ∈ query.returnClause.items,
      Source.project evaluators graph query source (columnName evaluators.rowwise item) =
        some (Source.value evaluators graph query source item.expr)) :
    sortByColumns evaluators query.returnClause.items order
        (all.map (Source.project evaluators graph query)) =
      (sortBy (byValues evaluators (Source.value evaluators graph query) order) all).map
        (Source.project evaluators graph query) := by
  refine sortByColumns_eq (fun item mem source inside => ?_) (orderable.nulls sorts)
  obtain ⟨column, there, same, named⟩ := (orderable.returned sorts).orderColumn mem
  rw [named, columns source inside column there, same]

theorem groupValue_ok {members : List PatternMatch} {value : GqlValue}
    (exact_key : ∀ key ∈ keys, sameExpr key item.expr → key = item.expr)
    (keyed : exprHasAggregate item.expr ∨ ∃ key ∈ keys, sameExpr key item.expr)
    (ran : groupValue evaluators keys members item = .ok value) :
    value = Source.value evaluators graph query (.group members) item.expr := by
  unfold groupValue at ran
  rw [Source.value]
  split at ran
  · next aggregate =>
      rw [if_pos aggregate, ran]
      rfl
  · next scalar =>
      rw [if_neg scalar]
      obtain ⟨key, inside, same⟩ := keyed.resolve_left scalar
      cases found : keys.find? (sameExpr · item.expr) with
      | none => exact absurd same (List.find?_eq_none.mp found key inside)
      | some first =>
        rw [found] at ran
        have same : sameExpr first item.expr := by simpa using List.find?_some found
        have equal := exact_key first (mem_of_find?_eq_some found) same
        cases members with
        | nil =>
          cases ran
          rfl
        | cons row rest =>
          cases ran
          rw [equal]
          rfl

theorem executeGrouped_sorted (grouped : query.groupBy = some keys)
    (keyed : ∀ item ∈ query.returnClause.items,
      exprHasAggregate item.expr ∨ ∃ key ∈ keys, sameExpr key item.expr)
    (orderable : Orderable evaluators graph query order
      ((groupsOf evaluators keys matched).map .group))
    (ran : executeGrouped evaluators matched keys query.returnClause (some order) query.limit =
      .ok rows) :
    ∃ full rows₀, rows = limitTo query.limit full ∧
      executeGrouped evaluators matched keys query.returnClause none none = .ok rows₀ ∧
      full.Perm rows₀ ∧
      Sorted evaluators graph query order ((groupsOf evaluators keys matched).map .group) full := by
  have sorts : SortsColumns query := .inr (by rw [grouped]; rfl)
  have returned := orderable.returned sorts
  unfold executeGrouped at ran ⊢
  obtain ⟨found, projected, ran⟩ := Outcome.ok_of_bind ran
  rw [projected]
  have row {members : List PatternMatch} {row : GqlRow}
      (ran : groupRow evaluators keys query.returnClause.items members = .ok row) :
      row = Source.project evaluators graph query (.group members) := by
    rw [Source.project, grouped, Option.getD_some, ran]
    rfl
  have same : found = ((groupsOf evaluators keys matched).map Source.group).map
      (Source.project evaluators graph query) := by
    rw [map_map]
    exact eq_map_of_mapM projected fun members _ _ ran => row ran
  have columns : ∀ source ∈ (groupsOf evaluators keys matched).map Source.group,
      ∀ item ∈ query.returnClause.items,
        Source.project evaluators graph query source (columnName evaluators.rowwise item) =
          some (Source.value evaluators graph query source item.expr) := by
    intro source inside item mem
    obtain ⟨members, group, rfl⟩ := mem_map.mp inside
    obtain ⟨columns, ran⟩ := ok_of_mem_mapM projected group
    obtain ⟨value, ok, here⟩ := foldlM_columns returned.names ran mem
    rw [← row ran, here]
    refine congrArg some (groupValue_ok ?_ (keyed item mem) ok)
    intro key inside
    exact returned.exact_key key (by rw [grouped]; exact inside) item mem
  obtain ⟨perm, sorted⟩ := distinctRows_sorted orderable
  simp only [Option.elim_some] at ran
  rw [same, sortByColumns_sources orderable sorts columns] at ran
  refine ⟨_, _, (Except.ok.inj ran).symm, ?_, perm, sorted⟩
  simp only [bind, Except.bind, Option.elim_none]
  rw [same]
  rfl

/-- What the rows next to the elements are projected from. -/
def unwoundSources (rows : List (PatternMatch × GqlValue)) : List Source :=
  rows.map fun row => .unwound row.1 row.2

variable {unwind : UnwindClause} {isAggregate : Bool}

theorem returnUnwound_sorted {found : List (PatternMatch × GqlValue)}
    (unwinds : query.unwindClause = some unwind) (ordered : query.orderBy = some order)
    (orderable : Orderable evaluators graph query order (unwoundSources found))
    (ran : returnUnwound evaluators query unwind.var found isAggregate = .ok rows) :
    ∃ full rows₀, (rows = full ∨ rows = limitTo query.limit full) ∧
      returnUnwound evaluators { query with orderBy := none, limit := none } unwind.var found
        isAggregate = .ok rows₀ ∧
      full.Perm rows₀ ∧
      (full.length ≤ 1 ∨ Sorted evaluators graph query order (unwoundSources found) full) := by
  have sorts : SortsColumns query := .inl (by rw [unwinds]; rfl)
  have returned := orderable.returned sorts
  unfold returnUnwound at ran ⊢
  cases isAggregate with
  | true =>
    simp only [if_true] at ran ⊢
    refine ⟨rows, rows, .inl rfl, ran, .refl _, .inl ?_⟩
    revert ran
    generalize (query.returnClause.items.foldlM _ _ : Except GqlError GqlRow) = aggregated
    intro ran
    cases aggregated with
    | error e => cases ran
    | ok row =>
      cases ran
      exact Nat.le_refl 1
  | false =>
    have projects : found.map (projectUnwound evaluators unwind.var query.returnClause.items) =
        (unwoundSources found).map (Source.project evaluators graph query) := by
      rw [unwoundSources, map_map]
      refine map_congr_left fun row _ => ?_
      rw [Function.comp_apply, Source.project, unwinds]
      rfl
    have columns : ∀ source ∈ unwoundSources found, ∀ item ∈ query.returnClause.items,
        Source.project evaluators graph query source (columnName evaluators.rowwise item) =
          some (Source.value evaluators graph query source item.expr) := by
      intro source inside item mem
      obtain ⟨row, _, rfl⟩ := mem_map.mp inside
      exact foldl_columns returned.names mem
    obtain ⟨perm, sorted⟩ := distinctRows_sorted orderable
    simp only [ordered, Option.elim_some, Bool.false_eq_true, if_false] at ran
    rw [projects, sortByColumns_sources orderable sorts columns] at ran
    refine ⟨_, _, .inr (Except.ok.inj ran).symm, ?_, perm, .inr sorted⟩
    simp only [Option.elim_none, Bool.false_eq_true, if_false]
    rw [projects]
    rfl

theorem validateScope_unordered {bound : List String} (ran : validateScope query bound = .ok ()) :
    validateScope { query with orderBy := none, limit := none } bound = .ok () := by
  unfold validateScope at ran ⊢
  dsimp only at ran ⊢
  split at ran
  · cases ran
  · next free =>
      rw [List.find?_eq_none] at free
      have free' : ∀ var ∈ query.whereClause.elim [] collectExprVars ++
          (query.returnClause.items.flatMap fun item => collectExprVars item.expr) ++
          Option.elim none [] (fun order : List OrderItem =>
            order.flatMap fun item => collectExprVars item.expr) ++
          query.groupBy.elim [] fun keys => keys.flatMap collectExprVars,
          ¬decide (var ∉ bound) = true := by
        intro var mem
        refine free var ?_
        simp only [mem_append, Option.elim_none, not_mem_nil, or_false] at mem ⊢
        tauto
      rw [List.find?_eq_none.mpr free']

theorem validateAggregation_grouped {items : List ReturnItem} {answer : Bool}
    (ran : validateAggregation evaluators items (some keys) = .ok answer) :
    ∀ item ∈ items, exprHasAggregate item.expr ∨ ∃ key ∈ keys, sameExpr key item.expr := by
  intro item mem
  unfold validateAggregation at ran
  dsimp only at ran
  split at ran
  · cases ran
  · next fine =>
      have here := List.find?_eq_none.mp fine item mem
      by_cases aggregate : exprHasAggregate item.expr
      · exact .inl aggregate
      · refine .inr (any_eq_true.mp ?_)
        simpa [aggregate] using here

theorem executeWithUnwind_sorted (unwinds : query.unwindClause = some unwind)
    (ordered : query.orderBy = some order)
    (orderable : ∀ all, sources evaluators graph query clock = .ok all →
      Orderable evaluators graph query order all)
    (ran : executeWithUnwind evaluators graph clock query unwind = .ok rows) :
    ∃ full rows₀, (rows = full ∨ rows = limitTo query.limit full) ∧
      executeWithUnwind evaluators graph clock { query with orderBy := none, limit := none }
        unwind = .ok rows₀ ∧
      full.Perm rows₀ ∧ (full.length ≤ 1 ∨ ∃ all, sources evaluators graph query clock = .ok all ∧
        Sorted evaluators graph query order all full) := by
  have all : sources evaluators graph query clock =
      (compileMatch graph clock.matching query.matchClause).map fun matched =>
        unwoundSources (unwoundRows evaluators query unwind.var
          (unwindElements (evalExpr evaluators.rowwise {} unwind.expr)) matched) := by
    unfold sources
    rw [unwinds]
    rfl
  have nothing : ∃ full rows₀ : List GqlRow, ([] = full ∨ [] = limitTo query.limit full) ∧
      Except.ok (ε := GqlError) [] = .ok rows₀ ∧ full.Perm rows₀ ∧ (full.length ≤ 1 ∨
        ∃ all, sources evaluators graph query clock = .ok all ∧
          Sorted evaluators graph query order all full) :=
    ⟨[], [], .inl rfl, rfl, .refl _, .inl (Nat.zero_le _)⟩
  unfold executeWithUnwind at ran ⊢
  generalize unwindElements (evalExpr evaluators.rowwise {} unwind.expr) = elements at *
  dsimp only at ran ⊢
  by_cases empty : elements.isEmpty
  · simp only [empty, if_true] at ran ⊢
    cases ran
    exact nothing
  cases matched : compileMatch graph clock.matching query.matchClause with
  | error e => simp [empty, matched, bind, Except.bind] at ran
  | ok found =>
    cases aggregated : validateAggregation evaluators query.returnClause.items query.groupBy with
    | error e => simp [empty, matched, aggregated, bind, Except.bind] at ran
    | ok isAggregate =>
      simp only [empty, matched, aggregated, bind, Except.bind, Bool.false_eq_true,
        if_false] at ran ⊢
      by_cases none? : found.isEmpty
      · simp only [none?, if_true] at ran ⊢
        cases ran
        exact nothing
      simp only [none?, Bool.false_eq_true, if_false] at ran ⊢
      obtain ⟨_, looked, ran⟩ := Outcome.ok_of_bind ran
      rw [looked]
      rw [matched] at all
      obtain ⟨full, rows₀, limited, plain, perm, sorted⟩ :=
        returnUnwound_sorted unwinds ordered (orderable _ all) ran
      refine ⟨full, rows₀, limited, ?_, perm, sorted.imp_right fun sorted =>
        ⟨_, all, sorted⟩⟩
      exact plain

variable {maxRows : Nat}

theorem executePlain_sorted (unwindless : query.unwindClause = none)
    (ordered : query.orderBy = some order)
    (keyed : ∀ keys, query.groupBy = some keys → ∀ item ∈ query.returnClause.items,
      exprHasAggregate item.expr ∨ ∃ key ∈ keys, sameExpr key item.expr)
    (orderable : ∀ all, sources evaluators graph query clock = .ok all →
      Orderable evaluators graph query order all)
    (ran : executePlain evaluators graph clock maxRows query isAggregate = .ok rows) :
    ∃ full rows₀, (rows = full ∨ rows = limitTo query.limit full) ∧
      executePlain evaluators graph clock maxRows { query with orderBy := none, limit := none }
        isAggregate = .ok rows₀ ∧
      full.Perm rows₀ ∧ (full.length ≤ 1 ∨ ∃ all, sources evaluators graph query clock = .ok all ∧
        Sorted evaluators graph query order all full) := by
  have same : matchedRows evaluators graph clock { query with orderBy := none, limit := none } =
      matchedRows evaluators graph clock query := rfl
  unfold executePlain at ran ⊢
  rw [same]
  unfold sources at orderable ⊢
  rw [unwindless] at orderable ⊢
  obtain ⟨found, matched, ran⟩ := Outcome.ok_of_bind ran
  rw [matched]
  rw [matched] at orderable
  simp only [bind, Except.bind] at ran ⊢
  split at ran
  · cases ran
  · next below =>
      simp only [if_neg below]
      cases grouped : query.groupBy with
      | some keys =>
        rw [grouped] at orderable
        simp only [grouped, ordered] at ran
        obtain ⟨full, rows₀, limited, plain, perm, sorted⟩ :=
          executeGrouped_sorted grouped (keyed keys grouped) (orderable _ rfl) ran
        exact ⟨full, rows₀, .inr limited, plain, perm, .inr ⟨_, rfl, sorted⟩⟩
      | none =>
        rw [grouped] at orderable
        simp only [grouped] at ran ⊢
        cases isAggregate with
        | true =>
          simp only [if_true] at ran ⊢
          obtain ⟨row, aggregated, ran⟩ := Outcome.ok_of_bind ran
          rw [aggregated]
          cases ran
          exact ⟨[row], [row], .inl rfl, rfl, .refl _, .inl (Nat.le_refl 1)⟩
        | false =>
          simp only [Bool.false_eq_true, if_false] at ran ⊢
          obtain ⟨full, rows₀, limited, plain, perm, sorted⟩ :=
            executeProjected_sorted ordered (orderable _ rfl) ran
          exact ⟨full, rows₀, .inr limited, plain, perm, .inr ⟨_, rfl, sorted⟩⟩

theorem matchAndAggregate_of_executePlain (whereless : query.whereClause = none)
    (groupless : query.groupBy = none)
    (ran : executePlain evaluators graph clock maxRows query true = .ok rows) :
    matchAndAggregate evaluators.rowwise graph clock.matching query = .ok rows := by
  unfold executePlain matchedRows at ran
  unfold matchAndAggregate
  cases matched : compileMatch graph clock.matching query.matchClause with
  | error e =>
    rw [matched] at ran
    cases ran
  | ok found =>
    simp only [matched, whereless, groupless, bind, Except.bind, pure, Except.pure,
      Option.elim_none, Option.isSome_none, Bool.false_and, Bool.false_eq_true, if_false,
      if_true] at ran ⊢
    split at ran
    · cases ran
    · exact ran

theorem isPushdownEligible_parts (eligible : isPushdownEligible query) :
    query.whereClause = none ∧ query.orderBy = none ∧ ∃ pp, query.matchClause.patterns = [pp] := by
  unfold isPushdownEligible at eligible
  simp only [Bool.and_eq_true, Option.isNone_iff_eq_none] at eligible
  refine ⟨eligible.1.1.1.1.2, eligible.1.1.1.2, ?_⟩
  split at eligible
  · next pp single => exact ⟨pp, single⟩
  · cases eligible.2

theorem tryAggregatePushdown_eligible {evaluation : Evaluation}
    {answer : Except GqlError (List GqlRow)}
    (pushed : tryAggregatePushdown evaluation graph query = some answer) :
    isPushdownEligible query ∧
      ∀ item ∈ query.returnClause.items, (aggregateTarget item.expr).isSome := by
  unfold tryAggregatePushdown at pushed
  split at pushed
  · next eligible =>
      refine ⟨eligible, ?_⟩
      split at pushed
      · dsimp only at pushed
        split at pushed
        · next targets => exact all_eq_true.mp targets
        · cases pushed
      · cases pushed
  · cases pushed

/-- Before its limit a query returns the rows that it returns without its order, in order. -/
theorem executeWithDeadline_sorted (ordered : query.orderBy = some order)
    (orderable : ∀ all, sources evaluators graph query clock = .ok all →
      Orderable evaluators graph query order all) (countable : Countable graph query)
    (ran : executeWithDeadline evaluators graph clock maxRows query = .ok rows) :
    ∃ full rows₀, (rows = full ∨ rows = limitTo query.limit full) ∧
      executeWithDeadline evaluators graph clock maxRows
        { query with orderBy := none, limit := none } = .ok rows₀ ∧
      full.Perm rows₀ ∧ (full.length ≤ 1 ∨ ∃ all, sources evaluators graph query clock = .ok all ∧
        Sorted evaluators graph query order all full) := by
  unfold executeWithDeadline at ran ⊢
  cases unwinds : query.unwindClause with
  | some unwind =>
    rw [unwinds] at ran
    exact executeWithUnwind_sorted unwinds ordered orderable ran
  | none =>
    rw [unwinds] at ran
    dsimp only at ran ⊢
    cases scope : validateScope query (collectBoundVars query.matchClause) with
    | error e =>
      rw [scope] at ran
      cases ran
    | ok _ =>
      cases valid : validateAggregation evaluators query.returnClause.items query.groupBy with
      | error e =>
        rw [scope, valid] at ran
        cases ran
      | ok isAggregate =>
        have notPushed : tryAggregatePushdown evaluators.rowwise graph query = none := by
          cases pushed : tryAggregatePushdown evaluators.rowwise graph query with
          | none => rfl
          | some answer =>
            have parts := isPushdownEligible_parts
              (tryAggregatePushdown_eligible pushed).1
            rw [ordered] at parts
            cases parts.2.1
        rw [scope, valid] at ran
        simp only [bind, Except.bind, notPushed, ite_self] at ran
        obtain ⟨full, rows₀, limited, plain, perm, sorted⟩ :=
          executePlain_sorted unwinds ordered (fun keys grouped =>
            validateAggregation_grouped (grouped ▸ valid)) orderable ran
        refine ⟨full, rows₀, limited, ?_, perm, sorted⟩
        have scope := validateScope_unordered scope
        unfold Countable at countable
        rw [unwinds] at scope plain countable
        rw [scope]
        simp only [bind, Except.bind]
        split
        · next answer pushed =>
            split at pushed
            · next aggregate =>
                obtain ⟨isTrue, groupless⟩ := Bool.and_eq_true_iff.mp aggregate
                have groupless := Option.isNone_iff_eq_none.mp groupless
                obtain ⟨eligible, targets⟩ := tryAggregatePushdown_eligible pushed
                obtain ⟨whereless, _, pp, single⟩ := isPushdownEligible_parts eligible
                obtain ⟨agrees, noFloats, confirms⟩ :=
                  countable groupless targets pp single eligible
                rw [tryAggregatePushdown_eq agrees noFloats single confirms pushed clock.matching]
                rw [isTrue] at plain
                exact matchAndAggregate_of_executePlain whereless groupless plain
            · cases pushed
        · exact plain

end Proofs

end ErmyaGraph.Gql
