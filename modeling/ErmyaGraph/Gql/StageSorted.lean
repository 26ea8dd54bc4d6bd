import ErmyaGraph.Gql.Sorted

/-! # Sorted stages

A stage sorts the rows that it has projected. It keeps what ORDER BY promises
where the expressions do not need what the projection has dropped. -/

namespace ErmyaGraph.Gql

open Sorting List

namespace Binding

def Binds (b : Binding) (name : String) : Prop :=
  (b.pm.nodes name).isSome ∨ (b.pm.edges name).isSome ∨ (b.vals name).isSome

instance (b : Binding) (name : String) : Decidable (b.Binds name) :=
  inferInstanceAs (Decidable (_ ∨ _ ∨ _))

/-- The names of a projected row, before those of the row that it is projected from. -/
def overlay (projected b : Binding) : Binding where
  pm :=
    { nodes := fun name => if projected.Binds name then projected.pm.nodes name else b.pm.nodes name
      edges := fun name => if projected.Binds name then projected.pm.edges name else b.pm.edges name }
  vals name := if projected.Binds name then projected.vals name else b.vals name

end Binding

section StageSources

variable (evaluators : Evaluators) (graph : GraphAccess) (edgeOf : Nat → Except Error Edge)

/-- A row of a stage after the row that it is projected from, of a group its first member. -/
def stageSources (items : List ReturnItem) (incoming : List Binding) : List (Binding × Binding) :=
  if items.any fun item => exprHasAggregate item.expr then
    if items.all fun item => exprHasAggregate item.expr then
      [(incoming.headD {}, aggregateAll evaluators items incoming)]
    else (groupBindings evaluators items incoming).map fun members =>
      (members.headD {}, projectGroup evaluators items members)
  else incoming.map fun b => (b, projectWithItems evaluators graph edgeOf items b)

def stageValue (pair : Binding × Binding) (expr : Expr) : GqlValue :=
  evalOnBinding evaluators (pair.2.overlay pair.1) expr

/-- The values are of one kind, and do not need what is not projected. -/
structure StageOrderable (order : List OrderItem) (pairs : List (Binding × Binding)) : Prop where
  kinds : OneKind (stageValue evaluators) order pairs
  reads : ∀ pair ∈ pairs, ∀ item ∈ order,
    evalOnBinding evaluators pair.2 item.expr = stageValue evaluators pair item.expr

/-- Rows that are skipped come before those beyond the limit are dropped. -/
def cut {α : Type} (skip limit : Option Nat) (rows : List α) : List α :=
  limitTo limit (skip.elim rows rows.drop)

theorem map_cut {α β : Type} (f : α → β) (skip limit : Option Nat) (rows : List α) :
    (cut skip limit rows).map f = cut skip limit (rows.map f) := by
  cases skip <;> cases limit <;> simp [cut, limitTo]

variable {evaluators graph edgeOf}

theorem map_stageSources (items : List ReturnItem) (incoming : List Binding) :
    (stageSources evaluators graph edgeOf items incoming).map Prod.snd =
      projectStage evaluators graph edgeOf items incoming := by
  unfold stageSources projectStage
  split
  · split
    · rfl
    · rw [map_map]
      rfl
  · rw [map_map]
    rfl

variable {pairs : List (Binding × Binding)}

theorem orderBindingsBy_eq {order : List OrderItem}
    (orderable : StageOrderable evaluators order pairs) :
    orderBindingsBy evaluators order (pairs.map Prod.snd) =
      (sortBy (byValues evaluators (stageValue evaluators) order) pairs).map Prod.snd := by
  rw [orderBindingsBy, orderByKeys_eq, sortBy_map]
  refine congrArg (List.map _) (sortBy_congr fun a first b second => compareItems_congr ?_)
  intro item mem
  rw [orderable.reads a first item mem, orderable.reads b second item mem]

theorem StageOrderable.of_sublist {order : List OrderItem} {pairs' : List (Binding × Binding)}
    (orderable : StageOrderable evaluators order pairs) (part : pairs'.Sublist pairs) :
    StageOrderable evaluators order pairs' where
  kinds item mem := by
    obtain ⟨kind, all⟩ := orderable.kinds item mem
    exact ⟨kind, fun pair inside => all pair (part.subset inside)⟩
  reads pair inside := orderable.reads pair (part.subset inside)

/-- Before anything is skipped a stage yields the rows that it yields without its order, in order. -/
theorem executeWithStage_sorted {clause : WithClause} {order : List OrderItem}
    {incoming : List Binding} (ordered : clause.orderBy = some order)
    (orderable : StageOrderable evaluators order
      (stageSources evaluators graph edgeOf clause.items incoming)) :
    ∃ full, executeWithStage evaluators graph edgeOf clause incoming =
        cut clause.skip clause.limit full ∧
      full.Perm (executeWithStage evaluators graph edgeOf
        { clause with orderBy := none, skip := none, limit := none } incoming) ∧
      ∃ chosen, chosen.Subperm (stageSources evaluators graph edgeOf clause.items incoming) ∧
        full = chosen.map Prod.snd ∧ InOrder evaluators (stageValue evaluators) order chosen := by
  generalize pairsAre : stageSources evaluators graph edgeOf clause.items incoming = pairs at *
  have projected : projectStage evaluators graph edgeOf clause.items incoming =
      pairs.map Prod.snd := by rw [← pairsAre, map_stageSources]
  -- Dropping repetitions and filtering only thin the rows out.
  obtain ⟨distinct, distinctPart, distinctIs⟩ : ∃ distinct : List (Binding × Binding),
      distinct.Sublist pairs ∧ (if clause.distinct then
        retainDistinct evaluators.bindingKey [] (pairs.map Prod.snd) else pairs.map Prod.snd) =
          distinct.map Prod.snd := by
    split
    · exact ⟨_, retainDistinct_sublist [] pairs, retainDistinct_map Prod.snd [] pairs⟩
    · exact ⟨pairs, .refl _, rfl⟩
  obtain ⟨kept, keptPart, keptIs⟩ : ∃ kept : List (Binding × Binding), kept.Sublist distinct ∧
      clause.whereClause.elim (distinct.map Prod.snd) (fun predicate =>
        (distinct.map Prod.snd).filter fun b => (evalOnBinding evaluators b predicate).isTrue) =
          kept.map Prod.snd := by
    cases clause.whereClause with
    | none => exact ⟨distinct, .refl _, rfl⟩
    | some predicate => exact ⟨_, filter_sublist, filter_map⟩
  have part := keptPart.trans distinctPart
  have sorts := orderBindingsBy_eq (orderable.of_sublist part)
  refine ⟨orderBindingsBy evaluators order (kept.map Prod.snd), ?_, ?_, _, ?_, sorts, ?_⟩
  · unfold executeWithStage
    simp only [projected, distinctIs, keptIs, ordered, Option.elim_some]
    rfl
  · unfold executeWithStage
    simp only [projected, distinctIs, keptIs, limitTo, Option.elim_none]
    rw [sorts]
    exact (sortBy_perm kept).map Prod.snd
  · exact (sortBy_perm kept).subperm.trans part.subperm
  · exact sortBy_inOrder (orderable.of_sublist part).kinds

theorem executePipelineReturn_sorted {clause : ReturnClause} {order : List OrderItem}
    {skip limit : Option Nat} {incoming : List Binding}
    (orderable : StageOrderable evaluators order
      (stageSources evaluators graph edgeOf clause.items incoming)) :
    ∃ full, executePipelineReturn evaluators graph edgeOf clause (some order) skip limit incoming =
        cut skip limit full ∧
      full.Perm (executePipelineReturn evaluators graph edgeOf clause none none none incoming) ∧
      ∃ chosen, chosen.Subperm (stageSources evaluators graph edgeOf clause.items incoming) ∧
        full = chosen.map (fun pair => returnRow evaluators clause.items pair.2) ∧
        InOrder evaluators (stageValue evaluators) order chosen := by
  obtain ⟨full, cuts, perm, chosen, part, projected, inOrder⟩ :=
    @executeWithStage_sorted evaluators graph edgeOf
      ⟨clause.distinct, clause.items, none, some order, skip, limit⟩ order incoming rfl orderable
  refine ⟨full.map (returnRow evaluators clause.items), ?_, perm.map _, chosen, part, ?_, inOrder⟩
  · rw [executePipelineReturn, cuts, map_cut]
  · rw [projected, map_map]
    rfl

end StageSources

/-- The rows before the limit are those of the query without its order, projected from matches in
order. One row alone is in order. -/
def QuerySorted (evaluators : Evaluators) (graph : GraphAccess) (clock : Clock) (maxRows : Nat)
    (query : GqlQuery) (order : List OrderItem) (rows : List GqlRow) : Prop :=
  ∃ full rows₀, (rows = full ∨ rows = limitTo query.limit full) ∧
    executeWithDeadline evaluators graph clock maxRows
      { query with orderBy := none, limit := none } = .ok rows₀ ∧
    full.Perm rows₀ ∧ (full.length ≤ 1 ∨ ∃ all, sources evaluators graph query clock = .ok all ∧
      Sorted evaluators graph query order all full)

/-- The rows of a stage before skip and limit, against those that come out without an order. -/
def StageSorted {ρ : Type} (evaluators : Evaluators) (order : List OrderItem)
    (pairs : List (Binding × Binding)) (finish : Binding → ρ) (skip limit : Option Nat)
    (rows unordered : List ρ) : Prop :=
  ∃ full, rows = cut skip limit full ∧ full.Perm unordered ∧
    ∃ chosen, chosen.Subperm pairs ∧ full = chosen.map (fun pair => finish pair.2) ∧
      InOrder evaluators (stageValue evaluators) order chosen

/-- Two nodes, and only the second one has the property. -/
def twoNodes : PropertyGraph where
  nodes := [⟨1, "N", .empty, {}⟩, ⟨2, "N", ⟨[("x", .i64 1)], by decide⟩, {}⟩]
  edges := []
  nodes_nodup := by decide
  edges_nodup := nodup_nil
  ends := nofun

/-- A value as it is written out, for nulls and small integers. -/
def writtenOut : GqlValue → String
  | .null => "Null"
  | .int 1 => "Int(1)"
  | .int 2 => "Int(2)"
  | _ => ""

/-- An evaluation for queries that name their columns and use variables and properties only. -/
def variablesOnly : Evaluators where
  float := ⟨fun _ => 0, fun _ _ => 0, fun _ _ => 0⟩
  surfaceName _ := ""
  scalar _ _ _ := .null
  binary _ _ _ := .null
  unary _ _ := .null
  debugValues values := "[" ++ String.intercalate ", " (values.map writtenOut) ++ "]"
  debugRow _ := ""
  onBinding _ _ := .null
  aggregateOverBindings _ _ := .null
  sliceKey _ := ""
  bindingKey _ := ""

def byProperty : List OrderItem := [⟨.propAccess "n" "x", true⟩]

/-- The nodes in the order of the property. -/
def plainByProperty : GqlQuery where
  matchClause := ⟨[⟨ofLabel, []⟩], none⟩
  returnClause := { items := [⟨.propAccess "n" "x", some "x"⟩] }
  orderBy := some byProperty

/-- The nodes counted by the property, in its order. -/
def groupedByProperty : GqlQuery :=
  { plainByProperty with groupBy := some [.propAccess "n" "x"] }

variable {all : List Source}

theorem all_of_check {found : Except GqlError (List Source)} {check : Source → Bool}
    (checked : (found.toOption.any fun all => all.all check) = true) (same : found = .ok all) :
    ∀ source ∈ all, check source := by
  rw [same] at checked
  exact all_eq_true.mp checked

def numbered (n : Int) : Binding := { vals := Function.update (fun _ => none) "x" (some (.int n)) }

theorem plainByProperty_orderable
    (found : sources variablesOnly twoNodes.access plainByProperty {} = .ok all) :
    Orderable variablesOnly twoNodes.access plainByProperty byProperty all where
  kinds item mem := by
    have checked : ((sources variablesOnly twoNodes.access plainByProperty {}).toOption.any fun all =>
        all.all fun source =>
          let value := source.value variablesOnly twoNodes.access plainByProperty
            (.propAccess "n" "x")
          value.isNull || value.kind = some .int) = true := by
      decide +kernel
    rw [mem_singleton.mp mem]
    refine ⟨some .int, fun source inside => ?_⟩
    simpa using all_of_check checked found source inside
  tells := nofun
  pathless pm _ item mem := by
    rw [mem_singleton.mp mem]
    rfl
  nulls sorts := by rcases sorts with sorts | sorts <;> cases sorts
  returned sorts := by rcases sorts with sorts | sorts <;> cases sorts

/-- A pipeline that passes the number on, in its order. -/
def passNumber : WithClause where
  items := [⟨.var "x", some "x"⟩]
  orderBy := some [⟨.var "x", true⟩]

def noEdges (id : Nat) : Except Error Edge := .error (.edgeNotFound id)

theorem numbered_value (n : Int) :
    let pair := (numbered n, projectWithItems variablesOnly twoNodes.access noEdges passNumber.items
      (numbered n))
    evalOnBinding variablesOnly pair.2 (.var "x") = .int n ∧
      stageValue variablesOnly pair (.var "x") = .int n := ⟨rfl, rfl⟩

theorem numbered_orderable :
    StageOrderable variablesOnly [⟨.var "x", true⟩] (stageSources variablesOnly twoNodes.access
      noEdges passNumber.items ([2, 1].map numbered)) where
  kinds item mem := by
    rw [mem_singleton.mp mem]
    refine ⟨some .int, fun pair inside => .inr ?_⟩
    obtain ⟨b, given, rfl⟩ := mem_map.mp inside
    obtain ⟨n, _, rfl⟩ := mem_map.mp given
    rw [(numbered_value n).2]
    rfl
  reads pair inside item mem := by
    rw [mem_singleton.mp mem]
    obtain ⟨b, given, rfl⟩ := mem_map.mp inside
    obtain ⟨n, _, rfl⟩ := mem_map.mp given
    rw [(numbered_value n).1, (numbered_value n).2]

theorem strictlyAfter_null {left right : Expr → GqlValue} {item : OrderItem}
    (null : (left item.expr).isNull) (value : (right item.expr).isNull = false)
    (ascending : item.ascending) : StrictlyAfter variablesOnly left right [item] := by
  refine ⟨.gt, ?_, .inl (if_pos ascending)⟩
  rw [GqlValue.eq_null_of_isNull null]
  cases given : right item.expr <;> first | rfl | (rw [given] at value; cases value)

end ErmyaGraph.Gql
