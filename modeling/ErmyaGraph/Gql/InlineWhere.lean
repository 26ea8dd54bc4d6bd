import ErmyaGraph.Gql.InlineVariable

/-! # Constraints inside of a pattern and in a WHERE

Inside of a pattern a constraint compares properties as they are stored and
skips null; a WHERE compares values. Both give the same rows where that makes no
difference. -/

namespace ErmyaGraph.Gql

variable {pp pp' : PathPattern}

open Expansion List Option

section Seeds

variable {graph : GraphAccess} {var key : String} {lit : Literal}

variable (graph) in
/-- The candidates for a start node. -/
def seedIds (np : NodePattern) : List Nat :=
  match np.labels, np.props with
  | label :: _, (key, lit) :: _ =>
    match literalToProperty lit with
    | some value => graph.nodesByLabelAndProperty label key value
    | none => graph.nodesByLabel label
  | label :: _, [] => graph.nodesByLabel label
  | [], _ => graph.nodeIds

variable (graph) in
def seedRow (np : NodePattern) (id : Nat) : Option PatternMatch :=
  match graph.node id with
  | .ok node =>
    if nodeMatchesPattern node np then
      some (PatternMatch.bindNode {} (compileNodeToBuilder np 0).1.var node)
    else none
  | .error _ => none

theorem seedStartNode_eq (np : NodePattern) : seedStartNode graph np =
    ((seedIds graph np).filterMap (seedRow graph np), (compileNodeToBuilder np 0).1.var,
      (compileNodeToBuilder np 0).2) := rfl

variable {np : NodePattern}

theorem seedRow_props (named : np.var = some var) (free : np.props = []) (id : Nat) :
    seedRow graph { np with props := [(key, lit)] } id =
      (seedRow graph np id).filter (inlineEq var key lit) := by
  rw [seedRow, seedRow, compileNode_props]
  cases graph.node id with
  | error e => rfl
  | ok node =>
    have shown : inlineEq var key lit (PatternMatch.bindNode {} (compileNodeToBuilder np 0).1.var
        node) = inlineHolds key lit node.properties := by
      rw [compileNode_var named]
      change ((PatternMatch.arrive {} var none (node, none)).propertiesOf var).any _ = _
      rw [propertiesOf_arrive_self, any_some]
    simp only [nodeMatchesPattern_props _ free]
    cases nodeMatchesPattern node np <;> cases held : inlineHolds key lit node.properties <;>
      simp [Option.filter, shown, held]

/-- The index finds the start nodes that have the property. -/
theorem seeds_narrowed (key : String) {contents : Contents} (serves : graph.Serves contents)
    (named : np.var = some var) (free : np.props = []) (simple : lit.Simple) :
    (seedStartNode graph { np with props := [(key, lit)] }).1.Perm
      ((seedStartNode graph np).1.filter (inlineEq var key lit)) := by
  have rows : (seedStartNode graph np).1.filter (inlineEq var key lit) =
      (seedIds graph np).filterMap (seedRow graph { np with props := [(key, lit)] }) := by
    rw [seedStartNode_eq, filter_filterMap]
    exact filterMap_congr fun id _ => (seedRow_props named free id).symm
  rw [rows, seedStartNode_eq]
  dsimp only
  cases labels : np.labels with
  | nil => simp only [seedIds, labels, free, List.Perm.refl]
  | cons label others =>
    simp only [seedIds, labels, free]
    cases asked : literalToProperty lit with
    | none => exact .refl _
    | some value =>
      have all := serves.nodesByLabel label
      have indexed := serves.nodesByLabelAndProperty label key value
      have perm : (graph.nodesByLabelAndProperty label key value).Perm
          ((graph.nodesByLabel label).filter
            (· ∈ graph.nodesByLabelAndProperty label key value)) := by
        rw [perm_ext_iff_of_nodup indexed.nodup (all.nodup.filter _)]
        intro id
        rw [mem_filter, decide_eq_true_eq]
        refine ⟨fun member => ⟨(all.mem_iff id).mpr ?_, member⟩, And.right⟩
        obtain ⟨node, here, labelled, -⟩ := (indexed.mem_iff id).mp member
        exact ⟨node, here, labelled⟩
      refine (perm.filterMap _).trans (.of_eq ?_)
      rw [filterMap_filter]
      refine filterMap_congr fun id _ => ?_
      simp only [decide_eq_true_eq]
      split
      · rfl
      · next missing =>
          rw [seedRow]
          cases read : graph.node id with
          | error e => rfl
          | ok node =>
            dsimp only
            split
            · next passes =>
                refine absurd ((indexed.mem_iff id).mpr ⟨node,
                  serves.node_eq_ok.mp read, ?_⟩) missing
                rw [← labels, nodeMatchesPattern_props _ free, Bool.and_eq_true] at passes
                refine ⟨?_, (inlineHolds_iff simple asked).mp passes.2⟩
                have labelled := passes.1
                rw [nodeMatchesPattern, labels, Bool.and_eq_true] at labelled
                exact of_decide_eq_true labelled.1
            · rfl

end Seeds

theorem whereEq_null (evaluation : Evaluation) (var key : String) (row : PatternMatch) :
    whereEq evaluation var key .null row = false := by
  rw [whereEq_eq, Option.any_eq_false]
  intro properties _
  rw [compileLiteral]
  cases propertyValue properties key <;> rfl

theorem hopNames_append (front back : List Hop) :
    hopNames (front ++ back) = hopNames front ++ hopNames back := flatMap_append

theorem Constrained.hasVariableLengthHop {var key : String} {lit : Literal}
    (constrained : Constrained var key lit pp pp') :
    hasVariableLengthHop pp' = hasVariableLengthHop pp := by
  cases constrained <;> simp [Gql.hasVariableLengthHop]

section Compiled

variable {graph : GraphAccess} {contents : Contents} (serves : graph.Serves contents)
  {var key : String} {lit : Literal}
include serves
variable {np : NodePattern}

omit serves in
theorem nodes_seed (other : var ≠ (compileNodeToBuilder np 0).1.var) {row : PatternMatch}
    (member : row ∈ (seedStartNode graph np).1) : row.nodes var = none := by
  rw [seedStartNode_eq] at member
  obtain ⟨id, -, made⟩ := mem_filterMap.mp member
  rw [seedRow] at made
  split at made
  · split at made
    · cases made
      exact Function.update_of_ne other _ _
    · cases made
  · cases made

variable {rows : List PatternMatch}

omit serves in
theorem varlen_hop {start : NodePattern} {before after : List (EdgePattern × NodePattern)}
    {ep : EdgePattern} (props props' : List (String × Literal))
    (named : ∀ anonCounter, var ∈ hopNames (segmentHops [(ep, np)] anonCounter))
    (narrowed : ∀ prevVar anonCounter row found, row.nodes var = none →
      (hopNames (segmentHops [(ep, np)] anonCounter)).Nodup →
      hopRow graph prevVar (compileNodeToBuilder np anonCounter).1.var ep np row = .ok found →
      hopRow graph prevVar (compileNodeToBuilder np anonCounter).1.var { ep with props }
        { np with props := props' } row = .ok (found.filter (inlineEq var key lit)))
    (unique : validateUniqueVars (segmentOf ⟨start, before ++ (ep, np) :: after⟩) = .ok ())
    (ran : compilePathPatternWithVarlen graph inTime
      ⟨start, before ++ (ep, np) :: after⟩ = .ok rows) :
    compilePathPatternWithVarlen graph inTime
      ⟨start, before ++ ({ ep with props }, { np with props := props' }) :: after⟩ =
        .ok (rows.filter (inlineEq var key lit)) := by
  obtain ⟨distinct, apart⟩ := nodup_hopNames unique
  let first := (compileNodeToBuilder start 0).2
  let place := anonAfter before first
  have hops : (segmentOf ⟨start, before ++ (ep, np) :: after⟩).hops =
      segmentHops before first ++ (segmentHops [(ep, np)] place ++
        segmentHops after (compileNodeToBuilder np place).2) := by
    rw [segmentOf]
    exact segmentHops_append before _ first
  rw [hops, hopNames_append, hopNames_append] at distinct apart
  obtain ⟨-, inner, outer⟩ := nodup_append.mp distinct
  obtain ⟨here, -, across⟩ := nodup_append.mp inner
  have member := named place
  have other : var ≠ (compileNodeToBuilder start 0).1.var := by
    intro same
    exact apart var (mem_append_right _ (mem_append_left _ member))
      (mem_singleton.mpr same)
  rw [compilePathPatternWithVarlen] at ran ⊢
  refine expandPatternHops_narrowed props props' narrowed ?_ here ?_
    (fun row seed => nodes_seed other seed) ran
  · exact fun earlier => outer var earlier var (mem_append_left _ member) rfl
  · exact fun later => across var member var later rfl

/-- With hops of variable length, a constraint keeps the rows that have what it asks for. -/
theorem compilePathPatternWithVarlen_constrained (constrained : Constrained var key lit pp pp')
    (simple : lit.Simple) (unique : validateUniqueVars (segmentOf pp) = .ok ())
    (ran : compilePathPatternWithVarlen graph inTime pp = .ok rows) :
    ∃ rows', compilePathPatternWithVarlen graph inTime pp' = .ok rows' ∧
      rows'.Perm (rows.filter (inlineEq var key lit)) := by
  cases constrained with
  | start np hops named free =>
    obtain ⟨-, apart⟩ := nodup_hopNames unique
    rw [compilePathPatternWithVarlen, seedStartNode_eq] at ran
    have others : var ∉ hopNames (segmentHops hops (compileNodeToBuilder np 0).2) := by
      intro member
      refine apart var member ?_
      rw [segmentOf, compileNode_var named]
      exact mem_cons_self
    have kept := expandPatternHops_filter key lit others ran
    have perm := (seeds_narrowed key serves named free simple).symm
    obtain ⟨rows', ran', same⟩ := expandPatternHops_perm perm kept
    refine ⟨rows', ?_, same.symm⟩
    rw [compilePathPatternWithVarlen, seedStartNode_eq]
    rw [seedStartNode_eq] at ran'
    simp only [compileNode_props]
    exact ran'
  | node start before after ep np named free =>
    refine ⟨_, varlen_hop ep.props [(key, lit)] ?_ ?_ unique ran, .refl _⟩
    · intro anonCounter
      rw [segmentHops, hopNames_cons, compileNode_var named]
      exact mem_append_right _ mem_cons_self
    · intro prevVar anonCounter row found _ _ expanded
      rw [compileNode_var named] at expanded ⊢
      exact hopRow_node free expanded
  | edge start before after ep np named free fixed =>
    refine ⟨_, varlen_hop [(key, lit)] np.props ?_ ?_ unique ran, .refl _⟩
    · intro anonCounter
      rw [segmentHops, hopNames_cons, compileEdgeToBuilder, named]
      exact mem_cons_self
    · intro prevVar anonCounter row found clear apart expanded
      rw [segmentHops, hopNames_cons, compileEdgeToBuilder, named] at apart
      refine hopRow_edge named free fixed ?_ clear expanded
      intro same
      exact (nodup_cons.mp apart).1 (mem_cons.mpr (.inl same))

theorem compilePathPattern_constrained (constrained : Constrained var key lit pp pp')
    (simple : lit.Simple) (unique : validateUniqueVars (segmentOf pp) = .ok ())
    (ran : compilePathPattern graph inTime pp = .ok rows) :
    ∃ rows', compilePathPattern graph inTime pp' = .ok rows' ∧
      rows'.Perm (rows.filter (inlineEq var key lit)) := by
  rw [compilePathPattern] at ran ⊢
  rw [constrained.hasVariableLengthHop]
  cases long : hasVariableLengthHop pp with
  | true =>
    rw [long] at ran
    exact compilePathPatternWithVarlen_constrained serves constrained simple unique ran
  | false =>
    rw [long] at ran
    exact compilePathPatternFixed_constrained serves constrained simple ran

/-- A constraint inside of a pattern whose names stand for one thing each gives the rows that a
WHERE gives just where it asks for a value other than null, and finds no float equal to it. -/
theorem inline_iff_where (evaluation : Evaluation) {pp pp' : PathPattern} (pathVar : Option String)
    (constrained : Constrained var key lit pp pp') (simple : lit.Simple)
    (unique : validateUniqueVars (segmentOf pp) = .ok ()) {rows : List PatternMatch}
    (ran : compileMatch graph inTime ⟨[pp], pathVar⟩ = .ok rows) :
    ∃ rows', compileMatch graph inTime ⟨[pp'], pathVar⟩ = .ok rows' ∧
      (rows'.Perm (rows.filter (whereEq evaluation var key lit)) ↔
        ∀ row ∈ rows, ∀ properties, row.propertiesOf var = some properties →
          SameEitherWay evaluation.float (properties.get? key) lit) := by
  rw [compileMatch_single rfl] at ran
  obtain ⟨rows', ran', perm⟩ := compilePathPattern_constrained serves constrained simple unique ran
  refine ⟨rows', (compileMatch_single rfl).trans ran', ?_⟩
  have swap : rows'.Perm (rows.filter (whereEq evaluation var key lit)) ↔
      (rows.filter (inlineEq var key lit)).Perm (rows.filter (whereEq evaluation var key lit)) :=
    ⟨perm.symm.trans, perm.trans⟩
  rw [swap]
  by_cases asked : lit = .null
  · subst asked
    have weaker : ∀ row ∈ rows, whereEq evaluation var key .null row →
        inlineEq var key .null row := by
      intro row _ holds
      rw [whereEq_null] at holds
      cases holds
    rw [perm_comm, perm_filter_iff weaker]
    refine forall₂_congr fun row _ => ?_
    rw [whereEq_null, inlineEq]
    cases row.propertiesOf var with
    | none => simp
    | some properties => simp [inlineHolds_eq, literalToProperty, SameEitherWay]
  · rw [perm_filter_iff]
    · refine forall₂_congr fun row _ => ?_
      rw [whereEq_eq, inlineEq]
      cases row.propertiesOf var with
      | none => simp
      | some properties =>
        simp only [Option.any_some, Option.some.injEq, forall_eq']
        exact inline_of_gqlValueEq simple asked
    · intro row _ holds
      rw [inlineEq, Option.any_eq_true] at holds
      obtain ⟨properties, here, inner⟩ := holds
      rw [whereEq_eq, here, any_some]
      exact gqlValueEq_of_inline simple asked inner

end Compiled

def onePerson : PropertyGraph where
  nodes := [⟨1, "Person", ⟨[("age", .i64 30)], nodup_singleton "age"⟩, {}⟩]
  edges := []
  nodes_nodup := by decide
  edges_nodup := nodup_nil
  ends := nofun

def person (props : List (String × Literal)) : PathPattern :=
  ⟨{ var := some "n", labels := ["Person"], props }, []⟩

theorem constrained_person (lit : Literal) :
    Constrained "n" "age" lit (person []) (person [("age", lit)]) :=
  .start { var := some "n", labels := ["Person"] } [] rfl rfl

/-- An evaluation that knows of properties only. -/
def propertiesOnly : Evaluation where
  float := ⟨fun _ => 0, fun _ _ => 0, fun _ _ => 0⟩
  surfaceName _ := ""
  scalar _ _ := .null

theorem exists_person : ∃ rows, compileMatch onePerson.access inTime ⟨[person []], none⟩ = .ok rows ∧
    rows.length = 1 := by
  have one : (compileMatch onePerson.access inTime ⟨[person []], none⟩).toOption.map List.length =
      some 1 := by
    decide +kernel
  cases ran : compileMatch onePerson.access inTime ⟨[person []], none⟩ with
  | error e =>
    rw [ran] at one
    cases one
  | ok rows =>
    rw [ran] at one
    exact ⟨rows, rfl, some.inj one⟩

/-- Asking for an integer. -/
theorem inline_iff_where_int : ∃ rows rows',
    compileMatch onePerson.access inTime ⟨[person []], none⟩ = .ok rows ∧
    compileMatch onePerson.access inTime ⟨[person [("age", .int 30)]], none⟩ = .ok rows' ∧
    (rows'.Perm (rows.filter (whereEq propertiesOnly "n" "age" (.int 30))) ↔
      ∀ row ∈ rows, ∀ properties, row.propertiesOf "n" = some properties →
        SameEitherWay propertiesOnly.float (properties.get? "age") (.int 30)) := by
  obtain ⟨rows, ran, -⟩ := exists_person
  obtain ⟨rows', ran', same⟩ := inline_iff_where onePerson.serves propertiesOnly none
    (constrained_person (.int 30)) trivial rfl ran
  exact ⟨rows, rows', ran, ran', same⟩

/-- Asking for null inside of a pattern finds the person that a WHERE does not find. -/
theorem inline_null_not_where : ∃ rows rows',
    compileMatch onePerson.access inTime ⟨[person []], none⟩ = .ok rows ∧
    compileMatch onePerson.access inTime ⟨[person [("age", .null)]], none⟩ = .ok rows' ∧
    rows'.length = 1 ∧
    ¬rows'.Perm (rows.filter (whereEq propertiesOnly "n" "age" .null)) := by
  obtain ⟨rows, ran, one⟩ := exists_person
  refine ⟨rows, rows, ran, ran, one, fun perm => ?_⟩
  obtain ⟨row, rfl⟩ := length_eq_one_iff.mp one
  rw [filter_singleton, whereEq_null] at perm
  cases perm.length_eq

end ErmyaGraph.Gql
