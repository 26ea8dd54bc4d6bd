import ErmyaGraph.Lib.Expansion
import ErmyaGraph.Gql.Inline

/-! # Constraints along fixed hops

A constraint inside of a pattern narrows the candidates for its start or the
steps of one hop, and leaves the rest of a match alone. -/

namespace ErmyaGraph.Gql

variable {hop hop' : Hop} {asks : Edge × Node → Bool}

open Expansion List

variable (np : NodePattern)

theorem compileNode_props (props : List (String × Literal)) (anonCounter : Nat) :
    compileNodeToBuilder { np with props } anonCounter =
      ({ (compileNodeToBuilder np anonCounter).1 with props := compileProps props },
        (compileNodeToBuilder np anonCounter).2) := by
  unfold compileNodeToBuilder
  cases np.var <;> rfl

theorem nodeMatches_props (node : Node) {constraint : NodeConstraint} (free : constraint.props = [])
    (key : String) (lit : Literal) :
    nodeMatches node { constraint with props := compileProps [(key, lit)] } =
      (nodeMatches node constraint && inlineHolds key lit node.properties) := by
  rw [nodeMatches, nodeMatches, propsMatch_compileProps, free]
  simp only [propsMatch, all_nil, Bool.and_true, inlineHolds]

theorem edgeMatches_props (edge : Edge) {constraint : EdgeConstraint} (free : constraint.props = [])
    (key : String) (lit : Literal) :
    edgeMatches edge { constraint with props := compileProps [(key, lit)] } =
      (edgeMatches edge constraint && inlineHolds key lit edge.properties) := by
  rw [edgeMatches, edgeMatches, propsMatch_compileProps, free]
  simp only [propsMatch, all_nil, Bool.true_and, inlineHolds]

section Served

variable {graph : GraphAccess} {contents : Contents} (serves : graph.Serves contents)
include serves
variable {constraint : NodeConstraint}

theorem starts_narrowed (free : constraint.props = []) {key : String} {lit : Literal}
    (simple : lit.Simple) :
    (starts graph { constraint with props := compileProps [(key, lit)] }).Perm
      ((starts graph constraint).filter fun node => inlineHolds key lit node.properties) := by
  obtain ⟨distinct, members⟩ := starts_enumerates serves constraint
  obtain ⟨distinct', members'⟩ :=
    starts_enumerates serves { constraint with props := compileProps [(key, lit)] }
  rw [perm_ext_iff_of_nodup distinct' (distinct.filter _)]
  intro node
  rw [members', mem_filter, members, nodeMatches_props _ free, Bool.and_eq_true]
  have indexed : constraint.Indexed node := by
    intro _ entry mem
    rw [free] at mem
    exact absurd mem not_mem_nil
  constructor
  · rintro ⟨here, ⟨passes, holds⟩, -⟩
    exact ⟨⟨here, passes, indexed⟩, holds⟩
  · rintro ⟨⟨here, passes, -⟩, holds⟩
    refine ⟨here, ⟨passes, holds⟩, fun _ entry mem => ?_⟩
    rw [compileProps, filterMap_cons, filterMap_nil] at mem
    cases asked : literalToProperty lit with
    | none =>
      simp only [asked, Option.map_none] at mem
      exact absurd mem not_mem_nil
    | some value =>
      simp only [asked, Option.map_some, mem_singleton] at mem
      rw [mem]
      exact (inlineHolds_iff simple asked).mp holds

/-- The steps of a hop that asks for more. -/
theorem stepsFrom_narrowed {source : Nat} (present : (contents.nodes source).isSome)
    (direction : hop'.edge.direction = hop.edge.direction)
    (label : hop'.edge.label = hop.edge.label)
    (passes : ∀ edge node, (edgeMatches edge hop'.edge && nodeMatches node hop'.node) =
      (edgeMatches edge hop.edge && nodeMatches node hop.node && asks (edge, node))) :
    stepsFrom graph source hop' = (stepsFrom graph source hop).filter asks := by
  obtain ⟨outgoing, incoming, leaves, arrives, listed⟩ :=
    neighborEdges_ok serves present hop.edge.direction hop.edge.label
  rw [stepsFrom, stepsFrom, direction, label, listed, filter_filterMap]
  refine filterMap_congr fun edge mem => ?_
  have there : contents.edges edge.id = some edge := by
    have either : edge ∈ outgoing ∨ edge ∈ incoming := by
      cases way : hop.edge.direction with
      | outgoing =>
        rw [way] at mem
        exact .inl mem
      | incoming =>
        rw [way] at mem
        exact .inr mem
      | both =>
        rw [way] at mem
        exact mem_append.mp mem
    exact either.elim (fun out => ((leaves.mem_iff edge).mp out).1)
      fun into => ((arrives.mem_iff edge).mp into).1
  have ends : (contents.nodes (neighborId source edge)).isSome := by
    unfold neighborId
    split
    · exact contents.target_some there
    · exact contents.source_some there
  obtain ⟨node, found⟩ := Option.isSome_iff_exists.mp ends
  have same := passes edge node
  rw [hopAlong_ok serves found, hopAlong_ok serves found]
  simp only [← Bool.and_eq_true, same]
  by_cases both : (edgeMatches edge hop.edge && nodeMatches node hop.node) = true
  · cases asked : asks (edge, node) <;> simp [both, asked, Except.toOption, Option.filter]
  · simp [both, Except.toOption]

theorem walks_narrowed
    (narrowed : ∀ source, (contents.nodes source).isSome →
      stepsFrom graph source hop' = (stepsFrom graph source hop).filter asks)
    (before after : List Hop) {source : Nat} (present : (contents.nodes source).isSome) :
    walks graph source (before ++ hop' :: after) =
      (walks graph source (before ++ hop :: after)).filter fun steps =>
        steps[before.length]?.any asks := by
  induction before generalizing source with
  | nil =>
    simp only [nil_append, walks, narrowed source present, length_nil]
    refine flatMap_filter _ fun step _ steps mem => ?_
    obtain ⟨later, -, rfl⟩ := mem_map.mp mem
    rfl
  | cons first before ih =>
    simp only [cons_append, walks, length_cons, filter_flatMap]
    refine flatMap_congr fun step mem => ?_
    have there := ((mem_stepsFrom serves present).mp mem).present
    rw [ih there, filter_map]
    rfl

theorem matchesOf_start (free : constraint.props = []) {key : String} {lit : Literal}
    (simple : lit.Simple) (hops : List Hop) :
    (matchesOf graph ⟨{ constraint with props := compileProps [(key, lit)] }, hops⟩).Perm
      ((matchesOf graph ⟨constraint, hops⟩).filter fun m =>
        inlineHolds key lit m.start.properties) := by
  rw [matchesOf, matchesOf, ← flatMap_filter]
  · exact (starts_narrowed serves free simple).flatMap_right _
  · intro start _ m mem
    obtain ⟨steps, -, rfl⟩ := mem_map.mp mem
    rfl

theorem matchesOf_hop (narrowed : ∀ source, (contents.nodes source).isSome →
      stepsFrom graph source hop' = (stepsFrom graph source hop).filter asks)
    (before after : List Hop) :
    matchesOf graph ⟨constraint, before ++ hop' :: after⟩ =
      (matchesOf graph ⟨constraint, before ++ hop :: after⟩).filter fun m =>
        m.steps[before.length]?.any asks := by
  rw [matchesOf, matchesOf, filter_flatMap]
  refine flatMap_congr fun start mem => ?_
  have there := (((starts_enumerates serves constraint).mem_iff start).mp mem).1
  rw [walks_narrowed serves narrowed before after (Option.isSome_of_eq_some there), filter_map]
  rfl

end Served

theorem bindHops_congr (node : hop'.node.var = hop.node.var) (edge : hop'.edge.var = hop.edge.var)
    (before after : List Hop) (row : PatternMatch) (steps : List (Edge × Node)) :
    row.bindHops (before ++ hop' :: after) steps = row.bindHops (before ++ hop :: after) steps := by
  induction before generalizing row steps with
  | nil =>
    cases steps with
    | nil => rfl
    | cons step rest =>
      simp only [nil_append, PatternMatch.bindHops, PatternMatch.bindHop, node, edge]
  | cons first before ih =>
    cases steps with
    | nil => rfl
    | cons step rest => exact ih _ rest

def anonAfter : List (EdgePattern × NodePattern) → (anonCounter : Nat) → Nat
  | [], anonCounter => anonCounter
  | (_, np) :: rest, anonCounter => anonAfter rest (compileNodeToBuilder np anonCounter).2

theorem segmentHops_append (before rest : List (EdgePattern × NodePattern)) (anonCounter : Nat) :
    segmentHops (before ++ rest) anonCounter =
      segmentHops before anonCounter ++ segmentHops rest (anonAfter before anonCounter) := by
  induction before generalizing anonCounter with
  | nil => rfl
  | cons hop before ih => exact congrArg _ (ih (compileNodeToBuilder hop.2 anonCounter).2)

theorem mem_segmentHopBindings (hop : Hop) {before : List Hop} (after : List Hop) {steps : List (Edge × Node)}
    {step : Edge × Node} (there : steps[before.length]? = some step) :
    (hop.node.var, .node step.2) ∈ segmentHopBindings (before ++ hop :: after) steps ∧
      ∀ var, hop.edge.var = some var →
        (var, .edge step.1) ∈ segmentHopBindings (before ++ hop :: after) steps := by
  induction before generalizing steps with
  | nil =>
    cases steps with
    | nil => cases there
    | cons first rest =>
      cases there
      refine ⟨mem_append_right _ mem_cons_self, fun var named => ?_⟩
      refine mem_append_left _ ?_
      simp [named]
  | cons first before ih =>
    cases steps with
    | nil => cases there
    | cons step' rest =>
      obtain ⟨node, edge⟩ := ih there
      exact ⟨mem_append_right _ (.tail _ node), fun var named =>
        mem_append_right _ (.tail _ (edge var named))⟩

def hopNames (hops : List Hop) : List String :=
  hops.flatMap fun hop => hop.edge.var.toList ++ [hop.node.var]

/-- Names that passed the check stand for one thing each. -/
theorem nodup_hopNames {hops : List Hop} {seen : List String}
    (checked : validateHopVars seen hops = .ok ()) :
    (hopNames hops).Nodup ∧ ∀ name ∈ hopNames hops, name ∉ seen := by
  induction hops generalizing seen with
  | nil => exact ⟨nodup_nil, fun _ mem => absurd mem not_mem_nil⟩
  | cons hop hops ih =>
    rw [validateHopVars] at checked
    split at checked
    · cases checked
    · next unseen =>
        rw [hopNames, flatMap_cons]
        cases named : hop.edge.var with
        | none =>
          rw [named] at checked
          obtain ⟨distinct, apart⟩ := ih checked
          refine ⟨nodup_cons.mpr ⟨?_, distinct⟩, ?_⟩
          · exact fun mem => apart _ mem mem_cons_self
          · rintro name mem seen
            rcases mem_cons.mp mem with rfl | later
            · exact unseen seen
            · exact apart name later (.tail _ seen)
        | some var =>
          rw [named] at checked
          dsimp only at checked
          split at checked
          · cases checked
          · next free =>
              obtain ⟨distinct, apart⟩ := ih checked
              rw [mem_cons, not_or] at free
              have inner : (hop.node.var :: hopNames hops).Nodup :=
                nodup_cons.mpr ⟨fun mem => apart _ mem
                  (mem_cons_of_mem _ mem_cons_self), distinct⟩
              refine ⟨nodup_cons.mpr ⟨?_, inner⟩, ?_⟩
              · intro mem
                rcases mem_cons.mp mem with same | later
                · exact free.1 same
                · exact apart _ later mem_cons_self
              · rintro name mem seen
                rcases mem_cons.mp mem with rfl | later
                · exact free.2 seen
                · rcases mem_cons.mp later with rfl | last
                  · exact unseen seen
                  · exact apart name last
                      (.tail _ (.tail _ seen))

theorem segmentHopBindings_sublist (hops : List Hop) (steps : List (Edge × Node)) :
    ((segmentHopBindings hops steps).map Prod.fst).Sublist (hopNames hops) := by
  induction hops generalizing steps with
  | nil => cases steps <;> exact nil_sublist _
  | cons hop hops ih =>
    cases steps with
    | nil => exact nil_sublist _
    | cons step steps =>
      rw [segmentHopBindings, hopNames, flatMap_cons, map_append, map_cons, map_map, append_assoc]
      refine List.Sublist.append ?_ ((ih steps).cons_cons _)
      simp [Function.comp_def]

theorem bindings_functional {segment : Segment} (checked : validateUniqueVars segment = .ok ())
    (m : PathMatch) {var : String} {left right : Entity} (here : (var, left) ∈ segment.bindings m)
    (there : (var, right) ∈ segment.bindings m) : left = right := by
  obtain ⟨distinct, apart⟩ := nodup_hopNames checked
  have within := segmentHopBindings_sublist segment.hops m.steps
  have all : ((segment.bindings m).map Prod.fst).Nodup :=
    nodup_cons.mpr ⟨fun mem => apart _ (within.subset mem) mem_cons_self,
      distinct.sublist within⟩
  exact congrArg Prod.snd (inj_on_of_nodup_map all here there rfl)

section Rows

variable {graph : GraphAccess} {contents : Contents} {segment : Segment} {m : PathMatch}
  {var : String} (checked : validateUniqueVars segment = .ok ())
  (holds : segment.Holds contents m)
include checked holds

theorem propertiesOf_row_node {node : Node} (bound : (var, .node node) ∈ segment.bindings m) :
    (segment.row m).propertiesOf var = some node.properties := by
  have here : (segment.row m).nodes var = some node := (binds_row checked holds).mpr bound
  rw [PatternMatch.propertiesOf, here]

theorem propertiesOf_row_edge {edge : Edge} (bound : (var, .edge edge) ∈ segment.bindings m) :
    (segment.row m).propertiesOf var = some edge.properties := by
  have here : (segment.row m).edges var = some edge := (binds_row checked holds).mpr bound
  rw [PatternMatch.propertiesOf, here]
  cases other : (segment.row m).nodes var with
  | none => rfl
  | some node =>
    have there : (var, .node node) ∈ segment.bindings m := (binds_row checked holds).mp other
    cases bindings_functional checked m bound there

end Rows

theorem compileHops_append (before rest : List (EdgePattern × NodePattern)) (anonCounter : Nat) :
    compileHops (before ++ rest) anonCounter =
      compileHops before anonCounter ++ compileHops rest (anonAfter before anonCounter) := by
  induction before generalizing anonCounter with
  | nil => rfl
  | cons hop before ih =>
    exact congrArg (_ :: _ :: ·) (ih (compileNodeToBuilder hop.2 anonCounter).2)

theorem validateNoEmptyVars_hop (start : NodePattern) (before after : List (EdgePattern × NodePattern))
    (ep : EdgePattern) (np : NodePattern) (props props' : List (String × Literal)) :
    validateNoEmptyVars (compileSteps
        ⟨start, before ++ ({ ep with props }, { np with props := props' }) :: after⟩) =
      validateNoEmptyVars (compileSteps ⟨start, before ++ (ep, np) :: after⟩) := by
  simp only [compileSteps, compileHops_append, compileHops, compileNode_props]
  simp only [validateNoEmptyVars, forM_eq_forM, forM_cons, forM_append]
  rfl

theorem validateNoEmptyVars_start (hops : List (EdgePattern × NodePattern))
    (props : List (String × Literal)) :
    validateNoEmptyVars (compileSteps ⟨{ np with props }, hops⟩) =
      validateNoEmptyVars (compileSteps ⟨np, hops⟩) := by
  simp only [compileSteps, compileNode_props]
  simp only [validateNoEmptyVars, forM_eq_forM, forM_cons]

theorem validateHopVars_congr (node : hop'.node.var = hop.node.var)
    (edge : hop'.edge.var = hop.edge.var) (before after : List Hop) (seen : List String) :
    validateHopVars seen (before ++ hop' :: after) =
      validateHopVars seen (before ++ hop :: after) := by
  induction before generalizing seen with
  | nil => simp only [nil_append, validateHopVars, node, edge]
  | cons first before ih => simp only [cons_append, validateHopVars, ih]

theorem props_compileNode (anonCounter : Nat) :
    (compileNodeToBuilder np anonCounter).1.props = compileProps np.props := by
  unfold compileNodeToBuilder
  cases np.var <;> rfl

section Compiled

variable {graph : GraphAccess} {contents : Contents} (serves : graph.Serves contents)
  {var key : String} {lit : Literal}
include serves
variable {rows : List PatternMatch}

theorem compilePathPatternFixed_rows {pp : PathPattern}
    (ran : compilePathPatternFixed graph pp = .ok rows) :
    validateNoEmptyVars (compileSteps pp) = .ok () ∧ validateUniqueVars (segmentOf pp) = .ok () ∧
      rows = (matchesOf graph (segmentOf pp)).map (segmentOf pp).row := by
  refine ⟨?_, compilePathPatternFixed_ok serves ran⟩
  cases named : validateNoEmptyVars (compileSteps pp) with
  | ok => rfl
  | error e =>
    rw [compilePathPatternFixed, execute, named] at ran
    cases ran

theorem rows_narrowed {segment segment' : Segment} (row : segment'.row = segment.row)
    {asks : PathMatch → Bool}
    (narrowed : (matchesOf graph segment').Perm ((matchesOf graph segment).filter asks))
    (shown : ∀ m, segment.Holds contents m → inlineEq var key lit (segment.row m) = asks m) :
    ((matchesOf graph segment').map segment'.row).Perm
      (((matchesOf graph segment).map segment.row).filter (inlineEq var key lit)) := by
  rw [row, filter_map]
  have same : (matchesOf graph segment).filter (inlineEq var key lit ∘ segment.row) =
      (matchesOf graph segment).filter asks :=
    filter_congr fun m mem => shown m ((mem_matchesOf serves).mp mem)
  rw [same]
  exact narrowed.map _

variable {np : NodePattern}

theorem fixed_start {hops : List (EdgePattern × NodePattern)} (named : np.var = some var)
    (free : np.props = []) (simple : lit.Simple)
    (ran : compilePathPatternFixed graph ⟨np, hops⟩ = .ok rows) :
    ∃ rows', compilePathPatternFixed graph ⟨{ np with props := [(key, lit)] }, hops⟩ = .ok rows' ∧
      rows'.Perm (rows.filter (inlineEq var key lit)) := by
  obtain ⟨names, unique, rfl⟩ := compilePathPatternFixed_rows serves ran
  have segment' : segmentOf ⟨{ np with props := [(key, lit)] }, hops⟩ =
      ⟨{ (segmentOf ⟨np, hops⟩).node with props := compileProps [(key, lit)] },
        (segmentOf ⟨np, hops⟩).hops⟩ := by
    simp only [segmentOf, compileNode_props]
  have blank : (segmentOf ⟨np, hops⟩).node.props = [] := by
    rw [segmentOf, props_compileNode, free]
    rfl
  have names' : validateNoEmptyVars (compileSteps ⟨{ np with props := [(key, lit)] }, hops⟩) =
      .ok () := by
    rw [validateNoEmptyVars_start, names]
  have unique' : validateUniqueVars (segmentOf ⟨{ np with props := [(key, lit)] }, hops⟩) =
      .ok () := by
    rw [segment']
    exact unique
  refine ⟨_, execute_ok serves names' (parseSegment_compileSteps _) unique', ?_⟩
  rw [segment']
  refine rows_narrowed serves rfl (matchesOf_start serves blank simple _) fun m holds => ?_
  have bound : (var, .node m.start) ∈ (segmentOf ⟨np, hops⟩).bindings m := by
    rw [Segment.bindings, segmentOf, compileNode_var named]
    exact mem_cons_self
  rw [inlineEq, propertiesOf_row_node unique holds bound, Option.any_some]

/-- A hop that asks for more, where the rows show what it asks for. -/
theorem fixed_hop {start : NodePattern} {before after : List (EdgePattern × NodePattern)}
    {ep : EdgePattern} (props props' : List (String × Literal)) (asks : Edge × Node → Bool)
    (passes : ∀ edge node anonCounter, (edgeMatches edge (compileEdgeToBuilder { ep with props }) &&
        nodeMatches node (compileNodeToBuilder { np with props := props' } anonCounter).1) =
      (edgeMatches edge (compileEdgeToBuilder ep) &&
        nodeMatches node (compileNodeToBuilder np anonCounter).1 && asks (edge, node)))
    (shown : ∀ (segment : Segment) (m : PathMatch) (step : Edge × Node) (anonCounter : Nat),
      validateUniqueVars segment = .ok () → segment.Holds contents m →
      ((compileNodeToBuilder np anonCounter).1.var, .node step.2) ∈ segment.bindings m →
      (∀ name, ep.var = some name → (name, .edge step.1) ∈ segment.bindings m) →
      inlineEq var key lit (segment.row m) = asks step)
    (ran : compilePathPatternFixed graph ⟨start, before ++ (ep, np) :: after⟩ = .ok rows) :
    ∃ rows', compilePathPatternFixed graph
        ⟨start, before ++ ({ ep with props }, { np with props := props' }) :: after⟩ = .ok rows' ∧
      rows'.Perm (rows.filter (inlineEq var key lit)) := by
  obtain ⟨names, unique, rfl⟩ := compilePathPatternFixed_rows serves ran
  let later := anonAfter before (compileNodeToBuilder start 0).2
  let hop : Hop := ⟨compileEdgeToBuilder ep, (compileNodeToBuilder np later).1⟩
  let hop' : Hop := ⟨compileEdgeToBuilder { ep with props },
    (compileNodeToBuilder { np with props := props' } later).1⟩
  let front := segmentHops before (compileNodeToBuilder start 0).2
  let back := segmentHops after (compileNodeToBuilder np later).2
  have segment : segmentOf ⟨start, before ++ (ep, np) :: after⟩ =
      ⟨(compileNodeToBuilder start 0).1, front ++ hop :: back⟩ := by
    simp only [segmentOf, segmentHops_append, segmentHops, front, hop, back, later]
  have segment' : segmentOf
      ⟨start, before ++ ({ ep with props }, { np with props := props' }) :: after⟩ =
      ⟨(compileNodeToBuilder start 0).1, front ++ hop' :: back⟩ := by
    simp only [segmentOf, segmentHops_append, segmentHops, front, hop', back, later,
      compileNode_props]
  have nodeVar : hop'.node.var = hop.node.var := by simp only [hop, hop', compileNode_props]
  have names' := (validateNoEmptyVars_hop start before after ep np props props').trans names
  have unique' : validateUniqueVars (segmentOf
      ⟨start, before ++ ({ ep with props }, { np with props := props' }) :: after⟩) = .ok () := by
    rw [segment'] at *
    rw [segment] at unique
    exact (validateHopVars_congr nodeVar rfl front back _).trans unique
  refine ⟨_, execute_ok serves names' (parseSegment_compileSteps _) unique', ?_⟩
  rw [segment', segment]
  rw [segment] at unique
  have direction : hop'.edge.direction = hop.edge.direction := rfl
  have label : hop'.edge.label = hop.edge.label := rfl
  have narrowed : ∀ source, (contents.nodes source).isSome →
      stepsFrom graph source hop' = (stepsFrom graph source hop).filter asks := by
    intro source present
    exact stepsFrom_narrowed serves present direction label fun edge node => passes edge node later
  refine rows_narrowed serves (funext fun m => bindHops_congr nodeVar rfl front back _ m.steps)
    (.of_eq (matchesOf_hop serves narrowed front back)) fun m holds => ?_
  · have long := holds.follows.length_eq
    have within : front.length < m.steps.length := by
      rw [← long, length_append, length_cons]
      omega
    have there : m.steps[front.length]? = some m.steps[front.length] :=
      List.getElem?_eq_getElem within
    obtain ⟨node, edge⟩ := mem_segmentHopBindings hop back there
    rw [there, Option.any_some]
    exact shown _ m _ later unique holds (.tail _ node) fun name named =>
      .tail _ (edge name named)

theorem compilePathPatternFixed_constrained {pp pp' : PathPattern}
    (constrained : Constrained var key lit pp pp') (simple : lit.Simple)
    (ran : compilePathPatternFixed graph pp = .ok rows) :
    ∃ rows', compilePathPatternFixed graph pp' = .ok rows' ∧
      rows'.Perm (rows.filter (inlineEq var key lit)) := by
  cases constrained with
  | start np hops named free => exact fixed_start serves named free simple ran
  | node start before after ep np named free =>
    refine fixed_hop serves ep.props [(key, lit)]
      (fun step => inlineHolds key lit step.2.properties) ?_ ?_ ran
    · intro edge node anonCounter
      have blank : (compileNodeToBuilder np anonCounter).1.props = [] := by
        rw [props_compileNode, free]
        rfl
      rw [compileNode_props, nodeMatches_props _ blank, Bool.and_assoc]
    · intro segment m step anonCounter unique holds bound _
      rw [compileNode_var named] at bound
      rw [inlineEq, propertiesOf_row_node unique holds bound, Option.any_some]
  | edge start before after ep np named free _ =>
    refine fixed_hop serves [(key, lit)] np.props
      (fun step => inlineHolds key lit step.1.properties) ?_ ?_ ran
    · intro edge node anonCounter
      have blank : (compileEdgeToBuilder ep).props = [] := by
        rw [compileEdgeToBuilder, free]
        rfl
      have asked := edgeMatches_props edge blank key lit
      rw [Bool.and_right_comm, ← asked]
      rfl
    · intro segment m step _ unique holds _ bound
      rw [inlineEq, propertiesOf_row_edge unique holds (bound var named), Option.any_some]

end Compiled

end ErmyaGraph.Gql
