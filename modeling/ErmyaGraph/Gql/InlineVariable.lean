import ErmyaGraph.Gql.InlineFixed

/-! # Constraints along hops of variable length

With hops of variable length the rows of the start node are expanded hop by hop.
What a row arrives at does not depend on what the end of a hop is asked for. -/

namespace ErmyaGraph.Gql

variable {prevVar : String}

open Expansion List Function PatternMatch

/-- A row after a hop to a node, along some edge. -/
def PatternMatch.arrive (row : PatternMatch) (endVar : String) (edgeVar : Option String)
    (arrival : Node × Option Edge) : PatternMatch :=
  match arrival.2 with
  | some edge => (row.bindNode endVar arrival.1).bindEdge edgeVar edge
  | none => row.bindNode endVar arrival.1

section Rows

variable (graph : GraphAccess)

def inTime : Nat → Bool := fun _ => false

def fixedRow (prevVar endVar : String) (ep : EdgePattern) (np : NodePattern) (row : PatternMatch) :
    Except GqlError (List PatternMatch) :=
  match row.nodes prevVar with
  | some start => do
      let edges ← liftGraph (getEdgesForDirection graph start.id ep.direction)
      return edges.filterMap (fixedHopAlong graph start.id endVar ep np row)
  | none => return []

/-- The rows that a hop expands one row to. -/
def hopRow (prevVar endVar : String) (ep : EdgePattern) (np : NodePattern) (row : PatternMatch) :
    Except GqlError (List PatternMatch) :=
  match ep.length with
  | .fixed => fixedRow graph prevVar endVar ep np row
  | .variable min max =>
    (expandVariableRow graph inTime endVar ep np (min.elim 0 UInt32.toNat)
      (max.elim variableHopSafetyCap UInt32.toNat) prevVar 0 row).map Prod.snd

theorem expandFixedHop_eq (prevVar endVar : String) (ep : EdgePattern) (np : NodePattern)
    (current : List PatternMatch) : expandFixedHop graph prevVar endVar ep np current =
      expandWith (fixedRow graph prevVar endVar ep np) current := by
  unfold expandFixedHop expandWith fixedRow
  rfl

/-- The rows of steps whose ends a pattern admits. -/
def stepRows (ep : EdgePattern) (endVar : String) (np : NodePattern) (row : PatternMatch)
    (steps : List (Edge × Node)) : List PatternMatch :=
  (steps.filter fun step => nodeMatchesPattern step.2 np).map fun step =>
    (row.bindNode endVar step.2).bindEdge ep.var step.1

variable (ep : EdgePattern)

theorem stepRows_append (endVar : String) (np : NodePattern) (row : PatternMatch)
    (steps more : List (Edge × Node)) :
    stepRows ep endVar np row (steps ++ more) =
      stepRows ep endVar np row steps ++ stepRows ep endVar np row more := by
  simp only [stepRows, filter_append, map_append]

/-- One round of a traversal steps to nodes, visits nodes and leaves a queue that do not depend on
what the end is asked for. -/
theorem traverse_round (min max fuel id depth : Nat) (edge : Edge) (visited : List Nat)
    (queue : Frontier) :
    ∃ (own : List (Edge × Node)) (visited' : List Nat) (frontier : Frontier),
      ∀ endVar np row counter,
        traverse graph inTime endVar ep np min max row (fuel + 1) counter visited
            ((id, depth, edge) :: queue) =
          (traverse graph inTime endVar ep np min max row fuel (counter + 1) visited' frontier).map
            fun later => (later.1, stepRows ep endVar np row own ++ later.2) := by
  have clock (counter : Nat) : checkDeadline inTime counter = .ok () := by
    unfold checkDeadline inTime
    split <;> rfl
  have skip {endVar : String} {np : NodePattern} {row : PatternMatch}
      (answer : Except GqlError (Nat × List PatternMatch)) :
      answer = answer.map fun later => (later.1, stepRows ep endVar np row [] ++ later.2) := by
    cases answer <;> rfl
  by_cases beyond : max < depth
  · refine ⟨[], visited, queue, fun endVar np row counter => ?_⟩
    rw [traverse, clock, if_pos beyond]
    exact skip _
  let own? : Option (List (Edge × Node)) :=
    if min ≤ depth then (graph.node id).toOption.map fun node => [(edge, node)] else some []
  let edges? : Option (List Edge) :=
    if depth < max then (getEdgesForDirection graph id ep.direction).toOption else some []
  have emits (endVar : String) (np : NodePattern) (row : PatternMatch) :
      (if min ≤ depth then (graph.node id).toOption.map (variableHopRow endVar ep np row edge)
      else some []) = own?.map (stepRows ep endVar np row) := by
    simp only [own?]
    split
    · cases (graph.node id).toOption with
      | none => rfl
      | some node =>
        simp only [Option.map_some, stepRows, variableHopRow, filter_cons, filter_nil]
        split <;> rfl
    · rfl
  cases owned : own? with
  | none =>
    refine ⟨[], visited, queue, fun endVar np row counter => ?_⟩
    rw [traverse, clock, if_neg beyond]
    simp only [emits, owned]
    exact skip _
  | some own =>
    cases listed : edges? with
    | none =>
      refine ⟨own, visited, queue, fun endVar np row counter => ?_⟩
      simp only [edges?] at listed
      rw [traverse, clock, if_neg beyond]
      simp only [emits, owned, listed, Option.map_some]
      rfl
    | some edges =>
      refine ⟨own, (enqueue ep id (depth + 1) edges visited).1,
        queue ++ (enqueue ep id (depth + 1) edges visited).2, fun endVar np row counter => ?_⟩
      simp only [edges?] at listed
      rw [traverse, clock, if_neg beyond]
      simp only [emits, owned, listed, Option.map_some]
      rfl

theorem traverse_lists (min max fuel : Nat) (visited : List Nat) (frontier : Frontier) :
    ∃ steps : List (Edge × Node), ∀ endVar np row counter, ∃ later,
      traverse graph inTime endVar ep np min max row fuel counter visited frontier =
        .ok (later, stepRows ep endVar np row steps) := by
  induction fuel generalizing visited frontier with
  | zero => exact ⟨[], fun _ _ _ counter => ⟨counter, rfl⟩⟩
  | succ fuel ih =>
    match frontier with
    | [] => exact ⟨[], fun _ _ _ counter => ⟨counter, rfl⟩⟩
    | (id, depth, edge) :: queue =>
      obtain ⟨own, visited', frontier, round⟩ :=
        traverse_round graph ep min max fuel id depth edge visited queue
      obtain ⟨steps, rest⟩ := ih visited' frontier
      refine ⟨own ++ steps, fun endVar np row counter => ?_⟩
      obtain ⟨later, same⟩ := rest endVar np row (counter + 1)
      refine ⟨later, ?_⟩
      rw [round, same, stepRows_append]
      rfl

/-- The rows of a hop from a node are its arrivals that the end of the hop admits. -/
def HopArrives (edgeVar : Option String) (start : Node)
    (expand : String → String → NodePattern → PatternMatch → Except GqlError (List PatternMatch)) :
    Prop :=
  ∃ answer : Except GqlError (List (Node × Option Edge)), ∀ prevVar endVar np row,
    row.nodes prevVar = some start → expand prevVar endVar np row = answer.map fun arrivals =>
      (arrivals.filter fun arrival => nodeMatchesPattern arrival.1 np).map
        (row.arrive endVar edgeVar)

theorem fixedRow_arrives (start : Node) :
    HopArrives ep.var start fun prevVar endVar np => fixedRow graph prevVar endVar ep np := by
  let along (edge : Edge) : Option (Node × Option Edge) :=
    if edgeMatchesPattern edge ep then
      (edgeNeighbor edge start.id ep.direction).bind fun next =>
        (graph.node next).toOption.map fun node => (node, some edge)
    else none
  refine ⟨(liftGraph (getEdgesForDirection graph start.id ep.direction)).map fun edges =>
    edges.filterMap along, fun prevVar endVar np row bound => ?_⟩
  simp only [fixedRow, bound]
  cases liftGraph (getEdgesForDirection graph start.id ep.direction) with
  | error e => rfl
  | ok edges =>
    refine congrArg Except.ok ?_
    dsimp only
    rw [filter_filterMap, map_filterMap]
    refine filterMap_congr fun edge _ => ?_
    simp only [fixedHopAlong, along]
    split
    · cases edgeNeighbor edge start.id ep.direction with
      | none => rfl
      | some next =>
        simp only [Option.bind_some]
        cases graph.node next with
        | error e => rfl
        | ok node =>
          simp only [Except.toOption, Option.map_some, Option.filter]
          split <;> rfl
    · rfl

/-- The rounds counted before do not matter to a clock that is never late. -/
theorem variableRow_arrives (min max : Nat) (start : Node) :
    ∃ answer : Except GqlError (List (Node × Option Edge)),
      ∀ prevVar endVar np row counter, row.nodes prevVar = some start →
        (expandVariableRow graph inTime endVar ep np min max prevVar counter row).map Prod.snd =
          answer.map fun arrivals =>
            (arrivals.filter fun arrival => nodeMatchesPattern arrival.1 np).map
              (row.arrive endVar ep.var) := by
  let zeroth? : Option (List (Node × Option Edge)) :=
    if min = 0 then (graph.node start.id).toOption.map fun node => [(node, none)] else some []
  have zeroth (endVar : String) (np : NodePattern) (row : PatternMatch) :
      (if min = 0 then
        (graph.node start.id).toOption.map fun node =>
          if nodeMatchesPattern node np then [row.bindNode endVar node] else []
      else some []) = zeroth?.map fun arrivals =>
        (arrivals.filter fun arrival => nodeMatchesPattern arrival.1 np).map
          (row.arrive endVar ep.var) := by
    simp only [zeroth?]
    split
    · cases (graph.node start.id).toOption with
      | none => rfl
      | some node =>
        simp only [Option.map_some, filter_cons, filter_nil]
        split <;> rfl
    · rfl
  cases first : zeroth? with
  | none =>
    refine ⟨.ok [], fun prevVar endVar np row counter bound => ?_⟩
    rw [expandVariableRow, bound]
    simp only [zeroth, first]
    rfl
  | some arrivals =>
    cases listed : liftGraph (getEdgesForDirection graph start.id ep.direction) with
    | error e =>
      refine ⟨.error e, fun prevVar endVar np row counter bound => ?_⟩
      rw [expandVariableRow, bound]
      simp only [zeroth, first, listed, Option.map_some]
      rfl
    | ok edges =>
      obtain ⟨steps, found⟩ := traverse_lists graph ep min max (traversalFuel graph)
        (enqueue ep start.id 1 edges [start.id]).1 (enqueue ep start.id 1 edges [start.id]).2
      refine ⟨.ok (arrivals ++ steps.map fun step => (step.2, some step.1)),
        fun prevVar endVar np row counter bound => ?_⟩
      obtain ⟨later, same⟩ := found endVar np row counter
      rw [expandVariableRow, bound]
      simp only [zeroth, first, listed, Option.map_some, bind, Except.bind, same]
      refine congrArg Except.ok ?_
      dsimp only
      rw [filter_append, map_append, filter_map, map_map]
      rfl

theorem hopRow_arrives (start : Node) :
    HopArrives ep.var start fun prevVar endVar np => hopRow graph prevVar endVar ep np := by
  unfold hopRow
  cases ep.length with
  | fixed => exact fixedRow_arrives graph ep start
  | «variable» min max =>
    obtain ⟨answer, same⟩ := variableRow_arrives graph ep (min.elim 0 UInt32.toNat)
      (max.elim variableHopSafetyCap UInt32.toNat) start
    exact ⟨answer, fun prevVar endVar np row bound => same prevVar endVar np row 0 bound⟩

variable {ep : EdgePattern}

theorem hopRow_fixed (fixed : ep.length = .fixed) (prevVar endVar : String) (np : NodePattern)
    (row : PatternMatch) :
    hopRow graph prevVar endVar ep np row = fixedRow graph prevVar endVar ep np row := by
  rw [hopRow, fixed]

theorem hopRow_unbound {row : PatternMatch} (free : row.nodes prevVar = none) (endVar : String)
    (ep : EdgePattern) (np : NodePattern) : hopRow graph prevVar endVar ep np row = .ok [] := by
  unfold hopRow
  cases ep.length with
  | fixed =>
    simp only [fixedRow, free]
    rfl
  | «variable» min max =>
    simp only [expandVariableRow, free]
    rfl

theorem expandVariableHop_eq (prevVar endVar : String) (ep : EdgePattern) (np : NodePattern)
    (min max counter : Nat) (current : List PatternMatch) :
    expandVariableHop graph inTime endVar ep np min max prevVar counter current =
      expandWith (fun row => (expandVariableRow graph inTime endVar ep np min max prevVar 0 row).map
        Prod.snd) current := by
  have same (row : PatternMatch) (counter : Nat) :
      (expandVariableRow graph inTime endVar ep np min max prevVar counter row).map Prod.snd =
        (expandVariableRow graph inTime endVar ep np min max prevVar 0 row).map Prod.snd := by
    cases bound : row.nodes prevVar with
    | none =>
      simp only [expandVariableRow, bound]
      rfl
    | some start =>
      obtain ⟨answer, each⟩ := variableRow_arrives graph ep min max start
      rw [each prevVar endVar np row counter bound, each prevVar endVar np row 0 bound]
  induction current generalizing counter with
  | nil => rfl
  | cons row rest ih =>
    rw [expandVariableHop, expandWith_cons, ← same row counter]
    cases expandVariableRow graph inTime endVar ep np min max prevVar counter row with
    | error e => rfl
    | ok found =>
      simp only [bind, Except.bind, ih found.1]
      generalize expandWith _ rest = others
      cases others <;> rfl

theorem expandPatternHops_cons (prevVar : String) (anonCounter : Nat) (ep : EdgePattern)
    (np : NodePattern) (rest : List (EdgePattern × NodePattern)) (current : List PatternMatch) :
    expandPatternHops graph inTime prevVar anonCounter ((ep, np) :: rest) current =
      (expandWith (hopRow graph prevVar (compileNodeToBuilder np anonCounter).1.var ep np)
        current).bind (expandPatternHops graph inTime (compileNodeToBuilder np anonCounter).1.var
          (compileNodeToBuilder np anonCounter).2 rest) := by
  rw [expandPatternHops]
  unfold hopRow
  cases ep.length with
  | fixed =>
    simp only [expandFixedHop_eq]
    rfl
  | «variable» min max =>
    simp only [expandVariableHop_eq]
    rfl

variable {graph}

theorem mem_hopRow {endVar : String} {np : NodePattern} {row r : PatternMatch}
    {found : List PatternMatch} (ran : hopRow graph prevVar endVar ep np row = .ok found)
    (mem : r ∈ found) : ∃ arrival, r = row.arrive endVar ep.var arrival := by
  cases bound : row.nodes prevVar with
  | none =>
    rw [hopRow_unbound graph bound] at ran
    cases ran
    exact absurd mem not_mem_nil
  | some start =>
    obtain ⟨answer, each⟩ := hopRow_arrives graph ep start
    have same := each prevVar endVar np row bound
    dsimp only at same
    rw [ran] at same
    cases answer with
    | error e => cases same
    | ok arrivals =>
      cases same
      obtain ⟨arrival, -, rfl⟩ := mem_map.mp mem
      exact ⟨arrival, rfl⟩

end Rows

section Names

variable {row : PatternMatch} {var endVar : String} {edgeVar : Option String}
  (arrival : Node × Option Edge)

theorem nodes_arrive : (row.arrive endVar edgeVar arrival).nodes =
    update row.nodes endVar (some arrival.1) := by
  rw [arrive]
  cases arrival.2 with
  | none => rfl
  | some edge => rw [nodes_bindEdge, bindNode]

theorem propertiesOf_arrive_self (row : PatternMatch) :
    (row.arrive var edgeVar arrival).propertiesOf var = some arrival.1.properties := by
  rw [propertiesOf, nodes_arrive, update_self]

theorem propertiesOf_arrive_of_ne (node : var ≠ endVar) (edge : edgeVar ≠ some var) :
    (row.arrive endVar edgeVar arrival).propertiesOf var = row.propertiesOf var := by
  have edges : (row.arrive endVar edgeVar arrival).edges var = row.edges var := by
    rw [arrive]
    cases arrival.2 with
    | none => rfl
    | some last =>
      cases edgeVar with
      | none => rfl
      | some name =>
        refine update_of_ne ?_ _ _
        rintro rfl
        exact edge rfl
  rw [propertiesOf, propertiesOf, nodes_arrive, update_of_ne node, edges]

theorem propertiesOf_arrive_edge (free : row.nodes var = none) (node : var ≠ endVar)
    (reached : Node) (edge : Edge) :
    (row.arrive endVar (some var) (reached, some edge)).propertiesOf var =
      some edge.properties := by
  rw [propertiesOf, nodes_arrive, update_of_ne node, free]
  change (update row.edges var (some edge) var).map Edge.properties = _
  rw [update_self]
  rfl

end Names

section Hops

variable {graph : GraphAccess} {var key : String} {lit : Literal}

theorem hopNames_cons (hop : Hop) (hops : List Hop) :
    hopNames (hop :: hops) = hop.edge.var.toList ++ hop.node.var :: hopNames hops := by
  rw [hopNames, flatMap_cons, append_assoc]
  rfl

variable {hops : List (EdgePattern × NodePattern)} {anonCounter : Nat}
  {current rows : List PatternMatch}

theorem expandPatternHops_filter (key : String) (lit : Literal)
    (apart : var ∉ hopNames (segmentHops hops anonCounter))
    (ran : expandPatternHops graph inTime prevVar anonCounter hops current = .ok rows) :
    expandPatternHops graph inTime prevVar anonCounter hops
      (current.filter (inlineEq var key lit)) = .ok (rows.filter (inlineEq var key lit)) := by
  induction hops generalizing prevVar anonCounter current with
  | nil =>
    cases ran
    rfl
  | cons hop rest ih =>
    obtain ⟨ep, np⟩ := hop
    rw [segmentHops, hopNames_cons, mem_append, mem_cons, not_or, not_or] at apart
    obtain ⟨edge, node, others⟩ := apart
    rw [expandPatternHops_cons] at ran ⊢
    cases expanded : expandWith
        (hopRow graph prevVar (compileNodeToBuilder np anonCounter).1.var ep np) current with
    | error e =>
      rw [expanded] at ran
      cases ran
    | ok next =>
      rw [expanded] at ran
      have edgeApart : ep.var ≠ some var := by
        intro same
        exact edge (by simp [compileEdgeToBuilder, same])
      rw [expandWith_filter (fun row _ found ran r mem => ?_) expanded]
      · exact ih others ran
      · obtain ⟨arrival, rfl⟩ := mem_hopRow ran mem
        rw [inlineEq, inlineEq, propertiesOf_arrive_of_ne arrival node edgeApart]

theorem expandPatternHops_perm {current' : List PatternMatch} (perm : current.Perm current')
    (ran : expandPatternHops graph inTime prevVar anonCounter hops current = .ok rows) :
    ∃ rows', expandPatternHops graph inTime prevVar anonCounter hops current' = .ok rows' ∧
      rows.Perm rows' := by
  induction hops generalizing prevVar anonCounter current current' with
  | nil =>
    cases ran
    exact ⟨current', rfl, perm⟩
  | cons hop rest ih =>
    obtain ⟨ep, np⟩ := hop
    rw [expandPatternHops_cons] at ran ⊢
    cases expanded : expandWith
        (hopRow graph prevVar (compileNodeToBuilder np anonCounter).1.var ep np) current with
    | error e =>
      rw [expanded] at ran
      cases ran
    | ok next =>
      rw [expanded] at ran
      obtain ⟨next', ran', same⟩ := expandWith_perm perm expanded
      rw [ran']
      exact ih same ran

variable {ep : EdgePattern} {np : NodePattern}

/-- One of the hops asks for more, and what comes before and after binds other names. -/
theorem expandPatternHops_narrowed {before after : List (EdgePattern × NodePattern)}
    (props props' : List (String × Literal))
    (narrowed : ∀ prevVar anonCounter row found, row.nodes var = none →
      (hopNames (segmentHops [(ep, np)] anonCounter)).Nodup →
      hopRow graph prevVar (compileNodeToBuilder np anonCounter).1.var ep np row = .ok found →
      hopRow graph prevVar (compileNodeToBuilder np anonCounter).1.var { ep with props }
        { np with props := props' } row = .ok (found.filter (inlineEq var key lit)))
    (front : var ∉ hopNames (segmentHops before anonCounter))
    (here : (hopNames (segmentHops [(ep, np)] (anonAfter before anonCounter))).Nodup)
    (back : var ∉ hopNames (segmentHops after
      (compileNodeToBuilder np (anonAfter before anonCounter)).2))
    (clear : ∀ row ∈ current, row.nodes var = none)
    (ran : expandPatternHops graph inTime prevVar anonCounter (before ++ (ep, np) :: after) current =
      .ok rows) :
    expandPatternHops graph inTime prevVar anonCounter
      (before ++ ({ ep with props }, { np with props := props' }) :: after) current =
        .ok (rows.filter (inlineEq var key lit)) := by
  induction before generalizing prevVar anonCounter current with
  | nil =>
    rw [nil_append, expandPatternHops_cons] at ran ⊢
    rw [compileNode_props]
    obtain ⟨next, expanded, ran⟩ := Outcome.ok_of_bind ran
    have fewer := expandWith_narrowed (fun row mem found =>
      narrowed prevVar anonCounter row found (clear row mem) here) expanded
    rw [fewer]
    exact expandPatternHops_filter key lit back ran
  | cons hop before ih =>
    obtain ⟨first, end_⟩ := hop
    rw [segmentHops, hopNames_cons, mem_append, mem_cons, not_or, not_or] at front
    obtain ⟨-, node, others⟩ := front
    rw [cons_append, expandPatternHops_cons] at ran ⊢
    obtain ⟨next, expanded, ran⟩ := Outcome.ok_of_bind ran
    rw [expanded]
    refine ih others here back ?_ ran
    refine forall_of_expandWith clear (fun row free found ran r mem => ?_) expanded
    obtain ⟨arrival, rfl⟩ := mem_hopRow ran mem
    rw [nodes_arrive, update_of_ne node, free]

theorem nodeMatchesPattern_props (node : Node) (free : np.props = []) :
    nodeMatchesPattern node { np with props := [(key, lit)] } =
      (nodeMatchesPattern node np && inlineHolds key lit node.properties) := by
  rw [nodeMatchesPattern, nodeMatchesPattern, free]
  simp only [literalPropsMatch, all_nil, Bool.and_true, inlineHolds]

theorem edgeMatchesPattern_props (edge : Edge) (free : ep.props = []) :
    edgeMatchesPattern edge { ep with props := [(key, lit)] } =
      (edgeMatchesPattern edge ep && inlineHolds key lit edge.properties) := by
  rw [edgeMatchesPattern, edgeMatchesPattern, free]
  simp only [literalPropsMatch, all_nil, Bool.and_true, inlineHolds]

variable {row : PatternMatch} {found : List PatternMatch}

theorem hopRow_node (free : np.props = []) (ran : hopRow graph prevVar var ep np row = .ok found) :
    hopRow graph prevVar var ep { np with props := [(key, lit)] } row =
      .ok (found.filter (inlineEq var key lit)) := by
  cases bound : row.nodes prevVar with
  | none =>
    rw [hopRow_unbound graph bound] at ran ⊢
    cases ran
    rfl
  | some start =>
    obtain ⟨answer, each⟩ := hopRow_arrives graph ep start
    have before := each prevVar var np row bound
    have after := each prevVar var { np with props := [(key, lit)] } row bound
    dsimp only at before after
    rw [after]
    rw [ran] at before
    cases answer with
    | error e => cases before
    | ok arrivals =>
      cases before
      refine congrArg Except.ok ?_
      dsimp only
      rw [filter_map, filter_filter]
      refine congrArg (List.map _) (filter_congr fun arrival _ => ?_)
      rw [nodeMatchesPattern_props _ free, Bool.and_comm, Function.comp_apply, inlineEq,
        propertiesOf_arrive_self, Option.any_some]

/-- The edge of a fixed hop asks for more. -/
theorem hopRow_edge (named : ep.var = some var) (free : ep.props = []) (fixed : ep.length = .fixed)
    {endVar : String} (node : var ≠ endVar) (clear : row.nodes var = none)
    (ran : hopRow graph prevVar endVar ep np row = .ok found) :
    hopRow graph prevVar endVar { ep with props := [(key, lit)] } np row =
      .ok (found.filter (inlineEq var key lit)) := by
  have fixed' : { ep with props := [(key, lit)] }.length = .fixed := fixed
  rw [hopRow_fixed graph fixed] at ran
  rw [hopRow_fixed graph fixed']
  unfold fixedRow at ran ⊢
  cases bound : row.nodes prevVar with
  | none =>
    rw [bound] at ran
    cases ran
    rfl
  | some start =>
    rw [bound] at ran
    dsimp only at ran ⊢
    obtain ⟨edges, listed, ran⟩ := Outcome.ok_of_bind ran
    rw [listed]
    cases ran
    refine congrArg Except.ok ?_
    rw [filter_filterMap]
    refine filterMap_congr fun edge _ => ?_
    have shown (reached : Node) : inlineEq var key lit
        ((row.bindNode endVar reached).bindEdge ep.var edge) =
          inlineHolds key lit edge.properties := by
      rw [named]
      exact congrArg (Option.any _) (propertiesOf_arrive_edge clear node reached edge)
    simp only [fixedHopAlong, edgeMatchesPattern_props _ free]
    cases edgeMatchesPattern edge ep with
    | false => rfl
    | true =>
      cases edgeNeighbor edge start.id ep.direction with
      | none => cases inlineHolds key lit edge.properties <;> rfl
      | some next =>
        simp only [Bool.true_and, Option.bind_some, ↓reduceIte]
        cases graph.node next with
        | error e => cases inlineHolds key lit edge.properties <;> rfl
        | ok reached =>
          dsimp only
          have asked := shown reached
          cases nodeMatchesPattern reached np <;>
            cases held : inlineHolds key lit edge.properties <;>
              simp [Option.filter, asked, held]

end Hops

end ErmyaGraph.Gql
