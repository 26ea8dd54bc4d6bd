import ErmyaGraph.Gql.Assignments
import ErmyaGraph.Gql.PathSearch

/-! # When a path is the one that matched

The path of a row is rebuilt apart from the match. It is a match of the pattern
where every place has a name, and where one hop is all there is to search for. -/

namespace ErmyaGraph.Gql

variable {start : Node} {steps : List (Edge × Node)} {ep : EdgePattern} {startVar endVar : String}
  {np : NodePattern}

open Search List

def EdgeLength.Allows : EdgeLength → Nat → Prop
  | .fixed, n => n = 1
  | .variable min max, n => (∀ low ∈ min, low.toNat ≤ n) ∧ ∀ high ∈ max, n ≤ high.toNat

/-- Steps cover hops, hop by hop: as many edges as the hop allows, each matching its pattern, then
a node that matches and that the row binds there. -/
def Covers (contents : Contents) (row : PatternMatch) : (start : Node) →
    List (EdgePattern × NodePattern) → List (Edge × Node) → Prop
  | _, [], steps => steps = []
  | start, (ep, np) :: hops, steps => ∃ taken rest, steps = taken ++ rest ∧
      ep.length.Allows taken.length ∧ Chained contents ep start.id taken ∧
        nodeMatchesPattern (lastNode start taken) np ∧
          (∀ var ∈ np.var, row.nodes var = some (lastNode start taken)) ∧
            Covers contents row (lastNode start taken) hops rest

/-- A path is a match of a whole pattern, between the nodes that the row binds. -/
structure PathPattern.Traced (contents : Contents) (pp : PathPattern) (row : PatternMatch)
    (m : PathMatch) : Prop where
  there : contents.nodes m.start.id = some m.start
  starts : nodeMatchesPattern m.start pp.start
  bound : ∀ var ∈ pp.start.var, row.nodes var = some m.start
  covers : Covers contents row m.start pp.hops m.steps

/-- The first and the last node of a pattern have names. -/
def PathPattern.EndpointsNamed (pp : PathPattern) : Prop :=
  pp.start.var.isSome ∧ ∀ hop ∈ pp.hops.getLast?, hop.2.var.isSome

theorem PathPattern.EndpointsNamed.final {pp : PathPattern} (ends : pp.EndpointsNamed)
    (hops : pp.hops = [(ep, np)]) : ∃ endVar, np.var = some endVar := by
  have named := ends.2 (ep, np)
  rw [hops] at named
  exact Option.isSome_iff_exists.mp (named rfl)

/-- The path of a row is one that matched, and it is there if the row has names for its ends. -/
structure RowPath (graph : GraphAccess) (contents : Contents) (pp : PathPattern)
    (pathVar : String) (row : PatternMatch) : Prop where
  traced : ∀ path, materialisePathBindings graph ⟨[pp], some pathVar⟩ row pathVar = some path →
    ∃ m : PathMatch, path = m.path ∧ pp.Traced contents row m
  bound : pp.EndpointsNamed →
    (materialisePathBindings graph ⟨[pp], some pathVar⟩ row pathVar).isSome

/-- The patterns whose paths are rebuilt as they matched. -/
inductive PathPattern.Rebuilt (contents : Contents) (pp : PathPattern) : Prop
  /-- No path is bound where an end has no name. -/
  | unbound (unnamed : ¬pp.EndpointsNamed)
  /-- All places are read off the row. -/
  | named (fixed : hasVariableLengthHop pp = false) (named : pp.AllNamed)
  /-- One hop of variable length, between two variables. -/
  | expanded {ep : EdgePattern} {np : NodePattern} (hops : pp.hops = [(ep, np)])
      (unfixed : ep.length ≠ .fixed) (different : pp.start.var ≠ np.var)
  /-- One fixed hop that no loop of the graph matches. -/
  | single {ep : EdgePattern} {np : NodePattern} (hops : pp.hops = [(ep, np)])
      (fixed : ep.length = .fixed) (loopFree : ∀ edge node,
        contents.nodes node.id = some node → Leads contents ep node.id edge node.id →
          nodeMatchesPattern node pp.start → ¬nodeMatchesPattern node np)

variable {contents : Contents}

theorem Hop.Holds.leads {source : Nat} {constraint : NodeConstraint} {step : Edge × Node}
    (holds : Hop.Holds contents source ⟨compileEdgeToBuilder ep, constraint⟩ step) :
    Leads contents ep source step.1 step.2.id where
  there := holds.edge
  joins := holds.joins
  admits := by
    have passes : propsMatch step.1.properties (compileProps ep.props) := holds.edgeMatches
    rw [propsMatch_compileProps] at passes
    rw [edgeMatchesPattern, Bool.and_eq_true]
    refine ⟨?_, passes⟩
    have labelled : ∀ label ∈ ep.labels.head?, step.1.label = label := holds.label
    cases first : ep.labels.head? with
    | none => rfl
    | some label => exact decide_eq_true (labelled label first)

theorem covers_of_follows {row : PatternMatch} {hops : List (EdgePattern × NodePattern)}
    (fixed : ∀ hop ∈ hops, hop.1.length = .fixed) {anonCounter : Nat}
    (follows : Follows contents start.id (segmentHops hops anonCounter) steps)
    (binds : ∀ var entity, (var, entity) ∈ hopBindings hops steps → row.Binds var entity) :
    Covers contents row start hops steps := by
  induction hops generalizing start anonCounter steps with
  | nil =>
    cases steps with
    | nil => rfl
    | cons step steps => exact follows.elim
  | cons hop hops ih =>
    obtain ⟨ep, np⟩ := hop
    cases steps with
    | nil => exact follows.elim
    | cons step steps =>
      obtain ⟨edge, node⟩ := step
      obtain ⟨holds, later⟩ := follows
      refine ⟨[(edge, node)], steps, rfl, ?_, ⟨holds.leads, holds.node, trivial⟩, ?_, ?_, ?_⟩
      · rw [fixed _ mem_cons_self]
        rfl
      · rw [lastNode, lastNode, ← nodeMatches_compile node np anonCounter]
        exact holds.nodeMatches
      · intro var named
        refine binds var (.node node) ?_
        rw [hopBindings]
        exact mem_append_right _ (mem_append_left _ (mem_map_of_mem (Option.mem_toList.mpr named)))
      · refine ih (fun hop mem => fixed hop (.tail _ mem)) later ?_
        intro var entity mem
        refine binds var entity ?_
        rw [hopBindings]
        exact mem_append_right _ (mem_append_right _ mem)

theorem chained_last (there : contents.nodes start.id = some start)
    (chained : Chained contents ep start.id steps) :
    contents.nodes (lastNode start steps).id = some (lastNode start steps) := by
  induction steps generalizing start with
  | nil => exact there
  | cons step steps ih => exact ih chained.2.1 chained.2.2

section Rebuilding

variable {graph : GraphAccess} {pp : PathPattern} {row : PatternMatch}

theorem materialisePathBindings_self (pathVar : String) :
    materialisePathBindings graph ⟨[pp], some pathVar⟩ row pathVar =
      materialisePathForMatch graph row pp := by
  unfold materialisePathBindings
  simp only [List.head?_cons, Option.bind_some]
  cases materialisePathForMatch graph row pp with
  | none => rfl
  | some path => exact Function.update_self ..

theorem materialisePathForMatch_unnamed (unnamed : ¬pp.EndpointsNamed) :
    materialisePathForMatch graph row pp = none := by
  unfold materialisePathForMatch
  cases start : pp.start.var with
  | none =>
    rw [searchedPath, start]
    rfl
  | some startVar =>
    obtain ⟨hop, last, anonymous⟩ : ∃ hop, pp.hops.getLast? = some hop ∧ hop.2.var = none := by
      by_contra named
      refine unnamed ⟨by rw [start]; rfl, fun hop last => ?_⟩
      rw [Option.isSome_iff_ne_none]
      exact fun anonymous => named ⟨hop, last, anonymous⟩
    have mem := mem_of_getLast? last
    have notAll : (pp.hops.all fun hop => hop.2.var.isSome) = false := by
      rw [← Bool.not_eq_true, all_eq_true]
      intro all
      have named := all hop mem
      rw [anonymous] at named
      cases named
    simp only [notAll, Bool.false_eq_true, and_false, if_false]
    rw [searchedPath, start, last]
    simp only [bind, Option.bind_some, anonymous, Option.bind_none]

theorem materialisePathForMatch_searched {final : Node} (hops : pp.hops = [(ep, np)])
    (startNamed : pp.start.var = some startVar) (endNamed : np.var = some endVar)
    (notRead : allFixedNamed pp = false) (startBound : row.nodes startVar = some start)
    (endBound : row.nodes endVar = some final) :
    materialisePathForMatch graph row pp = materialiseVarlenPath graph start.id final.id ep := by
  unfold materialisePathForMatch searchedPath
  simp only [startNamed, hops, notRead, endNamed, startBound, endBound, List.getLast?_singleton,
    bind, Option.bind_some, Bool.false_eq_true, false_and, if_false]

theorem mapM_hopVars {hops : List (EdgePattern × NodePattern)}
    (named : ∀ hop ∈ hops, hop.1.var.isSome ∧ hop.2.var.isSome)
    (length : hops.length = steps.length)
    (binds : ∀ var entity, (var, entity) ∈ hopBindings hops steps → row.Binds var entity) :
    (hops.filterMap fun hop => hop.2.var).mapM row.nodes = some (steps.map Prod.snd) ∧
      (hops.filterMap fun hop => hop.1.var).mapM row.edges = some (steps.map Prod.fst) := by
  induction hops generalizing steps with
  | nil =>
    rw [length_eq_zero_iff.mp length.symm]
    exact ⟨rfl, rfl⟩
  | cons hop hops ih =>
    cases steps with
    | nil => cases length
    | cons step steps =>
      obtain ⟨ep, np⟩ := hop
      obtain ⟨edge, node⟩ := step
      have here := named _ mem_cons_self
      obtain ⟨edgeVar, edgeNamed⟩ := Option.isSome_iff_exists.mp here.1
      obtain ⟨nodeVar, nodeNamed⟩ := Option.isSome_iff_exists.mp here.2
      dsimp only at edgeNamed nodeNamed
      rw [hopBindings, edgeNamed, nodeNamed] at binds
      have edgeBound : row.edges edgeVar = some edge := binds edgeVar (.edge edge) mem_cons_self
      have nodeBound : row.nodes nodeVar = some node :=
        binds nodeVar (.node node) (mem_cons_of_mem _ mem_cons_self)
      obtain ⟨nodes, edges⟩ := ih
        (fun hop mem => named hop (.tail _ mem)) (Nat.succ.inj length)
        fun var entity mem => binds var entity
          (.tail _ (.tail _ mem))
      simp only [filterMap_cons, edgeNamed, nodeNamed, mapM_cons, nodeBound,
        edgeBound, nodes, edges]
      exact ⟨rfl, rfl⟩

theorem length_filterMap_of_isSome {α β : Type} {f : α → Option β} {items : List α}
    (all : ∀ a ∈ items, (f a).isSome) : (items.filterMap f).length = items.length := by
  rw [length_filterMap_eq_countP, countP_eq_length]
  exact all

theorem materialisePathForMatch_named (fixed : hasVariableLengthHop pp = false)
    (named : pp.AllNamed) {m : PathMatch} (length : pp.hops.length = m.steps.length)
    (binds : ∀ var entity, (var, entity) ∈ pp.bindings m → row.Binds var entity) :
    materialisePathForMatch graph row pp = some m.path := by
  obtain ⟨startVar, start⟩ := Option.isSome_iff_exists.mp named.1
  have edgesNamed : ∀ hop ∈ pp.hops, hop.1.var.isSome := fun hop mem => (named.2 hop mem).1
  have nodesNamed : ∀ hop ∈ pp.hops, hop.2.var.isSome := fun hop mem => (named.2 hop mem).2
  have all : allFixedNamed pp ∧ pp.hops.all fun hop => hop.2.var.isSome := by
    rw [allFixedNamed, fixed, Bool.not_false, Bool.true_and, all_eq_true, all_eq_true]
    exact ⟨edgesNamed, nodesNamed⟩
  obtain ⟨nodes, edges⟩ := mapM_hopVars named.2 length fun var entity mem =>
    binds var entity (mem_append_right _ mem)
  have startBound : row.nodes startVar = some m.start := by
    refine binds startVar (.node m.start) ?_
    rw [PathPattern.bindings, start]
    exact mem_cons_self
  unfold materialisePathForMatch
  rw [start]
  dsimp only
  rw [if_pos all, materialiseFixedPath, length_cons, length_filterMap_of_isSome nodesNamed,
    length_filterMap_of_isSome edgesNamed, if_neg (not_not.mpr rfl), mapM_cons, startBound,
    nodes, edges]
  rfl

end Rebuilding

section Rows

variable {graph : GraphAccess} (serves : graph.Serves contents) {pp : PathPattern}
  {late : Nat → Bool} {rows : List PatternMatch}
include serves
variable {row : PatternMatch}

theorem fixed_traced (fixed : hasVariableLengthHop pp = false)
    (ran : compilePathPattern graph late pp = .ok rows) (mem : row ∈ rows) :
    ∃ m : PathMatch, pp.Traced contents row m ∧ pp.hops.length = m.steps.length ∧
      ∀ var entity, (var, entity) ∈ pp.bindings m → row.Binds var entity := by
  rw [compilePathPattern, fixed] at ran
  obtain ⟨checked, found⟩ := compilePathPatternFixed_ok serves ran
  subst found
  obtain ⟨m, inside, rfl⟩ := mem_map.mp mem
  have holds := (mem_matchesOf serves).mp inside
  have binds : ∀ var entity, (var, entity) ∈ pp.bindings m →
      ((segmentOf pp).row m).Binds var entity :=
    fun var entity named => (binds_row checked holds).mpr (bindings_subset pp m named)
  refine ⟨m, ⟨holds.start, ?_, fun var named => ?_, ?_⟩, length_hops_of_holds holds, binds⟩
  · rw [← nodeMatches_compile m.start pp.start 0]
    exact holds.startMatches
  · exact binds var (.node m.start) (mem_append_left _
      (mem_map_of_mem (Option.mem_toList.mpr named)))
  · refine covers_of_follows (fun hop mem => ?_) holds.follows fun var entity named =>
      binds var entity (mem_append_right _ named)
    by_contra varies
    have any : hasVariableLengthHop pp := any_eq_true.mpr ⟨hop, mem, decide_eq_true varies⟩
    rw [fixed] at any
    cases any

theorem seedStartNode_rows {var : String} (named : np.var = some var) :
    (seedStartNode graph np).2.1 = var ∧ ∀ row ∈ (seedStartNode graph np).1, ∃ node,
      contents.nodes node.id = some node ∧ nodeMatchesPattern node np ∧
        row.nodes var = some node := by
  unfold seedStartNode
  simp only [compileNode_var named]
  refine ⟨trivial, fun row mem => ?_⟩
  obtain ⟨id, _, seeded⟩ := mem_filterMap.mp mem
  cases loaded : graph.node id with
  | error e =>
    rw [loaded] at seeded
    cases seeded
  | ok node =>
    rw [loaded] at seeded
    obtain ⟨passes, same⟩ := Option.ite_none_right_eq_some.mp seeded
    cases same
    have found := serves.node_eq_ok.mp loaded
    refine ⟨node, ?_, passes, Function.update_self ..⟩
    rw [contents.node_id found]
    exact found

/-- A row of one hop of variable length ends within the bounds of the hop. -/
theorem expanded_row {min max : Option UInt32} (hops : pp.hops = [(ep, np)])
    (length : ep.length = .variable min max) (startNamed : pp.start.var = some startVar)
    (endNamed : np.var = some endVar) (ne : startVar ≠ endVar)
    (ran : compilePathPattern graph late pp = .ok rows) (mem : row ∈ rows) :
    ∃ start final n, contents.nodes start.id = some start ∧ nodeMatchesPattern start pp.start ∧
      row.nodes startVar = some start ∧ contents.nodes final.id = some final ∧
        nodeMatchesPattern final np ∧ row.nodes endVar = some final ∧
          Distance (Leads contents ep) start.id n final.id ∧ ep.length.Allows n := by
  have varies : hasVariableLengthHop pp := by
    rw [hasVariableLengthHop, hops]
    simp [length]
  obtain ⟨named, seeded⟩ := seedStartNode_rows serves startNamed
  rw [compilePathPattern, if_pos varies, compilePathPatternWithVarlen, hops, named] at ran
  simp only [expandPatternHops, length, compileNode_var endNamed] at ran
  have ran : expandVariableHop graph late endVar ep np (min.elim 0 UInt32.toNat)
      (max.elim variableHopSafetyCap UInt32.toNat) startVar 0 (seedStartNode graph pp.start).1 =
        .ok rows := by
    obtain ⟨rows, found, ran⟩ := Outcome.ok_of_bind ran
    rw [found]
    exact ran
  obtain ⟨before, inside, start, bound, n, final, distance, low, high, there, passes, nodes⟩ :=
    expandVariableHop_arrives serves (fun row inside => by
      obtain ⟨node, there, _, bound⟩ := seeded row inside
      exact ⟨node, bound, there⟩) ran row mem
  obtain ⟨start', there', starts, bound'⟩ := seeded before inside
  cases bound.symm.trans bound'
  refine ⟨start, final, n, there', starts, ?_, there, passes, ?_, distance, ?_⟩
  · rw [nodes]
    exact (Function.update_of_ne ne _ _).trans bound
  · rw [nodes]
    exact Function.update_self ..
  · rw [length]
    refine ⟨fun bound given => ?_, fun bound given => ?_⟩
    · rw [given] at low
      exact low
    · rw [given] at high
      exact high

variable {pathVar : String}

omit serves in
theorem rowPath_of_path {m : PathMatch}
    (rebuilt : materialisePathForMatch graph row pp = some m.path)
    (traced : pp.Traced contents row m) : RowPath graph contents pp pathVar row where
  traced path found := by
    rw [materialisePathBindings_self, rebuilt] at found
    exact ⟨m, (Option.some.inj found).symm, traced⟩
  bound _ := by
    rw [materialisePathBindings_self, rebuilt]
    rfl

omit serves in
theorem rowPath_of_unnamed (unnamed : ¬pp.EndpointsNamed) :
    RowPath graph contents pp pathVar row where
  traced path found := by
    rw [materialisePathBindings_self, materialisePathForMatch_unnamed unnamed] at found
    cases found
  bound named := absurd named unnamed

theorem rowPath_searched {final : Node} {n : Nat} (hops : pp.hops = [(ep, np)])
    (startNamed : pp.start.var = some startVar) (endNamed : np.var = some endVar)
    (notRead : allFixedNamed pp = false) (there : contents.nodes start.id = some start)
    (starts : nodeMatchesPattern start pp.start) (startBound : row.nodes startVar = some start)
    (there' : contents.nodes final.id = some final) (passes : nodeMatchesPattern final np)
    (endBound : row.nodes endVar = some final)
    (distance : Distance (Leads contents ep) start.id n final.id) (allows : ep.length.Allows n) :
    RowPath graph contents pp pathVar row := by
  obtain ⟨steps, rebuilt, length, chained, last⟩ := materialiseVarlenPath_ok serves there distance
  have same : lastNode start steps = final := by
    have found := chained_last there chained
    rw [last, there'] at found
    exact (Option.some.inj found).symm
  refine rowPath_of_path (m := ⟨start, steps⟩) ?_ ⟨there, starts, fun var named => ?_, ?_⟩
  · rw [materialisePathForMatch_searched hops startNamed endNamed notRead startBound endBound]
    exact rebuilt
  · cases startNamed.symm.trans named
    exact startBound
  · rw [hops]
    refine ⟨steps, [], (append_nil _).symm, ?_, chained, ?_, fun var named => ?_, rfl⟩
    · rw [length]
      exact allows
    · rw [same]
      exact passes
    · cases endNamed.symm.trans named
      rw [same]
      exact endBound

/-- A path is a match of its pattern, and bound where its ends are, unless it has to be searched
for across several hops, from a variable to itself or around a loop. -/
theorem rowPath_of_rebuilt (rebuilt : pp.Rebuilt contents) {pathVar : String}
    (ran : compileMatch graph late ⟨[pp], some pathVar⟩ = .ok rows) :
    ∀ row ∈ rows, RowPath graph contents pp pathVar row := by
  intro row member
  have compiled : compilePathPattern graph late pp = .ok rows :=
    (compileMatch_single rfl).symm.trans ran
  by_cases ends : pp.EndpointsNamed
  · have read (fixed : hasVariableLengthHop pp = false) (named : pp.AllNamed) :
        RowPath graph contents pp pathVar row := by
      obtain ⟨m, traced, length, binds⟩ := fixed_traced serves fixed compiled member
      exact rowPath_of_path (materialisePathForMatch_named fixed named length binds) traced
    obtain ⟨startVar, startNamed⟩ := Option.isSome_iff_exists.mp ends.1
    cases rebuilt with
    | unbound unnamed => exact absurd ends unnamed
    | named fixed named => exact read fixed named
    | @expanded ep np hops unfixed different =>
      obtain ⟨endVar, endNamed⟩ := ends.final hops
      match length : ep.length with
      | .fixed => exact absurd length unfixed
      | .variable min max =>
        have apart : startVar ≠ endVar := by
          rintro rfl
          exact different (startNamed.trans endNamed.symm)
        have notRead : allFixedNamed pp = false := by
          simp [allFixedNamed, hasVariableLengthHop, hops, length]
        obtain ⟨start, final, n, there, starts, startBound, there', passes, endBound, distance,
          allows⟩ := expanded_row serves hops length startNamed endNamed apart compiled member
        exact rowPath_searched serves hops startNamed endNamed notRead there starts startBound
          there' passes endBound distance allows
    | @single ep np hops length loopFree =>
      obtain ⟨endVar, endNamed⟩ := ends.final hops
      have fixed : hasVariableLengthHop pp = false := by
        simp [hasVariableLengthHop, hops, length]
      by_cases edgeNamed : ep.var.isSome
      · refine read fixed ⟨ends.1, fun hop inside => ?_⟩
        rw [hops] at inside
        cases mem_singleton.mp inside
        exact ⟨edgeNamed, Option.isSome_iff_exists.mpr ⟨endVar, endNamed⟩⟩
      · obtain ⟨⟨start, steps⟩, traced, _, _⟩ := fixed_traced serves fixed compiled member
        have covers := traced.covers
        rw [hops] at covers
        obtain ⟨taken, rest, _, allows, chained, passes, bound, _⟩ := covers
        rw [length] at allows
        obtain ⟨⟨edge, node⟩, rfl⟩ := length_eq_one_iff.mp allows
        obtain ⟨leads, there, _⟩ := chained
        have apart : node.id ≠ start.id := by
          intro same
          have equal : node = start := by
            have found := traced.there
            rw [← same, there] at found
            exact Option.some.inj found
          subst equal
          exact loopFree edge node there leads traced.starts passes
        have distance : Distance (Leads contents ep) start.id 1 node.id := by
          refine ⟨.step .start leads, fun m reach => ?_⟩
          rcases Nat.eq_zero_or_pos m with rfl | positive
          · exact absurd reach.eq_start apart
          · exact positive
        have notRead : allFixedNamed pp = false := by
          simp [allFixedNamed, hops, edgeNamed]
        exact rowPath_searched serves hops startNamed endNamed notRead traced.there traced.starts
          (traced.bound startVar startNamed) there passes (bound endVar endNamed) distance
          (by rw [length]; rfl)
  · exact rowPath_of_unnamed ends

end Rows

/-- An edge `X` and an edge `Y` one after the other, and an edge `Y` past both. -/
def triangle : PropertyGraph where
  nodes := [⟨1, "N", .empty, {}⟩, ⟨2, "N", .empty, {}⟩, ⟨3, "N", .empty, {}⟩]
  edges := [⟨1, "X", 1, 2, .empty⟩, ⟨2, "Y", 2, 3, .empty⟩, ⟨3, "Y", 1, 3, .empty⟩]
  nodes_nodup := by decide
  edges_nodup := by decide
  ends := by decide

def upToTwo : PathPattern :=
  ⟨{ var := some "a" }, [({ length := .variable (some 1) (some 2) }, { var := some "c" })]⟩

def firstXThenY : PathPattern :=
  ⟨{ var := some "a" }, [({ labels := ["X"] }, { var := some "b" }),
    ({ labels := ["Y"] }, { var := some "c" })]⟩

/-- Up to two edges are found again. -/
theorem rowPath_upToTwo : ∃ rows,
    compileMatch triangle.access (fun _ => false) ⟨[upToTwo], some "p"⟩ = .ok rows ∧
      rows.length = 3 ∧
        ∀ row ∈ rows, RowPath triangle.access triangle.contents upToTwo "p" row := by
  have three : (compileMatch triangle.access (fun _ => false)
      ⟨[upToTwo], some "p"⟩).toOption.map List.length = some 3 := by
    decide +kernel
  cases ran : compileMatch triangle.access (fun _ => false) ⟨[upToTwo], some "p"⟩ with
  | error e =>
    rw [ran] at three
    cases three
  | ok rows =>
    rw [ran] at three
    exact ⟨rows, rfl, Option.some.inj three, rowPath_of_rebuilt triangle.serves
      (.expanded rfl (by decide) (by decide)) ran⟩

/-- The edge past both nodes is rebuilt in place of the two edges that matched. -/
theorem two_hops_not_rowPath : ∃ rows,
    compileMatch triangle.access (fun _ => false) ⟨[firstXThenY], some "p"⟩ = .ok rows ∧
      ¬∀ row ∈ rows, RowPath triangle.access triangle.contents firstXThenY "p" row := by
  have short : (compileMatch triangle.access (fun _ => false)
      ⟨[firstXThenY], some "p"⟩).toOption.map (fun rows => rows.map fun row =>
        (materialisePathBindings triangle.access ⟨[firstXThenY], some "p"⟩ row "p").map
          fun path => path.rels.length) = some [some 1] := by
    decide +kernel
  cases ran : compileMatch triangle.access (fun _ => false) ⟨[firstXThenY], some "p"⟩ with
  | error e =>
    rw [ran] at short
    cases short
  | ok rows =>
    refine ⟨rows, rfl, fun all => ?_⟩
    rw [ran] at short
    obtain ⟨row, rfl⟩ : ∃ row, rows = [row] := by
      have one := congrArg List.length (Option.some.inj short)
      rw [length_map] at one
      exact length_eq_one_iff.mp one
    have short := singleton_inj.mp (Option.some.inj short)
    obtain ⟨path, bound, one⟩ := Option.map_eq_some_iff.mp short
    obtain ⟨m, rfl, traced⟩ := (all row mem_cons_self).traced path bound
    obtain ⟨first, rest, steps, single, _, _, _, second, rest', steps', single', _⟩ := traced.covers
    have long : m.path.rels.length = first.length + (second.length + rest'.length) := by
      rw [PathMatch.path, steps, steps']
      simp only [length_map, length_append]
    have left : first.length = 1 := single
    have right : second.length = 1 := single'
    omega

end ErmyaGraph.Gql
