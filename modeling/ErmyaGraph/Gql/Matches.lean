import ErmyaGraph.Gql.Pattern

/-! # What executing a pattern finds

On a graph without version chains the execution of a segment fails only in its
checks, and it finds the ways to lay the segment into the graph. -/

namespace ErmyaGraph.Gql

open List

variable {edge : Edge} {source id : Nat} {node : Node} {hop : Hop} {step : Edge × Node}
  {segment : Segment}

/-- A way to lay a path pattern into a graph. -/
structure PathMatch where
  start : Node
  steps : List (Edge × Node)

/-- An edge leads from one node to another in a direction. -/
def Direction.Joins (direction : Direction) (edge : Edge) (source target : Nat) : Prop :=
  match direction with
  | .outgoing => edge.source = source ∧ edge.target = target
  | .incoming => edge.target = source ∧ edge.source = target
  | .both => edge.source = source ∧ edge.target = target ∨
      edge.target = source ∧ edge.source = target

/-- An edge can be followed from a node in a direction. -/
def Direction.Touches (direction : Direction) (edge : Edge) (source : Nat) : Prop :=
  match direction with
  | .outgoing => edge.source = source
  | .incoming => edge.target = source
  | .both => edge.source = source ∨ edge.target = source

theorem Direction.joins_iff {direction : Direction} {target : Nat} :
    direction.Joins edge source target ↔
      direction.Touches edge source ∧ target = neighborId source edge := by
  unfold Direction.Joins Direction.Touches neighborId
  by_cases leaves : edge.source = source
  · cases direction <;> simp [leaves] <;> grind
  · cases direction <;> simp [leaves] <;> grind

/-- A step is in the graph and passes what its hop asks for. -/
structure Hop.Holds (contents : Contents) (source : Nat) (hop : Hop) (step : Edge × Node) :
    Prop where
  edge : contents.edges step.1.id = some step.1
  node : contents.nodes step.2.id = some step.2
  joins : hop.edge.direction.Joins step.1 source step.2.id
  label : ∀ label ∈ hop.edge.label, step.1.label = label
  edgeMatches : edgeMatches step.1 hop.edge
  nodeMatches : nodeMatches step.2 hop.node

/-- Steps follow hops, one each. -/
def Follows (contents : Contents) : (source : Nat) → List Hop → List (Edge × Node) → Prop
  | _, [], [] => True
  | source, hop :: hops, step :: steps =>
    hop.Holds contents source step ∧ Follows contents step.2.id hops steps
  | _, _, _ => False

/-- An index compares the stored form of a property. -/
def NodeConstraint.Indexed (constraint : NodeConstraint) (node : Node) : Prop :=
  constraint.label.isSome → ∀ entry ∈ constraint.props, node.properties.get? entry.1 = some entry.2

structure Segment.Holds (contents : Contents) (segment : Segment) (m : PathMatch) : Prop where
  start : contents.nodes m.start.id = some m.start
  startMatches : nodeMatches m.start segment.node
  indexed : segment.node.Indexed m.start
  follows : Follows contents m.start.id segment.hops m.steps

/-- A loop lies on no undirected hop. -/
def LoopFree : List Hop → List (Edge × Node) → Prop
  | hop :: hops, step :: steps =>
    (hop.edge.direction = .both → step.1.source ≠ step.1.target) ∧ LoopFree hops steps
  | _, _ => True

section Lists

variable (graph : GraphAccess)

def stepsFrom (source : Nat) (hop : Hop) : List (Edge × Node) :=
  ((neighborEdges graph source hop.edge.direction hop.edge.label).toOption.getD []).filterMap
    fun edge => (hopAlong graph source hop edge).toOption.join

def walks : (source : Nat) → List Hop → List (List (Edge × Node))
  | _, [] => [[]]
  | source, hop :: hops =>
    (stepsFrom graph source hop).flatMap fun step => (walks step.2.id hops).map (step :: ·)

def starts (constraint : NodeConstraint) : List Node :=
  (narrowCandidates graph constraint).filterMap fun id =>
    (loadCandidate graph constraint id).toOption.join

def matchesOf (segment : Segment) : List PathMatch :=
  (starts graph segment.node).flatMap fun start =>
    (walks graph start.id segment.hops).map (PathMatch.mk start)

end Lists

def PatternMatch.bindHops : (row : PatternMatch) → List Hop → List (Edge × Node) → PatternMatch
  | row, hop :: hops, step :: steps => (row.bindHop hop step).bindHops hops steps
  | row, _, _ => row

def Segment.row (segment : Segment) (m : PathMatch) : PatternMatch :=
  (PatternMatch.bindNode {} segment.node.var m.start).bindHops segment.hops m.steps

theorem nodes_bindEdge (row : PatternMatch) (var : Option String) (edge : Edge) :
    (row.bindEdge var edge).nodes = row.nodes := by
  cases var <;> rfl

section Served

variable {graph : GraphAccess} {contents : Contents} (serves : graph.Serves contents)
include serves

theorem GraphAccess.Serves.node_eq_ok :
    graph.node id = .ok node ↔ contents.nodes id = some node := by
  rw [serves.node]
  cases contents.nodes id <;> simp

theorem outgoing_answers {id : Nat} (present : (contents.nodes id).isSome) (label : Option String) :
    Answers (match label with
      | some label => graph.outgoingEdgesByLabel id label
      | none => graph.outgoingEdges id) fun edge =>
        contents.edges edge.id = some edge ∧ edge.source = id ∧ ∀ l ∈ label, edge.label = l := by
  cases label with
  | none => simpa using serves.outgoingEdges id present
  | some label => simpa [eq_comm] using serves.outgoingEdgesByLabel id label present

theorem incoming_answers {id : Nat} (present : (contents.nodes id).isSome) (label : Option String) :
    Answers (match label with
      | some label => graph.incomingEdgesByLabel id label
      | none => graph.incomingEdges id) fun edge =>
        contents.edges edge.id = some edge ∧ edge.target = id ∧ ∀ l ∈ label, edge.label = l := by
  cases label with
  | none => simpa using serves.incomingEdges id present
  | some label => simpa [eq_comm] using serves.incomingEdgesByLabel id label present

theorem neighborEdges_ok {id : Nat} (present : (contents.nodes id).isSome) (direction : Direction)
    (label : Option String) :
    ∃ outgoing incoming,
      (Enumerates outgoing fun edge =>
        contents.edges edge.id = some edge ∧ edge.source = id ∧ ∀ l ∈ label, edge.label = l) ∧
      (Enumerates incoming fun edge =>
        contents.edges edge.id = some edge ∧ edge.target = id ∧ ∀ l ∈ label, edge.label = l) ∧
      neighborEdges graph id direction label = .ok (match direction with
        | .outgoing => outgoing
        | .incoming => incoming
        | .both => outgoing ++ incoming) := by
  obtain ⟨outgoing, left, leaves⟩ := outgoing_answers serves present label
  obtain ⟨incoming, right, arrives⟩ := incoming_answers serves present label
  refine ⟨outgoing, incoming, leaves, arrives, ?_⟩
  unfold neighborEdges
  rw [serves.nodeExists, if_pos present]
  cases label <;> cases direction <;> simp_all [bind, Except.bind, pure, Except.pure]

theorem labelAdmits_ok (there : contents.nodes id = some node) (constraint : NodeConstraint) :
    ∃ admitted, labelAdmits graph constraint id = .ok admitted ∧
      (nodeMatches node constraint → admitted) := by
  have labelled : graph.nodeLabel id = .ok node.label := by
    rw [serves.nodeLabel, serves.node_eq_ok.mpr there]
    rfl
  unfold labelAdmits
  split
  · next required label props =>
      refine ⟨decide (node.label = required), by rw [labelled]; rfl, fun matched => ?_⟩
      rw [nodeMatches, label, Bool.and_eq_true] at matched
      exact matched.1
  · exact ⟨true, rfl, fun _ => rfl⟩

theorem hopAlong_ok {source : Nat} {hop : Hop} {edge : Edge} {node : Node}
    (there : contents.nodes (neighborId source edge) = some node) :
    hopAlong graph source hop edge = .ok
      (if edgeMatches edge hop.edge ∧ nodeMatches node hop.node then some (edge, node) else none) := by
  obtain ⟨admitted, checked, admits⟩ := labelAdmits_ok serves there hop.node
  unfold hopAlong
  rw [serves.node_eq_ok.mpr there, checked]
  by_cases matched : edgeMatches edge hop.edge
  · cases admitted with
    | true => simp [matched, liftGraph, Except.mapError, bind, Except.bind, pure, Except.pure]
    | false =>
      have fails : ¬nodeMatches node hop.node := fun holds => nomatch admits holds
      simp [matched, fails, bind, Except.bind, pure, Except.pure]
  · rw [if_neg matched, if_neg fun both => matched both.1]

theorem hopAlong_eq_some (there : contents.edges edge.id = some edge) :
    (hopAlong graph source hop edge).toOption.join = some step ↔
      step.1 = edge ∧ contents.nodes step.2.id = some step.2 ∧
        step.2.id = neighborId source edge ∧ edgeMatches edge hop.edge ∧
          nodeMatches step.2 hop.node := by
  have present : (contents.nodes (neighborId source edge)).isSome := by
    unfold neighborId
    split
    · exact contents.target_some there
    · exact contents.source_some there
  obtain ⟨node, found⟩ := Option.isSome_iff_exists.mp present
  have named := contents.node_id found
  rw [hopAlong_ok serves found]
  by_cases passes : edgeMatches edge hop.edge ∧ nodeMatches node hop.node
  · rw [if_pos passes]
    constructor
    · intro same
      cases same
      exact ⟨rfl, named ▸ found, named, passes⟩
    · rintro ⟨rfl, other, here, _⟩
      rw [here, found, Option.some_inj] at other
      rw [other]
      rfl
  · rw [if_neg passes]
    constructor
    · intro same
      cases same
    · rintro ⟨_, other, here, both⟩
      rw [here, found, Option.some_inj] at other
      exact absurd (other ▸ both) passes

theorem nodup_filterMap_hopAlong {source : Nat} {hop : Hop} {edges : List Edge}
    (distinct : edges.Nodup) (there : ∀ edge ∈ edges, contents.edges edge.id = some edge) :
    (edges.filterMap fun edge => (hopAlong graph source hop edge).toOption.join).Nodup := by
  refine pairwise_filterMap.mpr (distinct.imp_of_mem ?_)
  intro edge other mem later different step found step' found' same
  have left := (hopAlong_eq_some serves (there edge mem)).mp found
  have right := (hopAlong_eq_some serves (there other later)).mp found'
  exact different (left.1.symm.trans ((congrArg Prod.fst same).trans right.1))

theorem mem_filterMap_hopAlong {edges : List Edge} {touches : Edge → Prop}
    (answers : Enumerates edges fun edge => contents.edges edge.id = some edge ∧ touches edge ∧
      ∀ l ∈ hop.edge.label, edge.label = l)
    (touching : ∀ edge, touches edge → hop.edge.direction.Touches edge source) :
    step ∈ edges.filterMap (fun edge => (hopAlong graph source hop edge).toOption.join) ↔
      hop.Holds contents source step ∧ touches step.1 := by
  rw [mem_filterMap]
  constructor
  · rintro ⟨edge, mem, found⟩
    obtain ⟨there, touched, labelled⟩ := (answers.mem_iff edge).mp mem
    obtain ⟨rfl, node, arrives, passes⟩ := (hopAlong_eq_some serves there).mp found
    exact ⟨⟨there, node, Direction.joins_iff.mpr ⟨touching _ touched, arrives⟩, labelled, passes.1,
      passes.2⟩, touched⟩
  · rintro ⟨holds, touched⟩
    refine ⟨step.1, (answers.mem_iff _).mpr ⟨holds.edge, touched, holds.label⟩, ?_⟩
    exact (hopAlong_eq_some serves holds.edge).mpr ⟨rfl, holds.node,
      (Direction.joins_iff.mp holds.joins).2, holds.edgeMatches, holds.nodeMatches⟩

/-- The steps of a hop come in up to two lists without repetitions; what stands in both lies on a
loop that the hop follows either way. -/
theorem stepsFrom_split (present : (contents.nodes source).isSome) (hop : Hop) :
    ∃ left right, stepsFrom graph source hop = left ++ right ∧ left.Nodup ∧ right.Nodup ∧
      (∀ step, step ∈ left ++ right ↔ hop.Holds contents source step) ∧
      ∀ step, step ∈ left ∧ step ∈ right ↔ hop.Holds contents source step ∧
        hop.edge.direction = .both ∧ step.1.source = step.1.target := by
  obtain ⟨outgoing, incoming, leaves, arrives, listed⟩ :=
    neighborEdges_ok serves present hop.edge.direction hop.edge.label
  have distinct := @nodup_filterMap_hopAlong graph contents serves source hop outgoing leaves.nodup
    fun edge mem => ((leaves.mem_iff edge).mp mem).1
  have distinct' :=
    @nodup_filterMap_hopAlong graph contents serves source hop incoming arrives.nodup
      fun edge mem => ((arrives.mem_iff edge).mp mem).1
  rw [stepsFrom, listed]
  cases direction : hop.edge.direction with
  | outgoing =>
    refine ⟨_, [], (append_nil _).symm, distinct, nodup_nil, fun step => ?_, by simp⟩
    have touching (edge : Edge) (here : edge.source = source) :
        hop.edge.direction.Touches edge source := by rw [direction]; exact here
    rw [append_nil]
    refine (mem_filterMap_hopAlong serves leaves touching).trans ?_
    refine and_iff_left_of_imp fun holds => ?_
    have joins := holds.joins
    rw [direction] at joins
    exact joins.1
  | incoming =>
    refine ⟨_, [], (append_nil _).symm, distinct', nodup_nil, fun step => ?_, by simp⟩
    have touching (edge : Edge) (here : edge.target = source) :
        hop.edge.direction.Touches edge source := by rw [direction]; exact here
    rw [append_nil]
    refine (mem_filterMap_hopAlong serves arrives touching).trans ?_
    refine and_iff_left_of_imp fun holds => ?_
    have joins := holds.joins
    rw [direction] at joins
    exact joins.1
  | both =>
    have touching (edge : Edge) (here : edge.source = source) :
        hop.edge.direction.Touches edge source := by rw [direction]; exact .inl here
    have touching' (edge : Edge) (here : edge.target = source) :
        hop.edge.direction.Touches edge source := by rw [direction]; exact .inr here
    refine ⟨_, _, filterMap_append, distinct, distinct', fun step => ?_, fun step => ?_⟩
    · rw [mem_append, mem_filterMap_hopAlong serves leaves touching,
        mem_filterMap_hopAlong serves arrives touching', ← and_or_left]
      refine and_iff_left_of_imp fun holds => ?_
      have joins := holds.joins
      rw [direction] at joins
      exact joins.imp And.left And.left
    · rw [mem_filterMap_hopAlong serves leaves touching,
        mem_filterMap_hopAlong serves arrives touching', ← and_and_left]
      refine and_congr_right fun holds => ?_
      have joins := holds.joins
      rw [direction] at joins
      simp only [true_and]
      constructor
      · exact fun both => both.1.trans both.2.symm
      · intro loop
        rcases joins with ⟨here, _⟩ | ⟨here, _⟩
        · exact ⟨here, loop ▸ here⟩
        · exact ⟨loop ▸ here, here⟩

theorem mem_stepsFrom (present : (contents.nodes source).isSome) :
    step ∈ stepsFrom graph source hop ↔ hop.Holds contents source step := by
  obtain ⟨left, right, split, _, _, members, _⟩ := stepsFrom_split serves present hop
  rw [split]
  exact members step

omit serves in
theorem Hop.Holds.present (holds : hop.Holds contents source step) :
    (contents.nodes step.2.id).isSome :=
  Option.isSome_of_eq_some holds.node

variable {hops : List Hop}

theorem mem_walks (present : (contents.nodes source).isSome) {steps : List (Edge × Node)} :
    steps ∈ walks graph source hops ↔ Follows contents source hops steps := by
  induction hops generalizing source steps with
  | nil => cases steps <;> simp [walks, Follows]
  | cons hop hops ih =>
    simp only [walks, mem_flatMap, mem_map]
    constructor
    · rintro ⟨step, mem, rest, walked, rfl⟩
      have holds := (mem_stepsFrom serves present).mp mem
      exact ⟨holds, (ih holds.present).mp walked⟩
    · intro follows
      cases steps with
      | nil => exact follows.elim
      | cons step rest =>
        exact ⟨step, (mem_stepsFrom serves present).mpr follows.1, rest,
          (ih follows.1.present).mpr follows.2, rfl⟩

omit serves in
theorem disjoint_map_cons {step' : Edge × Node} (different : step ≠ step')
    (rests rests' : List (List (Edge × Node))) :
    (rests.map (step :: ·)).Disjoint (rests'.map (step' :: ·)) := by
  rw [disjoint_left]
  intro steps left right
  obtain ⟨_, _, rfl⟩ := mem_map.mp left
  obtain ⟨_, _, same⟩ := mem_map.mp right
  exact different (List.cons.inj same).1.symm

/-- Walks repeat only where a hop follows a loop either way. -/
theorem nodup_walks_iff (present : (contents.nodes source).isSome) :
    (walks graph source hops).Nodup ↔
      ∀ steps, Follows contents source hops steps → LoopFree hops steps := by
  induction hops generalizing source with
  | nil => simp [walks, LoopFree]
  | cons hop hops ih =>
    obtain ⟨left, right, split, distinct, distinct', members, doubled⟩ :=
      stepsFrom_split serves present hop
    have inner (step : Edge × Node) (holds : hop.Holds contents source step) :
        ((walks graph step.2.id hops).map (step :: ·)).Nodup ↔
          ∀ steps, Follows contents step.2.id hops steps → LoopFree hops steps := by
      rw [← ih holds.present]
      exact nodup_map_iff cons_injective
    rw [walks, split, nodup_flatMap, pairwise_append]
    constructor
    · rintro ⟨each, _, _, apart⟩ steps follows
      cases steps with
      | nil => exact follows.elim
      | cons step rest =>
        have mem := (members step).mpr follows.1
        refine ⟨fun both loop => ?_, (inner step follows.1).mp (each step mem) rest follows.2⟩
        have twice := (doubled step).mpr ⟨follows.1, both, loop⟩
        have walked := mem_map_of_mem (f := (step :: ·))
          ((mem_walks serves follows.1.present).mpr follows.2)
        exact disjoint_left.mp (apart step twice.1 step twice.2) walked walked
    · intro free
      refine ⟨fun step mem => ?_, ?_, ?_, ?_⟩
      · have holds := (members step).mp mem
        exact (inner step holds).mpr fun rest follows => (free (step :: rest) ⟨holds, follows⟩).2
      · exact distinct.imp fun different => disjoint_map_cons different _ _
      · exact distinct'.imp fun different => disjoint_map_cons different _ _
      · intro step here step' there
        by_cases same : step = step'
        · subst same
          obtain ⟨holds, both, loop⟩ := (doubled step).mp ⟨here, there⟩
          rw [Function.onFun_apply, disjoint_left]
          intro steps walked
          obtain ⟨rest, mem, rfl⟩ := mem_map.mp walked
          have follows := (mem_walks serves holds.present).mp mem
          exact absurd loop ((free (step :: rest) ⟨holds, follows⟩).1 both)
        · exact disjoint_map_cons same _ _

variable (constraint : NodeConstraint)

theorem narrowCandidates_enumerates :
    Enumerates (narrowCandidates graph constraint) fun id => ∃ node,
      contents.nodes id = some node ∧ (∀ label ∈ constraint.label, node.label = label) ∧
        constraint.Indexed node := by
  unfold narrowCandidates NodeConstraint.Indexed
  cases constraint.label with
  | none => simpa [Option.isSome_iff_exists] using serves.nodeIds
  | some label =>
    cases constraint.props with
    | nil => simpa [eq_comm] using serves.nodesByLabel label
    | cons first rest =>
      have indexed := serves.nodesByLabelAndProperty label
      dsimp only
      have narrowed : ∀ ids : List Nat, ids.Nodup →
          let kept := rest.foldl (fun candidates entry => candidates.filter fun id =>
            id ∈ graph.nodesByLabelAndProperty label entry.1 entry.2) ids
          kept.Nodup ∧ ∀ id, id ∈ kept ↔ id ∈ ids ∧
            ∀ entry ∈ rest, id ∈ graph.nodesByLabelAndProperty label entry.1 entry.2 := by
        clear * -
        induction rest with
        | nil => simp
        | cons entry rest ih =>
          intro ids distinct
          obtain ⟨left, right⟩ := ih _ (distinct.filter
            fun id => decide (id ∈ graph.nodesByLabelAndProperty label entry.1 entry.2))
          refine ⟨left, fun id => (right id).trans ?_⟩
          simp [and_assoc]
      obtain ⟨distinct, members⟩ := narrowed _ (nodup_dedup _)
      refine ⟨distinct, fun id => (members id).trans ?_⟩
      rw [mem_dedup]
      simp only [(indexed _ _).mem_iff]
      constructor
      · rintro ⟨⟨node, found, labelled, equal⟩, others⟩
        refine ⟨node, found, by simpa [eq_comm] using labelled, fun _ entry mem => ?_⟩
        cases mem_cons.mp mem with
        | inl same => rw [same, equal]
        | inr later =>
          obtain ⟨other, found', _, equal'⟩ := others entry later
          rw [found, Option.some_inj] at found'
          rw [found', equal']
      · rintro ⟨node, found, labelled, equal⟩
        have carries := labelled label rfl
        exact ⟨⟨node, found, carries, equal rfl first mem_cons_self⟩, fun entry mem =>
          ⟨node, found, carries, equal rfl entry (mem_cons_of_mem first mem)⟩⟩

theorem loadCandidate_ok (found : contents.nodes id = some node) (constraint : NodeConstraint) :
    loadCandidate graph constraint id =
      .ok (if nodeMatches node constraint then some node else none) := by
  unfold loadCandidate
  rw [serves.nodeVisible, found, serves.node_eq_ok.mpr found]
  rfl

theorem starts_enumerates :
    Enumerates (starts graph constraint) fun node => contents.nodes node.id = some node ∧
      nodeMatches node constraint ∧ constraint.Indexed node := by
  have candidates := narrowCandidates_enumerates serves constraint
  have loads {id : Nat} (mem : id ∈ narrowCandidates graph constraint) {node : Node} :
      (loadCandidate graph constraint id).toOption.join = some node ↔
        contents.nodes id = some node ∧ nodeMatches node constraint := by
    obtain ⟨found, there, _⟩ := (candidates.mem_iff id).mp mem
    rw [loadCandidate_ok serves there, there]
    by_cases passes : nodeMatches found constraint
    · rw [if_pos passes]
      constructor
      · intro same
        cases same
        exact ⟨rfl, passes⟩
      · exact fun same => same.1
    · rw [if_neg passes]
      constructor
      · intro same
        cases same
      · rintro ⟨same, holds⟩
        cases same
        exact absurd holds passes
  constructor
  · refine pairwise_filterMap.mpr (candidates.nodup.imp_of_mem ?_)
    intro id other mem later different node found node' found' same
    have left := contents.node_id ((loads mem).mp found).1
    have right := contents.node_id ((loads later).mp found').1
    exact different (left.symm.trans ((congrArg Node.id same).trans right))
  · intro node
    rw [starts, mem_filterMap]
    constructor
    · rintro ⟨id, mem, found⟩
      obtain ⟨there, passes⟩ := (loads mem).mp found
      obtain ⟨other, there', _, indexed⟩ := (candidates.mem_iff id).mp mem
      rw [there, Option.some_inj] at there'
      exact ⟨contents.node_id there ▸ there, passes, there' ▸ indexed⟩
    · rintro ⟨there, passes, indexed⟩
      have labelled : ∀ label ∈ constraint.label, node.label = label := by
        intro label required
        rw [nodeMatches, Option.mem_def.mp required, Bool.and_eq_true] at passes
        exact of_decide_eq_true passes.1
      have mem := (candidates.mem_iff node.id).mpr ⟨node, there, labelled, indexed⟩
      exact ⟨node.id, mem, (loads mem).mpr ⟨there, passes⟩⟩

theorem initialCandidates_ok :
    initialCandidates graph constraint = .ok (starts graph constraint) := by
  have each : ∀ id ∈ narrowCandidates graph constraint, loadCandidate graph constraint id =
      .ok (loadCandidate graph constraint id).toOption.join := by
    intro id mem
    obtain ⟨node, found, _⟩ := ((narrowCandidates_enumerates serves constraint).mem_iff id).mp mem
    rw [loadCandidate_ok serves found]
    rfl
  rw [initialCandidates, Joins.mapM_of_ok each]
  simp [starts, List.reduceOption, filterMap_map, bind, Except.bind, pure, Except.pure]

theorem mem_matchesOf {m : PathMatch} : m ∈ matchesOf graph segment ↔ segment.Holds contents m := by
  have members := (starts_enumerates serves segment.node).mem_iff
  simp only [matchesOf, mem_flatMap, mem_map]
  constructor
  · rintro ⟨start, mem, steps, walked, rfl⟩
    obtain ⟨there, passes, indexed⟩ := (members start).mp mem
    exact ⟨there, passes, indexed, (mem_walks serves (Option.isSome_of_eq_some there)).mp walked⟩
  · intro holds
    exact ⟨m.start, (members m.start).mpr ⟨holds.start, holds.startMatches, holds.indexed⟩, m.steps,
      (mem_walks serves (Option.isSome_of_eq_some holds.start)).mpr holds.follows, rfl⟩

theorem nodup_matchesOf_iff :
    (matchesOf graph segment).Nodup ↔
      ∀ m, segment.Holds contents m → LoopFree segment.hops m.steps := by
  obtain ⟨distinct, members⟩ := starts_enumerates serves segment.node
  have inner (start : Node) (there : contents.nodes start.id = some start) :
      ((walks graph start.id segment.hops).map (PathMatch.mk start)).Nodup ↔
        ∀ steps, Follows contents start.id segment.hops steps → LoopFree segment.hops steps := by
    rw [← nodup_walks_iff serves (Option.isSome_of_eq_some there)]
    exact nodup_map_iff fun _ _ same => (PathMatch.mk.inj same).2
  rw [matchesOf, nodup_flatMap]
  constructor
  · rintro ⟨each, _⟩ m holds
    have mem := (members m.start).mpr ⟨holds.start, holds.startMatches, holds.indexed⟩
    exact (inner m.start holds.start).mp (each m.start mem) m.steps holds.follows
  · intro free
    refine ⟨fun start mem => ?_, distinct.imp fun different => ?_⟩
    · obtain ⟨there, passes, indexed⟩ := (members start).mp mem
      exact (inner start there).mpr fun steps follows =>
        free ⟨start, steps⟩ ⟨there, passes, indexed, follows⟩
    · rw [Function.onFun_apply, disjoint_left]
      intro m left right
      obtain ⟨_, _, rfl⟩ := mem_map.mp left
      obtain ⟨_, _, same⟩ := mem_map.mp right
      exact different (PathMatch.mk.inj same).1.symm

theorem expandHop_ok (present : (contents.nodes source).isSome) (hop : Hop) (row : PatternMatch) :
    expandHop graph source hop row = .ok ((stepsFrom graph source hop).map (row.bindHop hop)) := by
  obtain ⟨outgoing, incoming, leaves, arrives, listed⟩ :=
    neighborEdges_ok serves present hop.edge.direction hop.edge.label
  unfold expandHop stepsFrom
  rw [listed]
  generalize edgesEq : (match hop.edge.direction with
    | .outgoing => outgoing
    | .incoming => incoming
    | .both => outgoing ++ incoming) = edges
  have there : ∀ edge ∈ edges, contents.edges edge.id = some edge := by
    intro edge mem
    have either : edge ∈ outgoing ∨ edge ∈ incoming := by
      rw [← edgesEq] at mem
      cases direction : hop.edge.direction with
      | outgoing => rw [direction] at mem; exact .inl mem
      | incoming => rw [direction] at mem; exact .inr mem
      | both => rw [direction] at mem; exact mem_append.mp mem
    rcases either with here | here
    · exact ((leaves.mem_iff edge).mp here).1
    · exact ((arrives.mem_iff edge).mp here).1
  have each : ∀ edge ∈ edges, hopAlong graph source hop edge =
      .ok (hopAlong graph source hop edge).toOption.join := by
    intro edge mem
    have present' : (contents.nodes (neighborId source edge)).isSome := by
      unfold neighborId
      split
      · exact contents.target_some (there edge mem)
      · exact contents.source_some (there edge mem)
    obtain ⟨node, found⟩ := Option.isSome_iff_exists.mp present'
    rw [hopAlong_ok serves found]
    rfl
  simp only [liftGraph, Except.mapError, bind, Except.bind, Joins.mapM_of_ok each, pure, Except.pure]
  simp [Except.toOption, List.reduceOption, filterMap_map, Function.comp_def]

omit serves in
theorem nodes_bindHop (row : PatternMatch) (hop : Hop) (step : Edge × Node) :
    (row.bindHop hop step).nodes = Function.update row.nodes hop.node.var (some step.2) :=
  nodes_bindEdge _ _ _

theorem expandHops_ok (hops : List Hop) (prevVar : String) (current : List (PatternMatch × Node))
    (bound : ∀ entry ∈ current, entry.1.nodes prevVar = some entry.2 ∧
      (contents.nodes entry.2.id).isSome) :
    expandHops graph prevVar hops (current.map Prod.fst) = .ok (current.flatMap fun entry =>
      (walks graph entry.2.id hops).map (entry.1.bindHops hops)) := by
  induction hops generalizing prevVar current with
  | nil =>
    simp only [expandHops, walks, map_cons, map_nil, PatternMatch.bindHops]
    rw [map_eq_flatMap]
  | cons hop hops ih =>
    have each : ∀ entry ∈ current, (expandRow graph prevVar hop ∘ Prod.fst) entry =
        .ok ((stepsFrom graph entry.2.id hop).map (entry.1.bindHop hop)) := by
      intro entry mem
      obtain ⟨prev, present⟩ := bound entry mem
      rw [Function.comp_apply, expandRow, prev]
      exact expandHop_ok serves present hop entry.1
    have next := ih hop.node.var
      (current.flatMap fun entry => (stepsFrom graph entry.2.id hop).map fun step =>
        (entry.1.bindHop hop step, step.2)) (by
          intro entry mem
          obtain ⟨before, here, later⟩ := mem_flatMap.mp mem
          obtain ⟨step, mem', rfl⟩ := mem_map.mp later
          have holds := (mem_stepsFrom serves (bound before here).2).mp mem'
          rw [nodes_bindHop, Function.update_self]
          exact ⟨rfl, holds.present⟩)
    rw [expandHops, mapM_map, Joins.mapM_of_ok each]
    refine Eq.trans ?_ (next.trans ?_)
    · simp only [bind, Except.bind, flatMap_def, map_flatten, map_map, Function.comp_def]
    · simp only [flatMap_assoc, flatMap_map, walks, map_flatMap, map_map,
        Function.comp_def, PatternMatch.bindHops]

theorem execute_ok {steps : List PatternStep} (named : validateNoEmptyVars steps = .ok ())
    (parsed : parseSegment steps = .ok (some segment))
    (unique : validateUniqueVars segment = .ok ()) :
    execute graph steps = .ok ((matchesOf graph segment).map segment.row) := by
  have present : ∀ start ∈ starts graph segment.node, (contents.nodes start.id).isSome := by
    intro start mem
    have found := ((starts_enumerates serves segment.node).mem_iff start).mp mem
    exact Option.isSome_of_eq_some found.1
  have expanded := expandHops_ok serves segment.hops segment.node.var
    ((starts graph segment.node).map fun start =>
      (PatternMatch.bindNode {} segment.node.var start, start)) (by
      intro entry mem
      obtain ⟨start, here, rfl⟩ := mem_map.mp mem
      exact ⟨Function.update_self _ _ _, present start here⟩)
  unfold execute
  simp only [named, parsed, unique, initialCandidates_ok serves, bind, Except.bind]
  rw [map_map] at expanded
  refine expanded.trans (congrArg Except.ok ?_)
  simp only [matchesOf, flatMap_map, map_flatMap, map_map, Function.comp_def, Segment.row]

end Served

end ErmyaGraph.Gql
