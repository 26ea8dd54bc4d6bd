import ErmyaGraph.Lib.Outcome
import ErmyaGraph.Gql.Matches
import ErmyaGraph.Gql.PathVariable
import ErmyaGraph.Lib.GoalSearch

/-! # The searches of a pattern

The expansion of a hop of variable length and the search for the path of a row
both go breadth first along the edges that match one edge pattern. What the one
finds at some depth the other reaches over as many edges. -/

namespace ErmyaGraph.Gql

variable {edge : Edge} {origin next source id min fuel counter : Nat} {queue : Frontier}
  {edges : List Edge} {endVar : String} {np : NodePattern} {row : PatternMatch}

open Search List

/-- An edge of the graph matches an edge pattern and can be followed between two nodes. -/
structure Leads (contents : Contents) (ep : EdgePattern) (source : Nat) (edge : Edge)
    (target : Nat) : Prop where
  there : contents.edges edge.id = some edge
  admits : edgeMatchesPattern edge ep
  joins : ep.direction.Joins edge source target

def follow (ep : EdgePattern) (origin : Nat) (edge : Edge) : Option Nat :=
  if edgeMatchesPattern edge ep then edgeNeighbor edge origin ep.direction else none

variable {direction : Direction}

theorem edgeNeighbor_eq_some :
    edgeNeighbor edge origin direction = some next ↔ direction.Joins edge origin next := by
  unfold edgeNeighbor Direction.Joins
  cases direction <;> grind

variable {ep : EdgePattern}

theorem follow_eq_some :
    follow ep origin edge = some next ↔
      edgeMatchesPattern edge ep ∧ ep.direction.Joins edge origin next := by
  unfold follow
  rw [Option.ite_none_right_eq_some, edgeNeighbor_eq_some]

theorem Direction.Joins.neighborId_eq {target : Nat} (joins : direction.Joins edge source target) :
    neighborId source edge = target :=
  (Direction.joins_iff.mp joins).2.symm

section Served

variable {graph : GraphAccess} {contents : Contents} (serves : graph.Serves contents)
include serves

theorem getEdgesForDirection_ok (present : (contents.nodes id).isSome) (direction : Direction) :
    ∃ edges, getEdgesForDirection graph id direction = .ok edges ∧
      ∀ edge, edge ∈ edges ↔ contents.edges edge.id = some edge ∧ direction.Touches edge id := by
  obtain ⟨outgoing, leaves, left⟩ := serves.outgoingEdges id present
  obtain ⟨incoming, arrives, right⟩ := serves.incomingEdges id present
  cases direction with
  | outgoing => exact ⟨outgoing, leaves, left.mem_iff⟩
  | incoming => exact ⟨incoming, arrives, right.mem_iff⟩
  | both =>
    refine ⟨outgoing ++ incoming, ?_, fun edge => ?_⟩
    · rw [getEdgesForDirection, leaves, arrives]
      rfl
    · rw [mem_append, left.mem_iff, right.mem_iff, ← and_or_left]
      rfl

theorem follow_iff_leads {ep : EdgePattern} {id : Nat} (present : (contents.nodes id).isSome) :
    ∃ edges, getEdgesForDirection graph id ep.direction = .ok edges ∧
      ∀ edge next, edge ∈ edges ∧ follow ep id edge = some next ↔
        Leads contents ep id edge next := by
  obtain ⟨edges, read, members⟩ := getEdgesForDirection_ok serves present ep.direction
  refine ⟨edges, read, fun edge next => ?_⟩
  rw [members, follow_eq_some]
  constructor
  · rintro ⟨⟨there, _⟩, admits, joins⟩
    exact ⟨there, admits, joins⟩
  · rintro ⟨there, admits, joins⟩
    exact ⟨⟨there, (Direction.joins_iff.mp joins).1⟩, admits, joins⟩

end Served

variable {contents : Contents}

theorem Leads.present {target : Nat} (leads : Leads contents ep source edge target) :
    (contents.nodes target).isSome := by
  have ends := leads.joins
  unfold Direction.Joins at ends
  cases direction : ep.direction <;> rw [direction] at ends <;> dsimp only at ends
  · exact ends.2 ▸ contents.target_some leads.there
  · exact ends.2 ▸ contents.source_some leads.there
  · rcases ends with ends | ends
    · exact ends.2 ▸ contents.target_some leads.there
    · exact ends.2 ▸ contents.source_some leads.there

theorem reach_present {start n : Nat} (present : (contents.nodes start).isSome)
    (reach : Reach (Leads contents ep) start n id) : (contents.nodes id).isSome := by
  cases reach with
  | start => exact present
  | step _ edge => exact edge.present

theorem exists_follow_cons (leads : follow ep origin edge = some next) (rest : List Edge)
    (b : Nat) :
    (∃ e ∈ edge :: rest, follow ep origin e = some b) ↔
      b = next ∨ ∃ e ∈ rest, follow ep origin e = some b := by
  rw [exists_mem_cons_iff, leads, Option.some_inj, eq_comm]

theorem exists_follow_none (leads : follow ep origin edge = none) (rest : List Edge) (b : Nat) :
    (∃ e ∈ edge :: rest, follow ep origin e = some b) ↔
      ∃ e ∈ rest, follow ep origin e = some b := by
  rw [exists_mem_cons_iff, leads]
  exact or_iff_right nofun

variable {visited : List Nat}

theorem enqueue_cons {origin depth : Nat} {edge : Edge} {rest : List Edge} :
    enqueue ep origin depth (edge :: rest) visited =
      match follow ep origin edge with
      | some next =>
        if next ∈ visited then enqueue ep origin depth rest visited
        else
          let later := enqueue ep origin depth rest (next :: visited)
          (later.1, (next, depth, edge) :: later.2)
      | none => enqueue ep origin depth rest visited := rfl

theorem enqueue_entered (ep : EdgePattern) (origin depth : Nat) (edges : List Edge)
    (visited : List Nat) :
    Entered (fun b => ∃ e ∈ edges, follow ep origin e = some b) visited
      (enqueue ep origin depth edges visited).1
      ((enqueue ep origin depth edges visited).2.map Prod.fst) := by
  induction edges generalizing visited with
  | nil => exact (Entered.nil visited).congr fun b => by simp
  | cons edge rest ih =>
    rw [enqueue_cons]
    cases leads : follow ep origin edge with
    | none => exact (ih visited).congr (exists_follow_none leads rest)
    | some next =>
      dsimp only
      split
      · next old => exact ((ih visited).seen old).congr (exists_follow_cons leads rest)
      · next fresh =>
          exact ((ih (next :: visited)).enter fresh).congr (exists_follow_cons leads rest)

theorem enqueue_depth (ep : EdgePattern) (origin depth : Nat) (edges : List Edge)
    (visited : List Nat) :
    ∀ entry ∈ (enqueue ep origin depth edges visited).2, entry.2.1 = depth := by
  induction edges generalizing visited with
  | nil => exact fun _ mem => absurd mem not_mem_nil
  | cons edge rest ih =>
    rw [enqueue_cons]
    cases follow ep origin edge with
    | none => exact ih visited
    | some next =>
      dsimp only
      split
      · exact ih visited
      · intro entry mem
        rcases mem_cons.mp mem with rfl | later
        · rfl
        · exact ih _ entry later

def Frontier.depths (queue : Frontier) : List (Nat × Nat) :=
  queue.map fun entry => (entry.2.1, entry.1)

theorem depths_enqueue (ep : EdgePattern) (origin depth : Nat) (edges : List Edge)
    (visited : List Nat) : Frontier.depths (enqueue ep origin depth edges visited).2 =
      ((enqueue ep origin depth edges visited).2.map Prod.fst).map (depth, ·) := by
  rw [Frontier.depths, map_map]
  refine map_congr_left fun entry mem => ?_
  rw [enqueue_depth ep origin depth edges visited entry mem]
  rfl

theorem depths_append (left right : Frontier) :
    Frontier.depths (left ++ right) = left.depths ++ right.depths := map_append

/-- A row of a variable hop ends at a node whose distance is within the bounds. -/
def Arrives (contents : Contents) (ep : EdgePattern) (np : NodePattern) (min max start : Nat)
    (endVar : String) (row found : PatternMatch) : Prop :=
  ∃ n node, Distance (Leads contents ep) start n node.id ∧ min ≤ n ∧ n ≤ max ∧
    contents.nodes node.id = some node ∧ nodeMatchesPattern node np ∧
      found.nodes = (row.bindNode endVar node).nodes

/-- A traversal in order: every node in the queue has its distance for a depth, and up to the
greatest depth nothing was left out. -/
structure Traversed (contents : Contents) (ep : EdgePattern) (max start : Nat)
    (visited : List Nat) (queue : Frontier) : Prop where
  distance : ∀ entry ∈ queue, Distance (Leads contents ep) start entry.2.1 entry.1
  order : Explored (Leads contents ep) start visited queue.depths ∨ ∀ entry ∈ queue, max ≤ entry.2.1

theorem explored_enqueue {start : Nat} {depth : Nat}
    (explored : Explored (Leads contents ep) start visited
      (Frontier.depths ((id, depth, edge) :: queue)))
    (around : ∀ edge next, edge ∈ edges ∧ follow ep id edge = some next ↔
      Leads contents ep id edge next) :
    Explored (Leads contents ep) start (enqueue ep id (depth + 1) edges visited).1
      (Frontier.depths (queue ++ (enqueue ep id (depth + 1) edges visited).2)) := by
  have entered := (enqueue_entered ep id (depth + 1) edges visited).congr fun b =>
    (exists_congr fun edge => (around edge b).symm : (∃ edge, Leads contents ep id edge b) ↔ _)
  have popped := Explored.pop explored entered
  rw [← depths_enqueue] at popped
  rw [depths_append]
  exact popped

namespace Traversed

variable {max start : Nat} {depth : Nat}

theorem late (traversed : Traversed contents ep max start visited ((id, depth, edge) :: queue))
    (deep : max ≤ depth) : Traversed contents ep max start visited queue where
  distance entry mem := traversed.distance entry (.tail _ mem)
  order := by
    right
    intro entry mem
    rcases traversed.order with explored | late
    · exact deep.trans (rel_of_pairwise_cons explored.sorted
        (mem_map_of_mem (f := fun entry => (entry.2.1, entry.1)) mem))
    · exact late entry (.tail _ mem)

theorem expand (traversed : Traversed contents ep max start visited ((id, depth, edge) :: queue))
    (early : depth < max)
    (around : ∀ edge next, edge ∈ edges ∧ follow ep id edge = some next ↔
      Leads contents ep id edge next) :
    Traversed contents ep max start (enqueue ep id (depth + 1) edges visited).1
      (queue ++ (enqueue ep id (depth + 1) edges visited).2) := by
  rcases traversed.order with explored | late
  · have explored := explored_enqueue explored around
    exact ⟨fun entry mem => explored.distance _ (mem_map_of_mem mem), .inl explored⟩
  · exact absurd (late _ mem_cons_self) (Nat.not_le.mpr early)

end Traversed

section Served

variable {graph : GraphAccess} (serves : graph.Serves contents)
include serves
variable {max : Nat}

theorem traverse_cons {late : Nat → Bool} {endVar : String} {ep : EdgePattern} {np : NodePattern}
    {min : Nat} {row : PatternMatch} {fuel counter : Nat} {queue : Frontier} {id depth : Nat}
    {edge : Edge} {node : Node} {edges : List Edge} (found : contents.nodes id = some node)
    (read : getEdgesForDirection graph id ep.direction = .ok edges) :
    traverse graph late endVar ep np min max row (fuel + 1) counter visited
        ((id, depth, edge) :: queue) = do
      checkDeadline late counter
      let next :=
        if depth < max then enqueue ep id (depth + 1) edges visited else (visited, [])
      let later ← traverse graph late endVar ep np min max row fuel (counter + 1) next.1
        (queue ++ next.2)
      let emitted :=
        if min ≤ depth ∧ depth ≤ max then variableHopRow endVar ep np row edge node else []
      return (later.1, emitted ++ later.2) := by
  have loads : graph.node id = .ok node := serves.node_eq_ok.mpr found
  rw [traverse]
  cases checkDeadline late counter with
  | error e => rfl
  | ok =>
    simp only [bind, Except.bind]
    by_cases deep : max < depth
    · have shallow : ¬(depth < max) := by omega
      have beyond : ¬(min ≤ depth ∧ depth ≤ max) := by omega
      simp only [deep, shallow, beyond, if_true, if_false, append_nil, nil_append]
      cases traverse graph late endVar ep np min max row fuel (counter + 1) visited queue <;> rfl
    · have within : depth ≤ max := by omega
      simp only [deep, if_false, loads, read, within, and_true]
      by_cases early : depth < max <;> by_cases counts : min ≤ depth <;>
        simp [early, counts, Except.toOption, enqueue]

variable {result : Nat × List PatternMatch}

/-- What a traversal finds lies within the bounds. -/
theorem traverse_arrives {late : Nat → Bool} {ep : EdgePattern} {start : Nat}
    (present : (contents.nodes start).isSome)
    (traversed : Traversed contents ep max start visited queue)
    (ran : traverse graph late endVar ep np min max row fuel counter visited queue = .ok result) :
    ∀ found ∈ result.2, Arrives contents ep np min max start endVar row found := by
  induction fuel generalizing counter visited queue result with
  | zero =>
    cases ran
    exact fun _ mem => absurd mem not_mem_nil
  | succ fuel ih =>
    match queue with
    | [] =>
      cases ran
      exact fun _ mem => absurd mem not_mem_nil
    | (id, depth, edge) :: queue =>
      have distance := traversed.distance _ mem_cons_self
      have here := reach_present present distance.reach
      obtain ⟨node, found⟩ := Option.isSome_iff_exists.mp here
      obtain ⟨edges, read, around⟩ := follow_iff_leads serves here
      rw [traverse_cons serves found read] at ran
      cases checked : checkDeadline late counter with
      | error e =>
        rw [checked] at ran
        cases ran
      | ok =>
        rw [checked] at ran
        simp only [bind, Except.bind] at ran
        split at ran
        · cases ran
        · next later finished =>
            cases ran
            intro other mem
            rcases mem_append.mp mem with first | mem
            · split at first
              · next within =>
                  unfold variableHopRow at first
                  split at first
                  · next passes =>
                      rw [mem_singleton.mp first]
                      have same : node.id = id := contents.node_id found
                      refine ⟨depth, node, ?_, within.1, within.2, ?_, passes, nodes_bindEdge _ _ _⟩
                      · rw [same]
                        exact distance
                      · rw [same]
                        exact found
                  · exact absurd first not_mem_nil
              · exact absurd first not_mem_nil
            · by_cases early : depth < max
              · simp only [early, if_true] at finished
                exact ih (traversed.expand early around) finished other mem
              · simp only [early, if_false, append_nil] at finished
                exact ih (traversed.late (not_lt.mp early)) finished other mem

theorem seeded_traversed {ep : EdgePattern} {start : Nat} {edges : List Edge}
    (present : (contents.nodes start).isSome)
    (around : ∀ edge next, edge ∈ edges ∧ follow ep start edge = some next ↔
      Leads contents ep start edge next) : let seeded := enqueue ep start 1 edges [start]
    Traversed contents ep max start seeded.1 seeded.2 ∧
      Bounded graph.nodeIds seeded.1 seeded.2.length (traversalFuel graph) := by
  have entered := enqueue_entered ep start 1 edges [start]
  have explored := (Explored.init (Leads contents ep) start).pop (entered.congr fun b =>
    (exists_congr fun edge => (around edge b).symm : (∃ edge, Leads contents ep start edge b) ↔ _))
  rw [nil_append, Nat.zero_add, ← depths_enqueue] at explored
  refine ⟨⟨fun entry mem => explored.distance _ (mem_map_of_mem mem), .inl explored⟩, ?_⟩
  have first : Bounded graph.nodeIds [start] (0 + 1) (traversalFuel graph + 1) := by
    refine ⟨nodup_singleton _, ?_, ?_⟩
    · simpa using (serves.nodeIds.mem_iff _).mpr present
    · rw [length_singleton, traversalFuel]
      omega
  have bounded := first.pop entered fun b next => by
    obtain ⟨edge, mem, leads⟩ := next
    exact (serves.nodeIds.mem_iff b).mpr ((around edge b).mp ⟨mem, leads⟩).present
  rw [Nat.zero_add, length_map] at bounded
  exact bounded

variable {start : Node} {startVar : String}

theorem expandVariableRow_arrives {late : Nat → Bool} {ep : EdgePattern}
    (bound : row.nodes startVar = some start) (there : contents.nodes start.id = some start)
    (ran : expandVariableRow graph late endVar ep np min max startVar counter row = .ok result) :
    ∀ found ∈ result.2, Arrives contents ep np min max start.id endVar row found := by
  have present : (contents.nodes start.id).isSome := Option.isSome_iff_exists.mpr ⟨_, there⟩
  have loads : graph.node start.id = .ok start := serves.node_eq_ok.mpr there
  obtain ⟨edges, read, around⟩ := follow_iff_leads serves present
  have seeded : Traversed contents ep max start.id (enqueue ep start.id 1 edges [start.id]).1
      (enqueue ep start.id 1 edges [start.id]).2 := (seeded_traversed serves present around).1
  rw [expandVariableRow, bound] at ran
  simp only [loads, read, liftGraph, Except.toOption, Option.map_some, Except.mapError, bind,
    Except.bind] at ran
  intro found mem
  by_cases zero : min = 0
  · simp only [zero, if_true] at ran
    split at ran
    · cases ran
    · next later finished =>
        cases ran
        rcases mem_append.mp mem with first | mem
        · split at first
          · next passes =>
              rw [mem_singleton.mp first]
              exact ⟨0, start, distance_start, Nat.le_of_eq zero, Nat.zero_le _, there, passes, rfl⟩
          · exact absurd first not_mem_nil
        · rw [zero]
          exact traverse_arrives serves present seeded finished found mem
  · simp only [zero, if_false] at ran
    split at ran
    · cases ran
    · next later finished =>
        cases ran
        exact traverse_arrives serves present seeded finished found mem

theorem expandVariableHop_arrives {late : Nat → Bool} {ep : EdgePattern}
    {current rows : List PatternMatch}
    (starts : ∀ row ∈ current, ∃ start, row.nodes startVar = some start ∧
      contents.nodes start.id = some start)
    (ran : expandVariableHop graph late endVar ep np min max startVar counter current = .ok rows) :
    ∀ found ∈ rows, ∃ row ∈ current, ∃ start, row.nodes startVar = some start ∧
      Arrives contents ep np min max start.id endVar row found := by
  induction current generalizing counter rows with
  | nil =>
    cases ran
    exact fun _ mem => absurd mem not_mem_nil
  | cons row rest ih =>
    rw [expandVariableHop] at ran
    obtain ⟨found, first, ran⟩ := Outcome.ok_of_bind ran
    simp only [bind, Except.bind] at ran
    split at ran
    · cases ran
    · next later finished =>
        cases ran
        intro other mem
        rcases mem_append.mp mem with here | mem
        · obtain ⟨start, bound, there⟩ := starts row mem_cons_self
          exact ⟨row, .head _, start, bound,
            expandVariableRow_arrives serves bound there first other here⟩
        · have starts' : ∀ row ∈ rest, ∃ start, row.nodes startVar = some start ∧
              contents.nodes start.id = some start :=
            fun row inside => starts row (.tail _ inside)
          obtain ⟨before, inside, arrives⟩ := ih starts' finished other mem
          exact ⟨before, .tail _ inside, arrives⟩

omit serves in
theorem discover_cons {ep : EdgePattern} {endId current : Nat} {edge : Edge} {rest : List Edge}
    {parent : Parents} {queue : List Nat} :
    discover ep endId current (edge :: rest) visited parent queue =
      match follow ep current edge with
      | some next =>
        if next ∈ visited then discover ep endId current rest visited parent queue
        else if next = endId then
          (true, next :: visited, (next, current, edge) :: parent, queue)
        else
          discover ep endId current rest (next :: visited) ((next, current, edge) :: parent)
            (queue ++ [next])
      | none => discover ep endId current rest visited parent queue := rfl

def followed (ep : EdgePattern) (id : Nat) (edges : List Edge) : List (Nat × Edge) :=
  edges.filterMap fun edge => (follow ep id edge).map (·, edge)

omit serves in
theorem discover_eq (ep : EdgePattern) (endId current depth : Nat) (edges : List Edge)
    (visited : List Nat) (parent : Parents) (queue : List (Nat × Nat)) :
    discover ep endId current edges visited parent (queue.map Prod.snd) =
      let round := enterUntil endId current depth (followed ep current edges) visited parent queue
      (round.1, round.2.1, round.2.2.1, round.2.2.2.map Prod.snd) := by
  induction edges generalizing visited parent queue with
  | nil => rfl
  | cons edge rest ih =>
    rw [discover_cons]
    cases leads : follow ep current edge with
    | none => simpa [followed, leads] using ih visited parent queue
    | some next =>
      have first : followed ep current (edge :: rest) =
          (next, edge) :: followed ep current rest := by
        simp [followed, leads]
      rw [first, enterUntil]
      dsimp only
      by_cases old : next ∈ visited
      · rw [if_pos old, if_pos old]
        exact ih visited parent queue
      · rw [if_neg old, if_neg old]
        by_cases final : next = endId
        · rw [if_pos final, if_pos final]
        · rw [if_neg final, if_neg final, ← ih, map_append]
          rfl

/-- What the edges around a node of a graph lead to. -/
def ledTo (graph : GraphAccess) (ep : EdgePattern) (id : Nat) : List (Nat × Edge) :=
  followed ep id ((getEdgesForDirection graph id ep.direction).toOption.getD [])

omit serves in
theorem searchParents_eq (ep : EdgePattern) (endId fuel : Nat) (visited : List Nat)
    (parent : Parents) (queue : List (Nat × Nat)) :
    searchParents graph ep endId fuel visited parent (queue.map Prod.snd) =
      searchUntil (ledTo graph ep) none endId fuel visited parent queue := by
  induction fuel generalizing visited parent queue with
  | zero => rfl
  | succ fuel ih =>
    match queue with
    | [] => rfl
    | (depth, current) :: queue =>
      rw [map_cons, searchParents, searchUntil, if_neg (by simp)]
      cases read : getEdgesForDirection graph current ep.direction with
      | error e =>
        have around : ledTo graph ep current = [] := by
          rw [ledTo, read]
          rfl
        rw [around]
        exact ih visited parent queue
      | ok edges =>
        have around : ledTo graph ep current = followed ep current edges := by
          rw [ledTo, read]
          rfl
        rw [around]
        dsimp only
        rw [discover_eq ep endId current depth]
        rcases enterUntil endId current depth (followed ep current edges) visited parent queue
          with ⟨_ | _, visited', parent', queue'⟩
        · exact ih visited' parent' queue'
        · rfl

theorem ledTo_iff_leads {ep : EdgePattern} (present : (contents.nodes id).isSome) (next : Nat)
    (edge : Edge) : (next, edge) ∈ ledTo graph ep id ↔ Leads contents ep id edge next := by
  obtain ⟨edges, read, around⟩ := @follow_iff_leads _ _ serves ep _ present
  rw [ledTo, read, ← around edge next]
  change (next, edge) ∈ followed ep id edges ↔ _
  simp only [followed, mem_filterMap, Option.map_eq_some_iff, Prod.mk.injEq]
  constructor
  · rintro ⟨other, mem, found, leads, rfl, rfl⟩
    exact ⟨mem, leads⟩
  · exact fun here => ⟨edge, here.1, next, here.2, rfl, rfl⟩

/-- Edges that lead from one node to another. -/
def Linked (contents : Contents) (ep : EdgePattern) : (source : Nat) → List Edge →
    (target : Nat) → Prop
  | source, [], target => source = target
  | source, edge :: rest, target =>
    Leads contents ep source edge (neighborId source edge) ∧
      Linked contents ep (neighborId source edge) rest target

omit serves in
theorem linked_of_walk {ep : EdgePattern} {target : Nat} {steps : List (Edge × Nat)}
    (walk : Walk (Leads contents ep) source steps target) :
    Linked contents ep source (steps.map Prod.fst) target := by
  induction steps generalizing source with
  | nil => exact walk
  | cons step rest ih =>
    have same := walk.1.joins.neighborId_eq
    refine ⟨?_, ?_⟩
    · rw [same]
      exact walk.1
    · rw [same]
      exact ih walk.2

omit serves in
theorem walkBack_eq (start : Nat) (parent : Parents) (fuel node : Nat) :
    walkBack start parent fuel node =
      (trail start parent fuel node).map fun steps => steps.map Prod.fst := by
  induction fuel generalizing node with
  | zero => rfl
  | succ fuel ih =>
    rw [walkBack, trail]
    split
    · rfl
    · cases parent.lookup node with
      | none => rfl
      | some before =>
        rw [Option.bind_some, Option.bind_some, ih, Option.map_map, Option.map_map]
        congr 1
        funext steps
        simp

/-- Edges that match a pattern, one after the other, with the nodes they lead to. -/
def Chained (contents : Contents) (ep : EdgePattern) : (source : Nat) → List (Edge × Node) → Prop
  | _, [] => True
  | source, (edge, node) :: rest =>
    Leads contents ep source edge node.id ∧ contents.nodes node.id = some node ∧
      Chained contents ep node.id rest

def lastNode : (start : Node) → List (Edge × Node) → Node
  | start, [] => start
  | _, (_, node) :: rest => lastNode node rest

theorem nodesAlong_ok {ep : EdgePattern} {target : Nat}
    (linked : Linked contents ep start.id edges target) : ∃ steps : List (Edge × Node),
      edges = steps.map Prod.fst ∧ nodesAlong graph start.id edges = some (steps.map Prod.snd) ∧
        Chained contents ep start.id steps ∧ (lastNode start steps).id = target := by
  induction edges generalizing start with
  | nil => exact ⟨[], rfl, rfl, trivial, linked⟩
  | cons edge rest ih =>
    obtain ⟨leads, linked⟩ := linked
    obtain ⟨node, found⟩ := Option.isSome_iff_exists.mp leads.present
    have same : node.id = neighborId start.id edge := contents.node_id found
    rw [← same] at leads found linked
    obtain ⟨steps, rels, along, chained, final⟩ := ih linked
    have loads : graph.node node.id = .ok node := serves.node_eq_ok.mpr found
    refine ⟨(edge, node) :: steps, ?_, ?_, ⟨leads, found, chained⟩, final⟩
    · rw [rels]
      rfl
    · have next : (if edge.source = start.id then edge.target else edge.source) = node.id :=
        same.symm
      rw [nodesAlong, next, loads, along]
      rfl

def PathMatch.path (m : PathMatch) : GqlPath :=
  ⟨m.start :: m.steps.map Prod.snd, m.steps.map Prod.fst⟩

/-- The path between two nodes is a chain over as many edges as the one is far from the other. -/
theorem materialiseVarlenPath_ok {ep : EdgePattern} {endId n : Nat}
    (there : contents.nodes start.id = some start)
    (distance : Distance (Leads contents ep) start.id n endId) : ∃ steps,
      materialiseVarlenPath graph start.id endId ep = some (PathMatch.path ⟨start, steps⟩) ∧
        steps.length = n ∧ Chained contents ep start.id steps ∧
          (lastNode start steps).id = endId := by
  have present : (contents.nodes start.id).isSome := Option.isSome_iff_exists.mpr ⟨_, there⟩
  have loads : graph.node start.id = .ok start := serves.node_eq_ok.mpr there
  unfold materialiseVarlenPath
  by_cases same : start.id = endId
  · subst same
    rw [if_pos rfl, loads, distance.unique distance_start]
    exact ⟨[], rfl, rfl, trivial, rfl⟩
  · rw [if_neg same]
    have answered : Answered (Leads contents ep) start.id endId none (searchUntil (ledTo graph ep)
        none endId (graph.nodeIds.length + 1) [start.id] [] [(0, start.id)]) := search_answered
      (fun n id reach => ledTo_iff_leads serves (reach_present present reach))
      (fun n id reach => (serves.nodeIds.mem_iff id).mpr (reach_present present reach)) same
      (Nat.le_succ graph.nodeIds.length)
    have searched := @searchParents_eq graph ep endId (graph.nodeIds.length + 1)
      [start.id] [] [(0, start.id)]
    rw [map_singleton] at searched
    rw [← searched] at answered
    cases entered : searchParents graph ep endId (graph.nodeIds.length + 1) [start.id] []
        [start.id] with
    | none =>
      rw [entered] at answered
      obtain ⟨l, isNone, -⟩ := answered n distance.reach
      cases isNone
    | some parent =>
      rw [entered] at answered
      obtain ⟨edges, walked, shortest, far, -⟩ := answered.trail
      have linked := linked_of_walk shortest.walk
      obtain ⟨steps, rels, along, chained, final⟩ := nodesAlong_ok serves linked
      refine ⟨steps, ?_, ?_, chained, final⟩
      · rw [Option.bind_some, reconstructVarlenPath, walkBack_eq, walked, loads]
        simp only [Except.toOption, bind, Option.bind_some, Option.map_some, along]
        rw [rels]
        rfl
      · have size := congrArg List.length rels
        rw [length_map, length_map] at size
        rw [distance.unique far, size]

end Served

end ErmyaGraph.Gql
