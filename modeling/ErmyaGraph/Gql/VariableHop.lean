import Mathlib.Data.Nat.Find
import ErmyaGraph.Gql.InlineVariable
import ErmyaGraph.Gql.PathMatched

/-! # What a hop of variable length reaches

The expansion finds a node once, over as few edges as lead there. A pattern asks
for every walk that repeats no edge. -/

namespace ErmyaGraph.Gql

variable {n min counter : Nat} {endVar startVar : String} {np : NodePattern}
  {row found : PatternMatch} {result : Nat × List PatternMatch} {node : Node}

open Search List Option Outcome

/-- A walk over a number of matching edges, none of them twice. -/
def Trail (contents : Contents) (ep : EdgePattern) (start n target : Nat) : Prop :=
  ∃ edges, Linked contents ep start edges target ∧ edges.length = n ∧ (edges.map Edge.id).Nodup

section Trails

variable {contents : Contents} {ep : EdgePattern} {start : Nat} {target : Nat}

theorem Linked.snoc {source before : Nat} {edges : List Edge} {edge : Edge}
    (linked : Linked contents ep source edges before)
    (leads : Leads contents ep before edge target) :
    Linked contents ep source (edges ++ [edge]) target := by
  induction edges generalizing source with
  | nil =>
    cases linked
    have same := leads.joins.neighborId_eq
    refine ⟨?_, same⟩
    rw [same]
    exact leads
  | cons first rest ih => exact ⟨linked.1, ih linked.2⟩

theorem Linked.reach {source m : Nat} {edges : List Edge}
    (before : Reach (Leads contents ep) start m source)
    (linked : Linked contents ep source edges target) :
    Reach (Leads contents ep) start (m + edges.length) target := by
  induction edges generalizing source m with
  | nil =>
    cases linked
    exact before
  | cons edge rest ih =>
    rw [length_cons, Nat.add_comm rest.length, ← Nat.add_assoc]
    exact ih (before.step linked.1) linked.2

theorem Trail.reach (trail : Trail contents ep start n target) :
    Reach (Leads contents ep) start n target := by
  obtain ⟨edges, linked, rfl, _⟩ := trail
  have reach := linked.reach .start
  rwa [Nat.zero_add] at reach

theorem Direction.Joins.start_mem {direction : Direction} {edge : Edge} {a b c d : Nat}
    (joins : direction.Joins edge a b) (joins' : direction.Joins edge c d) : c = a ∨ c = b := by
  unfold Direction.Joins at joins joins'
  cases direction with
  | outgoing => exact .inl (joins'.1.symm.trans joins.1)
  | incoming => exact .inl (joins'.1.symm.trans joins.1)
  | both =>
    rcases joins with here | here <;> rcases joins' with there | there
    · exact .inl (there.1.symm.trans here.1)
    · exact .inr (there.1.symm.trans here.2)
    · exact .inr (there.1.symm.trans here.2)
    · exact .inl (there.1.symm.trans here.1)

/-- An edge that leads one farther, to a node nearer than a bound. -/
def LeadsOut (contents : Contents) (ep : EdgePattern) (start n : Nat) (edge : Edge) : Prop :=
  ∃ i < n, ∃ p q, Distance (Leads contents ep) start i p ∧
    Distance (Leads contents ep) start (i + 1) q ∧ Leads contents ep p edge q

theorem exists_before (far : Distance (Leads contents ep) start (n + 1) target) :
    ∃ before edge, Distance (Leads contents ep) start n before ∧
      Leads contents ep before edge target := by
  cases far.reach with
  | @step _ before _ edge reach leads =>
    refine ⟨before, edge, ⟨reach, fun m nearer => ?_⟩, leads⟩
    exact Nat.le_of_succ_le_succ (far.least _ (nearer.step leads))

theorem exists_linked_of_distance (far : Distance (Leads contents ep) start n target) :
    ∃ edges, Linked contents ep start edges target ∧ edges.length = n ∧
      (edges.map Edge.id).Nodup ∧ ∀ edge ∈ edges, LeadsOut contents ep start n edge := by
  induction n generalizing target with
  | zero =>
    obtain rfl := far.reach.eq_start
    exact ⟨[], rfl, rfl, nodup_nil, fun _ member => absurd member not_mem_nil⟩
  | succ n ih =>
    obtain ⟨before, edge, near, leads⟩ := exists_before far
    obtain ⟨edges, linked, length, distinct, out⟩ := ih near
    refine ⟨edges ++ [edge], linked.snoc leads, by simp [length], ?_, ?_⟩
    · rw [map_append, map_singleton, ← concat_eq_append, nodup_concat]
      refine ⟨fun again => ?_, distinct⟩
      obtain ⟨other, member, same⟩ := mem_map.mp again
      obtain ⟨i, less, p, q, nearP, nearQ, leads'⟩ := out other member
      obtain rfl : other = edge := by
        have there := leads'.there
        rw [same, leads.there] at there
        exact (some.inj there).symm
      -- The ends of the last edge are farther than the nearer end of an edge before it.
      rcases leads'.joins.start_mem leads.joins with rfl | rfl
      · have equal := near.unique nearP
        omega
      · rcases leads.joins.start_mem leads'.joins with rfl | rfl
        · have equal := near.unique nearP
          omega
        · have equal := far.unique nearP
          omega
    · intro other member
      rcases mem_append.mp member with old | new
      · obtain ⟨i, less, rest⟩ := out other old
        exact ⟨i, Nat.lt_succ_of_lt less, rest⟩
      · obtain rfl := mem_singleton.mp new
        exact ⟨n, Nat.lt_succ_self n, before, target, near, far, leads⟩

theorem trail_of_distance (far : Distance (Leads contents ep) start n target) :
    Trail contents ep start n target := by
  obtain ⟨edges, linked, length, distinct, _⟩ := exists_linked_of_distance far
  exact ⟨edges, linked, length, distinct⟩

theorem exists_distance (reach : Reach (Leads contents ep) start n target) :
    ∃ m ≤ n, Distance (Leads contents ep) start m target := by
  classical
  have some : ∃ m, Reach (Leads contents ep) start m target := ⟨n, reach⟩
  exact ⟨Nat.find some, Nat.find_min' some reach, Nat.find_spec some,
    fun m other => Nat.find_min' some other⟩

end Trails

/-- A traversal that has seen, or has in its queue, every node up to the greatest depth. -/
structure Sweeps (contents : Contents) (ep : EdgePattern) (max start : Nat)
    (visited : List Nat) (queue : Frontier) : Prop where
  traversed : Traversed contents ep max start visited queue
  covers : Explored (Leads contents ep) start visited queue.depths ∨
    (∀ entry ∈ queue, max ≤ entry.2.1) ∧
      ∀ n id, Reach (Leads contents ep) start n id → n ≤ max → id ∈ visited

namespace Sweeps

variable {contents : Contents} {ep : EdgePattern} {max start : Nat} {visited : List Nat}
  {queue : Frontier} {id depth : Nat} {edge : Edge}

theorem late (sweeps : Sweeps contents ep max start visited ((id, depth, edge) :: queue))
    (deep : max ≤ depth) : Sweeps contents ep max start visited queue where
  traversed := sweeps.traversed.late deep
  covers := by
    right
    rcases sweeps.covers with explored | ⟨late, seen⟩
    · refine ⟨fun entry member => ?_, fun n other reach near => ?_⟩
      · exact deep.trans (rel_of_pairwise_cons explored.sorted
          (mem_map_of_mem (f := fun entry => (entry.2.1, entry.1)) member))
      · exact explored.mem_visited_of_le reach (near.trans deep)
    · exact ⟨fun entry member => late entry (.tail _ member), seen⟩

theorem expand (sweeps : Sweeps contents ep max start visited ((id, depth, edge) :: queue))
    (early : depth < max) {edges : List Edge}
    (around : ∀ edge next, edge ∈ edges ∧ follow ep id edge = some next ↔
      Leads contents ep id edge next) :
    Sweeps contents ep max start (enqueue ep id (depth + 1) edges visited).1
      (queue ++ (enqueue ep id (depth + 1) edges visited).2) where
  traversed := sweeps.traversed.expand early around
  covers := by
    left
    rcases sweeps.covers with explored | ⟨late, _⟩
    · exact explored_enqueue explored around
    · exact absurd (late _ mem_cons_self) (Nat.not_le.mpr early)

theorem done (sweeps : Sweeps contents ep max start visited [])
    (reach : Reach (Leads contents ep) start n id) (near : n ≤ max) : id ∈ visited := by
  rcases sweeps.covers with explored | ⟨_, seen⟩
  · exact explored.mem_visited_of_reach reach
  · exact seen n id reach near

end Sweeps

theorem PatternMatch.nodes_bindNode_self (row : PatternMatch) (var : String) (node : Node) :
    (row.bindNode var node).nodes var = some node := Function.update_self _ _ _

theorem checkDeadline_ok (late : Nat → Bool) (counter : Nat) :
    checkDeadline late counter = .ok () ∨
      late counter = true ∧ checkDeadline late counter = .error timeoutError := by
  unfold checkDeadline
  split
  · exact .inl rfl
  · cases passed : late counter with
    | false => exact .inl rfl
    | true => exact .inr ⟨rfl, rfl⟩

/-- An expansion gives a result, unless the clock stops it. -/
def Answered {α : Type} (late : Nat → Bool) (answer : Except GqlError α) : Prop :=
  (∃ result, answer = .ok result) ∨ (∃ round, late round = true) ∧ answer = .error timeoutError

theorem Answered.map {α β : Type} {late : Nat → Bool} {answer : Except GqlError α}
    (answered : Answered late answer) (f : α → β) :
    Answered late (answer >>= fun result => .ok (f result)) := by
  rcases answered with ⟨result, rfl⟩ | ⟨passed, rfl⟩
  · exact .inl ⟨f result, rfl⟩
  · exact .inr ⟨passed, rfl⟩

variable {graph : GraphAccess} {ep : EdgePattern} {max : Nat}

theorem traverse_answered {late : Nat → Bool} (fuel counter : Nat) (visited : List Nat)
    (queue : Frontier) :
    Answered late (traverse graph late endVar ep np min max row fuel counter visited queue) := by
  induction fuel generalizing counter visited queue with
  | zero => exact .inl ⟨_, rfl⟩
  | succ fuel ih =>
    match queue with
    | [] => exact .inl ⟨_, rfl⟩
    | (id, depth, edge) :: queue =>
      rw [traverse]
      rcases checkDeadline_ok late counter with within | ⟨passed, stopped⟩
      · rw [within]
        by_cases deep : max < depth
        · simp only [deep, if_true, bind, Except.bind]
          exact ih _ _ _
        · simp only [deep, if_false, bind, Except.bind]
          split
          · exact ih _ _ _
          · exact (ih _ _ _).map _
          · exact (ih _ _ _).map _
      · rw [stopped]
        exact .inr ⟨⟨counter, passed⟩, rfl⟩

section Served

variable {contents : Contents} (serves : graph.Serves contents)
include serves
/-- A traversal finds every node within the bounds that is still to be seen or in the queue. -/
theorem traverse_finds {late : Nat → Bool} {max : Nat} {start : Nat}
    (present : (contents.nodes start).isSome) {fuel : Nat} {visited : List Nat} {queue : Frontier}
    (sweeps : Sweeps contents ep max start visited queue)
    (bounded : Bounded graph.nodeIds visited queue.length fuel)
    (ran : traverse graph late endVar ep np min max row fuel counter visited queue = .ok result)
    (far : Distance (Leads contents ep) start n node.id) (least : min ≤ n) (most : n ≤ max)
    (there : contents.nodes node.id = some node) (passes : nodeMatchesPattern node np)
    (waits : node.id ∉ visited ∨ ∃ entry ∈ queue, entry.1 = node.id) :
    ∃ found ∈ result.2, found.nodes endVar = some node := by
  have nothing {seen : List Nat} (sweeps : Sweeps contents ep max start seen [])
      (waits : node.id ∉ seen ∨ ∃ entry ∈ ([] : Frontier), entry.1 = node.id) : False := by
    rcases waits with unseen | ⟨entry, member, _⟩
    · exact unseen (sweeps.done far.reach most)
    · exact absurd member not_mem_nil
  induction fuel generalizing counter visited queue result with
  | zero =>
    obtain rfl : queue = [] := length_eq_zero_iff.mp (by have := bounded.rounds; omega)
    exact (nothing sweeps waits).elim
  | succ fuel ih =>
    match queue with
    | [] => exact (nothing sweeps waits).elim
    | (id, depth, edge) :: queue =>
      have distance := sweeps.traversed.distance _ mem_cons_self
      have here := reach_present present distance.reach
      obtain ⟨front, loads⟩ := isSome_iff_exists.mp here
      obtain ⟨edges, read, around⟩ := follow_iff_leads serves here
      rw [traverse_cons serves loads read] at ran
      obtain ⟨_, _, ran⟩ := ok_of_bind ran
      obtain ⟨later, finished, ran⟩ := ok_of_bind ran
      cases ran
      by_cases same : id = node.id
      · subst same
        obtain rfl : depth = n := distance.unique far
        obtain rfl : front = node := some.inj (loads.symm.trans there)
        refine ⟨(row.bindNode endVar front).bindEdge ep.var edge, mem_append_left _ ?_, ?_⟩
        · simp [least, most, variableHopRow, passes]
        · rw [nodes_bindEdge]
          exact row.nodes_bindNode_self endVar front
      · have waits' : node.id ∉ visited ∨ ∃ entry ∈ queue, entry.1 = node.id := by
          rcases waits with unseen | ⟨entry, member, is⟩
          · exact .inl unseen
          · rcases mem_cons.mp member with rfl | inside
            · exact absurd is same
            · exact .inr ⟨entry, inside, is⟩
        have rest : ∃ found ∈ later.2, found.nodes endVar = some node := by
          by_cases early : depth < max
          · simp only [early, if_true] at finished
            have entered := enqueue_entered ep id (depth + 1) edges visited
            have popped := Bounded.pop bounded entered fun b next => by
              obtain ⟨edge, member, leads⟩ := next
              exact (serves.nodeIds.mem_iff b).mpr ((around edge b).mp ⟨member, leads⟩).present
            rw [length_map, ← length_append] at popped
            apply ih (sweeps.expand early around) popped finished
            rcases waits' with unseen | ⟨entry, inside, is⟩
            · by_cases seen : node.id ∈ (enqueue ep id (depth + 1) edges visited).1
              · have next := ((entered.mem_iff node.id).mp seen).resolve_left unseen
                obtain ⟨entry, inside, is⟩ :=
                  mem_map.mp ((entered.new_iff node.id).mpr ⟨next, unseen⟩)
                exact .inr ⟨entry, mem_append_right _ inside, is⟩
              · exact .inl seen
            · exact .inr ⟨entry, mem_append_left _ inside, is⟩
          · simp only [early, if_false, append_nil] at finished
            have rounds := bounded.rounds
            rw [length_cons] at rounds
            exact ih (sweeps.late (not_lt.mp early))
              ⟨bounded.nodup, bounded.subset, by omega⟩ finished waits'
        obtain ⟨found, member, binds⟩ := rest
        exact ⟨found, mem_append_right _ member, binds⟩

/-- The expansion of a row finds every node whose distance is within the bounds. -/
theorem expandVariableRow_finds {late : Nat → Bool} {max : Nat} {start : Node}
    (bound : row.nodes startVar = some start) (start_there : contents.nodes start.id = some start)
    (ran : expandVariableRow graph late endVar ep np min max startVar counter row = .ok result)
    (far : Distance (Leads contents ep) start.id n node.id) (least : min ≤ n) (most : n ≤ max)
    (there : contents.nodes node.id = some node) (passes : nodeMatchesPattern node np) :
    ∃ found ∈ result.2, found.nodes endVar = some node := by
  have present : (contents.nodes start.id).isSome := isSome_iff_exists.mpr ⟨_, start_there⟩
  have loads : graph.node start.id = .ok start := serves.node_eq_ok.mpr start_there
  obtain ⟨edges, read, around⟩ := follow_iff_leads serves present
  obtain ⟨traversed, bounded⟩ := @seeded_traversed _ _ serves max ep start.id edges present around
  have entered := enqueue_entered ep start.id 1 edges [start.id]
  have sweeps : Sweeps contents ep max start.id (enqueue ep start.id 1 edges [start.id]).1
      (enqueue ep start.id 1 edges [start.id]).2 := by
    refine ⟨traversed, .inl ?_⟩
    have explored := (Explored.init (Leads contents ep) start.id).pop (entered.congr fun b =>
      (exists_congr fun edge => (around edge b).symm :
        (∃ edge, Leads contents ep start.id edge b) ↔ _))
    rwa [nil_append, Nat.zero_add, ← depths_enqueue] at explored
  rw [expandVariableRow, bound] at ran
  simp only [loads, read, liftGraph, Except.toOption, map_some, Except.mapError] at ran
  by_cases zero : n = 0
  · subst zero
    obtain same := far.reach.eq_start
    obtain rfl : start = node := by
      rw [same, start_there] at there
      exact some.inj there
    simp only [Nat.le_zero.mp least, if_true] at ran
    obtain ⟨_, _, ran⟩ := ok_of_bind ran
    obtain ⟨later, finished, ran⟩ := ok_of_bind ran
    cases ran
    refine ⟨row.bindNode endVar start, mem_append_left _ ?_, row.nodes_bindNode_self endVar start⟩
    rw [if_pos passes]
    exact mem_singleton_self _
  · have waits : node.id ∉ (enqueue ep start.id 1 edges [start.id]).1 ∨
        ∃ entry ∈ (enqueue ep start.id 1 edges [start.id]).2, entry.1 = node.id := by
      by_cases seen : node.id ∈ (enqueue ep start.id 1 edges [start.id]).1
      · right
        have unseen : node.id ∉ [start.id] := by
          rw [mem_singleton]
          intro same
          rw [same] at far
          exact zero (far.unique distance_start)
        have next := ((entered.mem_iff node.id).mp seen).resolve_left unseen
        exact mem_map.mp ((entered.new_iff node.id).mpr ⟨next, unseen⟩)
      · exact .inl seen
    have found (later : Nat × List PatternMatch) (finished : traverse graph late endVar ep np min
        max row (traversalFuel graph) counter (enqueue ep start.id 1 edges [start.id]).1
          (enqueue ep start.id 1 edges [start.id]).2 = .ok later) :=
      traverse_finds serves present sweeps bounded finished far least most there passes waits
    by_cases none : min = 0
    · simp only [none, if_true] at ran
      obtain ⟨_, read', ran⟩ := ok_of_bind ran
      cases read'
      obtain ⟨later, finished, ran⟩ := ok_of_bind ran
      cases ran
      rw [← none] at finished
      obtain ⟨other, member, binds⟩ := found later finished
      exact ⟨other, mem_append_right _ member, binds⟩
    · simp only [none, if_false] at ran
      obtain ⟨_, read', ran⟩ := ok_of_bind ran
      cases read'
      obtain ⟨later, finished, ran⟩ := ok_of_bind ran
      cases ran
      exact found later finished

end Served

/-- A node that matches and that a walk within the bounds ends at. -/
structure EndsAt (contents : Contents) (ep : EdgePattern) (np : NodePattern) (min max start : Nat)
    (node : Node) : Prop where
  there : contents.nodes node.id = some node
  passes : nodeMatchesPattern node np
  trail : ∃ n, min ≤ n ∧ n ≤ max ∧ Trail contents ep start n node.id

/-- The rows of a hop from a row bind the end variable to the nodes that a walk within the bounds
ends at, and keep every other variable but that of the edge. -/
structure HopExact (contents : Contents) (ep : EdgePattern) (np : NodePattern)
    (min max start : Nat) (endVar : String) (row : PatternMatch) (rows : List PatternMatch) :
    Prop where
  ends : ∀ node, (∃ found ∈ rows, found.nodes endVar = some node) ↔
    EndsAt contents ep np min max start node
  nodes : ∀ found ∈ rows, ∀ var, var ≠ endVar → found.nodes var = row.nodes var
  edges : ∀ found ∈ rows, ∀ var, ep.var ≠ some var → found.edges var = row.edges var

def Extends (endVar : String) (edgeVar : Option String) (row found : PatternMatch) : Prop :=
  ∃ arrival, found = row.arrive endVar edgeVar arrival

variable {edgeVar : Option String}

theorem Extends.nodes (extended : Extends endVar edgeVar row found) {var : String}
    (other : var ≠ endVar) : found.nodes var = row.nodes var := by
  obtain ⟨arrival, rfl⟩ := extended
  rw [nodes_arrive]
  exact Function.update_of_ne other _ _

theorem Extends.edges (extended : Extends endVar edgeVar row found) {var : String}
    (other : edgeVar ≠ some var) : found.edges var = row.edges var := by
  obtain ⟨⟨node, edge⟩, rfl⟩ := extended
  cases edge with
  | none => rfl
  | some edge =>
    cases edgeVar with
    | none => rfl
    | some x => exact Function.update_of_ne (fun same => other (congrArg some same.symm)) _ _

theorem extends_variableHopRow {edge : Edge}
    (member : found ∈ variableHopRow endVar ep np row edge node) :
    Extends endVar ep.var row found := by
  unfold variableHopRow at member
  split at member
  · exact ⟨(node, some edge), mem_singleton.mp member⟩
  · exact absurd member not_mem_nil

theorem traverse_extends {late : Nat → Bool} {fuel : Nat} {visited : List Nat} {queue : Frontier}
    (ran : traverse graph late endVar ep np min max row fuel counter visited queue = .ok result) :
    ∀ found ∈ result.2, Extends endVar ep.var row found := by
  induction fuel generalizing counter visited queue result with
  | zero =>
    cases ran
    exact fun _ member => absurd member not_mem_nil
  | succ fuel ih =>
    match queue with
    | [] =>
      cases ran
      exact fun _ member => absurd member not_mem_nil
    | (id, depth, edge) :: queue =>
      rw [traverse] at ran
      obtain ⟨_, _, ran⟩ := ok_of_bind ran
      split at ran
      · exact ih ran
      · have emitted {rows : List PatternMatch} (emits : (if min ≤ depth then
            (graph.node id).toOption.map (variableHopRow endVar ep np row edge)
            else some []) = some rows) : ∀ found ∈ rows, Extends endVar ep.var row found := by
          intro found member
          split at emits
          · obtain ⟨node, _, rfl⟩ := map_eq_some_iff.mp emits
            exact extends_variableHopRow member
          · cases emits
            exact absurd member not_mem_nil
        dsimp only at ran
        split at ran
        · exact ih ran
        · next emits _ =>
            obtain ⟨later, finished, ran⟩ := ok_of_bind ran
            cases ran
            intro found member
            rcases mem_append.mp member with first | member
            · exact emitted emits found first
            · exact ih finished found member
        · next emits _ =>
            obtain ⟨later, finished, ran⟩ := ok_of_bind ran
            cases ran
            intro found member
            rcases mem_append.mp member with first | member
            · exact emitted emits found first
            · exact ih finished found member

theorem expandVariableRow_extends {late : Nat → Bool}
    (ran : expandVariableRow graph late endVar ep np min max startVar counter row = .ok result) :
    ∀ found ∈ result.2, Extends endVar ep.var row found := by
  unfold expandVariableRow at ran
  split at ran
  · cases ran
    exact fun _ member => absurd member not_mem_nil
  · next start _ =>
      dsimp only at ran
      split at ran
      · cases ran
        exact fun _ member => absurd member not_mem_nil
      · next zeroth zeroths =>
          obtain ⟨_, _, ran⟩ := ok_of_bind ran
          obtain ⟨later, finished, ran⟩ := ok_of_bind ran
          cases ran
          intro found member
          rcases mem_append.mp member with first | member
          · split at zeroths
            · obtain ⟨node, _, rfl⟩ := map_eq_some_iff.mp zeroths
              split at first
              · exact ⟨(node, none), mem_singleton.mp first⟩
              · exact absurd first not_mem_nil
            · cases zeroths
              exact absurd first not_mem_nil
          · exact traverse_extends finished found member

section Served

variable {contents : Contents} (serves : graph.Serves contents)
include serves

theorem expandVariableRow_answered {late : Nat → Bool} {ep : EdgePattern} {max : Nat} {start : Node}
    (bound : row.nodes startVar = some start) (there : contents.nodes start.id = some start) :
    Answered late (expandVariableRow graph late endVar ep np min max startVar counter row) := by
  have present : (contents.nodes start.id).isSome := isSome_iff_exists.mpr ⟨_, there⟩
  have loads : graph.node start.id = .ok start := serves.node_eq_ok.mpr there
  obtain ⟨edges, read, _⟩ := getEdgesForDirection_ok serves present ep.direction
  rw [expandVariableRow, bound]
  simp only [loads, read, liftGraph, Except.toOption, map_some, Except.mapError]
  split
  · exact .inl ⟨_, rfl⟩
  · exact (traverse_answered _ _ _ _).map _

/-- A hop gives exactly what its pattern asks for when no node that a walk within the bounds ends
at is nearer than the lower bound. -/
theorem expandVariableHop_exact {late : Nat → Bool} {startVar endVar : String} {ep : EdgePattern}
    {np : NodePattern} {min max counter : Nat} {row : PatternMatch} {start : Node}
    (bound : row.nodes startVar = some start) (there : contents.nodes start.id = some start) :
    (∃ round, late round = true) ∧
      expandVariableHop graph late endVar ep np min max startVar counter [row] =
        .error timeoutError ∨
    ∃ rows, expandVariableHop graph late endVar ep np min max startVar counter [row] = .ok rows ∧
      (HopExact contents ep np min max start.id endVar row rows ↔
        ∀ node, EndsAt contents ep np min max start.id node →
          ∀ n, Reach (Leads contents ep) start.id n node.id → min ≤ n) := by
  rw [expandVariableHop]
  rcases expandVariableRow_answered serves bound there with ⟨result, ran⟩ | ⟨passed, stopped⟩
  · right
    have arrives := expandVariableRow_arrives serves bound there ran
    have extended := expandVariableRow_extends ran
    refine ⟨result.2, by rw [ran]; simp [bind, Except.bind, expandVariableHop]; rfl, ?_⟩
    -- A row is found for the nodes whose distance is within the bounds, and for no others.
    have found_iff : ∀ node, (∃ found ∈ result.2, found.nodes endVar = some node) ↔
        contents.nodes node.id = some node ∧ nodeMatchesPattern node np ∧
          ∃ n, min ≤ n ∧ n ≤ max ∧ Distance (Leads contents ep) start.id n node.id := by
      intro node
      constructor
      · intro found
        obtain ⟨found, member, binds⟩ := found
        obtain ⟨n, other, far, least, most, stands, passes, nodes⟩ := arrives found member
        obtain rfl : other = node := by
          rw [nodes] at binds
          exact some.inj ((row.nodes_bindNode_self endVar other).symm.trans binds)
        exact ⟨stands, passes, n, least, most, far⟩
      · intro ends
        obtain ⟨stands, passes, n, least, most, far⟩ := ends
        exact expandVariableRow_finds serves bound there ran far least most stands passes
    constructor
    · intro exact node ends n reach
      obtain ⟨_, _, m, least, _, far⟩ := (found_iff node).mp ((exact.ends node).mpr ends)
      exact least.trans (far.least n reach)
    · intro nearest
      refine ⟨fun node => (found_iff node).trans ?_, fun found member var other =>
        (extended found member).nodes other, fun found member var other =>
        (extended found member).edges other⟩
      constructor
      · intro found
        obtain ⟨stands, passes, n, least, most, far⟩ := found
        exact ⟨stands, passes, n, least, most, trail_of_distance far⟩
      · intro ends
        obtain ⟨n, _, most, trail⟩ := ends.trail
        obtain ⟨m, less, far⟩ := exists_distance trail.reach
        exact ⟨ends.there, ends.passes, m, nearest node ends m far.reach, less.trans most, far⟩
  · left
    exact ⟨passed, by rw [stopped]; rfl⟩

end Served

def fromFirst : PatternMatch := PatternMatch.bindNode {} "a" ⟨1, "N", .empty, {}⟩

/-- Up to two edges from the first node. -/
theorem expandVariableHop_exact_upToTwo : ∃ rows,
    expandVariableHop triangle.access inTime "c" {} {} 0 2 "a" 0 [fromFirst] = .ok rows ∧
      HopExact triangle.contents {} {} 0 2 1 "c" fromFirst rows := by
  have bound := PatternMatch.nodes_bindNode_self {} "a" ⟨1, "N", .empty, {}⟩
  rcases @expandVariableHop_exact _ _ triangle.serves inTime "a" "c" {} {} 0 2 0 fromFirst _
    bound rfl with stopped | answered
  · obtain ⟨⟨_, passed⟩, _⟩ := stopped
    cases passed
  · obtain ⟨rows, ran, exact⟩ := answered
    exact ⟨rows, ran, exact.mpr fun _ _ n _ => Nat.zero_le n⟩

/-- Two edges lead from the first node to the third, but so does one, and the hop finds nothing. -/
theorem two_edges_not_found : ∃ rows,
    expandVariableHop triangle.access inTime "c" {} {} 2 2 "a" 0 [fromFirst] = .ok rows ∧
      ¬HopExact triangle.contents {} {} 2 2 1 "c" fromFirst rows := by
  have none : (expandVariableHop triangle.access inTime "c" {} {} 2 2 "a" 0
      [fromFirst]).toOption.map List.length = some 0 := by
    decide +kernel
  cases ran : expandVariableHop triangle.access inTime "c" {} {} 2 2 "a" 0 [fromFirst] with
  | error e =>
    rw [ran] at none
    cases none
  | ok rows =>
    rw [ran] at none
    obtain rfl : rows = [] := length_eq_zero_iff.mp (some.inj none)
    refine ⟨[], rfl, fun exact => ?_⟩
    have first : Leads triangle.contents {} 1 ⟨1, "X", 1, 2, .empty⟩ 2 := ⟨rfl, rfl, rfl, rfl⟩
    have second : Leads triangle.contents {} 2 ⟨2, "Y", 2, 3, .empty⟩ 3 := ⟨rfl, rfl, rfl, rfl⟩
    have trail : Trail triangle.contents {} 1 2 3 :=
      ⟨[⟨1, "X", 1, 2, .empty⟩, ⟨2, "Y", 2, 3, .empty⟩], ⟨first, second, rfl⟩, rfl, by decide⟩
    obtain ⟨_, member, _⟩ := (exact.ends ⟨3, "N", .empty, {}⟩).mpr
      ⟨rfl, rfl, 2, Nat.le_refl 2, Nat.le_refl 2, trail⟩
    exact absurd member not_mem_nil

end ErmyaGraph.Gql
