import ErmyaGraph.Gql.ShortestPath
import ErmyaGraph.Query.Neighbors

/-! # Shortest paths

A path with the fewest edges between two nodes is searched for breadth first, by a query of its own
and inside of expressions. All of these searches are the search for a goal. -/

namespace ErmyaGraph.Query

variable {start goal : Nat}

open Gql Search List

/-- What a search ends with. A path that cannot be followed back to its start is incomplete. -/
inductive Found where
  | unreachable
  | path (path : Path)
  | incomplete
deriving DecidableEq, Repr

/-- Neighbours that are not visited yet join the queue, until the goal is one of them. -/
def enterNeighbors (goal current : Nat) : List (Nat × Nat) → (visited : List Nat) →
    Entries Nat Nat → (queue : List Nat) → Bool × List Nat × Entries Nat Nat × List Nat
  | [], visited, parent, queue => (false, visited, parent, queue)
  | (neighbor, edge) :: rest, visited, parent, queue =>
    if neighbor ∈ visited then enterNeighbors goal current rest visited parent queue
    else if neighbor = goal then
      (true, neighbor :: visited, (neighbor, current, edge) :: parent, queue)
    else
      enterNeighbors goal current rest (neighbor :: visited)
        ((neighbor, current, edge) :: parent) (queue ++ [neighbor])

def findParents (neighbors : Nat → Except Error (List (Nat × Nat))) (goal : Nat) : (fuel : Nat) →
    (visited : List Nat) → Entries Nat Nat → (queue : List Nat) →
    Except Error (Option (Entries Nat Nat))
  | 0, _, _, _ => .ok none
  | _ + 1, _, _, [] => .ok none
  | fuel + 1, visited, parent, current :: queue => do
    let around ← neighbors current
    match enterNeighbors goal current around visited parent queue with
    | (true, _, parent, _) => return some parent
    | (false, visited, parent, queue) => findParents neighbors goal fuel visited parent queue

/-- The segments from a node back to the start. -/
def segmentsTo (start : Nat) (parent : Entries Nat Nat) : (fuel : Nat) → (current : Nat) →
    Option (List (Nat × Nat))
  | 0, _ => none
  | fuel + 1, current =>
    if current = start then some []
    else
      (parent.lookup current).bind fun before =>
        (segmentsTo start parent fuel before.1).map fun segments =>
          (current, before.2) :: segments

def reconstructPath (start goal : Nat) (parent : Entries Nat Nat) : Option Path :=
  (segmentsTo start parent (parent.length + 1) goal).map fun segments =>
    segments.reverse.foldl (fun path segment => path.push segment.1 segment.2) (.single start)

/-- The query: a path with the fewest edges. -/
def find (graph : GraphAccess) (start goal : Nat) (direction : Direction)
    (label : Option String) : Except Error Found := do
  if !graph.nodeExists start then throw (.nodeNotFound start)
  if !graph.nodeExists goal then throw (.nodeNotFound goal)
  if start = goal then return .path (.single start)
  let found ← findParents (filteredNeighbors graph direction label) goal
    (graph.nodeIds.length + 1) [start] [] [start]
  match found with
  | some parent => return (reconstructPath start goal parent).elim .incomplete .path
  | none => return .unreachable

theorem enterNeighbors_eq (goal current depth : Nat) (around : List (Nat × Nat))
    (visited : List Nat) (parent : Entries Nat Nat) (queue : List (Nat × Nat)) :
    enterNeighbors goal current around visited parent (queue.map Prod.snd) =
      let round := enterUntil goal current depth around visited parent queue
      (round.1, round.2.1, round.2.2.1, round.2.2.2.map Prod.snd) := by
  induction around generalizing visited parent queue with
  | nil => rfl
  | cons entry rest ih =>
    obtain ⟨neighbor, edge⟩ := entry
    rw [enterNeighbors, enterUntil]
    split
    · exact ih visited parent queue
    · split
      · rfl
      · rw [← ih, map_append]
        rfl

variable {next : Nat → List (Nat × Nat)}

theorem findParents_eq {neighbors : Nat → Except Error (List (Nat × Nat))} {readable : Nat → Prop}
    (reads : ∀ id, readable id → neighbors id = .ok (next id))
    (closed : ∀ id, readable id → ∀ entry ∈ next id, readable entry.1) (goal fuel : Nat)
    (visited : List Nat) (parent : Entries Nat Nat) (queue : List (Nat × Nat))
    (queued : ∀ entry ∈ queue, readable entry.2) :
    findParents neighbors goal fuel visited parent (queue.map Prod.snd) =
      .ok (searchUntil next none goal fuel visited parent queue) := by
  induction fuel generalizing visited parent queue with
  | zero => rfl
  | succ fuel ih =>
    match queue with
    | [] => rfl
    | (depth, current) :: queue =>
      have here : readable current := queued _ mem_cons_self
      have within : ∀ entry ∈ (enterUntil goal current depth (next current) visited parent
          queue).2.2.2, readable entry.2 := by
        intro entry mem
        rcases mem_enterUntil mem with old | ⟨edge, around⟩
        · exact queued entry (.tail _ old)
        · exact closed current here _ around
      rw [map_cons, findParents, searchUntil, if_neg (by simp), reads current here]
      simp only [bind, Except.bind]
      rw [enterNeighbors_eq goal current depth]
      revert within
      rcases enterUntil goal current depth (next current) visited parent queue
        with ⟨_ | _, visited', parent', queue'⟩
      · exact fun within => ih visited' parent' queue' within
      · exact fun _ => rfl

theorem segmentsTo_eq (start : Nat) (parent : Entries Nat Nat) (fuel node : Nat) :
    segmentsTo start parent fuel node = (trail start parent fuel node).map fun steps =>
      steps.reverse.map Prod.swap := by
  induction fuel generalizing node with
  | zero => rfl
  | succ fuel ih =>
    rw [segmentsTo, trail]
    split
    · rfl
    · cases parent.lookup node with
      | none => rfl
      | some before =>
        rw [Option.bind_some, Option.bind_some, ih, Option.map_map, Option.map_map]
        congr 1
        funext steps
        simp

theorem foldl_push (start : Nat) (before steps : List (Nat × Nat)) :
    (steps.map Prod.swap).foldl (fun path segment => path.push segment.1 segment.2)
      (Path.along start before) = Path.along start (before ++ steps) := by
  induction steps generalizing before with
  | nil => rw [append_nil]; rfl
  | cons step rest ih =>
    rw [map_cons, foldl_cons, Prod.fst_swap, Prod.snd_swap, Path.push_along, ih, append_assoc]
    rfl

variable {parent : Entries Nat Nat} {steps : List (Nat × Nat)}

theorem reconstructPath_eq (found : trail start parent (parent.length + 1) goal = some steps) :
    reconstructPath start goal parent = some (.along start steps) := by
  have pushed := foldl_push start [] steps
  rw [reconstructPath, segmentsTo_eq, found, Option.map_some, Option.map_some]
  rw [← map_reverse, reverse_reverse]
  exact congrArg some pushed

def parentsOf (entries : Entries Nat Nat) : List (Nat × Nat) :=
  entries.map fun entry => (entry.1, entry.2.1)

theorem visitNeighbors_eq (goal current depth : Nat) (around : List (Nat × Nat))
    (visited : List Nat) (parent : Entries Nat Nat) (queue : List (Nat × Nat)) :
    visitNeighbors goal current depth (around.map Prod.fst) visited (parentsOf parent)
        (queue.map Prod.swap) =
      let round := enterUntil goal current depth around visited parent queue
      (round.1, round.2.1, parentsOf round.2.2.1, round.2.2.2.map Prod.swap) := by
  induction around generalizing visited parent queue with
  | nil => rfl
  | cons entry rest ih =>
    obtain ⟨neighbor, edge⟩ := entry
    rw [map_cons, visitNeighbors, enterUntil]
    split
    · exact ih visited parent queue
    · split
      · rfl
      · rw [← ih, map_append]
        rfl

variable {neighbors : Nat → List Nat}

theorem searchGoal_eq (same : ∀ id, neighbors id = (next id).map Prod.fst) (limit : Option Nat)
    (goal fuel : Nat) (visited : List Nat) (parent : Entries Nat Nat) (queue : List (Nat × Nat)) :
    searchGoal neighbors limit goal fuel visited (parentsOf parent) (queue.map Prod.swap) =
      (searchUntil next limit goal fuel visited parent queue).map parentsOf := by
  induction fuel generalizing visited parent queue with
  | zero => rfl
  | succ fuel ih =>
    match queue with
    | [] => rfl
    | (depth, current) :: queue =>
      rw [map_cons, Prod.swap_prod_mk, searchGoal, searchUntil, same]
      split
      · exact ih visited parent queue
      · rw [visitNeighbors_eq goal current depth]
        rcases enterUntil goal current depth (next current) visited parent queue
          with ⟨_ | _, visited', parent', queue'⟩
        · exact ih visited' parent' queue'
        · rfl

theorem lookup_parentsOf (parent : Entries Nat Nat) (node : Nat) :
    (parentsOf parent).lookup node = (parent.lookup node).map Prod.fst := by
  induction parent with
  | nil => rfl
  | cons entry rest ih =>
    obtain ⟨other, before, edge⟩ := entry
    change List.lookup node ((other, before) :: parentsOf rest) = _
    rw [lookup_cons, lookup_cons, ih]
    cases node == other <;> rfl

theorem idsTo_eq {fuel node : Nat} (found : trail start parent fuel node = some steps) :
    idsTo start (parentsOf parent) fuel node = walkNodes start steps := by
  induction fuel generalizing node steps with
  | zero => cases found
  | succ fuel ih =>
    rw [trail] at found
    rw [idsTo]
    split at found
    · next home =>
      rw [if_pos home, ← Option.some.inj found]
      rfl
    · next away =>
      rw [if_neg away, lookup_parentsOf]
      cases known : parent.lookup node with
      | none =>
        rw [known] at found
        cases found
      | some before =>
        rw [known, Option.bind_some, Option.map_eq_some_iff] at found
        obtain ⟨earlier, walked, rfl⟩ := found
        rw [Option.map_some, Option.elim_some, ih walked]
        simp [walkNodes]

theorem searchIds_finds {leads : Nat → Nat → Nat → Prop} (next : Nat → List (Nat × Nat))
    (same : ∀ id, neighbors id = (next id).map Prod.fst) {all : List Nat} {limit : Option Nat}
    (around : ∀ n a, Reach leads start n a → ∀ b e, (b, e) ∈ next a ↔ leads a e b)
    (within : ∀ n a, Reach leads start n a → a ∈ all) :
    FindsShortest leads limit start goal (walkNodes start)
      (searchIds neighbors limit all.length start goal) := by
  rw [searchIds]
  by_cases home : start = goal
  · subst home
    rw [if_pos rfl]
    exact findsShortest_start limit (walkNodes start)
  · have answered : Answered leads start goal limit _ :=
      search_answered around within home (Nat.le_succ all.length)
    have searched := searchGoal_eq same limit goal (all.length + 1) [start] [] [(0, start)]
    rw [map_singleton] at searched
    change searchGoal neighbors limit goal (all.length + 1) [start] [] [(start, 0)] = _ at searched
    rw [if_neg home, searched, Option.map_map]
    refine answered.finds fun entries steps found => ?_
    have length : (parentsOf entries).length = entries.length := length_map ..
    rw [Function.comp_apply, length]
    exact idsTo_eq found

section Served

variable {graph : GraphAccess} {contents : Contents} (serves : graph.Serves contents)
include serves

theorem exists_next (direction : Direction) (label : Option String) :
    ∃ next : Nat → List (Nat × Nat), ∀ id, (contents.nodes id).isSome →
      filteredNeighbors graph direction label id = .ok (next id) ∧
        ∀ b e, (b, e) ∈ next id ↔ Allowed contents direction label id e b := by
  have each (id : Nat) : ∃ around, (contents.nodes id).isSome →
      filteredNeighbors graph direction label id = .ok around ∧
        ∀ b e, (b, e) ∈ around ↔ Allowed contents direction label id e b := by
    by_cases present : (contents.nodes id).isSome
    · obtain ⟨around, found⟩ := filteredNeighbors_ok serves present direction label
      exact ⟨around, fun _ => found⟩
    · exact ⟨[], fun here => absurd here present⟩
  exact ⟨fun id => (each id).choose, fun id => (each id).choose_spec⟩

theorem find_finds (present : (contents.nodes start).isSome)
    (present' : (contents.nodes goal).isSome) (direction : Direction) (label : Option String) :
    ∃ answer : Option Path, find graph start goal direction label =
        .ok (answer.elim .unreachable .path) ∧
      FindsShortest (Allowed contents direction label) none start goal (Path.along start)
        answer := by
  have listed : graph.nodeExists start = true := by rw [serves.nodeExists, present]
  have listed' : graph.nodeExists goal = true := by rw [serves.nodeExists, present']
  by_cases home : start = goal
  · subst home
    refine ⟨some (.along start []), ?_, findsShortest_start none (Path.along start)⟩
    simp [find, listed, pure, Except.pure]
    rfl
  · obtain ⟨next, reads⟩ := exists_next serves direction label
    have answered : Answered (Allowed contents direction label) start goal none
        (searchUntil next none goal (graph.nodeIds.length + 1) [start] [] [(0, start)]) :=
      search_answered (fun n a reach => (reads a (reach_allowed_present present reach)).2)
        (fun n a reach => (serves.nodeIds.mem_iff a).mpr (reach_allowed_present present reach))
        home (Nat.le_succ _)
    have loop := findParents_eq (fun id here => (reads id here).1)
      (fun id here entry around => (((reads id here).2 _ _).mp around).present) goal
      (graph.nodeIds.length + 1) [start] [] [(0, start)] (by simpa using present)
    have finds : FindsShortest (Allowed contents direction label) none start goal
        (Path.along start) (Option.map (fun parent => (reconstructPath start goal parent).getD {}) _)
        := answered.finds fun parent steps found => by
      rw [reconstructPath_eq found, Option.getD_some]
    refine ⟨_, ?_, finds⟩
    rw [map_singleton] at loop
    simp only [find, listed, listed', home, loop, bind, Except.bind]
    cases searched : searchUntil next none goal (graph.nodeIds.length + 1) [start] []
        [(0, start)] with
    | none => rfl
    | some parent =>
      rw [searched] at answered
      obtain ⟨steps, found, -⟩ := answered.trail
      simp [reconstructPath_eq found]
      rfl

/-- The other ends of edges, with the ids of the edges. -/
def ends (edges : List Edge) (other : Edge → Nat) : List (Nat × Nat) :=
  edges.map fun edge => (other edge, edge.id)

omit serves in
theorem mem_ends {answer : Except Error (List Edge)} {holds : Edge → Prop}
    (answers : Answers answer holds) (passes : Edge → Bool) (other : Edge → Nat) (b e : Nat) :
    (b, e) ∈ ends ((edgesOr answer).filter passes) other ↔
      ∃ edge, edge.id = e ∧ holds edge ∧ passes edge ∧ other edge = b := by
  obtain ⟨edges, rfl, enumerates⟩ := answers
  change (b, e) ∈ ends (edges.filter passes) other ↔ _
  simp only [ends, mem_map, mem_filter, enumerates.mem_iff, Prod.mk.injEq]
  constructor
  · rintro ⟨edge, ⟨here, passed⟩, other_end, id⟩
    exact ⟨edge, id, here, passed, other_end⟩
  · rintro ⟨edge, id, here, passed, other_end⟩
    exact ⟨edge, ⟨here, passed⟩, other_end, id⟩

theorem shortestPathBfs_finds (present : (contents.nodes start).isSome) (goal : Nat) :
    FindsShortest (Allowed contents .outgoing none) none start goal
      (walkNodes start) (shortestPathBfs graph start goal) := by
  refine searchIds_finds
    (fun id => ends ((edgesOr (graph.outgoingEdges id)).filter fun _ => true) Edge.target)
    (fun id => by simp [ends]) (fun n a reach b e => ?_)
    (fun n a reach => (serves.nodeIds.mem_iff a).mpr (reach_allowed_present present reach))
  rw [mem_ends (serves.outgoingEdges a (reach_allowed_present present reach))]
  constructor
  · rintro ⟨edge, rfl, ⟨there, leaves⟩, -, arrives⟩
    exact ⟨edge, there, nofun, leaves, arrives⟩
  · rintro ⟨edge, there, -, leaves, arrives⟩
    obtain rfl := contents.edge_id there
    exact ⟨edge, rfl, ⟨there, leaves⟩, rfl, arrives⟩

theorem shortestPathBfsConstrained_finds (present : (contents.nodes start).isSome) (goal : Nat)
    (maxDepth : Option UInt32) (label : Option String) (direction : Direction) :
    FindsShortest (Allowed contents direction label)
      (some (maxDepth.elim variableHopSafetyCap UInt32.toNat)) start goal (walkNodes start)
      (shortestPathBfsConstrained graph start goal maxDepth label direction) := by
  let passes (edge : Edge) : Bool := label.all fun label => edge.label = label
  have labelled (edge : Edge) : passes edge ↔ ∀ l ∈ label, edge.label = l := by
    cases label <;> simp [passes]
  refine searchIds_finds (fun id =>
      (if direction ≠ .incoming then
        ends ((edgesOr (graph.outgoingEdges id)).filter passes) Edge.target else []) ++
      if direction ≠ .outgoing then
        ends ((edgesOr (graph.incomingEdges id)).filter passes) Edge.source else [])
    (fun id => ?_) (fun n a reach b e => ?_)
    (fun n a reach => (serves.nodeIds.mem_iff a).mpr (reach_allowed_present present reach))
  · cases direction <;> simp [ends, passes, Function.comp_def]
  · have here := reach_allowed_present present reach
    have out := mem_ends (serves.outgoingEdges a here) passes Edge.target b e
    have inc := mem_ends (serves.incomingEdges a here) passes Edge.source b e
    have id_of {edge : Edge} (there : contents.edges e = some edge) : edge.id = e :=
      contents.edge_id there
    simp only [labelled] at out inc
    cases direction with
    | outgoing =>
      rw [if_pos nofun, if_neg (by simp), append_nil, out]
      constructor
      · rintro ⟨edge, rfl, ⟨there, leaves⟩, passed, arrives⟩
        exact ⟨edge, there, passed, leaves, arrives⟩
      · rintro ⟨edge, there, passed, leaves, arrives⟩
        exact ⟨edge, id_of there, ⟨id_of there ▸ there, leaves⟩, passed, arrives⟩
    | incoming =>
      rw [if_neg (by simp), if_pos nofun, nil_append, inc]
      constructor
      · rintro ⟨edge, rfl, ⟨there, arrives⟩, passed, leaves⟩
        exact ⟨edge, there, passed, arrives, leaves⟩
      · rintro ⟨edge, there, passed, arrives, leaves⟩
        exact ⟨edge, id_of there, ⟨id_of there ▸ there, arrives⟩, passed, leaves⟩
    | both =>
      rw [if_pos nofun, if_pos nofun, mem_append, out, inc]
      constructor
      · rintro (⟨edge, rfl, ⟨there, near⟩, passed, far⟩ | ⟨edge, rfl, ⟨there, near⟩, passed, far⟩)
        · exact ⟨edge, there, passed, .inl ⟨near, far⟩⟩
        · exact ⟨edge, there, passed, .inr ⟨near, far⟩⟩
      · rintro ⟨edge, there, passed, ⟨near, far⟩ | ⟨near, far⟩⟩
        · exact .inl ⟨edge, id_of there, ⟨id_of there ▸ there, near⟩, passed, far⟩
        · exact .inr ⟨edge, id_of there, ⟨id_of there ▸ there, near⟩, passed, far⟩

end Served

end ErmyaGraph.Query
