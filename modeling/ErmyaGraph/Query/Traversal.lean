import ErmyaGraph.Query.ShortestPath
import Mathlib.Algebra.Order.BigOperators.Group.List
import Mathlib.Algebra.Order.Ring.Nat

/-! # Traversals

A traversal goes from a start node along the edges of a direction and a label, breadth first or
depth first, down to a depth, and answers with the nodes or with the paths to them. -/

namespace ErmyaGraph.Query

open Gql Search List

inductive Strategy where
  | bfs
  | dfs
deriving DecidableEq, Repr

section Loops

variable {β : Type} (neighbors : Nat → Except Error (List (Nat × Nat))) (limit : Option Nat)
  (extend : β → Nat → Nat → β)

/-- The neighbours that are not visited yet, each once. -/
def unvisited : List (Nat × Nat) → (visited : List Nat) → List (Nat × Nat)
  | [], _ => []
  | (neighbor, edge) :: rest, visited =>
    if neighbor ∈ visited then unvisited rest visited
    else (neighbor, edge) :: unvisited rest (neighbor :: visited)

/-- The nodes that are visited in the rounds of a queue; a node is visited when it enters. -/
def bfsLoop : (fuel : Nat) → (visited : List Nat) → (queue : List (Nat × Nat × β)) →
    Except Error (List (Nat × β))
  | 0, _, _ => .ok []
  | _ + 1, _, [] => .ok []
  | fuel + 1, visited, (current, depth, path) :: queue =>
    if limit.any fun max => max ≤ depth then bfsLoop fuel visited queue
    else do
      let new := unvisited (← neighbors current) visited
      let paths := new.map fun entry => (entry.1, extend path entry.1 entry.2)
      let later ← bfsLoop fuel ((new.map Prod.fst).reverse ++ visited)
        (queue ++ paths.map fun entry => (entry.1, depth + 1, entry.2))
      return paths ++ later

/-- The nodes that are visited in the rounds of a stack; a node is visited when it leaves. -/
def dfsLoop : (fuel : Nat) → (visited : List Nat) → (stack : List (Nat × Nat × β)) →
    Except Error (List (Nat × β))
  | 0, _, _ => .ok []
  | _ + 1, _, [] => .ok []
  | fuel + 1, visited, (current, depth, path) :: stack =>
    if current ∈ visited then dfsLoop fuel visited stack
    else if limit.any fun max => max ≤ depth then do
      let later ← dfsLoop fuel (current :: visited) stack
      return (current, path) :: later
    else do
      -- The neighbours are pushed from the last to the first, so that the first is on top.
      let new := (← neighbors current).filter fun entry => entry.1 ∉ current :: visited
      let later ← dfsLoop fuel (current :: visited)
        (new.map (fun entry => (entry.1, depth + 1, extend path entry.1 entry.2)) ++ stack)
      return (current, path) :: later

end Loops

section Traversal

variable (graph : GraphAccess) (start : Nat) (direction : Direction) (label : Option String)
  (limit : Option Nat)

/-- Every push is along an edge of a node that is visited for the first time. -/
def stackFuel : Nat :=
  (graph.nodeIds.map fun id =>
    ((filteredNeighbors graph direction label id).toOption.getD []).length).sum + 1

def traverseWith {β : Type} (extend : β → Nat → Nat → β) (single : β) (strategy : Strategy) :
    Except Error (List (Nat × β)) := do
  if !graph.nodeExists start then throw (.nodeNotFound start)
  let neighbors := filteredNeighbors graph direction label
  match strategy with
  | .bfs =>
    let later ← bfsLoop neighbors limit extend (graph.nodeIds.length + 1) [start]
      [(start, 0, single)]
    return (start, single) :: later
  | .dfs => dfsLoop neighbors limit extend (stackFuel graph direction label) [] [(start, 0, single)]

def collectNodes (strategy : Strategy) : Except Error (List Nat) := do
  let visits ← traverseWith graph start direction label limit (fun _ _ _ => ()) () strategy
  return visits.map Prod.fst

def collectPaths (strategy : Strategy) : Except Error (List Path) := do
  let visits ← traverseWith graph start direction label limit Path.push (.single start) strategy
  return visits.map Prod.snd

end Traversal

section Forget

variable {β γ : Type} {neighbors : Nat → Except Error (List (Nat × Nat))} {limit : Option Nat}
  {extend : β → Nat → Nat → β} {extend' : γ → Nat → Nat → γ} {forget : β → γ}

section

variable (keeps : ∀ path node edge,
  forget (extend path node edge) = extend' (forget path) node edge)
include keeps

theorem bfsLoop_map (fuel : Nat) (visited : List Nat) (queue : List (Nat × Nat × β)) :
    (bfsLoop neighbors limit extend fuel visited queue).map (List.map (Prod.map id forget)) =
      bfsLoop neighbors limit extend' fuel visited
        (queue.map (Prod.map id (Prod.map id forget))) := by
  induction fuel generalizing visited queue with
  | zero => rfl
  | succ fuel ih =>
    match queue with
    | [] => rfl
    | (current, depth, path) :: queue =>
      rw [map_cons, bfsLoop]
      simp only [Prod.map, id]
      rw [bfsLoop]
      split
      · exact ih visited queue
      · cases neighbors current with
        | error e => rfl
        | ok around =>
          have later := ih ((((unvisited around visited).map Prod.fst).reverse) ++ visited)
            (queue ++ (((unvisited around visited).map fun entry =>
              (entry.1, extend path entry.1 entry.2)).map fun entry =>
                (entry.1, depth + 1, entry.2)))
          simp only [map_append, map_map, Function.comp_def, Prod.map, id, keeps] at later
          simp only [bind, Except.bind, map_map, Function.comp_def]
          rw [← later]
          cases bfsLoop neighbors limit extend fuel _ _ with
          | error e => rfl
          | ok rest => simp [Except.map, pure, Except.pure, Function.comp_def, keeps]

theorem dfsLoop_map (fuel : Nat) (visited : List Nat) (stack : List (Nat × Nat × β)) :
    (dfsLoop neighbors limit extend fuel visited stack).map (List.map (Prod.map id forget)) =
      dfsLoop neighbors limit extend' fuel visited
        (stack.map (Prod.map id (Prod.map id forget))) := by
  induction fuel generalizing visited stack with
  | zero => rfl
  | succ fuel ih =>
    match stack with
    | [] => rfl
    | (current, depth, path) :: stack =>
      rw [map_cons, dfsLoop]
      simp only [Prod.map, id]
      rw [dfsLoop]
      split
      · exact ih visited stack
      · split
        · rw [← ih]
          cases dfsLoop neighbors limit extend fuel (current :: visited) stack <;> rfl
        · cases neighbors current with
          | error e => rfl
          | ok around =>
            have later := ih (current :: visited)
              (((around.filter fun entry => entry.1 ∉ current :: visited).map fun entry =>
                (entry.1, depth + 1, extend path entry.1 entry.2)) ++ stack)
            simp only [map_append, map_map, Function.comp_def, Prod.map, id, keeps]
              at later
            simp only [bind, Except.bind]
            rw [← later]
            cases dfsLoop neighbors limit extend fuel _ _ <;> rfl

end

end Forget

section Visits

variable {leads : Nat → Nat → Nat → Prop} {start fuel : Nat} {limit : Option Nat}
  {neighbors : Nat → Except Error (List (Nat × Nat))} {all visited : List Nat}

/-- What is in reach is among these nodes, and its neighbours can be read. -/
structure Readable (leads : Nat → Nat → Nat → Prop) (start : Nat)
    (neighbors : Nat → Except Error (List (Nat × Nat))) (all : List Nat) : Prop where
  reads : ∀ n a, Reach leads start n a →
    ∃ around, neighbors a = .ok around ∧ ∀ b e, (b, e) ∈ around ↔ leads a e b
  within : ∀ n a, Reach leads start n a → a ∈ all

/-- A node is reached over no more edges than the limit. -/
def Within (leads : Nat → Nat → Nat → Prop) (limit : Option Nat) (start node : Nat) : Prop :=
  ∃ n, Reach leads start n node ∧ ∀ max ∈ limit, n ≤ max

/-- A path leads from the start to a node, over a number of edges. -/
def PathTo (leads : Nat → Nat → Nat → Prop) (start node depth : Nat) (path : Path) : Prop :=
  ∃ steps, Walk leads start steps node ∧ steps.length = depth ∧ path = .along start steps

/-- A visited node has a path from the start within the limit. -/
def Visit (leads : Nat → Nat → Nat → Prop) (limit : Option Nat) (start : Nat)
    (visit : Nat × Path) : Prop :=
  ∃ depth, PathTo leads start visit.1 depth visit.2 ∧ ∀ max ∈ limit, depth ≤ max

variable {depth : Nat} {path : Path}

theorem PathTo.push {node next edge : Nat} (toNode : PathTo leads start node depth path)
    (leads_on : leads node edge next) :
    PathTo leads start next (depth + 1) (path.push next edge) := by
  obtain ⟨steps, walk, rfl, rfl⟩ := toNode
  exact ⟨_, walk.snoc leads_on, length_append, Path.push_along ..⟩

theorem PathTo.reach {node : Nat} (toNode : PathTo leads start node depth path) :
    Reach leads start depth node := by
  obtain ⟨steps, walk, rfl, -⟩ := toNode
  exact walk.reach

theorem within_of_visit {visit : Nat × Path} (visits : Visit leads limit start visit) :
    Within leads limit start visit.1 := by
  obtain ⟨depth, toNode, near⟩ := visits
  exact ⟨depth, toNode.reach, near⟩

/-- What is visited from some state on: new nodes, each once and with its path. -/
structure Visits (leads : Nat → Nat → Nat → Prop) (limit : Option Nat) (start : Nat)
    (visited : List Nat) (later : List (Nat × Path)) : Prop where
  nodup : (later.map Prod.fst).Nodup
  new : ∀ visit ∈ later, visit.1 ∉ visited
  valid : ∀ visit ∈ later, Visit leads limit start visit

def Complete (leads : Nat → Nat → Nat → Prop) (limit : Option Nat) (start : Nat)
    (visited : List Nat) (later : List (Nat × Path)) : Prop :=
  ∀ b, Within leads limit start b → b ∈ visited ∨ b ∈ later.map Prod.fst

theorem visits_nil : Visits leads limit start visited [] := ⟨nodup_nil, nofun, nofun⟩

variable (around : List (Nat × Nat))

theorem unvisited_subset (visited : List Nat) : unvisited around visited ⊆ around := by
  induction around generalizing visited with
  | nil => exact List.Subset.refl _
  | cons entry rest ih =>
    rw [unvisited]
    split
    · exact List.Subset.trans (ih visited) (subset_cons_self _ _)
    · exact cons_subset_cons _ (ih _)

theorem unvisited_entered (visited : List Nat) :
    Entered (fun b => ∃ e, (b, e) ∈ around) visited
      (((unvisited around visited).map Prod.fst).reverse ++ visited)
      ((unvisited around visited).map Prod.fst) := by
  induction around generalizing visited with
  | nil => exact (Entered.nil visited).congr fun b => by simp
  | cons entry rest ih =>
    obtain ⟨neighbor, edge⟩ := entry
    have split_off (b : Nat) : (∃ e, (b, e) ∈ (neighbor, edge) :: rest) ↔
        b = neighbor ∨ ∃ e, (b, e) ∈ rest := by
      simp [exists_or]
    rw [unvisited]
    split
    · next old => exact ((ih visited).seen old).congr split_off
    · next new =>
      have entered := ((ih (neighbor :: visited)).enter new).congr split_off
      rwa [map_cons, reverse_cons, append_assoc]

theorem any_le_iff :
    (limit.any fun max => decide (max ≤ depth)) = true ↔ ∃ max ∈ limit, max ≤ depth := by
  cases limit <;> simp

theorem bfsLoop_late {β : Type} {extend : β → Nat → Nat → β} {max : Nat}
    (queue : List (Nat × Nat × β)) (late : ∀ entry ∈ queue, max ≤ entry.2.1) :
    bfsLoop neighbors (some max) extend fuel visited queue = .ok [] := by
  induction fuel generalizing queue with
  | zero => rfl
  | succ fuel ih =>
    match queue with
    | [] => rfl
    | (current, depth, path) :: queue =>
      rw [bfsLoop, if_pos (by simpa using late _ mem_cons_self)]
      exact ih queue fun entry mem => late entry (mem_cons_of_mem _ mem)

theorem bfsLoop_visits (readable : Readable leads start neighbors all)
    (queue : List (Nat × Nat × Path))
    (explored : Explored leads start visited (queue.map fun entry => (entry.2.1, entry.1)))
    (bounded : Bounded all visited queue.length fuel)
    (paths : ∀ entry ∈ queue, PathTo leads start entry.1 entry.2.1 entry.2.2) :
    ∃ later, bfsLoop neighbors limit Path.push fuel visited queue = .ok later ∧
      Visits leads limit start visited later ∧ Complete leads limit start visited later := by
  induction fuel generalizing visited queue with
  | zero =>
    have empty : queue = [] := length_eq_zero_iff.mp (by have := bounded.rounds; omega)
    subst empty
    exact ⟨[], rfl, visits_nil, fun b ⟨n, reach, _⟩ => .inl (explored.mem_visited_of_reach reach)⟩
  | succ fuel ih =>
    match queue with
    | [] =>
      exact ⟨[], rfl, visits_nil, fun b ⟨n, reach, _⟩ =>
        .inl (explored.mem_visited_of_reach reach)⟩
    | (current, depth, path) :: queue =>
      have toCurrent := paths _ mem_cons_self
      by_cases late : ∃ max ∈ limit, max ≤ depth
      · obtain ⟨max, rfl, late⟩ := late
        refine ⟨[], bfsLoop_late _ fun entry mem => ?_, visits_nil, fun b ⟨n, reach, near⟩ =>
          .inl (explored.mem_visited_of_le reach ((near max rfl).trans late))⟩
        rcases mem_cons.mp mem with rfl | mem
        · exact late
        · exact late.trans (rel_of_pairwise_cons explored.sorted
            (mem_map_of_mem (f := fun entry : Nat × Nat × Path => (entry.2.1, entry.1)) mem))
      · have early := mt any_le_iff.mp late
        push Not at late
        obtain ⟨around, read, members⟩ := readable.reads _ _ toCurrent.reach
        have entered := (unvisited_entered around visited).congr fun b =>
          exists_congr fun e => (members b e).symm
        generalize isNew : unvisited around visited = new at entered
        have leads_on : ∀ entry ∈ new, leads current entry.2 entry.1 := fun entry mem =>
          (members _ _).mp (unvisited_subset around visited (isNew ▸ mem))
        have inside : ∀ b, (∃ e, leads current e b) → b ∈ all := fun b ⟨e, edge⟩ =>
          readable.within _ b (toCurrent.reach.step edge)
        have explored' := explored.pop entered
        have bounded' := bounded.pop entered inside
        obtain ⟨later, found, visits, complete⟩ := @ih ((new.map Prod.fst).reverse ++ visited)
          (queue ++ (new.map fun entry => (entry.1, path.push entry.1 entry.2)).map
            fun entry => (entry.1, depth + 1, entry.2))
          (by simpa [Function.comp_def] using explored') (by simpa using bounded') (by
            intro entry mem
            rcases mem_append.mp mem with old | added
            · exact paths entry (.tail _ old)
            · simp only [map_map, mem_map] at added
              obtain ⟨step, isStep, rfl⟩ := added
              exact toCurrent.push (leads_on step isStep))
        have distinct := nodup_append.mp (entered.nodup bounded.nodup)
        refine ⟨(new.map fun entry => (entry.1, path.push entry.1 entry.2)) ++ later, ?_,
          ⟨?_, ?_, ?_⟩, ?_⟩
        · rw [bfsLoop, if_neg early, read]
          simp only [bind, Except.bind, isNew, found]
          rfl
        · rw [map_append, map_map]
          refine nodup_append.mpr ⟨nodup_reverse.mp distinct.1, visits.nodup, ?_⟩
          rintro a first b second rfl
          obtain ⟨visit, mem, rfl⟩ := mem_map.mp second
          exact visits.new visit mem (mem_append_left _ (mem_reverse.mpr first))
        · intro visit mem
          rcases mem_append.mp mem with here | there
          · obtain ⟨step, isStep, rfl⟩ := mem_map.mp here
            exact ((entered.new_iff _).mp (mem_map_of_mem isStep)).2
          · exact fun old => visits.new visit there (mem_append_right _ old)
        · intro visit mem
          rcases mem_append.mp mem with here | there
          · obtain ⟨step, isStep, rfl⟩ := mem_map.mp here
            exact ⟨depth + 1, toCurrent.push (leads_on step isStep), late⟩
          · exact visits.valid visit there
        · intro b near
          rcases complete b near with old | new'
          · rcases mem_append.mp old with entered' | old
            · refine .inr ?_
              rw [map_append, map_map]
              exact mem_append_left _ (mem_reverse.mp entered')
            · exact .inl old
          · exact .inr (map_append ▸ mem_append_right _ new')

/-- In the rounds of the stack, a node that the limit cuts off is that far from the start. -/
def CutsFar (leads : Nat → Nat → Nat → Prop) (start : Nat)
    (neighbors : Nat → Except Error (List (Nat × Nat))) (limit : Option Nat) :
    (fuel : Nat) → (visited : List Nat) → (stack : List (Nat × Nat)) → Prop
  | 0, _, _ => True
  | _ + 1, _, [] => True
  | fuel + 1, visited, (current, depth) :: stack =>
    if current ∈ visited then CutsFar leads start neighbors limit fuel visited stack
    else if limit.any fun max => max ≤ depth then
      Distance leads start depth current ∧
        CutsFar leads start neighbors limit fuel (current :: visited) stack
    else
      ∀ around ∈ (neighbors current).toOption,
        CutsFar leads start neighbors limit fuel (current :: visited)
          (((around.filter fun entry => entry.1 ∉ current :: visited).map fun entry =>
            (entry.1, depth + 1)) ++ stack)

theorem cutsFar_none (visited : List Nat) (stack : List (Nat × Nat)) :
    CutsFar leads start neighbors none fuel visited stack := by
  induction fuel generalizing visited stack with
  | zero => trivial
  | succ fuel ih =>
    match stack with
    | [] => trivial
    | (current, depth) :: stack =>
      rw [CutsFar]
      split
      · exact ih visited stack
      · exact fun around _ => ih (current :: visited) _

/-- The start is known, and a visited node leads to known nodes or lies at the limit. -/
structure Finished (leads : Nat → Nat → Nat → Prop) (limit : Option Nat) (start : Nat)
    (visited known : List Nat) : Prop where
  start_mem : start ∈ known
  closed : ∀ a ∈ visited, (∀ e b, leads a e b → b ∈ known) ∨
    ∃ max ∈ limit, Distance leads start max a

theorem Finished.mono {known known' : List Nat}
    (finished : Finished leads limit start visited known) (sub : known ⊆ known') :
    Finished leads limit start visited known' :=
  ⟨sub finished.start_mem, fun a mem =>
    (finished.closed a mem).imp_left fun closed e b edge => sub (closed e b edge)⟩

theorem Finished.complete (finished : Finished leads limit start visited visited) :
    Complete leads limit start visited [] := by
  rintro b ⟨n, reach, near⟩
  refine .inl ?_
  induction reach with
  | start => exact finished.start_mem
  | @step n a b e reach edge ih =>
    have here := ih fun max isMax => Nat.le_of_succ_le (near max isMax)
    rcases finished.closed a here with closed | ⟨max, isMax, far⟩
    · exact closed e b edge
    · exact absurd (near max isMax) (Nat.not_le.mpr (Nat.lt_succ_of_le (far.least n reach)))

theorem Visits.cons {current : Nat} {later : List (Nat × Path)}
    (visits : Visits leads limit start (current :: visited) later) (new : current ∉ visited)
    (valid : Visit leads limit start (current, path)) :
    Visits leads limit start visited ((current, path) :: later) where
  nodup := nodup_cons.mpr ⟨fun again => by
    obtain ⟨visit, mem, same⟩ := mem_map.mp again
    exact visits.new visit mem (same ▸ .head _), visits.nodup⟩
  new := forall_mem_cons.mpr ⟨new, fun visit there seen =>
    visits.new visit there (.tail _ seen)⟩
  valid := forall_mem_cons.mpr ⟨valid, visits.valid⟩

def pushesLeft (neighbors : Nat → Except Error (List (Nat × Nat))) (all visited : List Nat) : Nat :=
  ((all.filter (· ∉ visited)).map fun id => ((neighbors id).toOption.getD []).length).sum

theorem pushesLeft_visit {current : Nat} {around : List (Nat × Nat)} (listed : current ∈ all)
    (new : current ∉ visited) (read : neighbors current = .ok around) :
    pushesLeft neighbors all (current :: visited) + around.length ≤
      pushesLeft neighbors all visited := by
  have split : (all.filter (· ∉ current :: visited)).Sublist
      ((all.filter (· ∉ visited)).erase current) := by
    have inside : (all.filter (· ∉ current :: visited)).Sublist (all.filter (· ∉ visited)) :=
      monotone_filter_right all fun id => by simp
    have without := inside.erase current
    rwa [erase_of_not_mem (by simp)] at without
  have sums := (split.map fun id => ((neighbors id).toOption.getD []).length).sum_le_sum
    fun _ _ => Nat.zero_le _
  have mem : current ∈ all.filter (· ∉ visited) := mem_filter.mpr ⟨listed, decide_eq_true new⟩
  have here := sum_map_erase (fun id => ((neighbors id).toOption.getD []).length) mem
  rw [read] at here
  unfold pushesLeft
  rw [← here, add_comm]
  exact Nat.add_le_add_left sums _

theorem dfsLoop_visits (readable : Readable leads start neighbors all)
    (stack : List (Nat × Nat × Path)) (stacked : ∀ entry ∈ stack,
      PathTo leads start entry.1 entry.2.1 entry.2.2 ∧ ∀ max ∈ limit, entry.2.1 ≤ max)
    (enough : stack.length + pushesLeft neighbors all visited ≤ fuel) :
    ∃ later, dfsLoop neighbors limit Path.push fuel visited stack = .ok later ∧
      Visits leads limit start visited later ∧
      (CutsFar leads start neighbors limit fuel visited
          (stack.map fun entry => (entry.1, entry.2.1)) →
        Finished leads limit start visited (visited ++ stack.map Prod.fst) →
        Complete leads limit start visited later) := by
  induction fuel generalizing visited stack with
  | zero =>
    obtain rfl : stack = [] := length_eq_zero_iff.mp (by omega)
    exact ⟨[], rfl, visits_nil, fun _ finished => (finished.mono (by simp)).complete⟩
  | succ fuel ih =>
    match stack with
    | [] => exact ⟨[], rfl, visits_nil, fun _ finished => (finished.mono (by simp)).complete⟩
    | (current, depth, path) :: stack =>
      rw [length_cons] at enough
      obtain ⟨⟨toCurrent, within⟩, others⟩ := forall_mem_cons.mp stacked
      simp only at toCurrent within
      by_cases old : current ∈ visited
      · obtain ⟨later, found, visits, complete⟩ := @ih visited stack others (by omega)
        refine ⟨later, by rw [dfsLoop, if_pos old, found], visits, fun cuts finished => ?_⟩
        rw [map_cons, CutsFar, if_pos old] at cuts
        refine complete cuts (finished.mono fun b mem => ?_)
        simp only [map_cons, mem_append, mem_cons] at mem ⊢
        exact mem.elim .inl fun more => more.elim (fun same => .inl (same ▸ old)) .inr
      · obtain ⟨around, read, members⟩ := readable.reads _ _ toCurrent.reach
        have room := pushesLeft_visit (readable.within _ _ toCurrent.reach) old read
        have valid : Visit leads limit start (current, path) := ⟨depth, toCurrent, within⟩
        -- What was known stays known, and the node itself is known from now on.
        have goes_on {pushed : List (Nat × Nat × Path)} {later : List (Nat × Path)}
            (complete : Finished leads limit start (current :: visited)
              (current :: visited ++ (pushed ++ stack).map Prod.fst) →
              Complete leads limit start (current :: visited) later)
            (finished : Finished leads limit start visited
              (visited ++ ((current, depth, path) :: stack).map Prod.fst))
            (here : (∀ e b, leads current e b → b ∈ current :: visited ∨ b ∈ pushed.map Prod.fst) ∨
              ∃ max ∈ limit, Distance leads start max current) :
            Complete leads limit start visited ((current, path) :: later) := by
          have wider : Finished leads limit start visited
              (current :: visited ++ (pushed ++ stack).map Prod.fst) := finished.mono fun b => by
            simp only [map_cons, map_append, mem_append, mem_cons]
            tauto
          have closed := here.imp_left fun closed e b edge =>
            show b ∈ current :: visited ++ (pushed ++ stack).map Prod.fst by
              simp only [map_append, mem_append]
              exact (closed e b edge).imp_right .inl
          intro b near
          rcases complete ⟨wider.start_mem, forall_mem_cons.mpr ⟨closed, wider.closed⟩⟩ b near
            with seen | there
          · rcases mem_cons.mp seen with rfl | seen
            · exact .inr mem_cons_self
            · exact .inl seen
          · exact .inr (.tail _ there)
        by_cases late : ∃ max ∈ limit, max ≤ depth
        · obtain ⟨later, found, visits, complete⟩ := @ih (current :: visited) stack others
            (by omega)
          refine ⟨(current, path) :: later, ?_, visits.cons old valid, fun cuts finished => ?_⟩
          · rw [dfsLoop, if_neg old, if_pos (any_le_iff.mpr late), found]
            rfl
          · rw [map_cons, CutsFar, if_neg old, if_pos (any_le_iff.mpr late)] at cuts
            obtain ⟨max, isMax, reached⟩ := late
            exact @goes_on [] later (complete cuts.2) finished (.inr ⟨max, isMax,
              le_antisymm reached (within max isMax) ▸ cuts.1⟩)
        · have early := mt any_le_iff.mp late
          push Not at late
          generalize isNew : (around.filter fun entry => entry.1 ∉ current :: visited) = new
          have isMember (entry : Nat × Nat) : entry ∈ new ↔
              entry ∈ around ∧ entry.1 ∉ current :: visited := by
            rw [← isNew, mem_filter, decide_eq_true_iff]
          have fewer : new.length ≤ around.length := isNew ▸ length_filter_le ..
          have pushed : ∀ step ∈ new, PathTo leads start step.1 (depth + 1)
              (path.push step.1 step.2) ∧ ∀ max ∈ limit, depth + 1 ≤ max := fun step isStep =>
            ⟨toCurrent.push ((members _ _).mp ((isMember step).mp isStep).1), late⟩
          obtain ⟨later, found, visits, complete⟩ := @ih (current :: visited)
            (new.map (fun entry => (entry.1, depth + 1, path.push entry.1 entry.2)) ++ stack)
            (forall_mem_append.mpr ⟨forall_mem_map.mpr pushed, others⟩)
            (by
              rw [length_append, length_map]
              omega)
          refine ⟨(current, path) :: later, ?_, visits.cons old valid, fun cuts finished => ?_⟩
          · rw [dfsLoop, if_neg old, if_neg early, read]
            simp only [bind, Except.bind, isNew, found]
            rfl
          · rw [map_cons, CutsFar, if_neg old, if_neg early, read] at cuts
            have cuts' := cuts around rfl
            rw [isNew] at cuts'
            refine goes_on (complete (by simpa [Function.comp_def] using cuts')) finished
              (.inl fun e b edge => ?_)
            by_cases seen : b ∈ current :: visited
            · exact .inl seen
            · refine .inr ?_
              rw [map_map]
              exact mem_map_of_mem (f := Prod.fst)
                ((isMember (b, e)).mpr ⟨(members b e).mpr edge, seen⟩)

end Visits

/-- The start comes first, every node once, and each with a path to it within the limit. -/
structure Sound (leads : Nat → Nat → Nat → Prop) (limit : Option Nat) (start : Nat)
    (nodes : List Nat) (paths : List Path) : Prop where
  first : nodes.head? = some start
  nodup : nodes.Nodup
  paths : List.Forall₂ (fun node path => Visit leads limit start (node, path)) nodes paths
  within : ∀ b ∈ nodes, Within leads limit start b

def Exact (leads : Nat → Nat → Nat → Prop) (limit : Option Nat) (start : Nat)
    (nodes : List Nat) (paths : List Path) : Prop :=
  Sound leads limit start nodes paths ∧ ∀ b, Within leads limit start b → b ∈ nodes

section Served

variable {graph : GraphAccess} {contents : Contents} {start : Nat} {direction : Direction}
  {label : Option String} {limit : Option Nat}

theorem collectNodes_eq (strategy : Strategy) :
    collectNodes graph start direction label limit strategy =
      (traverseWith graph start direction label limit Path.push (.single start) strategy).map
        (List.map Prod.fst) := by
  have same : (traverseWith graph start direction label limit Path.push (.single start)
      strategy).map (List.map (Prod.map id fun _ => ())) =
        traverseWith graph start direction label limit (fun _ _ _ => ()) () strategy := by
    unfold traverseWith
    cases graph.nodeExists start with
    | false => rfl
    | true =>
      cases strategy with
      | bfs =>
        have loop := @bfsLoop_map _ _ (filteredNeighbors graph direction label) limit Path.push
          (fun _ _ _ => ()) (fun _ => ()) (fun _ _ _ => rfl) (graph.nodeIds.length + 1) [start]
          [(start, 0, .single start)]
        simp only [map_cons, map_nil, Prod.map, id] at loop
        simp only [Bool.not_true, Bool.false_eq_true, ↓reduceIte, bind, Except.bind, ← loop]
        cases bfsLoop (filteredNeighbors graph direction label) limit Path.push
          (graph.nodeIds.length + 1) [start] [(start, 0, .single start)] <;> rfl
      | dfs =>
        exact @dfsLoop_map _ _ (filteredNeighbors graph direction label) limit Path.push
          (fun _ _ _ => ()) (fun _ => ()) (fun _ _ _ => rfl) (stackFuel graph direction label) []
          [(start, 0, .single start)]
  rw [collectNodes, ← same]
  cases traverseWith graph start direction label limit Path.push (.single start) strategy with
  | error e => rfl
  | ok visits => simp [Except.map, bind, Except.bind, pure, Except.pure, Function.comp_def]

theorem dfsLoop_head {neighbors : Nat → Except Error (List (Nat × Nat))} {fuel node depth : Nat}
    {path : Path} {stack : List (Nat × Nat × Path)} {later : List (Nat × Path)}
    (found : dfsLoop neighbors limit Path.push (fuel + 1) [] ((node, depth, path) :: stack) =
      .ok later) : later.head? = some (node, path) := by
  rw [dfsLoop, if_neg not_mem_nil] at found
  split at found
  · obtain ⟨rest, -, answered⟩ := Outcome.ok_of_bind found
    cases answered
    rfl
  · obtain ⟨around, -, found⟩ := Outcome.ok_of_bind found
    obtain ⟨rest, -, answered⟩ := Outcome.ok_of_bind found
    cases answered
    rfl

variable (serves : graph.Serves contents)
include serves

theorem readable_allowed (present : (contents.nodes start).isSome) :
    Readable (Allowed contents direction label) start (filteredNeighbors graph direction label)
      graph.nodeIds where
  reads _ _ reach :=
    filteredNeighbors_ok serves (reach_allowed_present present reach) direction label
  within _ a reach := (serves.nodeIds.mem_iff a).mpr (reach_allowed_present present reach)

theorem traverseWith_visits (present : (contents.nodes start).isSome) (strategy : Strategy) :
    ∃ visits, traverseWith graph start direction label limit Path.push (.single start) strategy =
        .ok visits ∧
      Visits (Allowed contents direction label) limit start [] visits ∧
      visits.head? = some (start, .single start) ∧
      (strategy = .bfs ∨ CutsFar (Allowed contents direction label) start
        (filteredNeighbors graph direction label) limit (stackFuel graph direction label) []
        [(start, 0)] →
        Complete (Allowed contents direction label) limit start [] visits) := by
  have listed : graph.nodeExists start = true := by rw [serves.nodeExists, present]
  have readable := @readable_allowed _ _ _ direction label serves present
  have toStart : PathTo (Allowed contents direction label) start start 0 (.single start) :=
    ⟨[], rfl, rfl, rfl⟩
  cases strategy with
  | bfs =>
    have here := readable.within 0 start .start
    obtain ⟨later, found, visits, complete⟩ := @bfsLoop_visits _ _ (graph.nodeIds.length + 1) limit
      _ _ _ readable [(start, 0, .single start)] (Explored.init _ start)
      ⟨nodup_singleton _, by simpa using here, by simp; omega⟩
      (by simpa using toStart)
    refine ⟨(start, .single start) :: later, ?_, visits.cons not_mem_nil
      ⟨0, toStart, fun _ _ => Nat.zero_le _⟩, rfl, fun _ b near => .inr ?_⟩
    · simp only [traverseWith, listed, found, bind, Except.bind]
      rfl
    · rw [map_cons, mem_cons]
      exact (complete b near).imp_left mem_singleton.mp
  | dfs =>
    obtain ⟨later, found, visits, complete⟩ := @dfsLoop_visits _ _
      (stackFuel graph direction label) limit _ _ [] readable [(start, 0, .single start)]
      (forall_mem_singleton.mpr ⟨toStart, fun _ _ => Nat.zero_le _⟩)
      (by simp [pushesLeft, stackFuel, Nat.add_comm])
    refine ⟨later, ?_, visits, dfsLoop_head found, fun cuts => complete (cuts.resolve_left nofun)
      ⟨by simp, nofun⟩⟩
    simp only [traverseWith, listed, bind, Except.bind]
    exact found

end Served

end ErmyaGraph.Query
