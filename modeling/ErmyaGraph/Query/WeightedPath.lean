import ErmyaGraph.Query.Traversal
import Mathlib.Data.List.MinMax

/-! # Weighted shortest paths

A path of the least cost between two nodes. Nodes are settled in the order of their costs; a node
that is found at a lower cost is queued once more, and its older entries are skipped. -/

namespace ErmyaGraph.Query

open Gql Search List Function

/-- A priority queue that gives out an entry of the least cost; which one of several is up to it. -/
structure MinHeap (K σ : Type) [LE K] where
  empty : σ
  push : σ → K × Nat → σ
  pop : σ → Option ((K × Nat) × σ)
  entries : σ → List (K × Nat)
  entries_empty : entries empty = []
  entries_push : ∀ heap entry, (entries (push heap entry)).Perm (entry :: entries heap)
  entries_none : ∀ heap, pop heap = none → entries heap = []
  entries_some : ∀ heap entry rest, pop heap = some (entry, rest) →
    (entry :: entries rest).Perm (entries heap) ∧ ∀ other ∈ entries rest, entry.1 ≤ other.1

/-- The entries in a list. -/
def listHeap (K : Type) [LinearOrder K] : MinHeap K (List (K × Nat)) where
  empty := []
  push heap entry := entry :: heap
  pop heap := (heap.argmin Prod.fst).map fun least => (least, heap.erase least)
  entries := id
  entries_empty := rfl
  entries_push _ _ := .refl _
  entries_none _ none_left := argmin_eq_none.mp (Option.map_eq_none_iff.mp none_left)
  entries_some heap entry rest popped := by
    obtain ⟨least, isLeast, same⟩ := Option.map_eq_some_iff.mp popped
    cases same
    exact ⟨(perm_cons_erase (argmin_mem isLeast)).symm, fun other member =>
      le_of_mem_argmin (mem_of_mem_erase member) isLeast⟩

/-- What the search knows of the nodes: a cost, and from where it comes. -/
structure Labels (K σ : Type) where
  dist : Nat → Option K
  parent : Entries Nat Nat
  heap : σ

section Search

variable {K σ : Type} [AddCommMonoid K] [LinearOrder K] (queue : MinHeap K σ)

/-- A neighbour gets a lower cost over an edge. No cost is an infinite one. -/
def relax (node : Nat) (cost : K) (labels : Labels K σ) (entry : Nat × Nat × K) : Labels K σ :=
  let newCost := cost + entry.2.2
  if (labels.dist entry.1).all fun old => newCost < old then
    { dist := update labels.dist entry.1 (some newCost)
      parent := (entry.1, node, entry.2.1) :: labels.parent
      heap := queue.push labels.heap (newCost, entry.1) }
  else labels

/-- The cost of the goal and the path to it, if the goal is found. -/
def settle (neighbors : Nat → Except Error (List (Nat × Nat × K))) (start goal : Nat) :
    (fuel : Nat) → (visited : List Nat) → Labels K σ → Except Error (Option (K × Option Path))
  | 0, _, _ => .ok none
  | fuel + 1, visited, labels =>
    match queue.pop labels.heap with
    | none => .ok none
    | some ((cost, node), heap) =>
      if node ∈ visited then settle neighbors start goal fuel visited { labels with heap }
      else if node = goal then .ok (some (cost, reconstructPath start goal labels.parent))
      else do
        let around ← neighbors node
        settle neighbors start goal fuel (node :: visited)
          (around.foldl (relax queue node cost) { labels with heap })

variable (graph : GraphAccess) (direction : Direction) (label : Option String) (weight : Edge → K)

/-- The neighbours of a node, each with the id and the weight of the edge to it. -/
def filteredNeighborsWeighted (node : Nat) : Except Error (List (Nat × Nat × K)) := do
  let edges ← filteredEdges graph direction label node
  return edges.map fun edge => (neighborId node edge, edge.id, weight edge)

/-- The query: a path of the least cost. Every entry that is queued is the start, or a neighbour
of a node that is settled for the first time. -/
def findWeighted (start goal : Nat) : Except Error (Option (K × Option Path)) := do
  if !graph.nodeExists start then throw (.nodeNotFound start)
  if !graph.nodeExists goal then throw (.nodeNotFound goal)
  if start = goal then return some (0, some (.single start))
  settle queue (filteredNeighborsWeighted graph direction label weight) start goal
    (stackFuel graph direction label) []
    { dist := update (fun _ => none) start (some 0)
      parent := []
      heap := queue.push queue.empty (0, start) }

end Search

/-- The steps to a node that the parents lead back over. -/
inductive Built (start : Nat) (parent : Entries Nat Nat) : List (Nat × Nat) → Nat → Prop
  | start : Built start parent [] start
  | step {node before edge : Nat} {steps : List (Nat × Nat)} (other : node ≠ start)
    (found : parent.lookup node = some (before, edge)) (built : Built start parent steps before) :
    Built start parent (steps ++ [(edge, node)]) node

variable {parent : Entries Nat Nat} {steps : List (Nat × Nat)}

theorem Built.trail {start node fuel : Nat} (built : Built start parent steps node)
    (enough : steps.length < fuel) : Search.trail start parent fuel node = some steps := by
  induction built generalizing fuel with
  | start =>
    obtain ⟨fuel, rfl⟩ := Nat.exists_eq_succ_of_ne_zero (enough.ne')
    rw [Search.trail, if_pos rfl]
  | step other found _ ih =>
    rw [length_append, length_singleton] at enough
    obtain ⟨fuel, rfl⟩ := Nat.exists_eq_succ_of_ne_zero (Nat.ne_of_gt (Nat.zero_lt_of_lt enough))
    rw [Search.trail, if_neg other, found, Option.bind_some, ih (Nat.lt_of_succ_lt_succ enough)]
    rfl

theorem Built.cons {start node : Nat} {entry : Nat × Nat × Nat}
    (built : Built start parent steps node) (off : ∀ step ∈ steps, step.2 ≠ entry.1) :
    Built start (entry :: parent) steps node := by
  induction built with
  | start => exact .start
  | @step node before edge steps other found _ ih =>
    refine .step other ?_ (ih fun step member => off step (mem_append_left _ member))
    have apart : node ≠ entry.1 := off (edge, node) (by simp)
    rw [lookup_cons, beq_false_of_ne apart]
    exact found

section Settling

variable {K σ : Type} [AddCommMonoid K] [LinearOrder K] [IsOrderedAddMonoid K]
  {queue : MinHeap K σ} {leads : Nat → Nat → Nat → Prop} {weigh : Nat → K} {start goal : Nat}
  {visited : List Nat} {labels : Labels K σ}

/-- The sum of the weights of the edges of a walk. -/
def costOf (weigh : Nat → K) (steps : List (Nat × Nat)) : K :=
  (steps.map fun step => weigh step.1).sum

/-- The parents lead back over a walk of this cost, and only over settled nodes. -/
def Known (leads : Nat → Nat → Nat → Prop) (weigh : Nat → K) (start : Nat) (visited : List Nat)
    (parent : Entries Nat Nat) (node : Nat) (cost : K) : Prop :=
  ∃ steps, Built start parent steps node ∧ Walk leads start steps node ∧
    costOf weigh steps = cost ∧ steps.length ≤ parent.length ∧
    ∀ step ∈ steps, step.2 = node ∨ step.2 ∈ visited

/-- The search while it looks at what is left of the neighbours of the node that was settled last,
at this cost. -/
structure Settling (queue : MinHeap K σ) (leads : Nat → Nat → Nat → Prop) (weigh : Nat → K)
    (start : Nat) (visited : List Nat) (node : Nat) (cost : K) (left : List (Nat × Nat × K))
    (labels : Labels K σ) : Prop where
  start_dist : labels.dist start = some 0
  known : ∀ b c, labels.dist b = some c → Known leads weigh start visited labels.parent b c
  queued : ∀ b c, labels.dist b = some c → b ∉ visited → (c, b) ∈ queue.entries labels.heap
  entries : ∀ entry ∈ queue.entries labels.heap,
    cost ≤ entry.1 ∧ ∃ c, labels.dist entry.2 = some c ∧ c ≤ entry.1
  settled : ∀ a ∈ visited, ∃ c, labels.dist a = some c ∧ c ≤ cost
  closed : ∀ a ∈ visited, ∀ c, labels.dist a = some c → ∀ e b, leads a e b →
    (a = node ∧ (b, e, weigh e) ∈ left) ∨ ∃ d, labels.dist b = some d ∧ d ≤ c + weigh e
  now : left ≠ [] → node ∈ visited ∧ labels.dist node = some cost

theorem costOf_nonneg (nonneg : ∀ e, 0 ≤ weigh e) (steps : List (Nat × Nat)) :
    0 ≤ costOf weigh steps :=
  sum_nonneg (forall_mem_map.mpr fun step _ => nonneg step.1)

variable {node : Nat} {cost c : K}

/-- A walk to a node that is not settled costs no less than some entry of the queue. -/
theorem Settling.entry_le (settling : Settling queue leads weigh start visited node cost [] labels)
    (nonneg : ∀ e, 0 ≤ weigh e) {a b : Nat} {steps : List (Nat × Nat)}
    (known : labels.dist a = some c) (walk : Walk leads a steps b) (out : b ∉ visited) :
    ∃ entry ∈ queue.entries labels.heap, entry.1 ≤ c + costOf weigh steps := by
  induction steps generalizing a c with
  | nil =>
    obtain rfl : a = b := walk
    exact ⟨_, settling.queued a c known out, le_add_of_nonneg_right (costOf_nonneg nonneg [])⟩
  | cons step rest ih =>
    by_cases inside : a ∈ visited
    · obtain ⟨-, none_left⟩ | ⟨d, dist, le⟩ := settling.closed a inside c known _ _ walk.1
      · cases none_left
      · obtain ⟨entry, member, below⟩ := ih dist walk.2
        refine ⟨entry, member, below.trans ?_⟩
        calc d + costOf weigh rest ≤ c + weigh step.1 + costOf weigh rest := by gcongr
          _ = c + costOf weigh (step :: rest) := by
            rw [add_assoc, costOf, costOf, map_cons, sum_cons]
    · exact ⟨_, settling.queued a c known inside,
        le_add_of_nonneg_right (costOf_nonneg nonneg (step :: rest))⟩

omit [LinearOrder K] [IsOrderedAddMonoid K] in
theorem Known.push {a b e : Nat} (known : Known leads weigh start visited parent a c)
    (settled : a ∈ visited) (new : b ∉ visited) (other : b ≠ start) (edge : leads a e b) :
    Known leads weigh start visited ((b, a, e) :: parent) b (c + weigh e) := by
  obtain ⟨steps, built, walk, rfl, short, within⟩ := known
  have inside : ∀ step ∈ steps, step.2 ∈ visited := fun step member =>
    (within step member).elim (fun same => same ▸ settled) id
  refine ⟨steps ++ [(e, b)], .step other lookup_cons_self
    (built.cons fun step member (same : step.2 = b) => new (same ▸ inside step member)),
    walk.snoc edge, ?_, ?_, ?_⟩
  · rw [costOf, costOf, map_append, sum_append, map_singleton, sum_singleton]
  · simpa using short
  · exact forall_mem_append.mpr
      ⟨fun step member => .inr (inside step member), by simp⟩

omit [LinearOrder K] [IsOrderedAddMonoid K] in
theorem Known.keep {a b : Nat} {before : Nat × Nat}
    (known : Known leads weigh start visited parent a c) (new : b ∉ visited) (other : a ≠ b) :
    Known leads weigh start visited ((b, before) :: parent) a c := by
  obtain ⟨steps, built, walk, cost, short, within⟩ := known
  refine ⟨steps, built.cons fun step member (same : step.2 = b) => ?_, walk, cost,
    short.trans (Nat.le_succ _), within⟩
  rcases within step member with here | inside
  · exact other (here.symm.trans same)
  · exact new (same ▸ inside)

variable {left : List (Nat × Nat × K)}

/-- One edge is looked at. -/
theorem Settling.relax {b e : Nat}
    (settling : Settling queue leads weigh start visited node cost ((b, e, weigh e) :: left) labels)
    (nonneg : ∀ e, 0 ≤ weigh e) (edge : leads node e b) :
    Settling queue leads weigh start visited node cost left
      (relax queue node cost labels (b, e, weigh e)) := by
  obtain ⟨start_dist, known, queued, entries, settled, closed, now⟩ := settling
  obtain ⟨here, dist⟩ := now (cons_ne_nil _ _)
  have above : cost ≤ cost + weigh e := le_add_of_nonneg_right (nonneg e)
  unfold Query.relax
  dsimp only
  split
  · next lower =>
      have lower : ∀ old, labels.dist b = some old → cost + weigh e < old := fun old isOld => by
        simpa [isOld] using lower
      have new : b ∉ visited := fun inside => by
        obtain ⟨c, isCost, le⟩ := settled b inside
        exact absurd (lower c isCost) (not_lt.mpr (le.trans above))
      have other : b ≠ start := fun same => by
        obtain ⟨steps, -, -, rfl, -⟩ := known node cost dist
        exact absurd (lower 0 (same ▸ start_dist))
          (not_lt.mpr ((costOf_nonneg nonneg steps).trans above))
      have kept {x : Nat} (apart : x ≠ b) :
          update labels.dist b (some (cost + weigh e)) x = labels.dist x :=
        update_of_ne apart _ _
      have set : update labels.dist b (some (cost + weigh e)) b =
          some (cost + weigh e) := update_self ..
      -- No node costs more than before.
      have below {x : Nat} {c : K} (old : labels.dist x = some c) : ∃ d,
          update labels.dist b (some (cost + weigh e)) x = some d ∧ d ≤ c := by
        by_cases same : x = b
        · subst same
          exact ⟨_, set, (lower c old).le⟩
        · exact ⟨c, (kept same).trans old, le_refl c⟩
      have inside {a : Nat} (member : a ∈ visited) : a ≠ b := fun same => new (same ▸ member)
      have pushed (entry : K × Nat) := (queue.entries_push labels.heap (cost + weigh e, b)).mem_iff
        (a := entry)
      refine ⟨(kept other.symm).trans start_dist, fun x c isCost => ?_, fun x c isCost out => ?_,
        fun entry member => ?_, fun a member => ?_, fun a member c isCost e' b' edge' => ?_,
        fun _ => ⟨here, (kept (inside here)).trans dist⟩⟩
      · by_cases same : x = b
        · subst same
          obtain rfl := Option.some.inj (set.symm.trans isCost)
          exact (known node cost dist).push here new other edge
        · exact (known x c ((kept same).symm.trans isCost)).keep new same
      · refine (pushed _).mpr (mem_cons.mpr ?_)
        by_cases same : x = b
        · subst same
          exact .inl (by rw [Option.some.inj (set.symm.trans isCost)])
        · exact .inr (queued x c ((kept same).symm.trans isCost) out)
      · rcases mem_cons.mp ((pushed entry).mp member) with rfl | old
        · exact ⟨above, _, set, le_refl _⟩
        · obtain ⟨le, c, isCost, le'⟩ := entries entry old
          obtain ⟨d, isDist, less⟩ := below isCost
          exact ⟨le, d, isDist, less.trans le'⟩
      · obtain ⟨c, isCost, le⟩ := settled a member
        exact ⟨c, (kept (inside member)).trans isCost, le⟩
      · replace isCost := (kept (inside member)).symm.trans isCost
        rcases closed a member c isCost e' b' edge' with ⟨rfl, first⟩ | ⟨d, isDist, le⟩
        · rcases mem_cons.mp first with same | rest
          · cases same
            obtain rfl := Option.some.inj (dist.symm.trans isCost)
            exact .inr ⟨_, set, le_refl _⟩
          · exact .inl ⟨rfl, rest⟩
        · obtain ⟨d', isDist', less⟩ := below isDist
          exact .inr ⟨d', isDist', less.trans le⟩
  · next kept =>
      refine ⟨start_dist, known, queued, entries, settled, fun a member c isCost e' b' edge' => ?_,
        fun _ => ⟨here, dist⟩⟩
      rcases closed a member c isCost e' b' edge' with ⟨rfl, first⟩ | found
      · rcases mem_cons.mp first with same | rest
        · cases same
          obtain rfl := Option.some.inj (dist.symm.trans isCost)
          cases old : labels.dist b with
          | none => simp [old] at kept
          | some d => exact .inr ⟨d, rfl, by simpa [old] using kept⟩
        · exact .inl ⟨rfl, rest⟩
      · exact .inr found

theorem Settling.relax_all
    (settling : Settling queue leads weigh start visited node cost left labels)
    (nonneg : ∀ e, 0 ≤ weigh e)
    (sound : ∀ entry ∈ left, leads node entry.2.1 entry.1 ∧ entry.2.2 = weigh entry.2.1) :
    Settling queue leads weigh start visited node cost []
      (left.foldl (Query.relax queue node cost) labels) := by
  induction left generalizing labels with
  | nil => exact settling
  | cons entry rest ih =>
    obtain ⟨b, e, w⟩ := entry
    obtain ⟨⟨edge, weighed⟩, later⟩ := forall_mem_cons.mp sound
    obtain rfl : w = weigh e := weighed
    exact ih (settling.relax nonneg edge) later

omit [IsOrderedAddMonoid K] in
theorem length_relax_all (queue : MinHeap K σ) (labels : Labels K σ) (node : Nat) (cost : K)
    (left : List (Nat × Nat × K)) :
    (queue.entries (left.foldl (Query.relax queue node cost) labels).heap).length ≤
      (queue.entries labels.heap).length + left.length := by
  induction left generalizing labels with
  | nil => exact le_rfl
  | cons entry rest ih =>
    refine (ih (Query.relax queue node cost labels entry)).trans ?_
    rw [length_cons, add_comm rest.length, ← add_assoc]
    refine Nat.add_le_add_right ?_ _
    unfold Query.relax
    dsimp only
    split
    · exact (queue.entries_push _ _).length_eq.le
    · exact Nat.le_succ _

/-- What is asked of the search: the walk of the answer costs as much as it says, and no walk costs
less. No answer is that the goal is out of reach. -/
structure LeastCost (leads : Nat → Nat → Nat → Prop) (weigh : Nat → K) (start goal : Nat)
    (answer : Option (K × Option Path)) : Prop where
  none_iff : answer = none ↔ ¬ ∃ steps, Walk leads start steps goal
  least : ∀ found ∈ answer, ∃ steps, Walk leads start steps goal ∧
    found = (costOf weigh steps, some (.along start steps)) ∧
    ∀ other, Walk leads start other goal → costOf weigh steps ≤ costOf weigh other

omit [IsOrderedAddMonoid K] in
theorem Settling.initial (queue : MinHeap K σ) : Settling queue leads weigh start [] start 0 []
    ⟨update (fun _ => none) start (some 0), [], queue.push queue.empty (0, start)⟩ := by
  have entries (entry : K × Nat) :
      entry ∈ queue.entries (queue.push queue.empty (0, start)) ↔ entry = (0, start) := by
    rw [(queue.entries_push _ _).mem_iff, queue.entries_empty, mem_singleton]
  have first : update (fun _ => none) start (some (0 : K)) start = some 0 := update_self ..
  have only {b : Nat} {c : K}
      (isCost : update (fun _ => none) start (some 0) b = some c) :
      b = start ∧ c = 0 := by
    by_cases here : b = start
    · subst here
      exact ⟨rfl, (Option.some.inj (first.symm.trans isCost)).symm⟩
    · rw [update_of_ne here] at isCost
      cases isCost
  refine ⟨first, fun b c isCost => ?_, fun b c isCost _ => ?_, fun entry member => ?_, nofun,
    nofun, fun left => absurd rfl left⟩
  · obtain ⟨rfl, rfl⟩ := only isCost
    exact ⟨[], .start, rfl, rfl, le_rfl, nofun⟩
  · obtain ⟨rfl, rfl⟩ := only isCost
    exact (entries _).mpr rfl
  · obtain rfl := (entries entry).mp member
    exact ⟨le_refl 0, 0, first, le_refl 0⟩

theorem Settling.out_of_reach
    (settling : Settling queue leads weigh start visited node cost [] labels)
    (nonneg : ∀ e, 0 ≤ weigh e) (missing : goal ∉ visited)
    (none_left : queue.entries labels.heap = []) : LeastCost leads weigh start goal none := by
  refine ⟨iff_of_true rfl fun ⟨steps, walk⟩ => ?_, nofun⟩
  obtain ⟨entry, member, -⟩ := settling.entry_le nonneg settling.start_dist walk missing
  rw [none_left] at member
  cases member

omit [IsOrderedAddMonoid K] in
/-- An entry of a node that is settled already is skipped. -/
theorem Settling.skip {next : Nat} {heap : σ}
    (settling : Settling queue leads weigh start visited node cost [] labels)
    (perm : ((c, next) :: queue.entries heap).Perm (queue.entries labels.heap))
    (stale : next ∈ visited) :
    Settling queue leads weigh start visited node cost [] { labels with heap } :=
  { settling with
    queued := fun b d isCost out => by
      refine (mem_cons.mp (perm.mem_iff.mpr (settling.queued b d isCost out))).resolve_left
        fun same => ?_
      cases same
      exact out stale
    entries := fun entry member =>
      settling.entries entry (perm.mem_iff.mp (.tail _ member)) }

section Pop

variable {next : Nat} {heap : σ}
  (settling : Settling queue leads weigh start visited node cost [] labels)
  (perm : ((c, next) :: queue.entries heap).Perm (queue.entries labels.heap))
  (least : ∀ other ∈ queue.entries heap, c ≤ other.1) (fresh : next ∉ visited)
include settling perm least fresh

omit [IsOrderedAddMonoid K] in
/-- The entry is the latest of its node, since the queue gives out the least. -/
theorem Settling.latest : labels.dist next = some c := by
  obtain ⟨-, d, dist, le⟩ := settling.entries _ (perm.mem_iff.mp mem_cons_self)
  obtain rfl : d = c := by
    refine le.antisymm ?_
    rcases mem_cons.mp (perm.mem_iff.mpr (settling.queued _ d dist fresh))
      with same | member
    · cases same
      exact le_refl _
    · exact least _ member
  exact dist

theorem Settling.cheapest (nonneg : ∀ e, 0 ≤ weigh e) {other : List (Nat × Nat)}
    (walk : Walk leads start other next) : c ≤ costOf weigh other := by
  obtain ⟨entry, member, below⟩ := settling.entry_le nonneg settling.start_dist walk fresh
  rw [zero_add] at below
  refine le_trans ?_ below
  rcases mem_cons.mp (perm.mem_iff.mpr member) with rfl | rest
  · exact le_refl _
  · exact least _ rest

omit [IsOrderedAddMonoid K] in
/-- The node is settled, and all of its neighbours are left to look at. -/
theorem Settling.settle {around : List (Nat × Nat × K)}
    (members : ∀ e b, leads next e b → (b, e, weigh e) ∈ around) :
    Settling queue leads weigh start (next :: visited) next c around { labels with heap } := by
  have dist := settling.latest perm least fresh
  have above := (settling.entries _ (perm.mem_iff.mp mem_cons_self)).1
  refine ⟨settling.start_dist, fun b d known => ?_, fun b d known out => ?_,
    fun entry member => ⟨least entry member,
      (settling.entries entry (perm.mem_iff.mp (.tail _ member))).2⟩,
    forall_mem_cons.mpr ⟨⟨c, dist, le_refl c⟩, fun a old => ?_⟩,
    forall_mem_cons.mpr ⟨fun d known e b edge => ?_, fun a old d known e b edge => ?_⟩,
    fun _ => ⟨.head _, dist⟩⟩
  · obtain ⟨steps, built, walk, isCost, short, within⟩ := settling.known b d known
    exact ⟨steps, built, walk, isCost, short, fun step member =>
      (within step member).imp_right (mem_cons_of_mem _)⟩
  · rw [mem_cons, not_or] at out
    refine (mem_cons.mp (perm.mem_iff.mpr (settling.queued b d known out.2))).resolve_left
      fun same => ?_
    cases same
    exact out.1 rfl
  · obtain ⟨d, known, less⟩ := settling.settled a old
    exact ⟨d, known, less.trans above⟩
  · exact .inl ⟨rfl, members e b edge⟩
  · exact (settling.closed a old d known e b edge).elim (fun left => nomatch left.2) .inr

end Pop

theorem settle_least {neighbors : Nat → Except Error (List (Nat × Nat × K))}
    {plain : Nat → Except Error (List (Nat × Nat))} {all : List Nat} {fuel : Nat}
    (nonneg : ∀ e, 0 ≤ weigh e)
    (reads : ∀ n a, Reach leads start n a → a ∈ all ∧ ∃ around, neighbors a = .ok around ∧
      plain a = .ok (around.map fun entry => (entry.1, entry.2.1)) ∧
      ∀ b e w, (b, e, w) ∈ around ↔ leads a e b ∧ w = weigh e)
    (settling : Settling queue leads weigh start visited node cost [] labels)
    (missing : goal ∉ visited)
    (enough : (queue.entries labels.heap).length + pushesLeft plain all visited ≤ fuel) :
    ∃ answer, settle queue neighbors start goal fuel visited labels = .ok answer ∧
      LeastCost leads weigh start goal answer := by
  induction fuel generalizing visited labels node cost with
  | zero =>
    exact ⟨none, rfl, settling.out_of_reach nonneg missing (length_eq_zero_iff.mp (by omega))⟩
  | succ fuel ih =>
    rw [settle]
    split
    · next popped =>
        exact ⟨none, rfl, settling.out_of_reach nonneg missing (queue.entries_none _ popped)⟩
    · next c next heap popped =>
        obtain ⟨perm, least⟩ := queue.entries_some _ _ _ popped
        have fewer : (queue.entries heap).length + 1 = (queue.entries labels.heap).length :=
          perm.length_eq
        split
        · next stale => exact ih (settling.skip perm stale) missing (by dsimp only; omega)
        · next fresh =>
            have dist := settling.latest perm least fresh
            obtain ⟨steps, built, walk, rfl, short, -⟩ := settling.known _ _ dist
            split
            · next final =>
                subst final
                refine ⟨_, rfl, iff_of_false nofun (not_not_intro ⟨steps, walk⟩), ?_⟩
                rintro found ⟨⟩
                refine ⟨steps, walk, ?_, fun other => settling.cheapest perm least fresh nonneg⟩
                rw [reconstructPath_eq (built.trail (Nat.lt_succ_of_le short))]
            · next other =>
                obtain ⟨listed, around, read, read', members⟩ := reads _ _ walk.reach
                have room := pushesLeft_visit listed fresh read'
                rw [length_map] at room
                have started := settling.settle perm least fresh
                  fun e b edge => (members b e _).mpr ⟨edge, rfl⟩
                have pushes := length_relax_all queue { labels with heap } next
                  (costOf weigh steps) around
                rw [read]
                refine ih (started.relax_all nonneg fun entry => (members _ _ _).mp)
                  (not_mem_cons_of_ne_of_not_mem (Ne.symm other) missing) ?_
                dsimp only at pushes room ⊢
                omega

end Settling

section Served

variable {K σ : Type} [AddCommMonoid K] [LinearOrder K] (queue : MinHeap K σ)
  {graph : GraphAccess} {contents : Contents}

/-- The weight of the edge with an id. -/
def weightOf (contents : Contents) (weight : Edge → K) (id : Nat) : K :=
  (contents.edges id).elim 0 weight

omit [LinearOrder K] in
theorem filteredNeighborsWeighted_ok (serves : graph.Serves contents) {node : Nat}
    (present : (contents.nodes node).isSome) (direction : Direction) (label : Option String)
    (weight : Edge → K) :
    ∃ around, filteredNeighborsWeighted graph direction label weight node = .ok around ∧
      filteredNeighbors graph direction label node =
        .ok (around.map fun entry => (entry.1, entry.2.1)) ∧
      ∀ b e w, (b, e, w) ∈ around ↔
        Allowed contents direction label node e b ∧ w = weightOf contents weight e := by
  obtain ⟨edges, read, members⟩ := filteredEdges_ok serves present direction label
  obtain ⟨plain, read', allowed⟩ := filteredNeighbors_ok serves present direction label
  have same : filteredNeighbors graph direction label node =
      .ok (edges.map fun edge => (neighborId node edge, edge.id)) := by
    rw [filteredNeighbors, read]
    rfl
  refine ⟨_, by rw [filteredNeighborsWeighted, read]; rfl, ?_, fun b e w => ?_⟩
  · rw [same, map_map]
    rfl
  · obtain rfl := Except.ok.inj (same.symm.trans read')
    rw [← allowed, mem_map, mem_map]
    constructor
    · rintro ⟨edge, member, isEdge⟩
      cases isEdge
      refine ⟨⟨edge, member, rfl⟩, ?_⟩
      rw [weightOf, ((members edge).mp member).1, Option.elim_some]
    · rintro ⟨⟨edge, member, isEdge⟩, rfl⟩
      cases isEdge
      refine ⟨edge, member, ?_⟩
      rw [weightOf, ((members edge).mp member).1, Option.elim_some]

/-- **Weighted shortest paths.** Between existing nodes the search always answers, with a walk of
the least cost and that cost, or with nothing if the goal is out of reach. -/
theorem findWeighted_least [IsOrderedAddMonoid K] (serves : graph.Serves contents)
    {start goal : Nat} (hasStart : (contents.nodes start).isSome)
    (hasGoal : (contents.nodes goal).isSome) (direction : Direction) (label : Option String)
    (weight : Edge → K) (nonneg : ∀ edge, 0 ≤ weight edge) :
    ∃ answer, findWeighted queue graph direction label weight start goal = .ok answer ∧
      LeastCost (Allowed contents direction label) (weightOf contents weight) start goal
        answer := by
  have listed : graph.nodeExists start = true := by rw [serves.nodeExists, hasStart]
  have listed' : graph.nodeExists goal = true := by rw [serves.nodeExists, hasGoal]
  have weigh_nonneg (id : Nat) : 0 ≤ weightOf contents weight id := by
    unfold weightOf
    cases contents.edges id with
    | none => exact le_refl 0
    | some edge => exact nonneg edge
  by_cases same : start = goal
  · subst same
    refine ⟨some (0, some (.single start)), ?_, iff_of_false nofun (not_not_intro ⟨[], rfl⟩), ?_⟩
    · simp only [findWeighted, listed, bind, Except.bind]
      rfl
    · rintro found ⟨⟩
      exact ⟨[], rfl, rfl, fun other _ => costOf_nonneg weigh_nonneg other⟩
  · obtain ⟨answer, found, least⟩ := settle_least weigh_nonneg
      (fun n a reach => ⟨(serves.nodeIds.mem_iff a).mpr (reach_allowed_present hasStart reach),
        filteredNeighborsWeighted_ok serves (reach_allowed_present hasStart reach) direction label
          weight⟩) (.initial queue) (not_mem_nil (a := goal))
      (Nat.le_of_eq (show _ = stackFuel graph direction label by
        simp [(queue.entries_push _ _).length_eq, queue.entries_empty, pushesLeft, stackFuel,
          add_comm]))
    refine ⟨answer, ?_, least⟩
    simp only [findWeighted, listed, listed', if_neg same, bind, Except.bind]
    exact found

end Served

theorem findWeighted_least_detour : ∃ answer,
    findWeighted (listHeap Nat) detour.access .outgoing none (fun edge => edge.id) 0 3 =
        .ok answer ∧
      LeastCost (Allowed detour.contents .outgoing none)
        (weightOf detour.contents fun edge => edge.id) 0 3 answer :=
  findWeighted_least (listHeap Nat) detour.serves (by decide) (by decide) .outgoing none _
    fun _ => Nat.zero_le _

end ErmyaGraph.Query
