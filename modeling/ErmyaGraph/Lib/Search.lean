import Mathlib.Algebra.Order.Ring.Int
import Mathlib.Data.List.Pairwise
import Mathlib.Data.List.Nodup
import Mathlib.Data.List.Perm.Subperm

/-! # Breadth-first search

A search takes the nodes from a queue and enters what it has not seen. Nodes
leave the queue in the order of their distance from the start. -/

namespace Search

open List

variable {α : Type} {ε : Type}

section Distance

variable (leads : α → ε → α → Prop) (start : α)

/-- A node is reached over a number of edges. -/
inductive Reach : Nat → α → Prop
  | start : Reach 0 start
  | step {n : Nat} {a b : α} {e : ε} (before : Reach n a) (edge : leads a e b) : Reach (n + 1) b

/-- The least number of edges over which a node is reached. -/
structure Distance (n : Nat) (a : α) : Prop where
  reach : Reach leads start n a
  least : ∀ m, Reach leads start m a → n ≤ m

end Distance

variable {leads : α → ε → α → Prop} {start : α}

theorem Distance.unique {n m : Nat} {a : α} (left : Distance leads start n a)
    (right : Distance leads start m a) : n = m :=
  Nat.le_antisymm (left.least m right.reach) (right.least n left.reach)

theorem distance_start : Distance leads start 0 start := ⟨.start, fun _ _ => Nat.zero_le _⟩

theorem Reach.eq_start {a : α} (reach : Reach leads start 0 a) : a = start := by
  cases reach
  rfl

/-- Of the nodes next to a node those enter that were not seen before. -/
structure Entered (next : α → Prop) (visited visited' new : List α) : Prop where
  nodup : visited.Nodup → visited'.Nodup
  length : visited'.length = visited.length + new.length
  mem_iff : ∀ b, b ∈ visited' ↔ b ∈ visited ∨ next b
  new_iff : ∀ b, b ∈ new ↔ next b ∧ b ∉ visited

namespace Entered

variable {next : α → Prop} {visited visited' new : List α}

theorem nil (visited : List α) : Entered (fun _ => False) visited visited [] where
  nodup distinct := distinct
  length := rfl
  mem_iff _ := (or_iff_left id).symm
  new_iff _ := ⟨nofun, fun none => none.1.elim⟩

theorem congr {next' : α → Prop} (entered : Entered next visited visited' new)
    (same : ∀ b, next' b ↔ next b) : Entered next' visited visited' new := by
  rw [funext fun b => propext (same b)]
  exact entered

theorem seen (entered : Entered next visited visited' new) {c : α} (old : c ∈ visited) :
    Entered (fun b => b = c ∨ next b) visited visited' new where
  nodup := entered.nodup
  length := entered.length
  mem_iff b := by
    rw [entered.mem_iff]
    grind
  new_iff b := by
    rw [entered.new_iff]
    grind

theorem enter {c : α} (entered : Entered next (c :: visited) visited' new) (fresh : c ∉ visited) :
    Entered (fun b => b = c ∨ next b) visited visited' (c :: new) where
  nodup distinct := entered.nodup (nodup_cons.mpr ⟨fresh, distinct⟩)
  length := by
    rw [entered.length, length_cons, length_cons]
    omega
  mem_iff b := by
    rw [entered.mem_iff, mem_cons]
    grind
  new_iff b := by
    rw [mem_cons, entered.new_iff, mem_cons]
    grind

end Entered

/-- A search under way: the seen nodes, and in the queue those whose edges are still to be
followed, each with its distance. -/
structure Explored (leads : α → ε → α → Prop) (start : α) (visited : List α)
    (queue : List (Nat × α)) : Prop where
  start_mem : start ∈ visited
  distance : ∀ entry ∈ queue, Distance leads start entry.1 entry.2
  sorted : queue.Pairwise fun first second => first.1 ≤ second.1
  window : ∀ first ∈ queue, ∀ second ∈ queue, second.1 ≤ first.1 + 1
  closed : ∀ a ∈ visited, (∀ entry ∈ queue, entry.2 ≠ a) → ∀ e b, leads a e b → b ∈ visited

namespace Explored

variable {visited : List α} {queue : List (Nat × α)}

theorem init (leads : α → ε → α → Prop) (start : α) :
    Explored leads start [start] [(0, start)] where
  start_mem := mem_cons_self
  distance := by
    intro entry mem
    rw [mem_singleton.mp mem]
    exact distance_start
  sorted := pairwise_singleton _ _
  window := by
    intro first mem second mem'
    rw [mem_singleton.mp mem, mem_singleton.mp mem']
    exact Nat.zero_le _
  closed := by
    intro a mem unqueued
    exact absurd (mem_singleton.mp mem).symm (unqueued _ mem_cons_self)

variable {d : Nat} {a : α}

section

variable (explored : Explored leads start visited ((d, a) :: queue))
include explored

theorem mem_visited_of_le {m : Nat}
    {b : α} (reach : Reach leads start m b) (near : m ≤ d) : b ∈ visited := by
  induction reach with
  | start => exact explored.start_mem
  | @step m p b e _ edge ih =>
    have seen := ih (by omega)
    by_cases queued : ∃ entry ∈ (d, a) :: queue, entry.2 = p
    · obtain ⟨entry, mem, rfl⟩ := queued
      have early := (explored.distance entry mem).least m (by assumption)
      have late : d ≤ entry.1 := by
        rcases mem_cons.mp mem with rfl | later
        · exact Nat.le_refl _
        · exact rel_of_pairwise_cons explored.sorted later
      omega
    · have unqueued : ∀ entry ∈ (d, a) :: queue, entry.2 ≠ p :=
        fun entry mem same => queued ⟨entry, mem, same⟩
      exact explored.closed p seen unqueued e b edge

theorem distance_new {e : ε} {b : α} (edge : leads a e b) (new : b ∉ visited) :
    Distance leads start (d + 1) b where
  reach := (explored.distance _ mem_cons_self).reach.step edge
  least m reach := by
    by_contra short
    exact new (explored.mem_visited_of_le reach (by omega))

/-- The front of the queue leaves it, and what it leads to and is new enters. -/
theorem pop {visited' new : List α}
    (entered : Entered (fun b => ∃ e, leads a e b) visited visited' new) :
    Explored leads start visited' (queue ++ new.map (d + 1, ·)) := by
  have low : ∀ entry ∈ queue, d ≤ entry.1 := fun entry mem =>
    rel_of_pairwise_cons explored.sorted mem
  have high : ∀ entry ∈ queue, entry.1 ≤ d + 1 := fun entry mem =>
    explored.window _ mem_cons_self entry (mem_cons_of_mem _ mem)
  have deeper : ∀ entry ∈ new.map (d + 1, ·), entry.1 = d + 1 := by
    intro entry added
    obtain ⟨b, _, rfl⟩ := mem_map.mp added
    rfl
  have between : ∀ entry ∈ queue ++ new.map (d + 1, ·), d ≤ entry.1 ∧ entry.1 ≤ d + 1 := by
    intro entry mem
    rcases mem_append.mp mem with old | added
    · exact ⟨low entry old, high entry old⟩
    · have depth := deeper entry added
      omega
  constructor
  · exact (entered.mem_iff start).mpr (.inl explored.start_mem)
  · intro entry mem
    rcases mem_append.mp mem with old | added
    · exact explored.distance entry (.tail _ old)
    · obtain ⟨b, here, rfl⟩ := mem_map.mp added
      obtain ⟨⟨e, edge⟩, unseen⟩ := (entered.new_iff b).mp here
      exact explored.distance_new edge unseen
  · refine pairwise_append.mpr ⟨explored.sorted.of_cons, ?_, fun first old second added => ?_⟩
    · refine pairwise_of_forall_mem_list fun first added second added' => ?_
      exact Nat.le_of_eq ((deeper first added).trans (deeper second added').symm)
    · rw [deeper second added]
      exact high first old
  · intro first mem second mem'
    have left := between first mem
    have right := between second mem'
    omega
  · intro b mem unqueued e c edge
    rw [entered.mem_iff]
    by_cases front : b = a
    · exact .inr ⟨e, front ▸ edge⟩
    · have stays (old : b ∈ visited) : c ∈ visited := by
        refine explored.closed b old (fun entry inside same => ?_) e c edge
        rcases mem_cons.mp inside with rfl | inside
        · exact front same.symm
        · exact unqueued entry (mem_append_left _ inside) same
      rcases (entered.mem_iff b).mp mem with old | next
      · exact .inl (stays old)
      · by_cases old : b ∈ visited
        · exact .inl (stays old)
        · have added := mem_map_of_mem (f := (d + 1, ·)) ((entered.new_iff b).mpr ⟨next, old⟩)
          exact absurd rfl (unqueued _ (mem_append_right _ added))

end

theorem mem_visited_of_reach (explored : Explored leads start visited []) {n : Nat}
    (reach : Reach leads start n a) : a ∈ visited := by
  induction reach with
  | start => exact explored.start_mem
  | @step n a b e _ edge ih =>
    exact explored.closed a ih (fun _ mem => absurd mem not_mem_nil) e b edge

end Explored

/-- The seen nodes are among finitely many, and rounds are left for the queue and the rest. -/
structure Bounded (all visited : List α) (waiting fuel : Nat) : Prop where
  nodup : visited.Nodup
  subset : visited ⊆ all
  rounds : waiting + (all.length - visited.length) ≤ fuel

theorem Bounded.pop {all visited visited' new : List α} {next : α → Prop} {waiting fuel : Nat}
    (bounded : Bounded all visited (waiting + 1) (fuel + 1))
    (entered : Entered next visited visited' new) (within : ∀ b, next b → b ∈ all) :
    Bounded all visited' (waiting + new.length) fuel := by
  have subset : visited' ⊆ all := by
    intro b mem
    rcases (entered.mem_iff b).mp mem with old | here
    · exact bounded.subset old
    · exact within b here
  have nodup := entered.nodup bounded.nodup
  refine ⟨nodup, subset, ?_⟩
  have rounds := bounded.rounds
  have room := (nodup.subperm subset).length_le
  have grows := entered.length
  omega

end Search
