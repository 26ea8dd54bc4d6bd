import ErmyaGraph.Lib.Sorting

/-! # Moving rows in place

The rows of a sorted result are moved in place, along one cycle of a permutation after the other. -/

namespace ErmyaGraph.Gql

namespace Slice

open Sorting Option

/-- The elements, the places that are done, and the swaps that were made. -/
structure Moving (α : Type) (n : Nat) where
  data : Vector α n
  done : Vector Bool n
  swaps : List (Nat × Nat) := []

section Loops

variable {α : Type} {n : Nat}

def swap (data : Vector α n) (places : Nat × Nat) : Option (Vector α n) :=
  if inside : places.1 < n ∧ places.2 < n then
    some (data.swap places.1 places.2 inside.1 inside.2)
  else none

def mark (done : Vector Bool n) (i : Nat) : Option (Vector Bool n) :=
  if inside : i < n then some (done.set i true) else none

/-- The inner loop, for at most so many rounds. There is no result if an index is out of range, or
if the loop goes on. -/
def followCycle (perm : List Nat) (i : Nat) : (fuel : Nat) → (j : Nat) → Moving α n →
    Option (Moving α n)
  | 0, _, _ => none
  | fuel + 1, j, moving => do
    let next ← perm[j]?
    let done ← mark moving.done j
    if next = i then return { moving with done }
    else
      let data ← swap moving.data (j, next)
      followCycle perm i fuel next ⟨data, done, moving.swaps ++ [(j, next)]⟩

def permuteFrom (perm : List Nat) (moving : Moving α n) (i : Nat) : Option (Moving α n) := do
  let finished ← moving.done[i]?
  if finished then return { moving with done := ← mark moving.done i }
  else
    let first ← perm[i]?
    if first = i then return { moving with done := ← mark moving.done i }
    else followCycle perm i n i moving

def applyPermutation (data : Vector α n) (perm : List Nat) : Option (Moving α n) :=
  (List.range n).foldlM (permuteFrom perm) { data, done := .replicate n false }

end Loops

/-- Two places are on one cycle. -/
def OneCycle (perm : List Nat) : Nat → Nat → Prop :=
  Relation.EqvGen fun a b => perm[a]? = some b

/-- The elements after these swaps. -/
def play {α : Type} {n : Nat} (original : Vector α n) (swaps : List (Nat × Nat)) : Vector α n :=
  swaps.foldl (fun data places => (swap data places).getD data) original

/-- Every element is on the cycle that it came from. -/
def Within {α : Type} {n : Nat} (perm : List Nat) (original data : Vector α n) : Prop :=
  ∀ k : Fin n, ∃ source : Fin n, OneCycle perm k source ∧ data.get k = original.get source

theorem get_eq {α : Type} {n : Nat} (v : Vector α n) (k : Fin n) :
    v.get k = getElem v k.1 k.isLt := rfl

section Correct

variable {α : Type} {n : Nat} {perm : List Nat} {original data : Vector α n} {moving : Moving α n}
  {moved : Vector α n × Finset (Fin n)}

theorem Within.swap {j next : Nat} (within : Within perm original data)
    (leads : perm[j]? = some next) :
    Within perm original ((Slice.swap data (j, next)).getD data) := by
  rw [Slice.swap]
  split
  · next inside =>
      intro k
      have step : OneCycle perm j next := .rel _ _ leads
      by_cases first : k.1 = j
      · obtain ⟨source, one, same⟩ := within ⟨next, inside.2⟩
        refine ⟨source, first ▸ step.trans _ _ _ one, ?_⟩
        rw [← same]
        simp [get_eq, first]
      · by_cases second : k.1 = next
        · obtain ⟨source, one, same⟩ := within ⟨j, inside.1⟩
          refine ⟨source, second ▸ (step.symm _ _).trans _ _ _ one, ?_⟩
          rw [← same]
          simp [get_eq, second]
        · obtain ⟨source, one, same⟩ := within k
          refine ⟨source, one, ?_⟩
          rw [← same]
          simp [get_eq, first, second]
  · exact within

theorem play_within (original : Vector α n) {swaps : List (Nat × Nat)}
    (leads : ∀ places ∈ swaps, perm[places.1]? = some places.2) :
    Within perm original (play original swaps) := by
  suffices ∀ data, Within perm original data → Within perm original
      (swaps.foldl (fun data places => (swap data places).getD data) data) from
    this original fun k => ⟨k, .refl _, rfl⟩
  induction swaps with
  | nil => exact fun _ within => within
  | cons places rest ih =>
    obtain ⟨here, later⟩ := List.forall_mem_cons.mp leads
    exact fun data within => ih later _ (within.swap here)

/-- The places that are done are marked, and the swaps account for what was moved. -/
structure Shows (perm : List Nat) (original : Vector α n) (moving : Moving α n)
    (moved : Vector α n × Finset (Fin n)) : Prop where
  data : moving.data = moved.1
  done : ∀ k : Fin n, moving.done.get k = true ↔ k ∈ moved.2
  played : moving.data = play original moving.swaps
  leads : ∀ places ∈ moving.swaps, perm[places.1]? = some places.2

theorem Shows.mark (shows_ : Shows perm original moving moved) (i : Fin n) :
    ∃ done, Slice.mark moving.done i = some done ∧
      Shows perm original { moving with done } (moved.1, insert i moved.2) := by
  refine ⟨_, dif_pos i.isLt, shows_.data, fun k => ?_, shows_.played, shows_.leads⟩
  rw [Finset.mem_insert, ← shows_.done k]
  by_cases same : k = i
  · simp [get_eq, same]
  · have apart : i.1 ≠ k.1 := fun equal => same (Fin.ext equal.symm)
    simp [get_eq, same, apart]

theorem Shows.swap (shows_ : Shows perm original moving moved) {j next : Fin n}
    (leads : perm[j.1]? = some next.1) :
    ∃ data, Slice.swap moving.data (j, next) = some data ∧
      Shows perm original ⟨data, moving.done, moving.swaps ++ [(j.1, next.1)]⟩
        (moved.1.swap j next j.isLt next.isLt, moved.2) := by
  have swapped : Slice.swap moving.data (j, next) = some (moving.data.swap j next) :=
    dif_pos ⟨j.isLt, next.isLt⟩
  refine ⟨_, swapped, by rw [shows_.data], shows_.done, ?_, ?_⟩
  · rw [play, List.foldl_append, List.foldl_cons, List.foldl_nil]
    change _ = (Slice.swap (play original moving.swaps) (j, next)).getD _
    rw [← shows_.played, swapped, getD_some]
  · exact List.forall_mem_append.mpr ⟨shows_.leads, List.forall_mem_singleton.mpr leads⟩

/-- The permutation as a function of the places. -/
def Names (perm : List Nat) (target : Fin n → Fin n) : Prop :=
  ∀ i : Fin n, perm[i.1]? = some (target i).1

theorem exists_names (permutes : perm.Perm (List.range n)) :
    ∃ target : Fin n → Fin n, Names perm target ∧ target.Injective := by
  have length : perm.length = n := by rw [permutes.length_eq, List.length_range]
  have inside (i : Fin n) : i.1 < perm.length := length ▸ i.isLt
  have below (i : Fin n) : perm.get ⟨i, inside i⟩ < n :=
    List.mem_range.mp (permutes.mem_iff.mp (List.get_mem ..))
  have nodup : perm.Nodup := permutes.nodup_iff.mpr List.nodup_range
  refine ⟨fun i => ⟨perm.get ⟨i, inside i⟩, below i⟩, fun i => List.getElem?_eq_getElem (inside i),
    fun i j same => ?_⟩
  have equal : perm.get ⟨i, inside i⟩ = perm.get ⟨j, inside j⟩ := Fin.mk.inj same
  exact Fin.ext (Fin.mk.inj (nodup.injective_get equal))

variable {target : Fin n → Fin n} (names : Names perm target)
include names

theorem followCycle_shows (injective : target.Injective) {first j : Fin n} {done : Finset (Fin n)}
    {fuel : Nat} (walking : Walking target original first j data done)
    (enough : n ≤ fuel + done.card) (shows_ : Shows perm original moving (data, done)) :
    ∃ moving', followCycle perm first fuel j moving = some moving' ∧
      Shows perm original moving' (Sorting.followCycle target first fuel j data done) := by
  induction fuel generalizing j data done moving with
  | zero =>
    have room := Finset.card_le_univ (insert j done)
    rw [Finset.card_insert_of_notMem walking.here, Fintype.card_fin] at room
    omega
  | succ fuel ih =>
    obtain ⟨marked, isMarked, shown⟩ := shows_.mark j
    rw [followCycle, Sorting.followCycle, names j]
    simp only [bind_eq_bind, bind_some, isMarked, Fin.val_inj]
    split
    · exact ⟨_, rfl, shown⟩
    · next open? =>
        obtain ⟨data', isSwapped, shown'⟩ := shown.swap (names j)
        simp only at isSwapped
        rw [isSwapped, bind_some]
        refine ih (walking.step injective open?) ?_ shown'
        rw [Finset.card_insert_of_notMem walking.here]
        omega

theorem permuteFrom_shows (injective : target.Injective) (i : Fin n)
    (placed : Placed target original moved.1 moved.2) (shows_ : Shows perm original moving moved) :
    ∃ moving', permuteFrom perm moving i = some moving' ∧
      Shows perm original moving' (Sorting.permuteFrom target moved i) := by
  obtain ⟨marked, isMarked, shown⟩ := shows_.mark i
  have read : moving.done[i.1]? = some (moving.done.get i) := Vector.getElem?_eq_getElem i.isLt
  rw [permuteFrom, Sorting.permuteFrom, read]
  simp only [bind_eq_bind, bind_some, isMarked, names i]
  by_cases finished : i ∈ moved.2
  · rw [if_pos ((shows_.done i).mpr finished), if_pos (.inl finished)]
    exact ⟨_, rfl, shown⟩
  · rw [if_neg (mt (shows_.done i).mp finished)]
    by_cases fixed : target i = i
    · rw [if_pos (congrArg Fin.val fixed), if_pos (.inr fixed)]
      exact ⟨_, rfl, shown⟩
    · rw [if_neg (mt Fin.ext fixed), if_neg (not_or.mpr ⟨finished, fixed⟩)]
      exact followCycle_shows names injective (placed.walking finished) (Nat.le_add_right _ _)
        shows_

theorem foldlM_permuteFrom_shows (injective : target.Injective) (places : List (Fin n))
    (placed : Placed target original moved.1 moved.2) (shows_ : Shows perm original moving moved) :
    ∃ moving', (places.map Fin.val).foldlM (permuteFrom perm) moving = some moving' ∧
      Shows perm original moving' (places.foldl (Sorting.permuteFrom target) moved) := by
  induction places generalizing moving moved with
  | nil => exact ⟨moving, rfl, shows_⟩
  | cons place rest ih =>
    obtain ⟨moving', ran, shown⟩ := permuteFrom_shows names injective place placed shows_
    obtain ⟨moving'', ran', shown'⟩ := ih (permuteFrom_placed injective placed place).1 shown
    refine ⟨moving'', ?_, shown'⟩
    rw [List.map_cons, List.foldlM_cons, ran]
    exact ran'

omit names in
/-- **Moving along a permutation.** No index is out of range and every inner loop ends. Every place
gets the element that the permutation names for it, and after any of the swaps every element is on
the cycle that it came from. -/
theorem applyPermutation_exact (data : Vector α n) (permutes : perm.Perm (List.range n)) :
    ∃ moving, applyPermutation data perm = some moving ∧
      (∀ i : Nat, moving.data[i]? = perm[i]?.bind fun source => data[source]?) ∧
      moving.data = play data moving.swaps ∧
      ∀ before, before <+: moving.swaps → Within perm data (play data before) := by
  obtain ⟨target, names, injective⟩ := exists_names permutes
  have placed : Placed target data data ∅ := ⟨fun _ => by simp, nofun, fun _ _ => rfl⟩
  have shows_ : Shows perm data { data, done := .replicate n false } (data, ∅) :=
    ⟨rfl, fun k => by simp [get_eq], rfl, nofun⟩
  obtain ⟨moving, ran, shown⟩ :=
    foldlM_permuteFrom_shows names injective (List.finRange n) placed shows_
  rw [List.map_coe_finRange_eq_range] at ran
  refine ⟨moving, ran, fun i => ?_, shown.played, fun before early =>
    play_within data fun places member => shown.leads places (early.subset member)⟩
  by_cases inside : i < n
  · have moved := applyPermutation_getElem injective data ⟨i, inside⟩
    rw [names ⟨i, inside⟩, bind_some, shown.data]
    rw [Vector.getElem?_eq_getElem inside, Vector.getElem?_eq_getElem (target ⟨i, inside⟩).isLt]
    exact congrArg some moved
  · have length : perm.length = n := by rw [permutes.length_eq, List.length_range]
    rw [List.getElem?_eq_none (length.trans_le (not_lt.mp inside)), bind_none]
    exact Vector.getElem?_eq_none (not_lt.mp inside)

end Correct

theorem applyPermutation_exact_turn :
    ∃ moving, applyPermutation #v['a', 'b', 'c'] [2, 0, 1] = some moving ∧
      (∀ i : Nat, moving.data[i]? = [2, 0, 1][i]?.bind fun source => #v['a', 'b', 'c'][source]?) ∧
      moving.data = play #v['a', 'b', 'c'] moving.swaps ∧
      ∀ before, before <+: moving.swaps →
        Within [2, 0, 1] #v['a', 'b', 'c'] (play #v['a', 'b', 'c'] before) :=
  applyPermutation_exact #v['a', 'b', 'c'] (by decide)

end Slice

end ErmyaGraph.Gql
