import ErmyaGraph.Storage.Adjacency
import Mathlib.Data.List.Nodup

/-! # The caches of adjacency heads and tails

The heads of a node's lists are cached in a ring whose clock hand looks for an entry to evict, and
gives those that were used since its last pass a second chance. The tails are cached in the order
in which they came. -/

namespace ErmyaGraph

open List Function

namespace AdjCache

structure CacheSlot where
  nodeId : Nat
  ptr : AdjacencyPointer
  recentlyUsed : Bool
deriving DecidableEq

structure CacheInner where
  map : Nat → Option Nat := fun _ => none
  slots : List (Option CacheSlot) := []
  count : Nat := 0
  clockHand : Nat := 0

inductive Call where
  | insert (nodeId : Nat) (ptr : AdjacencyPointer)
  | get (nodeId : Nat)
  | remove (nodeId : Nat)

/-- The counter is lowered. There is no result below zero. -/
def lower : Nat → Option Nat
  | 0 => none
  | count + 1 => some count

/-- A slot is written. There is no result if the index is out of range. -/
def write (inner : CacheInner) (idx : Nat) (slot : Option CacheSlot) : Option CacheInner :=
  if idx < inner.slots.length then some { inner with slots := inner.slots.set idx slot } else none

def get (inner : CacheInner) (nodeId : Nat) : Option (Option AdjacencyPointer × CacheInner) :=
  match inner.map nodeId with
  | none => some (none, inner)
  | some idx =>
    match inner.slots[idx]? with
    | none => none
    | some none => some (none, inner)
    | some (some slot) => do
      let inner ← write inner idx (some { slot with recentlyUsed := true })
      return (some slot.ptr, inner)

/-- The slot that is evicted. There is no result if none is found in so many rounds. -/
def clockSweep : (fuel : Nat) → CacheInner → Option (Nat × CacheInner)
  | 0, _ => none
  | fuel + 1, inner =>
    let hand := inner.clockHand % inner.slots.length
    let inner := { inner with clockHand := (hand + 1) % inner.slots.length }
    match inner.slots[hand]? with
    | none => none
    | some none => clockSweep fuel inner
    | some (some slot) =>
      if slot.recentlyUsed then do
        clockSweep fuel (← write inner hand (some { slot with recentlyUsed := false }))
      else do
        return (hand, { inner with
          map := update inner.map slot.nodeId none, count := ← lower inner.count })

/-- A free slot: a new one, one that a removal left, or one that is evicted. -/
def freeSlot (capacity : Nat) (inner : CacheInner) : Option (Nat × CacheInner) :=
  if inner.count < capacity then
    if inner.slots.length < capacity then
      some (inner.slots.length, { inner with slots := inner.slots ++ [none] })
    else (inner.slots.findIdx? Option.isNone).map fun idx => (idx, inner)
  else clockSweep (2 * inner.slots.length) inner

def insert (capacity : Nat) (inner : CacheInner) (nodeId : Nat) (ptr : AdjacencyPointer) :
    Option CacheInner :=
  match inner.map nodeId with
  | some idx => write inner idx (some ⟨nodeId, ptr, true⟩)
  | none => do
    let (idx, inner) ← freeSlot capacity inner
    let inner ← write inner idx (some ⟨nodeId, ptr, false⟩)
    return { inner with
      map := update inner.map nodeId (some idx), count := inner.count + 1 }

def remove (inner : CacheInner) (nodeId : Nat) : Option CacheInner :=
  match inner.map nodeId with
  | none => some inner
  | some idx => do
    let inner ← write { inner with map := update inner.map nodeId none } idx none
    return { inner with count := ← lower inner.count }

/-- The capacity of a cache that was asked to have so much. -/
def clamped (asked : Nat) : Nat := max asked 8

def run (capacity : Nat) (inner : CacheInner) : List Call → Option CacheInner
  | [] => some inner
  | .insert nodeId ptr :: calls => do run capacity (← insert capacity inner nodeId ptr) calls
  | .get nodeId :: calls => do run capacity (← get inner nodeId).2 calls
  | .remove nodeId :: calls => do run capacity (← remove inner nodeId) calls

/-- What was inserted last for a node and not removed since. -/
def latest (before : Nat → Option AdjacencyPointer) : List Call → Nat → Option AdjacencyPointer
  | [] => before
  | .insert nodeId ptr :: calls => latest (update before nodeId (some ptr)) calls
  | .get _ :: calls => latest before calls
  | .remove nodeId :: calls => latest (update before nodeId none) calls

/-- The map and the ring describe each other, and hold what was inserted last. -/
structure Sound (capacity : Nat) (last : Nat → Option AdjacencyPointer) (inner : CacheInner) :
    Prop where
  bounded : inner.slots.length ≤ capacity
  map_iff : ∀ nodeId idx : Nat, inner.map nodeId = some idx ↔
    ∃ slot : CacheSlot, inner.slots[idx]? = some (some slot) ∧ slot.nodeId = nodeId
  count_eq : inner.count = inner.slots.countP Option.isSome
  held : ∀ (idx : Nat) (slot : CacheSlot), inner.slots[idx]? = some (some slot) →
    last slot.nodeId = some slot.ptr

theorem Sound.empty (capacity : Nat) : Sound capacity (fun _ => none) {} :=
  ⟨Nat.zero_le _, by simp, rfl, by simp⟩

section Steps

variable {capacity idx : Nat} {last : Nat → Option AdjacencyPointer} {inner : CacheInner}
  {slot : CacheSlot}

theorem lt_of_held {slot : Option CacheSlot} (here : inner.slots[idx]? = some slot) :
    idx < inner.slots.length :=
  (List.getElem?_eq_some_iff.mp here).1

theorem countP_set_of {slot : Option CacheSlot} (p : Option CacheSlot → Bool)
    (here : inner.slots[idx]? = some slot) (slot' : Option CacheSlot) :
    (inner.slots.set idx slot').countP p + (p slot).toNat =
      inner.slots.countP p + (p slot').toNat := by
  obtain ⟨inside, rfl⟩ := List.getElem?_eq_some_iff.mp here
  have positive : p inner.slots[idx] = true → 0 < inner.slots.countP p := fun holds =>
    countP_pos_iff.mpr ⟨_, getElem_mem inside, holds⟩
  rw [countP_set inside]
  cases first : p inner.slots[idx]
  · cases p slot' <;> simp
  · have := positive first
    cases p slot' <;> simp <;> omega

/-- An entry is written anew, for the same node. -/
theorem Sound.rewrite (sound : Sound capacity last inner)
    (here : inner.slots[idx]? = some (some slot)) (slot' : CacheSlot)
    (same : slot'.nodeId = slot.nodeId) (hand : Nat) :
    Sound capacity (update last slot.nodeId (some slot'.ptr))
      { inner with slots := inner.slots.set idx (some slot'), clockHand := hand } := by
  have inside := lt_of_held here
  have mapped := (sound.map_iff _ _).mpr ⟨slot, here, rfl⟩
  refine ⟨by simpa using sound.bounded, fun nodeId other => ?_, ?_, fun other found isFound => ?_⟩
  · by_cases this : idx = other
    · subst this
      rw [sound.map_iff, here]
      simp [inside, same]
    · simp only [getElem?_set_ne this]
      exact sound.map_iff nodeId other
  · have counted := countP_set_of Option.isSome here (some slot')
    rw [sound.count_eq]
    simpa using counted.symm
  · simp only at isFound
    by_cases this : idx = other
    · subst this
      rw [getElem?_set_self inside] at isFound
      cases isFound
      rw [same, update_self]
    · rw [getElem?_set_ne this] at isFound
      have apart : found.nodeId ≠ slot.nodeId := fun equal => this (Option.some.inj
        (mapped.symm.trans ((sound.map_iff _ _).mpr ⟨found, isFound, equal⟩)))
      rw [update_of_ne apart]
      exact sound.held other found isFound

/-- The flag of an entry changes. -/
theorem Sound.touch (sound : Sound capacity last inner)
    (here : inner.slots[idx]? = some (some slot)) (used : Bool) (hand : Nat) :
    Sound capacity last { inner with
      slots := inner.slots.set idx (some { slot with recentlyUsed := used })
      clockHand := hand } := by
  have written := sound.rewrite here { slot with recentlyUsed := used } rfl hand
  rwa [← sound.held idx slot here, update_eq_self] at written

/-- An entry leaves its slot. -/
theorem Sound.vacate (sound : Sound capacity last inner)
    (here : inner.slots[idx]? = some (some slot)) (hand : Nat) :
    ∃ count, lower inner.count = some count ∧
      Sound capacity last ⟨update inner.map slot.nodeId none, inner.slots.set idx none,
        count, hand⟩ := by
  have inside := lt_of_held here
  have mapped := (sound.map_iff _ _).mpr ⟨slot, here, rfl⟩
  have counted := countP_set_of Option.isSome here none
  simp only [Option.isSome_none, Option.isSome_some, Bool.toNat_true, Bool.toNat_false] at counted
  refine ⟨(inner.slots.set idx none).countP Option.isSome, ?_, by simpa using sound.bounded,
    fun nodeId other => ?_, rfl, fun other found isFound => ?_⟩
  · rw [sound.count_eq, ← Nat.add_zero (inner.slots.countP _), ← counted]
    rfl
  · by_cases this : idx = other
    · subst this
      simp only [getElem?_set_self inside]
      by_cases named : nodeId = slot.nodeId
      · simp [named]
      · rw [update_of_ne named, sound.map_iff, here]
        simp [Ne.symm named]
    · simp only [getElem?_set_ne this]
      by_cases named : nodeId = slot.nodeId
      · subst named
        rw [update_self, ← sound.map_iff, mapped]
        simp [this]
      · rw [update_of_ne named]
        exact sound.map_iff nodeId other
  · simp only at isFound
    by_cases this : idx = other
    · subst this
      rw [getElem?_set_self inside] at isFound
      cases isFound
    · rw [getElem?_set_ne this] at isFound
      exact sound.held other found isFound

/-- What is said of a node that is not cached does not matter. -/
theorem Sound.forget (sound : Sound capacity last inner) {nodeId : Nat}
    (absent : inner.map nodeId = none) (ptr : Option AdjacencyPointer) :
    Sound capacity (update last nodeId ptr) inner := by
  refine { sound with held := fun idx slot here => ?_ }
  have apart : slot.nodeId ≠ nodeId := fun same => by
    have mapped := (sound.map_iff nodeId idx).mpr ⟨slot, here, same⟩
    rw [absent] at mapped
    cases mapped
  rw [update_of_ne apart]
  exact sound.held idx slot here

/-- An entry is written into a free slot. -/
theorem Sound.fill (sound : Sound capacity last inner) {nodeId : Nat}
    (absent : inner.map nodeId = none) (free : inner.slots[idx]? = some none)
    (ptr : AdjacencyPointer) :
    Sound capacity (update last nodeId (some ptr))
      ⟨update inner.map nodeId (some idx), inner.slots.set idx (some ⟨nodeId, ptr, false⟩),
        inner.count + 1, inner.clockHand⟩ := by
  have inside := lt_of_held free
  have counted := countP_set_of Option.isSome free (some ⟨nodeId, ptr, false⟩)
  simp only [Option.isSome_none, Option.isSome_some, Bool.toNat_true, Bool.toNat_false] at counted
  have unmapped (other : Nat) : inner.map other ≠ some idx := fun mapped => by
    obtain ⟨slot, here, -⟩ := (sound.map_iff other idx).mp mapped
    rw [free] at here
    cases here
  refine ⟨by simpa using sound.bounded, fun other place => ?_, ?_, fun place found here => ?_⟩
  · simp only
    by_cases this : idx = place
    · subst this
      rw [getElem?_set_self inside]
      by_cases named : other = nodeId
      · simp [named]
      · rw [update_of_ne named]
        simp [unmapped other, Ne.symm named]
    · rw [getElem?_set_ne this, ← sound.map_iff]
      by_cases named : other = nodeId
      · simp [named, this, absent]
      · rw [update_of_ne named]
  · rw [sound.count_eq]
    exact counted.symm
  · simp only at here
    by_cases this : idx = place
    · subst this
      rw [getElem?_set_self inside] at here
      cases here
      exact update_self ..
    · rw [getElem?_set_ne this] at here
      exact (sound.forget absent (some ptr)).held place found here

/-- With every slot taken, the sweep comes to an unused entry before the rounds are up: each round
that does not end it takes one flag down. -/
theorem clockSweep_spec : ∀ {fuel : Nat} {inner : CacheInner}, Sound capacity last inner →
    (∀ slot ∈ inner.slots, slot.isSome = true) → 0 < inner.slots.length →
    inner.slots.countP (·.any CacheSlot.recentlyUsed) < fuel →
    ∃ idx swept, clockSweep fuel inner = some (idx, swept) ∧ idx < swept.slots.length ∧
      Sound capacity last { swept with slots := swept.slots.set idx none } ∧
      ∀ nodeId, inner.map nodeId = none → swept.map nodeId = none
  | 0, _, _, _, _, few => absurd few (Nat.not_lt_zero _)
  | fuel + 1, inner, sound, full, some_slot, few => by
    have inside := Nat.mod_lt inner.clockHand some_slot
    obtain ⟨slot, here⟩ := Option.isSome_iff_exists.mp (full _ (getElem_mem inside))
    replace here := List.getElem?_eq_some_iff.mpr ⟨inside, here⟩
    simp only [clockSweep, here]
    cases used : slot.recentlyUsed
    · obtain ⟨count, lowered, vacated⟩ := sound.vacate here
        ((inner.clockHand % inner.slots.length + 1) % inner.slots.length)
      refine ⟨_, ⟨update inner.map slot.nodeId none, inner.slots, count, _⟩,
        by simp [lowered], inside, vacated, fun nodeId absent => ?_⟩
      by_cases named : nodeId = slot.nodeId
      · exact named ▸ update_self ..
      · exact (update_of_ne named ..).trans absent
    · simp only [write, inside, if_true, Option.bind_eq_bind, Option.bind_some]
      refine clockSweep_spec (sound.touch here false _) (fun other mem => ?_) (by simpa) ?_
      · obtain mem | rfl := mem_or_eq_of_mem_set mem
        · exact full other mem
        · rfl
      · have := countP_set_of (·.any CacheSlot.recentlyUsed) here
          (some { slot with recentlyUsed := false })
        simp only [Option.any_some, used, Bool.toNat_true, Bool.toNat_false] at this
        simp only
        omega

/-- A slot is found, and is not in use. -/
theorem freeSlot_spec (sound : Sound capacity last inner) (positive : 0 < capacity) :
    ∃ idx freed, freeSlot capacity inner = some (idx, freed) ∧ idx < freed.slots.length ∧
      Sound capacity last { freed with slots := freed.slots.set idx none } ∧
      ∀ nodeId, inner.map nodeId = none → freed.map nodeId = none := by
  unfold freeSlot
  split
  next room =>
    split
    next grows =>
      refine ⟨_, _, rfl, by simp, ?_, fun _ => id⟩
      have same : (inner.slots ++ [none]).set inner.slots.length none = inner.slots ++ [none] := by
        simp
      have entries (idx : Nat) (slot : CacheSlot) :
          (inner.slots ++ [none])[idx]? = some (some slot) ↔
            inner.slots[idx]? = some (some slot) := by
        rw [getElem?_append]
        split
        · rfl
        next outside =>
          rw [getElem?_eq_none (Nat.le_of_not_lt outside)]
          cases idx - inner.slots.length <;> simp
      simp only [same]
      refine ⟨by simpa using Nat.succ_le_of_lt grows, fun nodeId idx => ?_,
        by simpa using sound.count_eq,
        fun idx slot here => sound.held idx slot ((entries ..).mp here)⟩
      simp only [entries]
      exact sound.map_iff ..
    next ends =>
      obtain ⟨slot, mem, hole⟩ : ∃ slot ∈ inner.slots, Option.isNone slot = true := by
        by_contra none_free
        have taken : inner.slots.countP Option.isSome = inner.slots.length :=
          countP_eq_length.mpr fun slot mem =>
            Option.isSome_iff_ne_none.mpr fun hole => none_free ⟨slot, mem, by rw [hole]; rfl⟩
        rw [← sound.count_eq] at taken
        omega
      obtain ⟨idx, isIdx⟩ := Option.isSome_iff_exists.mp
        (findIdx?_isSome.trans (any_eq_true.mpr ⟨slot, mem, hole⟩))
      obtain ⟨inside, empty, -⟩ := findIdx?_eq_some_iff_getElem.mp isIdx
      refine ⟨idx, inner, by rw [isIdx]; rfl, inside, ?_, fun _ => id⟩
      rw [Option.isNone_iff_eq_none] at empty
      rw [← empty, set_getElem_self]
      exact sound
  next noRoom =>
    have := sound.bounded
    have counted := sound.count_eq
    have atMost := countP_le_length (p := Option.isSome) (l := inner.slots)
    have fewer := countP_le_length (p := (·.any CacheSlot.recentlyUsed)) (l := inner.slots)
    exact clockSweep_spec sound (countP_eq_length.mp (by omega)) (by omega) (by omega)

theorem insert_spec (sound : Sound capacity last inner) (positive : 0 < capacity) (nodeId : Nat)
    (ptr : AdjacencyPointer) :
    ∃ inner', insert capacity inner nodeId ptr = some inner' ∧
      Sound capacity (update last nodeId (some ptr)) inner' ∧
      (inner'.map nodeId).isSome = true := by
  unfold insert
  split
  next idx mapped =>
    obtain ⟨slot, here, rfl⟩ := (sound.map_iff _ _).mp mapped
    exact ⟨_, if_pos (lt_of_held here), sound.rewrite here ⟨slot.nodeId, ptr, true⟩ rfl _,
      by simp [mapped]⟩
  next absent =>
    obtain ⟨idx, freed, isFreed, inside, empty, unmapped⟩ := freeSlot_spec sound positive
    have filled := empty.fill (unmapped nodeId absent) (getElem?_set_self inside) ptr
    simp only [set_set] at filled
    exact ⟨_, by simp [isFreed, write, inside], filled, by simp⟩

theorem get_spec (sound : Sound capacity last inner) (nodeId : Nat) :
    ∃ inner', get inner nodeId = some (if (inner.map nodeId).isSome then last nodeId else none,
      inner') ∧ Sound capacity last inner' := by
  unfold get
  split
  next absent => exact ⟨inner, by simp [absent], sound⟩
  next idx mapped =>
    obtain ⟨slot, here, rfl⟩ := (sound.map_iff _ _).mp mapped
    refine ⟨_, ?_, sound.touch here true inner.clockHand⟩
    simp only [here]
    simp [mapped, write, lt_of_held here, sound.held idx slot here]

theorem remove_spec (sound : Sound capacity last inner) (nodeId : Nat) :
    ∃ inner', remove inner nodeId = some inner' ∧
      Sound capacity (update last nodeId none) inner' := by
  unfold remove
  split
  next absent => exact ⟨inner, rfl, sound.forget absent none⟩
  next idx mapped =>
    obtain ⟨slot, here, rfl⟩ := (sound.map_iff _ _).mp mapped
    obtain ⟨count, lowered, vacated⟩ := sound.vacate here inner.clockHand
    exact ⟨_, by simp [write, lt_of_held here, lowered],
      vacated.forget (update_self ..) none⟩

/-- A whole history. -/
theorem run_spec (positive : 0 < capacity) : ∀ (calls : List Call) {last inner},
    Sound capacity last inner →
    ∃ inner', run capacity inner calls = some inner' ∧ Sound capacity (latest last calls) inner'
  | [], _, inner, sound => ⟨inner, rfl, sound⟩
  | .insert nodeId ptr :: calls, _, _, sound => by
    obtain ⟨inner', isNext, next, -⟩ := insert_spec sound positive nodeId ptr
    simpa [run, latest, isNext] using run_spec positive calls next
  | .get nodeId :: calls, _, _, sound => by
    obtain ⟨inner', isNext, next⟩ := get_spec sound nodeId
    simpa [run, latest, isNext] using run_spec positive calls next
  | .remove nodeId :: calls, _, _, sound => by
    obtain ⟨inner', isNext, next⟩ := remove_spec sound nodeId
    simpa [run, latest, isNext] using run_spec positive calls next

end Steps

end AdjCache

namespace AdjTailCache

abbrev Key := Nat × AdjDirection

structure Inner where
  map : Key → Option Store.ChainState := fun _ => none
  order : List Key := []

inductive Call where
  | insert (key : Key) (state : Store.ChainState)
  | get (key : Key)
  | remove (nodeId : Nat)

def evict (capacity : Nat) (map : Key → Option Store.ChainState) : (order : List Key) → Inner
  | [] => ⟨map, []⟩
  | evicted :: order =>
    if capacity < (evicted :: order).length then
      evict capacity (update map evicted none) order
    else ⟨map, evicted :: order⟩

def insert (capacity : Nat) (inner : Inner) (key : Key) (state : Store.ChainState) : Inner :=
  let map := update inner.map key (some state)
  if (inner.map key).isNone then evict capacity map (inner.order ++ [key])
  else { inner with map := map }

def removeKey (inner : Inner) (key : Key) : Inner :=
  if (inner.map key).isSome then
    ⟨update inner.map key none, inner.order.filter (· ≠ key)⟩
  else inner

def remove (inner : Inner) (nodeId : Nat) : Inner :=
  removeKey (removeKey inner (nodeId, .outgoing)) (nodeId, .incoming)

def clamped (asked : Nat) : Nat := max asked 16

def step (capacity : Nat) (inner : Inner) : Call → Inner
  | .insert key state => insert capacity inner key state
  | .get _ => inner
  | .remove nodeId => remove inner nodeId

def note (last : Key → Option Store.ChainState) : Call → Key → Option Store.ChainState
  | .insert key state => update last key (some state)
  | .get _ => last
  | .remove nodeId =>
    update (update last (nodeId, .outgoing) none) (nodeId, .incoming) none

/-- The order lists every key of the map once, and the map holds what was inserted last. -/
structure Sound (capacity : Nat) (last : Key → Option Store.ChainState) (inner : Inner) :
    Prop where
  nodup : inner.order.Nodup
  mem_iff : ∀ key, key ∈ inner.order ↔ (inner.map key).isSome = true
  bounded : inner.order.length ≤ capacity
  held : ∀ key state, inner.map key = some state → last key = some state

theorem Sound.empty (capacity : Nat) : Sound capacity (fun _ => none) {} :=
  ⟨nodup_nil, by simp, Nat.zero_le _, nofun⟩

variable {capacity : Nat} {last : Key → Option Store.ChainState} {inner : Inner} {key : Key}

theorem evict_of_le {map : Key → Option Store.ChainState} {order : List Key}
    (fits : order.length ≤ capacity) : evict capacity map order = ⟨map, order⟩ := by
  cases order with
  | nil => rfl
  | cons evicted order => exact if_neg (Nat.not_lt_of_le fits)

theorem Sound.drop (sound : Sound capacity last inner) (key : Key) :
    Sound capacity last ⟨update inner.map key none, inner.order.filter (· ≠ key)⟩ := by
  refine ⟨sound.nodup.filter _, fun other => ?_, Nat.le_trans (length_filter_le ..) sound.bounded,
    fun other state isState => ?_⟩ <;> by_cases same : other = key
  · simp [same]
  · simp [same, sound.mem_iff]
  · simp [same] at isState
  · exact sound.held other state ((update_of_ne same ..).symm.trans isState)

theorem Sound.forget (sound : Sound capacity last inner) (absent : inner.map key = none)
    (state : Option Store.ChainState) : Sound capacity (update last key state) inner := by
  refine { sound with held := fun other found isFound => ?_ }
  have apart : other ≠ key := fun same => by
    rw [same, absent] at isFound
    cases isFound
  rw [update_of_ne apart]
  exact sound.held other found isFound

theorem Sound.put (sound : Sound capacity last inner) (key : Key) (state : Store.ChainState)
    (order : List Key) (nodup : order.Nodup)
    (mem_iff : ∀ other, other ∈ order ↔ other = key ∨ other ∈ inner.order) :
    Sound order.length (update last key (some state))
      ⟨update inner.map key (some state), order⟩ := by
  refine ⟨nodup, fun other => ?_, Nat.le_refl _, fun other found isFound => ?_⟩ <;>
    by_cases same : other = key
  · simp [same, mem_iff]
  · simp [same, mem_iff, sound.mem_iff]
  · subst same
    simpa using isFound
  · simp only [update_of_ne same] at isFound ⊢
    exact sound.held other found isFound

theorem insert_spec (sound : Sound capacity last inner) (positive : 0 < capacity)
    (state : Store.ChainState) :
    Sound capacity (update last key (some state)) (insert capacity inner key state) ∧
      (insert capacity inner key state).map key = some state := by
  unfold insert
  split
  next absent =>
    have isNew : key ∉ inner.order := by
      rw [sound.mem_iff]
      cases isKey : inner.map key <;> simp [isKey] at absent ⊢
    have put := sound.put key state (inner.order ++ [key])
      (sound.nodup.append (nodup_singleton key) (disjoint_singleton.mpr isNew))
      fun other => by simp [or_comm]
    by_cases fits : (inner.order ++ [key]).length ≤ capacity
    · rw [evict_of_le fits]
      exact ⟨{ put with bounded := fits }, update_self ..⟩
    · have isFull := sound.bounded
      rw [length_append, length_singleton] at fits
      -- only the oldest key goes, and it is not the new one
      cases isOrder : inner.order with
      | nil => simp [isOrder] at fits; omega
      | cons evicted order =>
        rw [isOrder] at put isNew fits isFull
        have unlisted := (nodup_cons.mp put.nodup).1
        have left : (evicted :: (order ++ [key])).filter (· ≠ evicted) = order ++ [key] := by
          rw [filter_cons_of_neg (by simp), filter_eq_self]
          exact fun other mem => decide_eq_true fun same => unlisted (same ▸ mem)
        have room : (order ++ [key]).length ≤ capacity := by simpa using isFull
        have dropped := put.drop evicted
        simp only [cons_append, left] at dropped
        have pops : capacity < (evicted :: (order ++ [key])).length := by
          simp only [length_cons, length_append] at fits ⊢
          omega
        rw [cons_append, evict, if_pos pops, evict_of_le room]
        exact ⟨{ dropped with bounded := room },
          (update_of_ne (by rintro rfl; simp at isNew) ..).trans (update_self ..)⟩
  next present =>
    have listed : key ∈ inner.order := by
      rw [sound.mem_iff]
      cases isKey : inner.map key <;> simp [isKey] at present ⊢
    have put := sound.put key state inner.order sound.nodup fun other =>
      ⟨Or.inr, fun either => either.elim (fun same => by rwa [same]) id⟩
    exact ⟨{ put with bounded := sound.bounded }, update_self ..⟩

theorem removeKey_spec (sound : Sound capacity last inner) (key : Key) :
    Sound capacity (update last key none) (removeKey inner key) := by
  unfold removeKey
  split
  next => exact (sound.drop key).forget (update_self ..) none
  next absent => exact sound.forget (by simpa using absent) none

theorem step_spec (sound : Sound capacity last inner) (positive : 0 < capacity) (call : Call) :
    Sound capacity (note last call) (step capacity inner call) := by
  cases call with
  | insert key state => exact (insert_spec sound positive state).1
  | get key => exact sound
  | remove nodeId => exact removeKey_spec (removeKey_spec sound _) _

theorem run_spec (positive : 0 < capacity) (calls : List Call) (sound : Sound capacity last inner) :
    Sound capacity (calls.foldl note last) (calls.foldl (step capacity) inner) := by
  induction calls generalizing last inner with
  | nil => exact sound
  | cons call calls ih => exact ih (step_spec sound positive call)

end AdjTailCache

/-- After every history the map and the slots of the one cache describe each other, and the map and
the order of the other; no entry is lost, none is stale, and no call failed. -/
theorem adjacencyCaches_sound (asked : Nat) :
    (∀ calls, ∃ inner, AdjCache.run (AdjCache.clamped asked) {} calls = some inner ∧
      AdjCache.Sound (AdjCache.clamped asked) (AdjCache.latest (fun _ => none) calls) inner ∧
      inner.count ≤ AdjCache.clamped asked ∧
      (∀ nodeId, ∃ answer inner', AdjCache.get inner nodeId = some (answer, inner') ∧
        (answer = none ∨ answer = AdjCache.latest (fun _ => none) calls nodeId)) ∧
      ∀ nodeId ptr, ∃ inserted inner',
        AdjCache.insert (AdjCache.clamped asked) inner nodeId ptr = some inserted ∧
        AdjCache.get inserted nodeId = some (some ptr, inner')) ∧
    ∀ calls, ∃ inner, List.foldl (AdjTailCache.step (AdjTailCache.clamped asked)) {} calls = inner ∧
      AdjTailCache.Sound (AdjTailCache.clamped asked)
        (calls.foldl AdjTailCache.note fun _ => none) inner ∧
      (∀ key, inner.map key = none ∨
        inner.map key = calls.foldl AdjTailCache.note (fun _ => none) key) ∧
      ∀ key state, (AdjTailCache.insert (AdjTailCache.clamped asked) inner key state).map key =
        some state := by
  constructor
  · intro calls
    have positive : 0 < AdjCache.clamped asked :=
      Nat.lt_of_lt_of_le (Nat.succ_pos 7) (Nat.le_max_right ..)
    obtain ⟨inner, isInner, sound⟩ := AdjCache.run_spec positive calls (AdjCache.Sound.empty _)
    refine ⟨inner, isInner, sound, ?_, fun nodeId => ?_, fun nodeId ptr => ?_⟩
    · rw [sound.count_eq]
      exact Nat.le_trans countP_le_length sound.bounded
    · obtain ⟨inner', answered, -⟩ := AdjCache.get_spec sound nodeId
      exact ⟨_, inner', answered, by split <;> simp⟩
    · obtain ⟨inserted, isInserted, next, present⟩ := AdjCache.insert_spec sound positive nodeId ptr
      obtain ⟨inner', answered, -⟩ := AdjCache.get_spec next nodeId
      rw [if_pos present, update_self] at answered
      exact ⟨inserted, inner', isInserted, answered⟩
  · intro calls
    have positive : 0 < AdjTailCache.clamped asked :=
      Nat.lt_of_lt_of_le (Nat.succ_pos 15) (Nat.le_max_right ..)
    have sound := AdjTailCache.run_spec positive calls (AdjTailCache.Sound.empty _)
    refine ⟨_, rfl, sound, fun key => ?_, fun key state =>
      (AdjTailCache.insert_spec sound positive state).2⟩
    cases isState : (calls.foldl (AdjTailCache.step (AdjTailCache.clamped asked)) {}).map key with
    | none => exact .inl rfl
    | some state => exact .inr (sound.held key state isState).symm

end ErmyaGraph
