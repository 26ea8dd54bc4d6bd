import ErmyaGraph.Versions.Registry
import ErmyaGraph.Storage.Updates

/-! # The graph as versioned records

What readers can tell apart: the record each slot holds, which entities exist,
and the chains above the slots. `Coherent` is the invariant that ties the three
together. -/

namespace ErmyaGraph

open Option DeltaChain

variable {record : Record} {key : EntityKey}

/-- The record belongs to the entity: it carries its id, a node has heads and an edge has
endpoints. -/
def Record.Names (record : Record) (key : EntityKey) : Prop :=
  record.id = key.id ∧
    match key.kind, record.link with
    | .node, .heads _ => True
    | .edge, .ends source target => 0 < source ∧ 0 < target
    | _, _ => False

theorem Record.Names.withHeads (names : record.Names key) (isNode : key.kind = .node)
    (ptr : AdjacencyPointer) : (record.withHeads ptr).Names key := by
  refine ⟨names.1, ?_⟩
  rw [isNode]
  trivial

theorem Record.Names.relink (names : record.Names key) (held : Content) :
    (held.relink key.kind record).Names key := by
  unfold Content.relink
  split
  · next current _ isNode => exact names.withHeads isNode _
  · exact names

/-- Two records that differ in adjacency heads only. -/
def Record.Alike (left right : Record) : Prop := left.observed = right.observed

theorem Record.alike_withHeads (names : record.Names key) (isNode : key.kind = .node)
    (ptr : AdjacencyPointer) : (record.withHeads ptr).Alike record := by
  obtain ⟨_, linked⟩ := names
  rw [isNode] at linked
  cases link : record.link with
  | heads old => simp [Alike, observed, withHeads, Link.observed, link]
  | ends source target =>
    rw [link] at linked
    exact linked.elim

theorem Record.alike_relink (names : record.Names key) (held : Content) :
    (held.relink key.kind record).Alike record := by
  unfold Content.relink
  split
  · next current _ isNode => exact alike_withHeads names isNode _
  · rfl

/-- What the storage engine, the existence sets and the version chains hold. -/
structure View where
  contents : Contents
  present : EntityKey → Bool
  pinned : EntityKey → Bool
  mvcc : Mvcc
  nextId : EntityKind → Nat

namespace View

variable {startTs : Nat} {reader : Option Nat}

def chain (view : View) (key : EntityKey) : DeltaChain := view.mvcc.chain key

/-- The committed version below the chain. -/
def base (view : View) (key : EntityKey) : Option EntitySnapshot :=
  if view.present key then
    match view.contents key with
    | .live record => some (.live record)
    | _ => none
  else none

def version (view : View) (key : EntityKey) (startTs : Nat) (reader : Option Nat) :
    Option Record :=
  ((view.chain key).applyForRead (view.base key) startTs reader).bind EntitySnapshot.record?

/-- The newest committed record of the chain, whatever the page holds. -/
def newest (view : View) (key : EntityKey) : Option Record :=
  ((view.chain key).applyForRead none view.mvcc.clock none).bind EntitySnapshot.record?

def Allotted (view : View) (key : EntityKey) : Prop := 0 < key.id ∧ key.id < view.nextId key.kind

/-- An entity that does not exist has a chain only while its one writer has not committed it,
or when that writer deleted it again. -/
def Unborn (view : View) (key : EntityKey) : Prop :=
  ∃ txn, (∀ delta ∈ view.chain key, delta.txn = txn) ∧
    (∃ oldest, (view.chain key).getLast? = some oldest ∧ oldest.op = .insert) ∧
    (view.mvcc.isActive txn ∨ (view.chain key).head?.bind Delta.new = some .deleted)

/-- A delta that belongs to the entity. -/
structure Fits (key : EntityKey) (delta : Delta) : Prop where
  new : ∃ snapshot, delta.new = some snapshot
  named : ∀ record, delta.new = some (.live record) → record.Names key
  prior : ∀ record, delta.prior = some (.live record) → record.Names key

structure Coherent (view : View) : Prop where
  registry : view.mvcc.Sound
  nextId : ∀ kind, 0 < view.nextId kind
  fresh : ∀ key, ¬view.Allotted key → view.contents key = .blank ∧ view.present key = false ∧
    view.chain key = [] ∧ view.pinned key = false
  named : ∀ key record, view.contents key = .live record → record.Names key
  fits : ∀ key, ∀ delta ∈ view.chain key, Fits key delta
  erased : ∀ key, view.contents key = .erased → view.chain key = [] ∧ view.present key = false
  backed : ∀ key, view.present key → (∃ record, view.contents key = .live record) ∨
    ∃ delta ∈ view.chain key, delta.commitTs ≠ none
  living : ∀ key record, view.contents key = .live record → view.present key
  unborn : ∀ key, view.present key = false → view.chain key = [] ∨ view.Unborn key
  pinned : ∀ key, view.pinned key → view.chain key = []

/-- If the entity exists it can be read, from its page unless it has a chain. -/
structure Readable (view : View) (key : EntityKey) : Prop where
  positive : view.present key → 0 < key.id
  live : view.present key → view.chain key = [] → ∃ record, view.contents key = .live record
  pinned : view.pinned key → view.chain key = []

section Coherent

variable {view : View} (coherent : view.Coherent)

include coherent

theorem Coherent.allotted_of_chain (nonempty : view.chain key ≠ []) : view.Allotted key := by
  by_contra fresh
  exact nonempty (coherent.fresh key fresh).2.2.1

theorem Coherent.allotted_of_present (present : view.present key) : view.Allotted key := by
  by_contra fresh
  rw [(coherent.fresh key fresh).2.1] at present
  cases present

theorem Coherent.allotted_of_version (visible : view.version key startTs reader = some record) :
    view.Allotted key := by
  by_contra fresh
  obtain ⟨_, absent, empty, _⟩ := coherent.fresh key fresh
  simp [version, base, absent, empty, applyForRead] at visible

theorem Coherent.live_of_present (present : view.present key) (settled : view.chain key = []) :
    ∃ record, view.contents key = .live record := by
  rcases coherent.backed key present with live | ⟨delta, mem, _⟩
  · exact live
  · rw [settled] at mem
    cases mem

theorem Coherent.readable (key : EntityKey) : view.Readable key :=
  ⟨fun present => (coherent.allotted_of_present present).1, coherent.live_of_present,
    coherent.pinned key⟩

/-- A version somebody else can see was inserted: its entity exists. -/
theorem Coherent.present_of_stamped (visible : view.version key startTs reader = some record)
    (foreign : ∀ txn, reader = some txn → ∀ delta ∈ view.chain key, delta.txn ≠ txn) :
    view.present key := by
  by_contra absent
  simp only [Bool.not_eq_true] at absent
  have noBase : view.base key = none := by simp [base, absent]
  rcases coherent.unborn key absent with empty | ⟨txn, owned, _, state⟩
  · simp [version, noBase, empty, applyForRead] at visible
  · cases chain : view.chain key with
    | nil => simp [version, noBase, chain, applyForRead] at visible
    | cons newest older =>
      have mem : newest ∈ view.chain key := by simp [chain]
      -- All deltas carry one timestamp, so the newest is visible when any of them is.
      have same : ∀ delta ∈ view.chain key,
          delta.visibleTo startTs reader = newest.visibleTo startTs reader := by
        intro delta here
        have txns : delta.txn = newest.txn := (owned delta here).trans (owned newest mem).symm
        simp [Delta.visibleTo, txns, coherent.registry.together here mem txns]
      by_cases seen : newest.visibleTo startTs reader
      · have shown : newest.new = some (.live record) := by
          simp only [version, chain, applyForRead_cons_visible seen,
            bind_eq_some_iff] at visible
          obtain ⟨snapshot, new, recorded⟩ := visible
          cases snapshot with
          | live found =>
            simp only [EntitySnapshot.record?, some.injEq] at recorded
            rw [new, recorded]
          | deleted => cases recorded
        have stamped : newest.commitTs ≠ none := by
          intro pending
          simp only [Delta.visibleTo, pending, any_none, Bool.or_false, decide_eq_true_eq] at seen
          exact foreign newest.txn seen newest mem rfl
        rcases state with active | deleted
        · obtain ⟨state, running⟩ := isSome_iff_exists.mp active
          rw [← owned newest mem] at running
          exact stamped (coherent.registry.pending_of_active mem running)
        · rw [chain, List.head?_cons, bind_some, shown] at deleted
          cases deleted
      · simp only [Bool.not_eq_true] at seen
        have blind : (view.chain key).sees startTs reader = false := by
          rw [sees, List.any_eq_false]
          intro delta here
          simp [same delta here, seen]
        simp [version, noBase, applyForRead_of_not_sees blind] at visible

theorem Coherent.present_of_newest (visible : view.newest key = some record) :
    view.present key := by
  by_contra absent
  simp only [Bool.not_eq_true] at absent
  have noBase : view.base key = none := by simp [base, absent]
  have shown : view.version key view.mvcc.clock none = some record := by
    rw [version, noBase]
    exact visible
  rw [coherent.present_of_stamped shown (fun _ impossible => nomatch impossible)] at absent
  cases absent

theorem Coherent.names_of_version (visible : view.version key startTs reader = some record) :
    record.Names key := by
  unfold version at visible
  obtain ⟨snapshot, shown, recorded⟩ := bind_eq_some_iff.mp visible
  cases snapshot with
  | deleted => cases recorded
  | live found =>
    simp only [EntitySnapshot.record?, some.injEq] at recorded
    subst recorded
    by_cases seen : (view.chain key).sees startTs reader
    · obtain ⟨delta, mem, _, same⟩ := applyForRead_of_sees seen
      rw [same] at shown
      exact (coherent.fits key delta mem).named found shown
    · simp only [Bool.not_eq_true] at seen
      rw [applyForRead_of_not_sees seen, base] at shown
      split at shown
      · split at shown
        · next held =>
            cases shown
            exact coherent.named key _ held
        · cases shown
      · cases shown

end Coherent

end View

end ErmyaGraph
