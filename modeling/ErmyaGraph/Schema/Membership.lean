import ErmyaGraph.Lib.Tables
import ErmyaGraph.Schema.File

/-! # Append-only membership

A node created under a label that is declared append-only is in a set that the graph keeps. The
set is not stored: a graph that is opened builds it again, from the labels on the node pages and
the bounds in the catalog. -/

namespace ErmyaGraph.Schema

open Outcome

variable {catalog : SchemaCatalog} {label : String} {id : Nat} {listing : Listing}

/-- What decides which nodes are append-only: the catalog and its file, the labels on the pages,
the existence set, the label index and the set itself. -/
structure Members where
  database : Database := .fresh
  pages : AList fun _ : Nat => String := ∅
  present : Finset Nat := ∅
  labelIndex : String → Finset Nat := fun _ => ∅
  appendOnlyIds : Finset Nat := ∅
  nextId : Nat := 1

/-- How far a write gets: it is refused before it changed anything, it stops at its write to the
page, or it is done. -/
inductive Reach where
  | refused
  | stopped
  | done
deriving DecidableEq

variable {reach : Reach}

/-- A call. A declaration is persisted, with the catalog listed in some order. -/
inductive MemberCall where
  | setLabelAppendOnly (label : String) (on : Bool) (listing : Listing)
  | addNode (label : String) (reach : Reach)
  | updateNode (id node : Nat) (label : String) (reach : Reach)
  | removeNode (id : Nat) (reach : Reach)

def isLabelAppendOnly (catalog : SchemaCatalog) (label : String) : Bool :=
  decide (∃ d ∈ catalog.appendOnly, d.label = label)

/-- A node falls under the declaration of its label. A label is declared at most once. -/
def isCoveredByAppendOnly (catalog : SchemaCatalog) (label : String) (id : Nat) : Bool :=
  decide (∃ d ∈ catalog.appendOnly, d.label = label ∧ d.since.toNat ≤ id)

namespace Members

/-- A declaration or its withdrawal, before it is persisted. -/
def setLabelAppendOnly (m : Members) (label : String) (on : Bool) : Members :=
  if on then
    { m with database := m.database.declared (.setAppendOnly label (UInt64.ofNat m.nextId)) }
  else
    { m with
      database := m.database.declared (.unsetAppendOnly label)
      appendOnlyIds := m.appendOnlyIds \ m.labelIndex label }

def persist (m : Members) (listing : Listing) : Members :=
  { m with database := final (persistSchema listing) m.database }

def insertLabel (m : Members) (label : String) (id : Nat) : Members :=
  { m with
    labelIndex := Function.update m.labelIndex label (insert id (m.labelIndex label)) }

def removeLabel (m : Members) (label : String) (id : Nat) : Members :=
  { m with labelIndex := Function.update m.labelIndex label ((m.labelIndex label).erase id) }

def addNode (m : Members) (label : String) : Reach → Members
  | .refused => m
  | .stopped => { m with nextId := m.nextId + 1 }
  | .done =>
    let id := m.nextId
    let m := { m with nextId := id + 1, pages := m.pages.insert id label }
    let m := { m with present := insert id m.present }.insertLabel label id
    if isLabelAppendOnly m.database.catalog label then
      { m with appendOnlyIds := insert id m.appendOnlyIds }
    else m

/-- A node is stored under the id that it carries. -/
def updateNode (m : Members) (id node : Nat) (label : String) (reach : Reach) : Members :=
  match reach, m.pages.lookup id with
  | .refused, _ | _, none => m
  | reach, some prior =>
    if id ∈ m.present then
      let m := if prior ≠ label then (m.removeLabel prior node).insertLabel label node else m
      if reach = .done then { m with pages := m.pages.insert node label } else m
    else m

def removeNode (m : Members) (id : Nat) (reach : Reach) : Members :=
  match reach, m.pages.lookup id with
  | .done, some label =>
    if id ∈ m.present then
      let m := { m with pages := m.pages.erase id, present := m.present.erase id }
      m.removeLabel label id
    else m
  | _, _ => m

def step (m : Members) : MemberCall → Members
  | .setLabelAppendOnly label on listing => (m.setLabelAppendOnly label on).persist listing
  | .addNode label reach => m.addNode label reach
  | .updateNode id node label reach => m.updateNode id node label reach
  | .removeNode id reach => m.removeNode id reach

def run (m : Members) (calls : List MemberCall) : Members := calls.foldl step m

/-- Whether the page of a node has a label that a catalog declares from the node on. -/
def covered (pages : AList fun _ : Nat => String) (catalog : SchemaCatalog) (id : Nat) : Bool :=
  (pages.lookup id).any fun label => isCoveredByAppendOnly catalog label id

/-- The set that a graph builds when it is opened over the pages and the schema file. -/
def opened (m : Members) : Finset Nat :=
  m.pages.keys.toFinset.filter fun id => covered m.pages (openCatalog m.database.file) id

def appendOnly (m : Members) : Finset Nat := m.appendOnlyIds ∩ m.present

variable {since : UInt64} {d : AppendOnlyDecl}

theorem mem_markLabelAppendOnly :
    d ∈ (catalog.markLabelAppendOnly label since).appendOnly ↔ d ∈ catalog.appendOnly ∨
        d = ⟨label, since⟩ ∧ ∀ e ∈ catalog.appendOnly, e.label ≠ label := by
  unfold SchemaCatalog.markLabelAppendOnly
  split
  · next fresh =>
    rw [Finset.mem_insert, or_comm]
    exact or_congr_right (iff_self_and.mpr fun _ => fresh)
  · next fresh => exact ⟨.inl, fun either => either.resolve_right fun new => fresh new.2⟩

theorem mem_unmarkLabelAppendOnly :
    d ∈ (catalog.unmarkLabelAppendOnly label).appendOnly ↔
      d ∈ catalog.appendOnly ∧ d.label ≠ label :=
  Finset.mem_filter

variable {other : String}

theorem covered_mark (earlier : id < since.toNat) :
    isCoveredByAppendOnly (catalog.markLabelAppendOnly label since) other id =
      isCoveredByAppendOnly catalog other id := by
  unfold isCoveredByAppendOnly
  refine decide_eq_decide.mpr ⟨?_, ?_⟩
  · rintro ⟨d, mem, named, reached⟩
    obtain old | ⟨rfl, -⟩ := mem_markLabelAppendOnly.mp mem
    · exact ⟨d, old, named, reached⟩
    · exact absurd reached (Nat.not_le.mpr earlier)
  · rintro ⟨d, mem, named, reached⟩
    exact ⟨d, mem_markLabelAppendOnly.mpr (.inl mem), named, reached⟩

theorem covered_unmark :
    isCoveredByAppendOnly (catalog.unmarkLabelAppendOnly label) other id = true ↔
      isCoveredByAppendOnly catalog other id = true ∧ other ≠ label := by
  simp only [isCoveredByAppendOnly, decide_eq_true_eq, mem_unmarkLabelAppendOnly]
  constructor
  · rintro ⟨d, ⟨mem, ne⟩, rfl, reached⟩
    exact ⟨⟨d, mem, rfl, reached⟩, ne⟩
  · rintro ⟨⟨d, mem, rfl, reached⟩, ne⟩
    exact ⟨d, ⟨mem, ne⟩, rfl, reached⟩

theorem covered_new (bounds : ∀ d ∈ catalog.appendOnly, d.since.toNat ≤ id) :
    isCoveredByAppendOnly catalog label id = isLabelAppendOnly catalog label :=
  decide_eq_decide.mpr ⟨fun ⟨d, mem, named, _⟩ => ⟨d, mem, named⟩,
    fun ⟨d, mem, named⟩ => ⟨d, mem, named, bounds d mem⟩⟩

def Persists (database : Database) (listing : Listing) : Prop :=
  listing.Lists database.catalog ∧ succeeds (persistSchema listing) database

/-- The condition under which a call keeps the set the one that an opening builds. -/
def Ready (m : Members) : MemberCall → Prop
  | .setLabelAppendOnly label on listing =>
    Persists (m.setLabelAppendOnly label on).database listing ∧ (¬m.database.catalog.IsEmpty →
        ¬(m.setLabelAppendOnly label on).database.catalog.IsEmpty)
  | .addNode _ _ => m.nextId + 1 < 2 ^ 64
  | .updateNode id node label reach => ∀ prior, m.pages.lookup id = some prior →
      reach ≠ .refused → node = id ∧ (prior ≠ label → reach = .done ∧
        isCoveredByAppendOnly m.database.catalog prior id =
          isCoveredByAppendOnly m.database.catalog label id)
  | .removeNode _ _ => True

def ReadyRun (m : Members) : List MemberCall → Prop
  | [] => True
  | call :: rest => m.Ready call ∧ (m.step call).ReadyRun rest

/-- The existence set and the label index are those of the pages, and the append-only set has the
live nodes that the catalog covers. -/
structure Standing (m : Members) : Prop where
  live : ∀ id, id ∈ m.present ↔ id ∈ m.pages
  fresh : ∀ id ∈ m.pages, id < m.nextId
  given : ∀ id ∈ m.appendOnlyIds, id < m.nextId
  indexed : ∀ id label, id ∈ m.labelIndex label ↔ m.pages.lookup id = some label
  bounds : ∀ d ∈ m.database.catalog.appendOnly, d.since.toNat ≤ m.nextId
  covers : ∀ id label, m.pages.lookup id = some label →
    (id ∈ m.appendOnlyIds ↔ isCoveredByAppendOnly m.database.catalog label id = true)
  small : m.nextId < 2 ^ 64

/-- And the file has the catalog. -/
structure Kept (m : Members) : Prop extends Standing m where
  persisted : openCatalog m.database.file = m.database.catalog

theorem kept_fresh : Kept {} where
  live _ := by simp
  fresh _ mem := absurd mem (AList.notMem_empty _)
  given _ mem := by simp at mem
  indexed _ _ := by simp
  bounds _ mem := by simp [Database.fresh] at mem
  covers _ _ found := by simp at found
  persisted := rfl
  small := by decide

variable {m : Members}

theorem mem_of_lookup {pages : AList fun _ : Nat => String} (found : pages.lookup id = some label) :
    id ∈ pages :=
  AList.lookup_isSome.mp (by rw [found]; rfl)

theorem sat_persist {database : Database} (persists : Persists database listing) :
    (final (persistSchema listing) database).catalog = database.catalog ∧
      if database.catalog.IsEmpty then
        (final (persistSchema listing) database).file = database.file
      else openCatalog (final (persistSchema listing) database).file = database.catalog := by
  obtain ⟨catalog, file⟩ := (sat_persistSchema persists.1).final_of_succeeds persists.2
  refine ⟨catalog, ?_⟩
  split
  · next empty => rwa [if_pos empty] at file
  · next some_ =>
    rw [if_neg some_] at file
    exact file.elim fun _ done => done.2

theorem Standing.persist (standing : Standing m) (persists : Persists m.database listing)
    (before : m.database.catalog.IsEmpty → openCatalog m.database.file = m.database.catalog) :
    Kept (m.persist listing) := by
  obtain ⟨catalog, file⟩ := sat_persist persists
  refine ⟨⟨standing.live, standing.fresh, standing.given, standing.indexed, ?_, ?_,
    standing.small⟩, ?_⟩
  · unfold Members.persist
    rw [catalog]
    exact standing.bounds
  · unfold Members.persist
    rw [catalog]
    exact standing.covers
  · unfold Members.persist
    rw [catalog]
    split at file
    · next empty =>
      rw [file]
      exact before empty
    · exact file

theorem Standing.setLabelAppendOnly {on : Bool} (standing : Standing m) :
    Standing (m.setLabelAppendOnly label on) := by
  have exact_ : (UInt64.ofNat m.nextId).toNat = m.nextId := UInt64.toNat_ofNat_of_lt' standing.small
  cases on with
  | true =>
    refine ⟨standing.live, standing.fresh, standing.given, standing.indexed, fun d mem => ?_,
      fun id other found => ?_, standing.small⟩
    · obtain old | ⟨rfl, -⟩ := mem_markLabelAppendOnly.mp mem
      · exact standing.bounds d old
      · exact exact_.le
    · have below := standing.fresh id (mem_of_lookup found)
      refine (standing.covers id other found).trans ?_
      rw [← covered_mark (exact_.symm ▸ below)]
      rfl
  | false =>
    refine ⟨standing.live, standing.fresh, fun id mem => ?_, standing.indexed,
      fun d mem => ?_, fun id other found => ?_, standing.small⟩
    · exact standing.given id (Finset.mem_sdiff.mp mem).1
    · exact standing.bounds d (mem_unmarkLabelAppendOnly.mp mem).1
    · refine Iff.trans ?_ covered_unmark.symm
      rw [← standing.covers id other found]
      refine Finset.mem_sdiff.trans (and_congr_right fun _ => not_congr ?_)
      exact (standing.indexed id label).trans (by rw [show m.pages.lookup id = _ from found,
        Option.some.injEq])

theorem Kept.setLabelAppendOnly {on : Bool} (kept : Kept m)
    (ready : m.Ready (.setLabelAppendOnly label on listing)) :
    Kept ((m.setLabelAppendOnly label on).persist listing) := by
  obtain ⟨persists, some_⟩ := ready
  refine kept.toStanding.setLabelAppendOnly.persist persists fun empty => ?_
  have before : m.database.catalog.IsEmpty := by
    by_contra filled
    exact some_ filled empty
  have same : (m.setLabelAppendOnly label on).database.file = m.database.file := by
    cases on <;> rfl
  rw [same, kept.persisted, before.eq, empty.eq]

section Writes

attribute [local grind =] Function.update_apply Tables.lookup_insert Tables.lookup_erase

theorem addNode_done (label : String) : m.addNode label .done = { m with
    nextId := m.nextId + 1
    pages := m.pages.insert m.nextId label
    present := insert m.nextId m.present
    labelIndex := Function.update m.labelIndex label (insert m.nextId (m.labelIndex label))
    appendOnlyIds := if isLabelAppendOnly m.database.catalog label then
      insert m.nextId m.appendOnlyIds else m.appendOnlyIds } := by
  unfold Members.addNode Members.insertLabel
  dsimp only
  split <;> rfl

theorem Kept.addNode (kept : Kept m) (ready : m.nextId + 1 < 2 ^ 64) :
    Kept (m.addNode label reach) := by
  cases reach with
  | refused => exact kept
  | stopped =>
    refine ⟨⟨kept.live, fun id mem => ?_, fun id mem => ?_, kept.indexed,
      fun d mem => ?_, kept.covers, ready⟩, kept.persisted⟩
    · exact Nat.lt_succ_of_lt (kept.fresh id mem)
    · exact Nat.lt_succ_of_lt (kept.given id mem)
    · exact Nat.le_succ_of_le (kept.bounds d mem)
  | done =>
    rw [addNode_done]
    have absent : m.pages.lookup m.nextId = none := by
      rw [AList.lookup_eq_none]
      exact fun mem => (kept.fresh _ mem).false
    have new : m.nextId ∉ m.appendOnlyIds := fun mem => (kept.given _ mem).false
    have declared := @covered_new m.database.catalog label m.nextId kept.bounds
    refine ⟨⟨fun id => ?_, fun id mem => ?_, fun id mem => ?_, fun id other => ?_,
      fun d mem => ?_, fun id other found => ?_, ready⟩, kept.persisted⟩
    · rw [Finset.mem_insert, AList.mem_insert, kept.live]
    · obtain rfl | old := (AList.mem_insert _).mp mem
      · exact Nat.lt_succ_self _
      · exact Nat.lt_succ_of_lt (kept.fresh id old)
    · have := kept.given id
      dsimp only at mem ⊢
      split at mem <;> grind
    · have := kept.indexed id
      grind
    · exact Nat.le_succ_of_le (kept.bounds d mem)
    · have := kept.covers id other
      dsimp only at found ⊢
      split <;> grind

theorem Kept.insertPage {prior : String} {labelIndex : String → Finset Nat} (kept : Kept m)
    (found : m.pages.lookup id = some prior) (indexed : ∀ other name,
      other ∈ labelIndex name ↔ (m.pages.insert id label).lookup other = some name)
    (same : isCoveredByAppendOnly m.database.catalog prior id =
      isCoveredByAppendOnly m.database.catalog label id) :
    Kept { m with labelIndex := labelIndex, pages := m.pages.insert id label } := by
  have old := mem_of_lookup found
  have mem (other : Nat) : other ∈ m.pages.insert id label ↔ other ∈ m.pages := by
    rw [AList.mem_insert]
    exact or_iff_right_of_imp fun is => is ▸ old
  refine ⟨⟨fun other => ?_, fun other listed => ?_, kept.given, indexed, kept.bounds,
    fun other name found' => ?_, kept.small⟩, kept.persisted⟩
  · exact (kept.live other).trans (mem other).symm
  · exact kept.fresh other ((mem other).mp listed)
  · have before := kept.covers id prior found
    have := kept.covers other name
    dsimp only at found' ⊢
    grind

theorem Kept.updateNode {node : Nat} (kept : Kept m)
    (ready : m.Ready (.updateNode id node label reach)) :
    Kept (m.updateNode id node label reach) := by
  unfold Members.updateNode
  split
  · exact kept
  · exact kept
  · next prior started found =>
    obtain ⟨rfl, relabel⟩ := ready prior found started
    split
    · by_cases same : prior = label
      · subst same
        rw [if_neg (not_not.mpr rfl)]
        split
        · refine kept.insertPage found (fun other name => ?_) rfl
          have := kept.indexed other name
          grind
        · exact kept
      · obtain ⟨rfl, covered⟩ := relabel same
        rw [if_pos same, if_pos rfl]
        refine kept.insertPage found (fun other name => ?_) covered
        have := kept.indexed other name
        simp only [Members.insertLabel, Members.removeLabel]
        grind
    · exact kept

theorem Kept.removeNode (kept : Kept m) : Kept (m.removeNode id reach) := by
  unfold Members.removeNode
  split
  · next label found =>
    split
    · refine ⟨⟨fun other => ?_, fun other mem => ?_, kept.given, fun other name => ?_,
        kept.bounds, fun other name found' => ?_, kept.small⟩, kept.persisted⟩
      · have := kept.live other
        simp only [Members.removeLabel, Finset.mem_erase, AList.mem_erase, this]
      · exact kept.fresh other (AList.mem_erase.mp mem).2
      · have := kept.indexed other
        simp only [Members.removeLabel]
        grind
      · have := kept.covers other name
        simp only [Members.removeLabel] at found' ⊢
        grind
    · exact kept
  · exact kept

end Writes

theorem Kept.step {call : MemberCall} (kept : Kept m) (ready : m.Ready call) :
    Kept (m.step call) := by
  cases call with
  | setLabelAppendOnly label on listing => exact kept.setLabelAppendOnly ready
  | addNode label reach => exact kept.addNode ready
  | updateNode id node label reach => exact kept.updateNode ready
  | removeNode id reach => exact kept.removeNode

theorem Kept.run {calls : List MemberCall} (kept : Kept m) (ready : m.ReadyRun calls) :
    Kept (m.run calls) := by
  induction calls generalizing m with
  | nil => exact kept
  | cons call rest ih => exact ih (kept.step ready.1) ready.2

theorem Kept.opened_eq (kept : Kept m) : m.opened = m.appendOnly := by
  ext id
  rw [opened, appendOnly, Finset.mem_filter, List.mem_toFinset, Finset.mem_inter, kept.live,
    covered, kept.persisted, AList.mem_keys.symm, and_comm]
  refine and_congr_left fun mem => ?_
  obtain ⟨label, found⟩ := Option.isSome_iff_exists.mp (AList.lookup_isSome.mpr mem)
  rw [found, Option.any_some]
  exact (kept.covers id label found).symm

/-- In a run whose calls are all ready, with a flush at its end, an opening builds the set of live
nodes that the running graph treated as append-only. -/
theorem membership_reproduced (calls : List MemberCall) (listing : Listing)
    (ready : ReadyRun {} calls) (flushed : Persists (run {} calls).database listing) :
    ((run {} calls).persist listing).opened = (run {} calls).appendOnly :=
  have kept := kept_fresh.run ready
  (kept.toStanding.persist flushed fun _ => kept.persisted).opened_eq

/-- A catalog that declares one label, from the first node on. -/
def eventsListed : Listing := ⟨[], [], [⟨"Event", 1⟩]⟩

def declareAndAdd : List MemberCall :=
  [.setLabelAppendOnly "Event" true eventsListed, .addNode "Event" .done]

theorem persists_declared :
    Persists (setLabelAppendOnly {} "Event" true).database eventsListed := by
  constructor
  · constructor <;> decide +kernel
  · decide +kernel

theorem persists_declareAndAdd : Persists (run {} declareAndAdd).database eventsListed := by
  constructor
  · constructor <;> decide +kernel
  · decide +kernel

/-- The node that is added is the append-only one. -/
theorem membership_reproduced_declareAndAdd :
    ((run {} declareAndAdd).persist eventsListed).opened = (run {} declareAndAdd).appendOnly :=
  membership_reproduced declareAndAdd eventsListed
    ⟨⟨persists_declared, by decide +kernel⟩, (by decide +kernel : (1 : Nat) + 1 < 2 ^ 64), trivial⟩
    persists_declareAndAdd

/-- A node that gets another label stays append-only until the graph is opened again. -/
def relabel : List MemberCall := declareAndAdd ++ [.updateNode 1 1 "Person" .done]

theorem relabel_not_reproduced :
    Persists (setLabelAppendOnly {} "Event" true).database eventsListed ∧
      Persists (run {} relabel).database eventsListed ∧ (run {} relabel).appendOnly = {1} ∧
          ((run {} relabel).persist eventsListed).opened = ∅ := by
  refine ⟨persists_declared, ⟨?_, ?_⟩, ?_, ?_⟩
  · constructor <;> decide +kernel
  · decide +kernel
  · decide +kernel
  · decide +kernel

end Members

end ErmyaGraph.Schema
