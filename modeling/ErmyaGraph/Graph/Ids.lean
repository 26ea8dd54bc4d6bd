import ErmyaGraph.Graph.Replay

/-! # Ids over the life of a directory

Ids are given out in order from a counter that only a checkpoint writes to disk.
Opening a directory raises the counter past the live entities it finds, but not
past entities that were removed since the last checkpoint. -/

namespace ErmyaGraph

open Outcome Store Graph

/-- The entity an operation creates, when it returns normally. -/
def Op.created (graph : Graph) : Op → Option EntityKey
  | .addNode label props =>
    (answer (Graph.addNode label props) graph).toOption.map (EntityKey.mk .node)
  | .addEdge label source target props =>
    (answer (Graph.addEdge label source target props) graph).toOption.map (EntityKey.mk .edge)
  | .addNodeInTxn txn label props =>
    (answer (Graph.addNodeInTxn txn label props) graph).toOption.map (EntityKey.mk .node)
  | .addEdgeInTxn txn label source target props =>
    (answer (Graph.addEdgeInTxn txn label source target props) graph).toOption.map
      (EntityKey.mk .edge)
  | _ => none

namespace Graph

/-- A normal result is an id that was not given out before and now is. -/
def Creates (kind : EntityKind) (x : GraphM Nat) : Prop :=
  ∀ graph, Sat x graph
    (fun id after => graph.store.info.nextId kind ≤ id ∧ id < after.store.info.nextId kind)
    (fun _ _ => True)

/-- A normal result is a certain id, and no id becomes available again. -/
def Answers (id : Nat) (x : GraphM Nat) : Prop :=
  ∀ graph, Sat x graph
    (fun answered after => answered = id ∧
      ∀ kind, graph.store.info.nextId kind ≤ after.store.info.nextId kind)
    (fun _ _ => True)

section Rules

variable {α : Type} {kind : EntityKind} {id : Nat} {x : GraphM α}

theorem answers_pure (id : Nat) : Answers id (pure id) := fun _ => ⟨rfl, fun _ => le_rfl⟩

variable {f : α → GraphM Nat}

theorem Answers.after (keeps : Keeps (Advances Plain) x) (rest : ∀ a, Answers id (f a)) :
    Answers id (x >>= f) := by
  intro graph
  rw [sat_bind]
  refine (keeps graph).loose (fun a between earlier => ?_)
  refine (rest a between).loose (fun answered after later => ?_)
  exact ⟨later.1, fun kind => (earlier.ids kind).trans (later.2 kind)⟩

theorem creates_throw (e : Error) : Creates kind (throw e) := fun _ => trivial

theorem creates_ite {p : Prop} [Decidable p] {x y : GraphM Nat} (onTrue : p → Creates kind x)
    (onFalse : ¬p → Creates kind y) : Creates kind (if p then x else y) := by
  by_cases held : p
  · rw [if_pos held]
    exact onTrue held
  · rw [if_neg held]
    exact onFalse held

theorem Creates.after (keeps : Keeps (Advances Plain) x) (rest : ∀ a, Creates kind (f a)) :
    Creates kind (x >>= f) := by
  intro graph
  rw [sat_bind]
  refine (keeps graph).loose (fun a between earlier => ?_)
  refine (rest a between).loose (fun id after later => ?_)
  exact ⟨(earlier.ids kind).trans later.1, later.2⟩

theorem creates_allocateId {f : Nat → GraphM Nat} (rest : ∀ id, Answers id (f id)) :
    Creates kind (allocateId kind >>= f) := by
  intro graph
  have taken : Sat (allocateId kind) graph
      (fun id after => id = graph.store.info.nextId kind ∧ id < after.store.info.nextId kind)
      (fun _ _ => False) := by
    refine ⟨rfl, ?_⟩
    change _ < Function.update graph.store.info.nextId kind _ kind
    rw [Function.update_self]
    exact Nat.lt_succ_self _
  rw [sat_bind]
  refine taken.sure (fun id between given => ?_)
  refine (rest id between).loose (fun answered after later => ?_)
  rw [later.1]
  exact ⟨given.1.ge, given.2.trans_le (later.2 kind)⟩

theorem Creates.bounds {x : GraphM Nat} {graph : Graph} {key : EntityKey} (creates : Creates kind x)
    (made : (answer x graph).toOption.map (EntityKey.mk kind) = some key) :
    graph.store.info.nextId key.kind ≤ key.id ∧
      key.id < (final (discard x) graph).store.info.nextId key.kind := by
  have sat := creates graph
  obtain ⟨id, answered, rfl⟩ := Option.map_eq_some_iff.mp made
  cases ran : x.run graph with
  | ok id' after =>
    rw [sat_of_run ran] at sat
    have same : id' = id := by
      simpa [answer, ran, Except.toOption] using answered
    have left : final (discard x) graph = after := by
      refine Sat.final (P := fun reached => reached = after) ?_
      rw [sat_discard, sat_of_run ran]
    rw [left, ← same]
    exact sat
  | error e after =>
    rw [answer, ran] at answered
    cases answered

end Rules

variable (label : String)

theorem creates_addNode (props : Properties) : Creates .node (addNode label props) := by
  unfold addNode
  refine .after keeps_checkQuota fun _ => .after (keeps_chargeBatchOp _) fun _ => ?_
  refine .after (keeps_checkUnique label props none) fun _ => creates_allocateId fun id => ?_
  refine .after (keeps_onStore_records (keeps_writeRecordSlot .node _)) fun _ => ?_
  refine .after (keeps_reconcileNodeInsert _) fun _ => .after (keeps_pin label id) fun _ => ?_
  exact .after keeps_walSync fun _ => answers_pure id

theorem creates_addEdge (source target : Nat) (props : Properties) :
    Creates .edge (addEdge label source target props) := by
  unfold addEdge
  refine .after keeps_checkQuota fun _ => .after (keeps_chargeBatchOp _) fun _ => ?_
  refine .after keeps_get fun graph => creates_ite (fun _ => creates_throw _) fun _ => ?_
  refine creates_ite (fun _ => creates_throw _) fun _ => creates_allocateId fun id => ?_
  refine .after (keeps_onStore_records (keeps_writeRecordSlot .edge _)) fun _ => ?_
  refine .after (keeps_reconcileEdgeInsert _) fun _ => ?_
  exact .after keeps_walSync fun _ => answers_pure id

theorem creates_addNodeInTxn (txn : Nat) (label : String) (props : Properties) :
    Creates .node (addNodeInTxn txn label props) := by
  unfold addNodeInTxn
  refine .after keeps_checkQuota fun _ => .after (keeps_requireActive txn) fun _ => ?_
  refine .after keeps_get fun graph => creates_ite (fun _ => creates_throw _) fun _ => ?_
  refine creates_allocateId fun id => ?_
  exact .after (keeps_recordDelta txn _ _ _ _) fun _ => answers_pure id

theorem creates_addEdgeInTxn (txn : Nat) (label : String) (source target : Nat)
    (props : Properties) : Creates .edge (addEdgeInTxn txn label source target props) := by
  unfold addEdgeInTxn
  refine .after keeps_checkQuota fun _ => .after (keeps_requireActive txn) fun _ => ?_
  refine .after (keeps_requireNodeInTxn txn source) fun _ => ?_
  refine .after (keeps_requireNodeInTxn txn target) fun _ => creates_allocateId fun id => ?_
  exact .after (keeps_recordDelta txn _ _ _ _) fun _ => answers_pure id

theorem created_bounds {graph : Graph} {op : Op} {key : EntityKey}
    (made : op.created graph = some key) :
    graph.store.info.nextId key.kind ≤ key.id ∧
      key.id < (graph.after op).store.info.nextId key.kind := by
  cases op with
  | addNode label props => exact (creates_addNode label props).bounds made
  | addEdge label source target props => exact (creates_addEdge label source target props).bounds made
  | addNodeInTxn txn label props => exact (creates_addNodeInTxn txn label props).bounds made
  | addEdgeInTxn txn label source target props =>
    exact (creates_addEdgeInTxn txn label source target props).bounds made
  | _ => cases made

theorem applyRecord_nextId (state : Recovered) (record : WalRecord) :
    (applyRecord state record).info.nextId = state.info.nextId := by
  cases record with
  | _ => rfl

theorem openStore_nextId (disk : Disk) (journal : Option (List WalRecord)) :
    (openStore disk journal).info.nextId = disk.info.nextId := by
  cases journal with
  | none => rfl
  | some records =>
    have replayed (ids : List Nat) (records : List WalRecord) (state : Recovered) :
        (records.foldl (replayRecord ids) state).info.nextId = state.info.nextId := by
      induction records generalizing state with
      | nil => rfl
      | cons record rest ih =>
        rw [List.foldl_cons, ih, replayRecord]
        split
        · exact applyRecord_nextId state record
        · rfl
    unfold openStore
    dsimp only
    split
    · exact replayed _ _ _
    · exact replayed _ _ _

/-- An id is below the counter of an opened graph if it is below the one on disk or some live
entity has at least that id. -/
theorem lt_nextId_open_iff {disk : Disk} {journal : Option (List WalRecord)}
    {evicts : Nat → Nat → Bool} {graph : Graph} (opened : Graph.open disk journal evicts = .ok graph)
    (kind : EntityKind) (id : Nat) :
    id < graph.store.info.nextId kind ↔
      id < disk.info.nextId kind ∨ ∃ found ∈ foundIds (openStore disk journal) kind, id ≤ found := by
  obtain ⟨_, _, index, _, whole⟩ := open_opened opened
  have counter : graph.store.info.nextId kind = max (disk.info.nextId kind)
      ((foundIds (openStore disk journal) kind).sup fun found => found + 1) := by
    rw [whole, ← openStore_nextId disk journal]
    rfl
  rw [counter, lt_max_iff, Finset.lt_sup_iff]
  simp only [Nat.lt_succ_iff]

/-- Nothing waits for the disk: the journal is flushed or, without a journal, nothing was created
since the last checkpoint. -/
def settled (graph : Graph) : Bool :=
  match graph.store.wal with
  | some wal => wal.records.length ≤ wal.synced
  | none =>
    graph.store.info.nextId .node = graph.disk.info.nextId .node ∧
      graph.store.info.nextId .edge = graph.disk.info.nextId .edge

/-- A caller set options of an open graph. -/
structure Configured (before after : Graph) : Prop where
  mvcc : after.mvcc = before.mvcc ∨ before.mvcc = none ∧ after.mvcc = some {}
  rest : after = { before with
    catalog := after.catalog, appendOnlyIds := after.appendOnlyIds, mvcc := after.mvcc
    txnMemoryCap := after.txnMemoryCap, quotaExceeded := after.quotaExceeded
    batchMaxOps := after.batchMaxOps, batchMaxBytes := after.batchMaxBytes }

end Graph

/-- An open graph with the entities its directory has seen created: those whose creation is on
disk, those that still wait for it and those in a transaction that has not committed. -/
structure Ledger where
  graph : Graph
  durable : List EntityKey := []
  waiting : List EntityKey := []
  inTxn : List (Nat × EntityKey) := []

/-- What the end of a session leaves behind, and which waiting creations are on disk after all. -/
structure Crash where
  disk : Disk
  journal : Option (List WalRecord)
  survived : List EntityKey := []

namespace Ledger

variable {ledger : Ledger}

/-- The creations that the normal return of an operation confirms. -/
def confirmed (ledger : Ledger) (op : Op) : List EntityKey :=
  match op with
  | .addNode _ _ | .addEdge _ _ _ _ => (op.created ledger.graph).toList
  | .commitTxn txn =>
    if succeeds (commitTxn txn) ledger.graph then
      (ledger.inTxn.filter fun entry => entry.1 = txn).map Prod.snd
    else []
  | _ => []

/-- The creations that wait for a commit after an operation. -/
def uncommitted (ledger : Ledger) (op : Op) : List (Nat × EntityKey) :=
  match op with
  | .addNodeInTxn txn _ _ | .addEdgeInTxn txn _ _ _ _ =>
    (op.created ledger.graph).toList.map (Prod.mk txn) ++ ledger.inTxn
  | _ => ledger.inTxn

/-- Perform an operation. -/
def act (ledger : Ledger) (op : Op) : Ledger :=
  let reached := ledger.graph.after op
  let owed := ledger.confirmed op ++ ledger.waiting
  { graph := reached
    durable := if reached.settled then owed ++ ledger.durable else ledger.durable
    waiting := if reached.settled then [] else owed
    inTxn := ledger.uncommitted op }

/-- What a crash leaves that keeps a part of the journal. A clean close keeps all of it. -/
def left (ledger : Ledger) (kept : Nat) : Crash :=
  { disk := ledger.graph.disk
    journal := ledger.graph.journalAfter kept
    survived := match ledger.graph.store.wal with
      | some wal => if wal.records.length ≤ kept then ledger.waiting else []
      | none => [] }

/-- Open the directory in a new session. -/
def reopen (ledger : Ledger) (crash : Crash) (evicts : Nat → Nat → Bool) : Option Ledger :=
  match Graph.open crash.disk crash.journal evicts with
  | .ok graph => some { graph := graph, durable := crash.survived ++ ledger.durable }
  | .error _ => none

/-- The histories of a new directory whose sessions all end in a certain way. -/
inductive Reached (ends : Ledger → Crash → Prop) : Ledger → Prop
  | start (wal : Bool) (evicts : Nat → Nat → Bool) :
      Reached ends { graph := fresh wal evicts }
  | configure {ledger : Ledger} (graph : Graph) (past : Reached ends ledger)
      (options : ledger.graph.Configured graph) : Reached ends { ledger with graph := graph }
  | act {ledger : Ledger} (op : Op) (past : Reached ends ledger) : Reached ends (ledger.act op)
  | reopen {ledger next : Ledger} (crash : Crash) (evicts : Nat → Nat → Bool)
      (past : Reached ends ledger) (ended : ends ledger crash)
      (opened : ledger.reopen crash evicts = some next) : Reached ends next

/-- No operation creates an entity whose creation is on disk already. -/
def NeverReuses (ledger : Ledger) : Prop :=
  ∀ (op : Op) (key : EntityKey), op.created ledger.graph = some key → key ∉ ledger.durable

/-- Every creation on disk is below the counter that is on disk too, or not above some entity
that is live after recovery. -/
def Covered (ledger : Ledger) (crash : Crash) : Prop :=
  ∀ key ∈ crash.survived ++ ledger.durable, key.id < crash.disk.info.nextId key.kind ∨
      ∃ found ∈ foundIds (openStore crash.disk crash.journal) key.kind, key.id ≤ found

instance (ledger : Ledger) (crash : Crash) : Decidable (ledger.Covered crash) :=
  inferInstanceAs (Decidable (∀ key ∈ crash.survived ++ ledger.durable, _ ∨ _))

/-- The counter is above every entity created so far. -/
structure Ahead (ledger : Ledger) : Prop where
  durable : ∀ key ∈ ledger.durable, key.id < ledger.graph.store.info.nextId key.kind
  waiting : ∀ key ∈ ledger.waiting, key.id < ledger.graph.store.info.nextId key.kind
  inTxn : ∀ entry ∈ ledger.inTxn, entry.2.id < ledger.graph.store.info.nextId entry.2.kind

section

variable (ahead : ledger.Ahead)
include ahead

theorem Ahead.neverReuses : ledger.NeverReuses := by
  intro op key made known
  exact absurd (ahead.durable key known) (created_bounds made).1.not_gt

variable (op : Op)

theorem Ahead.uncommitted : ∀ entry ∈ ledger.uncommitted op,
      entry.2.id < (ledger.graph.after op).store.info.nextId entry.2.kind := by
  have old : ∀ entry ∈ ledger.inTxn,
      entry.2.id < (ledger.graph.after op).store.info.nextId entry.2.kind :=
    fun entry mem => (ahead.inTxn entry mem).trans_le ((ledger.graph.after_proceeds op).ids _)
  have new (txn : Nat) : ∀ entry ∈ (op.created ledger.graph).toList.map (Prod.mk txn) ++ ledger.inTxn,
      entry.2.id < (ledger.graph.after op).store.info.nextId entry.2.kind := by
    intro entry mem
    rcases List.mem_append.mp mem with made | known
    · obtain ⟨key, created, rfl⟩ := List.mem_map.mp made
      exact (created_bounds (Option.mem_toList.mp created)).2
    · exact old entry known
  cases op with
  | addNodeInTxn txn label props => exact new txn
  | addEdgeInTxn txn label source target props => exact new txn
  | _ => exact old

theorem Ahead.confirmed :
    ∀ key ∈ ledger.confirmed op, key.id < (ledger.graph.after op).store.info.nextId key.kind := by
  intro key mem
  have created (made : key ∈ (op.created ledger.graph).toList) :
      key.id < (ledger.graph.after op).store.info.nextId key.kind :=
    (created_bounds (Option.mem_toList.mp made)).2
  cases op with
  | addNode label props => exact created mem
  | addEdge label source target props => exact created mem
  | commitTxn txn =>
    simp only [Ledger.confirmed] at mem
    split at mem
    · obtain ⟨entry, listed, rfl⟩ := List.mem_map.mp mem
      exact (ahead.inTxn entry (List.mem_of_mem_filter listed)).trans_le
        ((ledger.graph.after_proceeds (.commitTxn txn)).ids _)
    · cases mem
  | _ => cases mem

theorem Ahead.act : (ledger.act op).Ahead := by
  have grows := (ledger.graph.after_proceeds op).ids
  have durable : ∀ key ∈ ledger.durable,
      key.id < (ledger.graph.after op).store.info.nextId key.kind :=
    fun key mem => (ahead.durable key mem).trans_le (grows key.kind)
  have owed : ∀ key ∈ ledger.confirmed op ++ ledger.waiting,
      key.id < (ledger.graph.after op).store.info.nextId key.kind := by
    intro key mem
    rcases List.mem_append.mp mem with new | old
    · exact ahead.confirmed op key new
    · exact (ahead.waiting key old).trans_le (grows key.kind)
  have inTxn := ahead.uncommitted op
  unfold Ledger.act
  by_cases settled : (ledger.graph.after op).settled
  · simp only [settled, ↓reduceIte]
    refine ⟨fun key mem => ?_, fun _ => nofun, inTxn⟩
    rcases List.mem_append.mp mem with new | old
    · exact owed key new
    · exact durable key old
  · simp only [settled, Bool.false_eq_true, ↓reduceIte]
    exact ⟨durable, owed, inTxn⟩

theorem Ahead.configure {graph : Graph}
    (options : ledger.graph.Configured graph) : Ahead { ledger with graph := graph } := by
  have same : graph.store = ledger.graph.store := by rw [options.rest]
  constructor
  · rw [same]
    exact ahead.durable
  · rw [same]
    exact ahead.waiting
  · rw [same]
    exact ahead.inTxn

end

theorem ahead_reopen_iff {next : Ledger} {crash : Crash} {evicts : Nat → Nat → Bool}
    (opened : ledger.reopen crash evicts = some next) : next.Ahead ↔ ledger.Covered crash := by
  unfold reopen at opened
  split at opened
  · next graph reached =>
      cases opened
      constructor
      · intro ahead key mem
        exact (lt_nextId_open_iff reached key.kind key.id).mp (ahead.durable key mem)
      · intro covered
        refine ⟨fun key mem => ?_, fun _ => nofun, fun _ => nofun⟩
        exact (lt_nextId_open_iff reached key.kind key.id).mpr (covered key mem)
  · cases opened

theorem Reached.ahead (reached : Reached Covered ledger) : ledger.Ahead := by
  induction reached with
  | start wal evicts => exact ⟨fun _ => nofun, fun _ => nofun, fun _ => nofun⟩
  | configure graph past options ih => exact ih.configure options
  | act op past ih => exact ih.act op
  | reopen crash evicts past ended opened ih => exact (ahead_reopen_iff opened).mpr ended

/-- As long as every session ends with the creations on disk covered, no id that was made durable
is given out again, in that session or a later one. -/
theorem neverReuses_of_covered {ledger : Ledger} (reached : Reached Covered ledger) :
    ledger.NeverReuses :=
  reached.ahead.neverReuses

/-- Two nodes are created and the first one is removed. -/
def withGap : Ledger :=
  (((Ledger.mk (fresh true fun _ _ => false) [] [] []).act (.addNode "A" .empty)).act
    (.addNode "B" .empty)).act (.removeNode 1)

/-- The second node keeps the counter above both ids when its session ends in a crash. -/
theorem neverReuses_withGap : ∃ next,
    withGap.reopen (withGap.left 0) (fun _ _ => false) = some next ∧ next.NeverReuses := by
  have found : (withGap.reopen (withGap.left 0) fun _ _ => false).isSome := by decide +kernel
  obtain ⟨next, opened⟩ := Option.isSome_iff_exists.mp found
  have covered : withGap.Covered (withGap.left 0) := by decide +kernel
  exact ⟨next, opened, neverReuses_of_covered
    (.reopen _ _ (.act _ (.act _ (.act _ (.start true _)))) covered opened)⟩

/-- The only node is created and removed, and the session ends in a crash. The next node gets the
same id. -/
theorem removed_id_returns :
    ¬∀ ledger, Reached (fun ledger crash => ∃ kept, crash = ledger.left kept) ledger →
      ledger.NeverReuses := by
  intro claim
  let emptied := ((Ledger.mk (fresh true fun _ _ => false) [] [] []).act
    (.addNode "A" .empty)).act (.removeNode 1)
  have run : (emptied.reopen (emptied.left 0) fun _ _ => false).map
      (fun next => ((Op.addNode "B" .empty).created next.graph, next.durable)) =
        some (some (.node 1), [.node 1]) := by decide +kernel
  obtain ⟨next, opened, seen⟩ := Option.map_eq_some_iff.mp run
  obtain ⟨created, durable⟩ := Prod.mk.inj seen
  have reached : Reached (fun ledger crash => ∃ kept, crash = ledger.left kept) next :=
    .reopen _ _ (.act _ (.act _ (.start true _))) ⟨0, rfl⟩ opened
  exact claim next reached _ _ created (durable ▸ List.mem_singleton_self _)

end Ledger

end ErmyaGraph
