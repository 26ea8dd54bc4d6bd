import ErmyaGraph.Graph.Run

/-! # Sessions on one directory

Transaction ids start again at one in every session, and the journal outlives a
session whenever recovery had nothing to replay. A history remembers which
session wrote each record, which the journal itself does not. -/

namespace ErmyaGraph

open Outcome Store List Option Graph

namespace Graph

def records (graph : Graph) : List WalRecord := (graph.store.wal.map Wal.records).getD []

/-- The number of records that are on disk for certain. -/
def synced (graph : Graph) : Nat := (graph.store.wal.map Wal.synced).getD 0

end Graph

/-- An open graph with the past of its directory: the session that wrote each journal record
and the transactions, by session, whose commit returned normally. -/
structure History where
  graph : Graph
  session : Nat := 0
  journal : List (Nat × WalRecord) := []
  committed : List (Nat × Nat) := []

namespace History

/-- Mark the records that were appended in this session. -/
def tagged (history : History) (reached : Graph) : List (Nat × WalRecord) :=
  (history.journal ++
    (reached.records.drop history.journal.length).map (Prod.mk history.session)).take
      reached.records.length

/-- The transactions known as committed after an operation. -/
def committedAfter (history : History) : Op → List (Nat × Nat)
  | .commitTxn txn =>
    if succeeds (commitTxn txn) history.graph then
      (history.session, txn) :: history.committed
    else history.committed
  | _ => history.committed

/-- Perform an operation. -/
def act (history : History) (op : Op) : History :=
  { history with
    graph := history.graph.after op
    journal := history.tagged (history.graph.after op)
    committed := history.committedAfter op }

/-- The journal a crash leaves, between two operations or in the middle of one: everything
flushed before that operation, and any number of further records. -/
def left (history : History) (during : Option Op) (kept : Nat) : List (Nat × WalRecord) :=
  (history.tagged ((during.map history.graph.after).getD history.graph)).take
    (max kept history.graph.synced)

/-- Open the directory again and enable transactions. Nothing is assumed of the data files. -/
def restart (history : History) (during : Option Op) (kept : Nat) (disk : Disk)
    (evicts : Nat → Nat → Bool) : Option History :=
  match Graph.open disk (some ((history.left during kept).map Prod.snd)) evicts with
  | .ok graph => some { history with
      graph := { graph with mvcc := some {} }
      session := history.session + 1
      journal := (history.left during kept).take graph.records.length }
  | .error _ => none

def start (evicts : Nat → Nat → Bool) : History :=
  { graph := { fresh true evicts with mvcc := some {} } }

/-- Histories whose operations, the interrupted ones included, all meet a condition. -/
inductive Reached (condition : History → Op → Prop) : History → Prop
  | start (evicts : Nat → Nat → Bool) : Reached condition (start evicts)
  | act {history : History} (op : Op) (past : Reached condition history)
      (met : condition history op) : Reached condition (history.act op)
  | restart {history next : History} (during : Option Op) (kept : Nat) (disk : Disk)
      (evicts : Nat → Nat → Bool) (past : Reached condition history)
      (met : ∀ op ∈ during, condition history op)
      (opened : history.restart during kept disk evicts = some next) : Reached condition next

/-- Whether the transaction that a record belongs to committed, in the session that wrote the
record: its commit returned, or its marker reached the journal. -/
def ownCommit (history : History) (journal : List (Nat × WalRecord)) (entry : Nat × WalRecord) :
    Bool :=
  match entry.2.txn? with
  | none => true
  | some txn => (entry.1, txn) ∈ history.committed ∨ (entry.1, .commit txn) ∈ journal

/-- Opening applies exactly the records whose own transaction committed. -/
def AppliesOwnCommits (history : History) (during : Option Op) (kept : Nat) : Prop :=
  ∀ disk evicts graph,
    Graph.open disk (some ((history.left during kept).map Prod.snd)) evicts = .ok graph →
      graph.store.pages = (((history.left during kept).filter
          (history.ownCommit (history.left during kept))).foldl
            (fun state entry => applyRecord state entry.2)
            { pages := disk.pages, info := disk.info }).pages

/-- The records of a transaction id left by earlier sessions are out of the way when it
commits, and the commit is not buffered by an open batch. -/
def Isolated (history : History) : Op → Prop
  | .commitTxn txn => history.graph.batchDepth = 0 ∧
      ∀ entry ∈ history.journal, entry.2.subject? = some txn → entry.1 = history.session
  | _ => True

end History

namespace Graph

/-- The transaction's marker is in the flushed part of the journal. -/
def Marked (graph : Graph) (txn : Nat) : Prop :=
  ∃ wal, graph.store.wal = some wal ∧ wal.synced ≤ wal.records.length ∧
    WalRecord.commit txn ∈ wal.records.take wal.synced

theorem Marked.of_logs {allowed : WalRecord → Prop} {before after : Graph} {txn : Nat}
    (marked : Marked before txn) (logs : Logs allowed before after) : Marked after txn := by
  obtain ⟨wal, here, bounded, mem⟩ := marked
  have journal := logs.journal
  rw [here] at journal
  generalize reached : after.store.wal = wal' at journal
  cases journal with
  | on added grown kinds synced =>
    obtain ⟨kept, bounded'⟩ := synced bounded
    refine ⟨_, reached, bounded', ?_⟩
    rw [grown, take_append]
    exact mem_append_left _ (take_subset_take_left _ kept mem)

theorem storeOnly_walLogCommittedDelta (key : EntityKey) (state : Option EntitySnapshot)
    (txn : Nat) : Keeps StoreOnly (walLogCommittedDelta key state txn) := by
  unfold walLogCommittedDelta
  refine keeps_get.bind fun graph => keeps_ite (fun _ => ?_) fun _ => keeps_pure ()
  split
  · exact storeOnly_onStore _
  · exact storeOnly_onStore _

theorem sat_journalCommit_marked (graph : Graph) (txn : Nat) (committed : List (EntityKey × Delta))
    (outside : graph.batchDepth = 0) (enabled : graph.store.wal.isSome) :
    Sat (journalCommit txn committed) graph (fun _ after => Marked after txn)
      (fun _ _ => True) := by
  unfold journalCommit
  rw [sat_bind]
  have redo : Keeps StoreOnly
      (committed.forM fun entry => walLogCommittedDelta entry.1 entry.2.new txn) :=
    keeps_forM committed fun entry _ => storeOnly_walLogCommittedDelta entry.1 entry.2.new txn
  have journalled : Keeps (Advances (About txn))
      (committed.forM fun entry => walLogCommittedDelta entry.1 entry.2.new txn) :=
    keeps_forM committed fun entry _ => keeps_walLogCommittedDelta entry.1 entry.2.new txn
  refine ((redo graph).and (journalled graph)).loose (fun _ between moved => ?_)
  obtain ⟨storeOnly, logs⟩ := moved
  have depth : between.batchDepth = 0 := by
    rw [storeOnly]
    exact outside
  obtain ⟨wal, here⟩ : ∃ wal, between.store.wal = some wal := by
    have journal := logs.journal
    obtain ⟨before, was⟩ := isSome_iff_exists.mp enabled
    rw [was] at journal
    generalize between.store.wal = reached at journal
    cases journal with
    | on => exact ⟨_, rfl⟩
  -- The marker is the last record when the journal is flushed.
  simp only [sat_bind, onStore, sat_zoom, walAppend, sat_modify, walSync, sat_get, depth,
    ↓reduceIte, Store.walSync]
  refine ⟨_, by rw [here]; rfl, le_rfl, ?_⟩
  rw [take_length]
  exact mem_append_right _ (mem_singleton_self _)

theorem sat_commitTxn_marked {graph : Graph} (txn : Nat) (outside : graph.batchDepth = 0)
    (enabled : graph.store.wal.isSome) :
    Sat (commitTxn txn) graph (fun _ after => Marked after txn) (fun _ _ => True) := by
  unfold commitTxn requireActive getMvcc
  rw [sat_bind, sat_bind, sat_get, sat_ite]
  refine ⟨fun _ => trivial, fun _ => ?_⟩
  rw [sat_pure, sat_bind, sat_bind, sat_get]
  split
  · next mvcc _ =>
      rw [sat_pure, sat_bind, modifyMvcc, sat_modify, sat_bind]
      refine (sat_journalCommit_marked _ txn _ ?_ ?_).loose (fun _ between marked => ?_)
      · exact outside
      · exact enabled
      · exact (keeps_applyCommit txn _ _ between).loose
          (fun _ _ advances => marked.of_logs advances.toLogs)
  · exact trivial

theorem sat_commitTxn_ended (graph : Graph) (txn : Nat) :
    Sat (commitTxn txn) graph
      (fun _ after => graph.isActive txn ∧
        ∀ mvcc, after.mvcc = some mvcc → mvcc.isActive txn = false)
      (fun _ _ => True) := by
  have anything {α : Type} (x : GraphM α) (graph : Graph) :
      Sat x graph (fun _ _ => True) (fun _ _ => True) :=
    sat_iff.mpr ⟨fun _ _ _ => trivial, fun _ _ _ => trivial⟩
  unfold commitTxn requireActive getMvcc
  rw [sat_bind, sat_bind, sat_get, sat_ite]
  refine ⟨fun _ => trivial, fun active => ?_⟩
  rw [sat_pure, sat_bind, sat_bind, sat_get]
  split
  · rw [sat_pure, sat_bind, modifyMvcc, sat_modify, sat_bind]
    refine (anything _ _).loose (fun _ between _ => ?_)
    rw [applyCommit, sat_bind, modifyMvcc, sat_modify, sat_bind]
    refine (anything _ _).loose (fun _ between _ => ?_)
    rw [modifyMvcc, sat_modify]
    refine ⟨by simpa using active, fun mvcc here => ?_⟩
    obtain ⟨before, _, rfl⟩ := map_eq_some_iff.mp here
    simp [Mvcc.isActive, Mvcc.endTxn]
  · exact trivial

theorem after_commitTxn_of_inactive {graph : Graph} {txn : Nat}
    (inactive : graph.isActive txn = false) : graph.after (.commitTxn txn) = graph := by
  have stuck : Sat (commitTxn txn) graph (fun _ after => after = graph) (fun _ after => after = graph) := by
    unfold commitTxn requireActive
    rw [sat_bind, sat_bind, sat_get, sat_ite]
    refine ⟨fun _ => rfl, fun active => ?_⟩
    rw [inactive] at active
    exact absurd rfl active
  exact stuck.final

end Graph

namespace History

variable {history : History} {op : Op} {txn : Nat}

/-- All records about a transaction id come from one session. -/
def OneWriter (journal : List (Nat × WalRecord)) : Prop :=
  ∀ entry ∈ journal, ∀ other ∈ journal, ∀ txn,
    entry.2.subject? = some txn → other.2.subject? = some txn → entry.1 = other.1

/-- What every isolated history satisfies. -/
structure Sound (history : History) : Prop where
  journal : history.journal.map Prod.snd = history.graph.records
  enabled : history.graph.store.wal.isSome
  bounded : history.graph.synced ≤ history.graph.records.length
  sessions : ∀ entry ∈ history.journal, entry.1 ≤ history.session
  oneWriter : OneWriter history.journal
  past : ∀ commit ∈ history.committed, commit.1 ≤ history.session
  given : ∀ mvcc, history.graph.mvcc = some mvcc → ∀ txn, mvcc.isActive txn → txn < mvcc.nextTxnId
  ended : ∀ txn, (history.session, txn) ∈ history.committed →
    ∀ mvcc, history.graph.mvcc = some mvcc → txn < mvcc.nextTxnId ∧ mvcc.isActive txn = false
  marked : ∀ commit ∈ history.committed,
    (commit.1, WalRecord.commit commit.2) ∈ history.journal.take history.graph.synced ∨
      ∀ entry ∈ history.journal, entry.1 = commit.1 → entry.2.subject? ≠ some commit.2

variable {reached : Graph}

theorem tagged_of_logs {allowed : WalRecord → Prop} (sound : Sound history)
    (logs : Graph.Logs allowed history.graph reached) :
    ∃ added, history.tagged reached = history.journal ++ added.map (Prod.mk history.session) ∧
      reached.records = history.graph.records ++ added ∧ (∀ record ∈ added, allowed record) ∧
      history.graph.synced ≤ reached.synced ∧ reached.synced ≤ reached.records.length ∧
      reached.store.wal.isSome := by
  obtain ⟨wal, here⟩ := isSome_iff_exists.mp sound.enabled
  have journal := logs.journal
  have tags := sound.journal
  have bounded := sound.bounded
  unfold tagged
  unfold records at tags bounded ⊢
  unfold synced at bounded ⊢
  rw [here] at journal tags bounded ⊢
  generalize reached.store.wal = wal' at journal ⊢
  cases journal with
  | @on _ after added grown kinds synced =>
    obtain ⟨kept, bounded'⟩ := synced bounded
    have length : history.journal.length = wal.records.length := by
      simpa using congrArg List.length tags
    refine ⟨added, ?_, grown, kinds, kept, bounded', rfl⟩
    simp only [map_some, getD_some, grown, length, drop_left]
    rw [take_of_length_le (by simp [length])]

theorem tagged_of_truncates (sound : Sound history)
    (truncates : Graph.Truncates history.graph reached) :
    history.tagged reached = [] ∧ reached.records = [] ∧ reached.synced = 0 ∧
      reached.store.wal.isSome := by
  obtain ⟨wal, here⟩ := isSome_iff_exists.mp sound.enabled
  have emptied := truncates.emptied
  rw [here] at emptied
  have none : reached.records = [] := by simp [records, emptied]
  refine ⟨by simp [tagged, none], none, by simp [synced, emptied], by simp [emptied]⟩

theorem oneWriter_append {added : List WalRecord} (sound : Sound history)
    (isolated : history.Isolated op) (kinds : ∀ record ∈ added, op.allowed record) :
    OneWriter (history.journal ++ added.map (Prod.mk history.session)) := by
  -- A record about a transaction id that also occurs among the appended ones is of this session.
  have ours : ∀ record ∈ added, ∀ txn, record.subject? = some txn →
      ∀ entry ∈ history.journal, entry.2.subject? = some txn → entry.1 = history.session := by
    intro record mem txn about entry present same
    have kind := kinds record mem
    cases op with
    | commitTxn committing =>
      obtain rfl : txn = committing := kind txn about
      exact isolated.2 entry present same
    | _ =>
      rw [show record.subject? = none from kind] at about
      cases about
  intro entry mem other mem' txn about about'
  rcases mem_append.mp mem with old | new
  · rcases mem_append.mp mem' with old' | new'
    · exact sound.oneWriter entry old other old' txn about about'
    · obtain ⟨record, present, rfl⟩ := mem_map.mp new'
      exact ours record present txn about' entry old about
  · obtain ⟨record, present, rfl⟩ := mem_map.mp new
    rcases mem_append.mp mem' with old' | new'
    · exact (ours record present txn about other old' about').symm
    · obtain ⟨record', present', rfl⟩ := mem_map.mp new'
      rfl

theorem oneWriter_tagged (sound : Sound history) (isolated : history.Isolated op) :
    OneWriter (history.tagged (history.graph.after op)) := by
  rcases history.graph.after_journal op with logs | truncates
  · obtain ⟨added, tags, _, kinds, _⟩ := tagged_of_logs sound logs
    rw [tags]
    exact oneWriter_append sound isolated kinds
  · rw [(tagged_of_truncates sound truncates).1]
    intro entry mem
    cases mem

variable {commit : Nat × Nat}

theorem silent_tagged (op : Op) (sound : Sound history) (mem : commit ∈ history.committed)
    (silent : ∀ entry ∈ history.journal, entry.1 = commit.1 → entry.2.subject? ≠ some commit.2) :
    ∀ entry ∈ history.tagged (history.graph.after op), entry.1 = commit.1 →
      entry.2.subject? ≠ some commit.2 := by
  intro entry present same about
  rcases history.graph.after_journal op with logs | truncates
  · obtain ⟨added, tags, grown, kinds, _⟩ := tagged_of_logs sound logs
    rw [tags] at present
    rcases mem_append.mp present with old | new
    · exact silent entry old same about
    · obtain ⟨record, recorded, rfl⟩ := mem_map.mp new
      have kind := kinds record recorded
      cases op with
      | commitTxn txn =>
        have named : commit.2 = txn := kind commit.2 about
        have here : (history.session, txn) ∈ history.committed := by
          rw [← named, show history.session = commit.1 from same]
          exact mem
        have inactive : history.graph.isActive txn = false := by
          unfold isActive
          cases enabled : history.graph.mvcc with
          | none => rfl
          | some mvcc => exact (sound.ended txn here mvcc enabled).2
        rw [after_commitTxn_of_inactive inactive] at grown
        have none : added = [] := by simpa using grown
        rw [none] at recorded
        cases recorded
      | _ =>
        rw [show record.subject? = none from kind] at about
        cases about
  · rw [(tagged_of_truncates sound truncates).1] at present
    cases present

theorem sound_start (evicts : Nat → Nat → Bool) : Sound (start evicts) where
  journal := rfl
  enabled := rfl
  bounded := le_rfl
  sessions := by simp [start]
  oneWriter := by simp [OneWriter, start]
  past := by simp [start]
  given := by
    intro mvcc enabled txn active
    obtain rfl : {} = mvcc := some.inj enabled
    cases active
  ended := by simp [start]
  marked := by simp [start]

theorem marked_of_succeeds (sound : Sound history) (isolated : history.Isolated (.commitTxn txn))
    (returned : succeeds (commitTxn txn) history.graph) :
    (history.session, WalRecord.commit txn) ∈
      (history.tagged (history.graph.after (.commitTxn txn))).take
        (history.graph.after (.commitTxn txn)).synced := by
  obtain ⟨wal, here, _, mem⟩ :=
    (sat_commitTxn_marked txn isolated.1 sound.enabled).final_of_succeeds returned
  change (history.graph.after (.commitTxn txn)).store.wal = some wal at here
  rcases history.graph.after_journal (.commitTxn txn) with logs | truncates
  · obtain ⟨added, tags, grown, kinds, _⟩ := tagged_of_logs sound logs
    have records : (history.tagged (history.graph.after (.commitTxn txn))).map Prod.snd =
        wal.records := by
      have flat : (history.graph.after (.commitTxn txn)).records = wal.records := by
        simp [records, here]
      rw [tags, map_append, sound.journal, ← flat, grown]
      simp
    have flushed : (history.graph.after (.commitTxn txn)).synced = wal.synced := by
      simp [synced, here]
    rw [← records, ← map_take] at mem
    obtain ⟨⟨session, record⟩, present, rfl⟩ := mem_map.mp mem
    -- Only this session can have written it, whether it is an old record or a new one.
    have whole := mem_of_mem_take present
    rw [tags] at whole
    have ours : session = history.session := by
      rcases mem_append.mp whole with old | new
      · exact isolated.2 _ old rfl
      · obtain ⟨record', _, same⟩ := mem_map.mp new
        exact (congrArg Prod.fst same).symm
    rw [flushed, ← ours]
    exact present
  · have emptied := truncates.emptied
    obtain ⟨before, was⟩ := isSome_iff_exists.mp sound.enabled
    rw [here, was] at emptied
    rw [some.inj emptied] at mem
    cases mem

theorem registry_after (op : Op) :
    ∀ mvcc', (history.graph.after op).mvcc = some mvcc' →
      ∃ mvcc, history.graph.mvcc = some mvcc ∧ mvcc.Ages mvcc' := by
  rcases history.graph.after_journal op with logs | truncates
  · exact logs.registry
  · exact truncates.registry

theorem ended_after (op : Op)
    (ended : ∀ mvcc, history.graph.mvcc = some mvcc → txn < mvcc.nextTxnId ∧ mvcc.isActive txn = false) :
    ∀ mvcc, (history.graph.after op).mvcc = some mvcc →
      txn < mvcc.nextTxnId ∧ mvcc.isActive txn = false := by
  intro mvcc' reached
  obtain ⟨mvcc, before, ages⟩ := registry_after op mvcc' reached
  obtain ⟨given, inactive⟩ := ended mvcc before
  refine ⟨given.trans_le ages.nextTxnId, ?_⟩
  by_contra active
  have was := ages.ended txn given (by simpa using active)
  rw [inactive] at was
  cases was

theorem ended_of_succeeds (sound : Sound history)
    (returned : succeeds (commitTxn txn) history.graph) :
    ∀ mvcc, (history.graph.after (.commitTxn txn)).mvcc = some mvcc →
      txn < mvcc.nextTxnId ∧ mvcc.isActive txn = false := by
  intro mvcc' reached
  obtain ⟨active, ended⟩ := (sat_commitTxn_ended history.graph txn).final_of_succeeds returned
  obtain ⟨mvcc, before, ages⟩ := registry_after (.commitTxn txn) mvcc' reached
  refine ⟨lt_of_lt_of_le (sound.given mvcc before txn ?_) ages.nextTxnId, ended mvcc' reached⟩
  simpa [isActive, before] using active

/-- The transactions committed after an operation are the earlier ones and, when a commit
returned, its own. -/
theorem mem_committedAfter (mem : commit ∈ history.committedAfter op) :
    commit ∈ history.committed ∨ ∃ txn, op = .commitTxn txn ∧ commit = (history.session, txn) ∧
      succeeds (commitTxn txn) history.graph := by
  cases op with
  | commitTxn txn =>
    simp only [committedAfter] at mem
    split at mem
    · next returned =>
        rcases mem_cons.mp mem with here | old
        · exact .inr ⟨txn, rfl, here, returned⟩
        · exact .inl old
    · exact .inl mem
  | _ => exact .inl mem

theorem Sound.act (sound : Sound history) (isolated : history.Isolated op) :
    Sound (history.act op) := by
  have kept : (history.act op).journal.map Prod.snd = (history.act op).graph.records ∧
      (history.act op).graph.store.wal.isSome ∧
      (history.act op).graph.synced ≤ (history.act op).graph.records.length ∧
      (∀ entry ∈ (history.act op).journal, entry.1 ≤ history.session) ∧
      (∀ entry ∈ history.journal.take history.graph.synced,
        entry ∈ (history.act op).journal.take (history.act op).graph.synced ∨
          (history.act op).journal = []) := by
    simp only [History.act]
    rcases history.graph.after_journal op with logs | truncates
    · obtain ⟨added, tags, grown, _, synced, bounded, enabled⟩ := tagged_of_logs sound logs
      refine ⟨?_, enabled, bounded, ?_, ?_⟩
      · rw [tags, map_append, sound.journal, grown]
        simp
      · intro entry mem
        rw [tags] at mem
        rcases mem_append.mp mem with old | new
        · exact sound.sessions entry old
        · obtain ⟨_, _, rfl⟩ := mem_map.mp new
          exact le_rfl
      · intro entry mem
        refine .inl ?_
        rw [tags, take_append]
        exact mem_append_left _ (take_subset_take_left _ synced mem)
    · obtain ⟨tags, none, synced, enabled⟩ := tagged_of_truncates sound truncates
      rw [tags, none, synced]
      exact ⟨rfl, enabled, le_rfl, by simp, fun _ _ => .inr rfl⟩
  obtain ⟨journal, enabled, bounded, sessions, flushed⟩ := kept
  refine ⟨journal, enabled, bounded, sessions, oneWriter_tagged sound isolated, ?_, ?_, ?_, ?_⟩
  · intro commit mem
    rcases mem_committedAfter mem with old | ⟨txn, _, rfl, _⟩
    · exact sound.past commit old
    · exact le_rfl
  · intro mvcc' reached txn active
    obtain ⟨mvcc, before, ages⟩ := registry_after op mvcc' reached
    rcases ages.given txn active with was | bound
    · exact lt_of_lt_of_le (sound.given mvcc before txn was) ages.nextTxnId
    · exact bound
  · intro txn mem
    rcases mem_committedAfter mem with old | ⟨txn', rfl, same, returned⟩
    · exact ended_after op (sound.ended txn old)
    · obtain rfl : txn = txn' := congrArg Prod.snd same
      exact ended_of_succeeds sound returned
  · intro commit mem
    rcases mem_committedAfter mem with old | ⟨txn, rfl, rfl, returned⟩
    · rcases sound.marked commit old with marked | silent
      · rcases flushed _ marked with still | emptied
        · exact .inl still
        · refine .inr fun entry present => ?_
          rw [emptied] at present
          cases present
      · exact .inr (silent_tagged op sound old silent)
    · exact .inl (marked_of_succeeds sound isolated returned)

end History

namespace Graph

variable {evicts : Nat → Nat → Bool}

/-- Opening rebuilds the in-memory structures and the counters; the files and the journal are
those recovery left. -/
theorem open_store {disk : Disk} {journal : Option (List WalRecord)} {graph : Graph}
    (opened : Graph.open disk journal evicts = .ok graph) :
    graph.store.pages = (openStore disk journal).pages ∧
      graph.store.wal = (openStore disk journal).wal := by
  unfold «open» at opened
  simp only [bind, Except.bind, pure, Except.pure] at opened
  repeat' split at opened
  all_goals first
    | cases opened
      exact ⟨rfl, rfl⟩
    | cases opened

theorem open_records {disk : Disk} {records : List WalRecord} {graph : Graph}
    (opened : Graph.open disk (some records) evicts = .ok graph) :
    (graph.store.wal = some {} ∨ graph.store.wal = some ⟨records, records.length⟩) := by
  rw [(open_store opened).2, openStore]
  split
  · exact .inl rfl
  · exact .inr rfl

end Graph

namespace History

variable {history : History}

theorem tagged_self (sound : Sound history) : history.tagged history.graph = history.journal := by
  have length : history.journal.length = history.graph.records.length := by
    simpa using congrArg List.length sound.journal
  unfold tagged
  rw [← length, drop_eq_nil_of_le (le_of_eq length.symm), map_nil, append_nil, take_length]

variable {during : Option Op}

/-- What holds of the journal a crash leaves. -/
theorem left_sound (kept : Nat) (sound : Sound history)
    (isolated : ∀ op ∈ during, history.Isolated op) :
    OneWriter (history.left during kept) ∧
      (∀ entry ∈ history.left during kept, entry.1 ≤ history.session) ∧
      ∀ commit ∈ history.committed,
        (commit.1, WalRecord.commit commit.2) ∈ history.left during kept ∨
          ∀ entry ∈ history.left during kept, entry.1 = commit.1 →
            entry.2.subject? ≠ some commit.2 := by
  have shorter : ∀ entry ∈ history.left during kept,
      entry ∈ history.tagged ((during.map history.graph.after).getD history.graph) :=
    fun entry mem => mem_of_mem_take mem
  cases during with
  | none =>
    have whole : history.tagged ((Option.map history.graph.after none).getD history.graph) =
        history.journal := tagged_self sound
    rw [whole] at shorter
    refine ⟨?_, fun entry mem => sound.sessions entry (shorter entry mem), ?_⟩
    · intro entry mem other mem'
      exact sound.oneWriter entry (shorter entry mem) other (shorter other mem')
    · intro commit mem
      rcases sound.marked commit mem with marked | silent
      · refine .inl ?_
        unfold left
        rw [whole]
        exact take_subset_take_left _ (le_max_right _ _) marked
      · exact .inr fun entry present => silent entry (shorter entry present)
  | some op =>
    have isolated := isolated op rfl
    have writers := oneWriter_tagged sound isolated
    refine ⟨?_, ?_, ?_⟩
    · intro entry mem other mem'
      exact writers entry (shorter entry mem) other (shorter other mem')
    · intro entry mem
      have bounded := (sound.act isolated).sessions
      exact bounded entry (shorter entry mem)
    · intro commit mem
      rcases sound.marked commit mem with marked | silent
      · rcases history.graph.after_journal op with logs | truncates
        · obtain ⟨added, tags, _⟩ := tagged_of_logs sound logs
          refine .inl ?_
          unfold left
          rw [map_some, getD_some, tags, take_append]
          exact mem_append_left _ (take_subset_take_left _ (le_max_right _ _) marked)
        · refine .inr fun entry present => ?_
          have here := shorter entry present
          rw [map_some, getD_some, (tagged_of_truncates sound truncates).1] at here
          cases here
      · exact .inr fun entry present =>
          silent_tagged op sound mem silent entry (shorter entry present)

theorem Sound.restart {next : History} {kept : Nat} {disk : Disk} {evicts : Nat → Nat → Bool}
    (sound : Sound history) (isolated : ∀ op ∈ during, history.Isolated op)
    (opened : history.restart during kept disk evicts = some next) : Sound next := by
  obtain ⟨writers, sessions, marks⟩ := left_sound kept sound isolated
  unfold History.restart at opened
  split at opened
  · next graph reached =>
      cases opened
      have wal := open_records reached
      -- The surviving journal is the empty one or the whole of what the crash left.
      have journal : (history.left during kept).take graph.records.length = [] ∧
            graph.records = [] ∧ graph.synced = 0 ∨
          (history.left during kept).take graph.records.length = history.left during kept ∧
            graph.records = (history.left during kept).map Prod.snd ∧
            graph.synced = graph.records.length := by
        rcases wal with emptied | same
        · exact .inl (by simp [records, synced, emptied])
        · exact .inr (by simp [records, synced, same])
      have part : ∀ entry ∈ (history.left during kept).take graph.records.length,
          entry ∈ history.left during kept := fun entry => mem_of_mem_take
      refine
        { journal := ?_, enabled := ?_, bounded := ?_, sessions := ?_, oneWriter := ?_,
          past := ?_, given := ?_, ended := ?_, marked := ?_ }
      · rcases journal with ⟨tags, none, _⟩ | ⟨tags, same, _⟩
        · exact (congrArg (List.map Prod.snd) tags).trans none.symm
        · exact (congrArg (List.map Prod.snd) tags).trans same.symm
      · rcases wal with emptied | same
        · exact (congrArg Option.isSome emptied).trans rfl
        · exact (congrArg Option.isSome same).trans rfl
      · rcases journal with ⟨_, _, synced⟩ | ⟨_, _, synced⟩
        · exact synced.le.trans (Nat.zero_le _)
        · exact synced.le
      · exact fun entry mem => (sessions entry (part entry mem)).trans (Nat.le_succ _)
      · intro entry mem other mem'
        exact writers entry (part entry mem) other (part other mem')
      · exact fun commit mem => (sound.past commit mem).trans (Nat.le_succ _)
      · intro mvcc enabled txn active
        obtain rfl : {} = mvcc := some.inj enabled
        cases active
      · intro txn mem
        exact absurd (sound.past _ mem) (Nat.not_succ_le_self _)
      · intro commit mem
        rcases journal with ⟨tags, _, _⟩ | ⟨tags, same, synced⟩
        · refine .inr fun entry present => ?_
          rw [show (history.left during kept).take graph.records.length = [] from tags] at present
          cases present
        · rcases marks commit mem with marked | silent
          · refine .inl ?_
            change _ ∈ ((history.left during kept).take graph.records.length).take graph.synced
            rw [tags, synced, tags]
            exact marked
          · exact .inr fun entry present => silent entry (part entry present)
  · cases opened

theorem Reached.sound (reached : Reached Isolated history) : Sound history := by
  induction reached with
  | start evicts => exact sound_start evicts
  | act op past met ih => exact ih.act met
  | restart during kept disk evicts past met opened ih => exact ih.restart met opened

theorem foldl_replayRecord (ids : List Nat) (journal : List (Nat × WalRecord))
    (applies : Nat × WalRecord → Bool)
    (same : ∀ entry ∈ journal, isDurable ids entry.2.txn? = applies entry) (state : Recovered) :
    (journal.map Prod.snd).foldl (replayRecord ids) state =
      (journal.filter applies).foldl (fun state entry => applyRecord state entry.2) state := by
  induction journal generalizing state with
  | nil => rfl
  | cons entry rest ih =>
    have here := same entry (by simp)
    have there : ∀ entry ∈ rest, isDurable ids entry.2.txn? = applies entry :=
      fun other mem => same other (mem_cons_of_mem entry mem)
    rw [map_cons, foldl_cons, ih there]
    by_cases applied : applies entry
    · rw [filter_cons_of_pos applied, foldl_cons, replayRecord, here, if_pos applied]
    · rw [filter_cons_of_neg applied, replayRecord, here, if_neg applied]

/-- When all records about an id come from one session, a marker of that id is the marker of the
transaction that wrote them. -/
theorem isDurable_eq_ownCommit {journal : List (Nat × WalRecord)} (writers : OneWriter journal)
    (marks : ∀ commit ∈ history.committed, (commit.1, WalRecord.commit commit.2) ∈ journal ∨
        ∀ entry ∈ journal, entry.1 = commit.1 → entry.2.subject? ≠ some commit.2)
    {entry : Nat × WalRecord} (mem : entry ∈ journal) :
    isDurable (committedTxnIds (journal.map Prod.snd)) entry.2.txn? =
      history.ownCommit journal entry := by
  unfold isDurable ownCommit
  cases tag : entry.2.txn? with
  | none => rfl
  | some txn =>
    have about : entry.2.subject? = some txn := by simp [WalRecord.subject?, tag]
    have marker : txn ∈ committedTxnIds (journal.map Prod.snd) ↔
        (entry.1, WalRecord.commit txn) ∈ journal := by
      unfold committedTxnIds
      rw [mem_filterMap]
      constructor
      · rintro ⟨record, present, named⟩
        obtain ⟨⟨session, record⟩, listed, rfl⟩ := mem_map.mp present
        cases record with
        | commit id =>
          obtain rfl : id = txn := some.inj named
          rw [writers entry mem _ listed id about rfl]
          exact listed
        | _ => cases named
      · intro listed
        exact ⟨.commit txn, mem_map.mpr ⟨_, listed, rfl⟩, rfl⟩
    rw [decide_eq_decide, marker]
    refine ⟨.inr, ?_⟩
    rintro (returned | listed)
    · rcases marks _ returned with marked | silent
      · exact marked
      · exact absurd about (silent entry mem rfl)
    · exact listed

/-- In every isolated history, opening the directory after a crash applies a journal record
exactly when the very transaction that wrote it committed. -/
theorem recovery_applies_own_commits {history : History} (reached : Reached Isolated history)
    (during : Option Op) (isolated : ∀ op ∈ during, history.Isolated op) (kept : Nat) :
    history.AppliesOwnCommits during kept := by
  obtain ⟨writers, _, marks⟩ := left_sound kept reached.sound isolated
  intro disk evicts graph opened
  rw [(open_store opened).1, openStore_pages, replayRecords]
  rw [foldl_replayRecord _ _ (history.ownCommit (history.left during kept))]
  intro entry member
  exact isDurable_eq_ownCommit writers marks member

/-- A committed transaction, seen from a crash right after its commit. -/
theorem recovery_applies_own_commits_once :
    ((((start fun _ _ => false).act .beginTxn).act (.addNodeInTxn 1 "A" .empty)).act
      (.commitTxn 1)).AppliesOwnCommits none 0 := by
  refine recovery_applies_own_commits (.act _ (.act _ (.act _ (.start _) ?_) ?_) ?_) none ?_ 0
  · exact trivial
  · exact trivial
  · refine ⟨rfl, ?_⟩
    decide +kernel
  · simp

def firstFlag (pages : Pages) : SlotFlag := (((pages.slots .node).page 0).slot 0).flag

/-- The first node slot after opening an empty directory with the journal a crash leaves, and
after applying only the records whose own transaction committed. -/
def recoveredFlags (history : History) : Option (SlotFlag × SlotFlag) :=
  let journal := history.left none 0
  match Graph.open Disk.fresh (some (journal.map Prod.snd)) (fun _ _ => false) with
  | .ok graph => some (firstFlag graph.store.pages,
      firstFlag ((journal.filter (history.ownCommit journal)).foldl
        (fun state entry => applyRecord state entry.2)
        { pages := Disk.fresh.pages, info := Disk.fresh.info }).pages)
  | .error _ => none

theorem AppliesOwnCommits.recoveredFlags {found own : SlotFlag}
    (applies : history.AppliesOwnCommits none 0)
    (flags : history.recoveredFlags = some (found, own)) : found = own := by
  unfold History.recoveredFlags at flags
  dsimp only at flags
  split at flags
  · next graph opened =>
      obtain ⟨rfl, rfl⟩ := Prod.mk.inj (some.inj flags)
      rw [applies Disk.fresh _ graph opened]
  · cases flags

/-- The first session dies while committing, after its redo record and before its marker. The
second session commits an empty transaction, which gets the same id, and crashes. -/
theorem recovery_applies_foreign_commit :
    ¬∀ history, Reached (fun _ _ => True) history → history.AppliesOwnCommits none 0 := by
  intro claim
  let first := ((start fun _ _ => false).act .beginTxn).act (.addNodeInTxn 1 "A" .empty)
  have run : (first.restart (some (.commitTxn 1)) 2 Disk.fresh fun _ _ => false).bind
      (fun second => ((second.act .beginTxn).act (.commitTxn 1)).recoveredFlags) =
        some (.live, .empty) := by decide +kernel
  obtain ⟨second, opened, flags⟩ := bind_eq_some_iff.mp run
  have begun : Reached (fun _ _ => True) first := .act _ (.act _ (.start _) trivial) trivial
  have reopened := Reached.restart _ _ _ _ begun (fun _ _ => trivial) opened
  have reached := Reached.act (.commitTxn 1) (Reached.act .beginTxn reopened trivial) trivial
  have same := (claim _ reached).recoveredFlags flags
  cases same

end History

end ErmyaGraph
