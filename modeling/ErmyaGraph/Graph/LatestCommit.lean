import ErmyaGraph.Graph.TxnRuns

/-! # Which committer wins

A run of transactions together with the ledger of its commits. Readers see the
version with the greatest timestamp as long as commits happen in the order in
which the transactions last wrote the entities they share. -/

namespace ErmyaGraph.Graph

open Outcome Runs

/-- What a call adds to the ledger: the versions of a commit that returned normally. -/
def commitsOf (graph : Graph) : Op → List CommitEntry
  | .commitTxn txn =>
    if succeeds (commitTxn txn) graph then
      (graph.mvcc.map fun mvcc => mvcc.commitEntries txn).getD []
    else []
  | _ => []

def logged (state : Graph × List CommitEntry) (op : Op) : Graph × List CommitEntry :=
  (state.1.after op, state.2 ++ state.1.commitsOf op)

/-- A read answers with a version, apart from adjacency heads. -/
def AnswersWith (read : Except Error Record) (entry : CommitEntry) : Prop :=
  read.map Record.observed =
    (found entry.key (entry.version.bind EntitySnapshot.record?)).map Record.observed

/-- Every reader that started after all commits to an entity, and has not written it, reads the
version with the greatest timestamp. -/
structure LatestWins (graph : Graph) (ledger : List CommitEntry) : Prop where
  current : ∀ entry ∈ ledger, (∀ other ∈ ledger, other.key = entry.key → other.ts ≤ entry.ts) →
      AnswersWith (graph.read entry.key) entry
  inTxn : ∀ entry ∈ ledger, (∀ other ∈ ledger, other.key = entry.key → other.ts ≤ entry.ts) →
      ∀ txn start, graph.txnStartTs txn = .ok start → entry.ts < start →
        entry.key ∉ graph.keysWrittenBy txn → AnswersWith (graph.readInTxn txn entry.key) entry

/-- No delta pushed after the committing transaction's newest one has been committed already. -/
def InOrder (graph : Graph) : Op → Prop
  | .commitTxn txn => ∀ mvcc, graph.mvcc = some mvcc → mvcc.commitsInOrder txn
  | _ => True

section Latest

theorem observed_observed (record : Record) : record.observed.observed = record.observed := by
  unfold Record.observed
  cases record.link <;> rfl

variable {graph : Graph} {view : View} {ledger : List CommitEntry}

theorem Shows.tallies {op : Op} (shows_ : graph.Shows view) (coherent : view.Coherent)
    (tallies : view.Tallies ledger) (call : TxnCall graph op) (settles : Settles graph op)
    (ordered : InOrder graph op) :
    ∃ view', (graph.after op).Shows view' ∧ view'.Coherent ∧
      view'.Tallies (ledger ++ graph.commitsOf op) := by
  obtain ⟨moves, view', path, permitted, shown⟩ := shows_.moves coherent call settles
  refine ⟨view', shown, path.coherent coherent, ?_⟩
  have plain (versioned : ∀ move ∈ moves, move.Versioned) (none : graph.commitsOf op = []) :
      view'.Tallies (ledger ++ graph.commitsOf op) := by
    rw [none, List.append_nil]
    exact tallies.steady (path.steady coherent versioned)
  cases op with
  | commitTxn txn =>
    simp only [TxnMoves] at permitted
    split at permitted
    · next returns =>
        obtain ⟨contents, rfl⟩ := permitted
        cases path with
        | cons valid later =>
          cases later with
          | cons linked rest =>
            cases rest
            obtain ⟨state, active⟩ := valid
            have committed := tallies.commit coherent active (ordered view.mvcc shows_.mvcc)
            have entries : graph.commitsOf (.commitTxn txn) = view.mvcc.commitEntries txn := by
              simp [commitsOf, returns, shows_.mvcc]
            rw [entries]
            exact committed.steady ((coherent.commit ⟨state, active⟩).steady_link linked)
    · next fails => exact plain permitted.versioned (by simp [commitsOf, fails])
  | _ => exact plain permitted rfl

theorem Shows.latestWins (shows_ : graph.Shows view) (coherent : view.Coherent)
    (tallies : view.Tallies ledger) : LatestWins graph ledger := by
  constructor
  · intro entry mem greatest
    rw [AnswersWith, shows_.read coherent]
    apply map_found_of_shown Record.observed fun record => (observed_observed record).symm
    exact tallies.last entry mem greatest
  · intro entry mem greatest txn start started later unwritten
    obtain ⟨state, active, rfl⟩ : ∃ state, view.mvcc.active txn = some state ∧
        state.startTs = start := by
      simp only [Graph.txnStartTs, shows_.mvcc] at started
      cases active : view.mvcc.active txn with
      | none => simp [Mvcc.startTs?, active] at started
      | some state => exact ⟨state, rfl, by simpa [Mvcc.startTs?, active] using started⟩
    have late : ∀ delta ∈ view.chain entry.key, ∀ ts, delta.commitTs = some ts →
        ts < state.startTs := by
      intro delta here ts stamped
      obtain ⟨other, noted, same, rfl⟩ := tallies.noted entry.key delta here ts stamped
      exact (greatest other noted same).trans_lt later
    have foreign : ∀ delta ∈ view.chain entry.key, some txn ≠ some delta.txn := by
      intro delta here same
      obtain rfl := Option.some.inj same
      apply unwritten
      simpa [Graph.keysWrittenBy, shows_.mvcc, Mvcc.keysWrittenBy, active] using
        coherent.registry.written here active
    rw [AnswersWith, shows_.readInTxn coherent active]
    apply map_found_of_shown Record.observed fun record => (observed_observed record).symm
    exact (coherent.shown_of_late late foreign).trans (tallies.last entry mem greatest)

end Latest

theorem latest_committer_wins {start graph : Graph} {contents : Contents}
    {past : List (Graph × List CommitEntry)} {ledger : List CommitEntry}
    (stocked : start.Stocked contents)
    (run : Run (fun _ state op => TxnCall state.1 op ∧ Settles state.1 op ∧ InOrder state.1 op)
      logged (start.enabled, []) past (graph, ledger)) : LatestWins graph ledger := by
  have tallied := run.invariant (fun _ state =>
    ∃ view, state.1.Shows view ∧ view.Coherent ∧ view.Tallies state.2) ?_ ?_
  · obtain ⟨view, shows_, coherent, tallies⟩ := tallied
    exact shows_.latestWins coherent tallies
  · obtain ⟨view, shows_, coherent⟩ := stocked.sound
    have empty : view.mvcc = {} := (Option.some.inj shows_.mvcc).symm
    refine ⟨view, shows_, coherent, nofun, fun key delta member => ?_, nofun⟩
    rw [View.chain, empty] at member
    cases member
  · rintro _ state op ⟨view, shows_, coherent, tallies⟩ ⟨call, settles, ordered⟩
    exact shows_.tallies coherent tallies call settles ordered

/-- Two transactions write a node and commit in the same order. -/
def inTurn : List Op :=
  [.beginTxn, .addNodeInTxn 1 "A" .empty, .commitTxn 1, .beginTxn, .beginTxn,
    .updateNodeInTxn 2 1 ⟨1, "B", .empty, {}⟩, .commitTxn 2,
    .updateNodeInTxn 3 1 ⟨1, "C", .empty, {}⟩, .commitTxn 3]

theorem latest_committer_wins_inTurn :
    LatestWins (inTurn.foldl logged ((Graph.fresh true fun _ _ => false).enabled, [])).1
      (inTurn.foldl logged ((Graph.fresh true fun _ _ => false).enabled, [])).2 := by
  have allows : Allows
      (fun _ state op => TxnCall state.1 op ∧ Settles state.1 op ∧ InOrder state.1 op) logged
      [((Graph.fresh true fun _ _ => false).enabled, [])]
      ((Graph.fresh true fun _ _ => false).enabled, []) inTurn := by
    simp only [inTurn, Allows]
    have other : True ∧ True ∧ True := ⟨trivial, trivial, trivial⟩
    refine ⟨other, other, ⟨trivial, ⟨?_, ?_⟩, ?_⟩, other, other, ⟨rfl, trivial, trivial⟩,
      ⟨trivial, ⟨?_, ?_⟩, ?_⟩, ⟨rfl, trivial, trivial⟩, ⟨trivial, ⟨?_, ?_⟩, ?_⟩, trivial⟩
    all_goals first
      | decide +kernel
      | intro mvcc here
        obtain rfl := Option.some.inj here
        unfold Mvcc.commitsInOrder
        decide +kernel
  obtain ⟨past, run⟩ := Run.start.append allows
  exact latest_committer_wins (stocked_fresh true _) run

/-- Two transactions write a node one after the other; the first to write is the last to
commit. -/
def overtaking : List Op :=
  [.beginTxn, .addNodeInTxn 1 "A" .empty, .commitTxn 1, .beginTxn, .beginTxn,
    .updateNodeInTxn 2 1 ⟨1, "B", .empty, {}⟩, .updateNodeInTxn 3 1 ⟨1, "C", .empty, {}⟩,
    .commitTxn 3, .commitTxn 2]

theorem overtaken_commit_loses :
    ¬∀ (start graph : Graph) (contents : Contents) (past : List (Graph × List CommitEntry))
      (ledger : List CommitEntry), start.Stocked contents →
      Run (fun _ state op => TxnCall state.1 op) logged (start.enabled, []) past (graph, ledger) →
      LatestWins graph ledger := by
  intro claim
  let start : Graph := Graph.fresh true fun _ _ => false
  have allows : Allows (fun _ (state : Graph × List CommitEntry) op => TxnCall state.1 op) logged
      [(start.enabled, [])] (start.enabled, []) overtaking :=
    ⟨trivial, trivial, trivial, trivial, trivial, rfl, rfl, trivial, trivial, trivial⟩
  obtain ⟨past, run⟩ := Run.start.append allows
  have ledger : (overtaking.foldl logged (start.enabled, [])).2 =
      [⟨2, .node 1, some (.live ⟨1, "A", .empty, .heads {}⟩)⟩,
        ⟨5, .node 1, some (.live ⟨1, "C", .empty, .heads {}⟩)⟩,
        ⟨6, .node 1, some (.live ⟨1, "B", .empty, .heads {}⟩)⟩] := by decide +kernel
  have read : ((overtaking.foldl logged (start.enabled, [])).1.read (.node 1)).map Record.label =
      .ok "C" := by decide +kernel
  generalize overtaking.foldl logged (start.enabled, []) = reached at run ledger read
  obtain ⟨graph, entries⟩ := reached
  obtain rfl : entries = _ := ledger
  let last : CommitEntry := ⟨6, .node 1, some (.live ⟨1, "B", .empty, .heads {}⟩)⟩
  have wins := (claim start graph _ past _ (stocked_fresh true _) run).current last
    (by simp [last]) (by simp [last])
  obtain ⟨record, answer, read⟩ := ok_of_bind read
  have labelC : record.label = "C" := Except.ok.inj read
  have same : (Except.ok record.observed : Except Error Record) =
      .ok (Record.observed ⟨1, "B", .empty, .heads {}⟩) := by
    rw [AnswersWith, show last.key = .node 1 from rfl, answer] at wins
    exact wins
  have labelB : record.label = "B" := congrArg Record.label (Except.ok.inj same)
  rw [labelB] at labelC
  exact absurd labelC (by decide)

end ErmyaGraph.Graph
