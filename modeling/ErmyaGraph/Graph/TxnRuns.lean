import ErmyaGraph.Graph.Exactness
import ErmyaGraph.Graph.WriteMoves

/-! # Runs of explicit transactions

Any interleaving of transactions, vacuums and queries, seen from the records:
each call takes the view along a path of moves. -/

namespace ErmyaGraph.Graph

open Outcome Runs

variable {keys : EntityKey → Prop} {move : Move} {op : Op}

/-- A call of the explicit transactions, the vacuum, or a query. A value is written under the id
it carries. -/
def TxnCall (graph : Graph) : Op → Prop
  | .updateNodeInTxn _ id node => node.id = id
  | .updateEdgeInTxn _ id edge => edge.toRecord.Names (.edge id)
  | .vacuumOnce order => DrainOrder graph order
  | .beginTxn | .addNodeInTxn _ _ _ | .removeNodeInTxn _ _ | .addEdgeInTxn _ _ _ _ _
  | .removeEdgeInTxn _ _ | .commitTxn _ | .rollbackTxn _ | .edges _ _ _ => True
  | _ => False

/-- A commit rewrites nothing in place that a live slot reads and returns once it is journalled. A
vacuum returns, and the deletions it drains replaced a live version. -/
def Settles (graph : Graph) : Op → Prop
  | .commitTxn txn =>
    (∀ mvcc, graph.mvcc = some mvcc → redoKeeps txn (mvcc.committed txn)
      { graph with mvcc := some { mvcc with clock := mvcc.clock + 1 } }) ∧ graph.commitEnds txn
  | .vacuumOnce order => succeeds (discard (vacuumOnce order)) graph ∧ graph.drainRemoves order
  | _ => True

/-- The moves a call is made of. -/
def TxnMoves (graph : Graph) (mvcc : Mvcc) : Op → List Move → Prop
  | .commitTxn txn, moves =>
    if succeeds (commitTxn txn) graph then CommitPath mvcc txn moves else FailedCommitPath moves
  | _, moves => ∀ move ∈ moves, move.Versioned

/-- The moves of a call, one by one where the call touches pages. -/
def CallMoves (graph : Graph) (mvcc : Mvcc) : Op → List Move → Prop
  | .commitTxn txn, moves =>
    if succeeds (commitTxn txn) graph then CommitPath mvcc txn moves else FailedCommitPath moves
  | .vacuumOnce order, moves => moves = [.vacuum order]
  | _, moves => ∀ move ∈ moves, move.Transactional

/-- The entities that a call may write. -/
def writes (graph : Graph) : Op → EntityKey → Prop
  | .addNodeInTxn _ _ _, key | .addNode _ _, key => key = .node (graph.store.info.nextId .node)
  | .addEdgeInTxn _ _ _ _ _, key | .addEdge _ _ _ _, key =>
    key = .edge (graph.store.info.nextId .edge)
  | .updateNodeInTxn _ id _, key | .removeNodeInTxn _ id, key | .updateNode id _, key =>
    key = .node id
  | .updateEdgeInTxn _ id _, key | .removeEdgeInTxn _ id, key | .updateEdge id _, key
  | .removeEdge id, key => key = .edge id
  | .removeNode id, key => key = .node id ∨ ∃ edge ∈ graph.incidentEdges id, key = .edge edge
  | _, _ => False

section Calls

variable {graph : Graph} {view : View}

theorem MovedBy.mono {permits permits' : List Move → Prop} {after : Graph}
    (moved : MovedBy permits view after) (wider : ∀ moves, permits moves → permits' moves) :
    MovedBy permits' view after := by
  obtain ⟨moves, view', path, permitted, shows_⟩ := moved
  exact ⟨moves, view', path, wider moves permitted, shows_⟩

variable {txn : Nat}

theorem Move.For.transactional (own : Move.For txn keys move) : move.Transactional := by
  cases move with
  | skipId | note | push | forget => trivial
  | _ => exact own.elim

theorem Move.For.within (own : Move.For txn keys move) : move.Within keys := by
  cases move with
  | skipId | note | forget => trivial
  | push => exact own.2
  | _ => exact own.elim

theorem FailedCommitPath.versioned {moves : List Move} (failed : FailedCommitPath moves) :
    ∀ move ∈ moves, move.Versioned := by
  intro move mem
  rcases failed with rfl | rfl
  · cases mem
  · rw [List.mem_singleton.mp mem]
    trivial

theorem FailedCommitPath.within {moves : List Move} (failed : FailedCommitPath moves) :
    ∀ move ∈ moves, move.Within keys := by
  intro move mem
  rcases failed with rfl | rfl
  · cases mem
  · rw [List.mem_singleton.mp mem]
    trivial

theorem CommitPath.within {mvcc : Mvcc} {moves : List Move} (path : CommitPath mvcc txn moves) :
    ∀ move ∈ moves, move.Within keys := by
  obtain ⟨contents, rfl⟩ := path
  intro move mem
  rcases List.mem_pair.mp mem with rfl | rfl
  · trivial
  · trivial

theorem Moved.quiet {after : Graph} (moved : Moved (· = move) view after)
    (transactional : move.Transactional) (within : move.Within keys) :
    MovedBy (fun moves => (∀ move ∈ moves, move.Transactional) ∧ ∀ move ∈ moves, move.Within keys)
      view after :=
  MovedBy.mono moved fun _ own =>
    ⟨fun other mem => own other mem ▸ transactional,
      fun other mem => own other mem ▸ within⟩

/-- Every call takes the view along a path, whichever way it returns, and writes only what it
names. -/
theorem Shows.moves_within (shows_ : graph.Shows view) (coherent : view.Coherent)
    (call : TxnCall graph op) (settles : Settles graph op) :
    MovedBy (fun moves => CallMoves graph view.mvcc op moves ∧
      ∀ move ∈ moves, move.Within (graph.writes op)) view (graph.after op) := by
  -- A write, once it is past what is checked before it.
  have write {x : GraphM Unit} {txn : Nat} {keys : EntityKey → Prop}
      (sat : Sat x graph (fun _ after => Moved (Move.For txn keys) view after)
        (fun _ after => Moved (Move.For txn keys) view after)) :
      MovedBy (fun moves => (∀ move ∈ moves, move.Transactional) ∧ ∀ move ∈ moves, move.Within keys)
        view (final x graph) :=
    MovedBy.mono sat.final fun moves own =>
      ⟨fun move mem => Move.For.transactional (own move mem),
        fun move mem => Move.For.within (own move mem)⟩
  have update {txn : Nat} {key : EntityKey} {record : Record} (names : record.Names key) :
      MovedBy (fun moves => (∀ move ∈ moves, move.Transactional) ∧
        ∀ move ∈ moves, move.Within (· = key))
        view (final (do checkQuota; replaceInTxn txn key (.live record) .update) graph) := by
    have written {g : Graph} (shown : g.Shows view) :
        Sat (replaceInTxn txn key (.live record) .update) g
          (fun _ after => Moved (Move.For txn (· = key)) view after)
          (fun _ after => Moved (Move.For txn (· = key)) view after) :=
      sat_replaceInTxn txn shown coherent nofun nofun fun _ same => EntitySnapshot.live.inj same ▸ names
    exact write (shows_.then sameView_checkQuota (fun _ _ => .none) fun _ _ => written)
  have remove {txn : Nat} {key : EntityKey} :
      MovedBy (fun moves => (∀ move ∈ moves, move.Transactional) ∧
        ∀ move ∈ moves, move.Within (· = key))
        view (final (replaceInTxn txn key .deleted .delete) graph) :=
    write (sat_replaceInTxn txn shows_ coherent nofun (fun _ => rfl) nofun)
  cases op with
  | beginTxn =>
    have begun : Sat (Op.run .beginTxn) graph
        (fun _ after => Moved (· = .begin) view after) (fun _ _ => False) :=
      sat_discard.mpr ((sat_beginTxn shows_).relax
        (fun _ _ done => .one .begin rfl trivial done.2))
    exact Moved.quiet (begun.sure (fun _ _ => id)).final trivial trivial
  | addNodeInTxn txn label props =>
    have added := write (sat_discard.mpr (sat_addNodeInTxn txn label props shows_ coherent))
    rw [← shows_.nextId] at added
    exact added
  | updateNodeInTxn txn id node =>
    have names : node.toRecord.Names (.node id) := ⟨call, trivial⟩
    exact update names
  | removeNodeInTxn txn id => exact remove
  | addEdgeInTxn txn label source target props =>
    have added := write (sat_discard.mpr
      (sat_addEdgeInTxn txn label source target props shows_ coherent))
    rw [← shows_.nextId] at added
    exact added
  | updateEdgeInTxn txn id edge => exact update call
  | removeEdgeInTxn txn id => exact remove
  | commitTxn txn =>
    have sat := sat_commitTxn txn shows_ coherent (settles.1 view.mvcc shows_.mvcc) settles.2
    by_cases returns : succeeds (commitTxn txn) graph
    · refine (sat.final_of_succeeds returns).mono fun moves path => ⟨?_, path.within⟩
      simpa [CallMoves, returns]
    · have fails := (sat.of_fails (Bool.eq_false_iff.mpr returns)).final
      refine fails.mono fun moves path => ⟨?_, path.within⟩
      simpa [CallMoves, returns]
  | rollbackTxn txn =>
    have forgotten := (sat_rollbackTxn shows_ rfl : Sat (rollbackTxn txn) graph
      (fun _ after => Moved (· = .forget txn) view after)
      (fun _ after => Moved (· = .forget txn) view after)).final
    exact Moved.quiet forgotten trivial trivial
  | vacuumOnce order =>
    have drained := sat_vacuumOnce shows_ coherent call.nodup settles.2
    have moved := (sat_discard.mpr drained).final_of_succeeds settles.1
    refine moved.mono ?_
    rintro moves rfl
    refine ⟨rfl, fun move mem => ?_⟩
    rw [List.mem_singleton.mp mem]
    trivial
  | edges reader direction node =>
    have same := (keeps_edges reader direction node).mono fun _ _ => LinksOnly.sameView
    have idle : Moved (fun _ => False) view (graph.after (.edges reader direction node)) :=
      Moved.none (shows_.sat same).final
    exact MovedBy.mono idle fun moves none =>
      ⟨fun move mem => (none move mem).elim, fun move mem => (none move mem).elim⟩
  | _ => exact call.elim

theorem Shows.moves (shows_ : graph.Shows view) (coherent : view.Coherent) (call : TxnCall graph op)
    (settles : Settles graph op) : MovedBy (TxnMoves graph view.mvcc op) view (graph.after op) := by
  refine (shows_.moves_within coherent call settles).mono fun moves both => ?_
  have path := both.1
  cases op with
  | commitTxn txn => exact path
  | vacuumOnce order =>
    rintro move mem
    rw [show moves = [.vacuum order] from path, List.mem_singleton] at mem
    rw [mem]
    trivial
  | _ => exact fun move mem => (path move mem).versioned

end Calls

def enabled (graph : Graph) : Graph := final enableMvcc graph

/-- The existence sets hold the entities whose slots are live, each slot a record of its own
entity, and ids not given out have no slot. -/
structure Stocked (graph : Graph) (contents : Contents) : Prop where
  store : Store.StoreIs graph.store contents
  firstId : ∀ kind, 0 < graph.store.info.nextId kind
  fresh : ∀ key : EntityKey, ¬(0 < key.id ∧ key.id < graph.store.info.nextId key.kind) →
    contents key = .blank ∧ graph.skipsVersions key = false
  named : ∀ key record, contents key = .live record → record.Names key
  present : ∀ key, graph.exists? key ↔ ∃ record, contents key = .live record
  pending : ∀ link ∈ graph.adj.pending.map Prod.fst, 0 < link.1

def Sound (graph : Graph) : Prop := ∃ view, graph.Shows view ∧ view.Coherent

theorem stocked_fresh (wal : Bool) (evicts : Nat → Nat → Bool) :
    (Graph.fresh wal evicts).Stocked fun _ => .blank := by
  refine ⟨storeIs_fresh _, fun _ => Nat.one_pos, fun _ _ => ⟨rfl, ?_⟩, nofun, fun key => ?_, nofun⟩
  · simp [skipsVersions, Graph.fresh]
  · simp [exists?, Graph.fresh]

theorem Stocked.sound {graph : Graph} {contents : Contents} (stocked : graph.Stocked contents) :
    graph.enabled.Sound := by
  let view : View := ⟨contents, graph.exists?, graph.skipsVersions, {}, graph.store.info.nextId⟩
  have absent {key : EntityKey} (dead : ∀ record, contents key ≠ .live record) :
      graph.exists? key = false := by
    rw [Bool.eq_false_iff]
    intro present
    obtain ⟨record, live⟩ := (stocked.present key).mp present
    exact dead record live
  refine ⟨view, ⟨stocked.store, fun _ => rfl, fun _ => rfl, rfl, rfl, stocked.pending⟩, ?_⟩
  constructor
  · exact Mvcc.sound_empty
  · exact stocked.firstId
  · intro key fresh
    obtain ⟨blank, free⟩ := stocked.fresh key fresh
    refine ⟨blank, absent fun record live => ?_, rfl, free⟩
    rw [blank] at live
    cases live
  · exact stocked.named
  · exact fun _ _ mem => nomatch mem
  · intro key erased
    exact ⟨rfl, absent fun record live => nomatch live.symm.trans erased⟩
  · exact fun key present => .inl ((stocked.present key).mp present)
  · exact fun key record live => (stocked.present key).mpr ⟨record, live⟩
  · exact fun _ _ => .inl rfl
  · exact fun _ _ => rfl

theorem Sound.run {start graph : Graph} {past : List Graph} (sound : start.Sound)
    (run : Run (fun _ graph op => TxnCall graph op ∧ Settles graph op) Graph.after start past
      graph) : graph.Sound := by
  apply run.invariant (fun _ graph => graph.Sound) sound
  rintro _ graph op ⟨view, shows_, coherent⟩ ⟨call, settles⟩
  obtain ⟨moves, view', path, _, shown⟩ := shows_.moves coherent call settles
  exact ⟨view', shown, path.coherent coherent⟩

def keysWrittenBy (graph : Graph) (txn : Nat) : List EntityKey :=
  (graph.mvcc.map fun mvcc => mvcc.keysWrittenBy txn).getD []

/-- What a transaction has not written it reads as it did when it began. -/
structure ReadsRepeat (txn : Nat) (begun after : Graph) : Prop where
  nodes : ∀ id, .node id ∉ after.keysWrittenBy txn →
    (after.nodeInTxn txn id).map (fun node => (node.label, node.properties)) =
      (begun.nodeInTxn txn id).map fun node => (node.label, node.properties)
  edges : ∀ id, .edge id ∉ after.keysWrittenBy txn → after.edgeInTxn txn id = begun.edgeInTxn txn id

/-- A commit links an edge at a node without a live slot only if every other transaction sees a
version of the node, or nobody is going to see one. -/
def Unexposed (graph : Graph) : Op → Prop
  | .commitTxn txn => ∀ mvcc, graph.mvcc = some mvcc → ∀ id, mvcc.linkTargets txn id →
      (graph.store.readRecord (.node id)).isOk = false →
      ((((mvcc.commit txn).chain (.node id)).applyForRead none (mvcc.commit txn).clock none).bind
        EntitySnapshot.record?).isSome →
      ∀ other ≠ txn, ∀ state, mvcc.active other = some state →
        (mvcc.chain (.node id)).sees state.startTs (some other)
  | _ => True

section Repeats

variable {graph : Graph} {view : View} {txn : Nat}

theorem positive_of_linkTargets (coherent : view.Coherent) {id : Nat}
    (target : view.mvcc.linkTargets txn id) : 0 < id := by
  obtain ⟨edge, delta, record, mem, _, new, ends⟩ := target
  obtain ⟨_, found⟩ := Mvcc.mem_committed.mp mem
  obtain ⟨here, _⟩ := DeltaChain.mem_of_newestOfTxn found
  obtain ⟨_, linked⟩ := (coherent.fits _ delta here).named record new
  cases link : record.link with
  | heads _ =>
    rw [link] at linked
    exact linked.elim
  | ends source target =>
    rw [link] at linked
    simp only [Record.source, Record.target, Link.endpoints, link] at ends
    rcases ends with rfl | rfl
    · exact linked.1
    · exact linked.2

theorem Shows.repeats (shows_ : graph.Shows view) (coherent : view.Coherent)
    (call : TxnCall graph op) (settles : Settles graph op) (covered : Unexposed graph op) :
    ∃ view', (graph.after op).Shows view' ∧ view'.Coherent ∧ view.Repeats txn view' := by
  obtain ⟨moves, view', path, permitted, shown⟩ := shows_.moves coherent call settles
  refine ⟨view', shown, path.coherent coherent, ?_⟩
  have plain (versioned : ∀ move ∈ moves, move.Versioned) : view.Repeats txn view' :=
    path.repeats coherent versioned
  cases op with
  | commitTxn owner =>
    simp only [TxnMoves] at permitted
    split at permitted
    rotate_left
    · exact plain permitted.versioned
    · obtain ⟨contents, rfl⟩ := permitted
      cases path with
      | cons valid later =>
        cases later with
        | cons linked rest =>
          cases rest
          have first : view.Repeats txn _ := coherent.repeats_commit valid
          apply trans_of (View.Repeats txn) first
          apply (coherent.commit valid).repeats_link linked
          intro id target blank visible state active
          obtain ⟨running, started⟩ := valid
          have other : txn ≠ owner := by
            rintro rfl
            simp [Move.apply, Mvcc.commit_active] at active
          have before : view.mvcc.active txn = some state := by
            simpa [Move.apply, Mvcc.commit_active, other] using active
          rw [coherent.chain_commit started, ← DeltaChain.stampTxn_eq_map,
            DeltaChain.sees_stampTxn (coherent.registry.started before).le
              (fun same => other (Option.some.inj same))]
          have missing : (graph.store.readRecord (.node id)).isOk = false := by
            have pos : 0 < (EntityKey.node id).id := positive_of_linkTargets coherent target
            have read := shows_.readRecord pos
            rw [show view.contents (.node id) = .blank from blank] at read
            obtain ⟨e, failed⟩ := read
            rw [failed]
            rfl
          exact covered view.mvcc shows_.mvcc id target missing visible txn other state before
  | _ => exact plain permitted

theorem Shows.repeats_run {after : Graph} {past : List Graph} (shows_ : graph.Shows view)
    (coherent : view.Coherent)
    (run : Run (fun _ graph op => TxnCall graph op ∧ Settles graph op ∧ Unexposed graph op)
      Graph.after graph past after) :
    ∃ view', after.Shows view' ∧ view'.Coherent ∧ view.Repeats txn view' := by
  apply run.invariant fun _ after =>
    ∃ view', after.Shows view' ∧ view'.Coherent ∧ view.Repeats txn view'
  · exact ⟨view, shows_, coherent, refl_of (View.Repeats txn) view⟩
  · rintro _ mid op ⟨between, shown, coherent', sofar⟩ ⟨call, settles, covered⟩
    obtain ⟨view', shown', coherent'', next⟩ := shown.repeats coherent' call settles covered
    exact ⟨view', shown', coherent'', trans_of (View.Repeats txn) sofar next⟩

theorem map_found_of_shown {key : EntityKey} {left right : Option Record} {α : Type}
    (f : Record → α) (observes : ∀ record, f record = f record.observed)
    (same : left.map Record.observed = right.map Record.observed) :
    (found key left).map f = (found key right).map f := by
  cases left with
  | none =>
    cases right with
    | none => rfl
    | some record => cases same
  | some record =>
    cases right with
    | none => cases same
    | some other =>
      have equal : record.observed = other.observed := Option.some.inj same
      simp only [found, Except.map]
      rw [observes record, observes other, equal]

theorem nodeInTxn_map (graph : Graph) (txn id : Nat) :
    (graph.nodeInTxn txn id).map (fun node => (node.label, node.properties)) =
      (graph.readInTxn txn (.node id)).map fun record => (record.label, record.properties) := by
  unfold nodeInTxn
  cases graph.readInTxn txn (.node id) <;> rfl

end Repeats

/-- While a transaction is active, whatever it has not written reads as it did when the
transaction began. -/
theorem snapshot_reads_repeat {start graph begun after : Graph} {contents : Contents}
    {past past' : List Graph} {txn : Nat} (stocked : start.Stocked contents)
    (history : Run (fun _ graph op => TxnCall graph op ∧ Settles graph op) Graph.after start.enabled
      past graph) (begins : beginTxn.run graph = .ok txn begun)
    (later : Run (fun _ graph op => TxnCall graph op ∧ Settles graph op ∧ Unexposed graph op)
      Graph.after begun past' after) (active : after.isActive txn) :
    ReadsRepeat txn begun after := by
  obtain ⟨view, shows_, coherent⟩ := stocked.sound.run history
  obtain ⟨rfl, shown⟩ := (sat_iff.mp (sat_beginTxn shows_)).1 _ _ begins
  have coherent' := coherent.begin
  obtain ⟨view', shown', coherent'', repeats⟩ := shown.repeats_run coherent' later
  rw [shown'.isActive] at active
  obtain ⟨state', active'⟩ := Option.isSome_iff_exists.mp active
  have known : view.mvcc.nextTxnId < (Move.begin.apply view).mvcc.nextTxnId := Nat.lt_succ_self _
  obtain ⟨state, begunActive, start, _⟩ := repeats.continues.states _ known state' active'
  have same {key : EntityKey} (unwritten : key ∉ after.keysWrittenBy view.mvcc.nextTxnId) :
      (view'.version key state'.startTs (some view.mvcc.nextTxnId)).map Record.observed =
        ((Move.begin.apply view).version key state'.startTs
          (some view.mvcc.nextTxnId)).map Record.observed := by
    apply repeats.shown known state' active' key
    simpa [keysWrittenBy, shown'.mvcc, Mvcc.keysWrittenBy, active'] using unwritten
  have reads (key : EntityKey) := shown'.readInTxn coherent'' active' key
  have read (key : EntityKey) := shown.readInTxn coherent' begunActive key
  constructor
  · intro id unwritten
    rw [nodeInTxn_map, nodeInTxn_map, reads, read, ← start]
    exact map_found_of_shown (fun record => (record.label, record.properties)) (fun _ => rfl)
      (same unwritten)
  · intro id unwritten
    rw [edgeInTxn, edgeInTxn, reads, read, ← start]
    apply map_found_of_shown Record.toEdge _ (same unwritten)
    intro record
    simp only [Record.toEdge, Record.source, Record.target, Record.observed]
    cases record.link <;> rfl

def oneBegun : Graph := final beginTxn (Graph.fresh true fun _ _ => false).enabled

def creating : List Op := [.beginTxn, .addNodeInTxn 2 "A" .empty, .commitTxn 2]

theorem snapshot_reads_repeat_creating : ReadsRepeat 1 oneBegun (oneBegun.afterAll creating) := by
  have committed : ((oneBegun.after .beginTxn).after (.addNodeInTxn 2 "A" .empty)).mvcc.map
      (fun mvcc => (mvcc.committed 2).map Prod.fst) = some [.node 1] := by decide +kernel
  have allows : Allows (fun _ graph op => TxnCall graph op ∧ Settles graph op ∧ Unexposed graph op)
      Graph.after [oneBegun] oneBegun creating := by
    simp only [creating, Allows]
    refine ⟨⟨trivial, trivial, trivial⟩, ⟨trivial, trivial, trivial⟩, ⟨trivial, ⟨?_, ?_⟩, ?_⟩, trivial⟩
    · intro mvcc here
      obtain rfl := Option.some.inj here
      decide +kernel
    · decide +kernel
    · rintro mvcc here id ⟨edge, delta, record, member, _⟩
      rw [here] at committed
      have only : (mvcc.committed 2).map Prod.fst = [.node 1] := Option.some.inj committed
      have listed : EntityKey.edge edge ∈ (mvcc.committed 2).map Prod.fst :=
        List.mem_map.mpr ⟨_, member, rfl⟩
      rw [only] at listed
      simp at listed
  obtain ⟨past, run⟩ := Run.start.append allows
  have active : (oneBegun.afterAll creating).isActive 1 := by decide +kernel
  exact snapshot_reads_repeat (stocked_fresh true _) .start rfl run active

/-- Another transaction creates a node with a loop and commits. -/
def looping : List Op :=
  [.beginTxn, .addNodeInTxn 2 "A" .empty, .addEdgeInTxn 2 "L" 1 1 .empty, .commitTxn 2]

theorem foreign_node_appears :
    ¬∀ (start graph begun after : Graph) (contents : Contents) (past past' : List Graph) (txn : Nat),
      start.Stocked contents →
      Run (fun _ graph op => TxnCall graph op) Graph.after start.enabled past graph →
      beginTxn.run graph = .ok txn begun →
      Run (fun _ graph op => TxnCall graph op) Graph.after begun past' after →
      after.isActive txn → ReadsRepeat txn begun after := by
  intro claim
  have allows : Allows (fun _ graph op => TxnCall graph op) Graph.after [oneBegun] oneBegun looping :=
    ⟨trivial, trivial, trivial, trivial, trivial⟩
  obtain ⟨past, run⟩ := Run.start.append allows
  have active : (oneBegun.afterAll looping).isActive 1 := by decide +kernel
  have unwritten : .node 1 ∉ (oneBegun.afterAll looping).keysWrittenBy 1 := by decide +kernel
  have same := (claim _ _ oneBegun _ _ _ _ 1 (stocked_fresh true _) .start rfl run active).nodes 1
    unwritten
  have before : (oneBegun.nodeInTxn 1 1).isOk = false := by decide +kernel
  have now : ((oneBegun.afterAll looping).nodeInTxn 1 1).isOk := by decide +kernel
  have isOk_map (read : Except Error Node) :
      (read.map fun node => (node.label, node.properties)).isOk = read.isOk := by
    cases read <;> rfl
  have equal := congrArg Except.isOk same
  rw [isOk_map, isOk_map, before] at equal
  cases now.symm.trans equal

end ErmyaGraph.Graph
