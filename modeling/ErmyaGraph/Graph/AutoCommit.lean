import ErmyaGraph.Graph.TxnRuns

/-! # Auto-commit updates under versions

An auto-commit update writes the page, and reads prefer the chain above it.
What a run of any calls leaves of the entity decides whether the update is seen. -/

namespace ErmyaGraph.Graph

open Outcome Runs Store Option Graph

variable {keys : EntityKey → Prop} {op : Op}

/-- A call of any kind. A value is written under the id it carries. -/
def AnyCall (graph : Graph) : Op → Prop
  | .updateNode id node => node.id = id
  | .updateEdge id edge => edge.toRecord.Names (.edge id)
  | .addNode _ _ | .removeNode _ | .addEdge _ _ _ _ | .removeEdge _ | .beginBatch | .endBatch _
  | .flush | .evictPage _ _ => True
  | op => TxnCall graph op

/-- A removal returns, or fails before it touches a slot. -/
def Erases (graph : Graph) (op : Op) : Prop :=
  succeeds op.run graph ∨ (graph.after op).store.pages.slots = graph.store.pages.slots

/-- What an auto-commit removal erases has no versions. The calls of transactions settle. -/
def Lands (graph : Graph) : Op → Prop
  | .removeNode id => Erases graph (.removeNode id) ∧ graph.chain (.node id) = [] ∧
      ∀ edge ∈ graph.incidentEdges id, graph.exists? (.edge edge) → graph.chain (.edge edge) = []
  | .removeEdge id => Erases graph (.removeEdge id) ∧ graph.chain (.edge id) = []
  | op => Settles graph op

/-- The graph shows a view that holds together, and entities at rest that are not among the given
ones stay so. -/
def Arrives (keys : EntityKey → Prop) (view : View) (after : Graph) : Prop :=
  ∃ view', after.Shows view' ∧ view'.Coherent ∧
    ∀ key record, ¬keys key → view.Rests key record → view'.Rests key record

section Calls

variable {graph : Graph} {view : View}

theorem Move.Auto.within {move : Move} (own : Move.Auto keys move) : move.Within keys := by
  cases move with
  | skipId | link => trivial
  | write | pin | erase => exact own
  | _ => exact own.elim

theorem MovedBy.arrives {after : Graph} (coherent : view.Coherent)
    (moved : MovedBy (fun moves => ∀ move ∈ moves, move.Within keys) view after) :
    Arrives keys view after := by
  obtain ⟨moves, view', path, within, shown⟩ := moved
  exact ⟨view', shown, path.coherent coherent,
    fun key record untouched rests => path.rests coherent within untouched rests⟩

theorem Moved.arrives {after : Graph} (coherent : view.Coherent)
    (moved : Moved (Move.Auto keys) view after) : Arrives keys view after :=
  MovedBy.arrives coherent (MovedBy.mono moved fun _ own move mem =>
    Move.Auto.within (own move mem))

theorem Arrives.same {after : Graph} (coherent : view.Coherent) (shown : after.Shows view) :
    Arrives keys view after :=
  ⟨view, shown, coherent, fun _ _ _ rests => rests⟩

variable {key : EntityKey} {record : Record}

theorem Rewritten.coherent {after : Graph} (rewritten : Rewritten view key record after)
    (coherent : view.Coherent) (names : record.Names key) :
    ((Move.write key record).apply view).Coherent :=
  coherent.put (coherent.allotted_of_present rewritten.1) names

theorem Rewritten.arrives {after : Graph} (rewritten : Rewritten view key record after)
    (coherent : view.Coherent) (names : record.Names key) : Arrives (· = key) view after :=
  ⟨_, rewritten.2, rewritten.coherent coherent names, fun _ _ ne rests =>
    rests.write ne⟩

theorem arrives_of_erases (shows_ : graph.Shows view) (coherent : view.Coherent)
    (sat : Sat op.run graph (fun _ after => Moved (Move.Auto keys) view after)
      (fun _ after => Eroded view after)) (erases : Erases graph op) :
    Arrives keys view (graph.after op) := by
  by_cases returns : succeeds op.run graph
  · exact Moved.arrives coherent (sat.final_of_succeeds returns)
  · have failed : Eroded view (graph.after op) :=
      (sat.of_fails (Bool.eq_false_iff.mpr returns)).final
    rcases erases with returns' | same
    · exact absurd returns' returns
    · exact .same coherent (failed.shows shows_ same)

/-- Every call does, whichever way it returns. -/
theorem Shows.arrives (shows_ : graph.Shows view) (coherent : view.Coherent)
    (call : AnyCall graph op) (lands : Lands graph op) :
    Arrives (graph.writes op) view (graph.after op) := by
  have ofTxn (call : TxnCall graph op) (settles : Settles graph op) :
      Arrives (graph.writes op) view (graph.after op) :=
    MovedBy.arrives coherent ((shows_.moves_within coherent call settles).mono fun _ => And.right)
  have rewrites {key : EntityKey} {record : Record} {x : GraphM Unit} (names : record.Names key)
      (sat : Sat x graph (fun _ after => Rewritten view key record after)
        (fun _ after => after.Shows view ∨ Rewritten view key record after)) :
      Arrives (· = key) view (final x graph) := by
    have done : Sat x graph (fun _ after => after.Shows view ∨ Rewritten view key record after)
        (fun _ after => after.Shows view ∨ Rewritten view key record after) :=
      sat.relax (fun _ _ => .inr)
    rcases done.final with same | rewritten
    · exact .same coherent same
    · exact rewritten.arrives coherent names
  cases op with
  | addNode label props =>
    have added : Moved (Move.Auto (· = .node (view.nextId .node))) view
        (graph.after (.addNode label props)) :=
      (sat_discard.mpr (sat_addNode label props shows_ coherent)).final
    rw [← shows_.nextId] at added
    exact Moved.arrives coherent added
  | addEdge label source target props =>
    have added : Moved (Move.Auto (· = .edge (view.nextId .edge))) view
        (graph.after (.addEdge label source target props)) :=
      (sat_discard.mpr (sat_addEdge label source target props shows_ coherent)).final
    rw [← shows_.nextId] at added
    exact Moved.arrives coherent added
  | updateNode id node =>
    have names : node.toRecord.Names (.node id) := ⟨call, trivial⟩
    exact rewrites names (sat_updateNode shows_ coherent call)
  | updateEdge id edge => exact rewrites call (sat_updateEdge shows_ coherent call)
  | removeNode id =>
    obtain ⟨erases, settled, edges⟩ := lands
    rw [shows_.chain] at settled
    have removed := sat_removeNode shows_ coherent settled fun edge mem present => by
      rw [← shows_.chain]
      exact edges edge mem (by rw [shows_.present]; exact present)
    exact arrives_of_erases shows_ coherent (sat_discard.mpr removed) erases
  | removeEdge id =>
    obtain ⟨erases, settled⟩ := lands
    rw [shows_.chain] at settled
    have removed := sat_removeEdge shows_ coherent settled
    exact arrives_of_erases shows_ coherent (sat_discard.mpr removed) erases
  | beginBatch =>
    exact .same coherent
      (shows_.congr ⟨refl_of SameData graph.store, rfl, rfl, rfl, rfl, rfl⟩)
  | endBatch checkpointDue =>
    have ended := (moved_endBatch checkpointDue shows_ coherent).final
    exact Moved.arrives coherent ended
  | flush => exact .same coherent (shows_.sat sameView_flush).final
  | evictPage file page =>
    exact .same coherent
      (shows_.congr ⟨refl_of SameData graph.store, rfl, rfl, rfl, rfl, rfl⟩)
  | _ => exact ofTxn call lands

theorem Sound.run_any {start graph : Graph} {past : List Graph} (sound : start.Sound)
    (run : Run (fun _ graph op => AnyCall graph op ∧ Lands graph op) after start past graph) :
    graph.Sound := by
  apply run.invariant (fun _ graph => graph.Sound) sound
  rintro _ graph op ⟨view, shows_, coherent⟩ ⟨call, lands⟩
  obtain ⟨view', shown, coherent', _⟩ := shows_.arrives coherent call lands
  exact ⟨view', shown, coherent'⟩

end Calls

/-- An auto-commit update of an entity to a record. -/
inductive Updates : Op → EntityKey → Record → Prop
  | node (id : Nat) (node : Node) : Updates (.updateNode id node) (.node id) node.toRecord
  | edge (id : Nat) (edge : Edge) : Updates (.updateEdge id edge) (.edge id) edge.toRecord

/-- A read outside transactions answers with the record's label and properties. -/
def ReadsAs (graph : Graph) (key : EntityKey) (record : Record) : Prop :=
  (graph.read key).map (fun found => (found.label, found.properties)) =
    .ok (record.label, record.properties)

def VacuumReturns (graph : Graph) : Op → Prop
  | .vacuumOnce order => DrainOrder graph order ∧ succeeds (discard (vacuumOnce order)) graph
  | _ => False

/-- The entity reads as the record, after any calls that do not write it and any vacuums. -/
def KeepsReading (graph : Graph) (key : EntityKey) (record : Record) : Prop :=
  ∀ past mid past' later,
    Run (fun _ graph op => (AnyCall graph op ∧ Lands graph op) ∧ ¬graph.writes op key) after
      graph past mid →
    Run (fun _ graph op => VacuumReturns graph op) after mid past' later →
    ReadsAs later key record

/-- No version covers the page, or the newest one is as the record. -/
def Uncovered (graph : Graph) (key : EntityKey) (record : Record) : Prop :=
  ∀ delta ∈ (graph.chain key).head?, ∃ head, delta.new = some (.live head) ∧
    head.label = record.label ∧ head.properties = record.properties

section Updates

variable {graph : Graph} {view : View} {key : EntityKey} {record : Record}

theorem Updates.rewrites (updates : Updates op key record) (shows_ : graph.Shows view)
    (coherent : view.Coherent) (names : record.Names key) (ok : succeeds op.run graph) :
    Rewritten view key record (graph.after op) := by
  cases updates with
  | node id node => exact (sat_updateNode shows_ coherent names.1).final_of_succeeds ok
  | edge id edge => exact (sat_updateEdge shows_ coherent names).final_of_succeeds ok

variable {found : Record}

theorem Shows.read_of_stays (shows_ : graph.Shows view) (tidy : view.Tidy)
    (stays : view.Stays key found) :
    (graph.read key).map (fun answer => (answer.label, answer.properties)) =
      .ok (found.label, found.properties) := by
  obtain ⟨answer, visible, rfl⟩ := map_eq_some_iff.mp stays.current
  have readable : view.Readable key := by
    refine ⟨fun _ => stays.positive, fun present settled => ?_, tidy.pinned key⟩
    by_contra dead
    have hidden := View.baseShown_of_dead fun record live => dead ⟨record, live⟩
    rw [← View.current_of_settled settled, stays.current] at hidden
    cases hidden
  rw [shows_.read_of_readable readable, visible]
  rfl

theorem reads_of_rests {past past' : List Graph} {mid later : Graph} (shows_ : graph.Shows view)
    (coherent : view.Coherent) (rests : view.Rests key found)
    (run : Run (fun _ graph op => (AnyCall graph op ∧ Lands graph op) ∧ ¬graph.writes op key)
      after graph past mid)
    (vacuums : Run (fun _ graph op => VacuumReturns graph op) after mid past' later) :
    ReadsAs later key found := by
  have still := run.invariant (fun _ graph => ∃ view, graph.Shows view ∧ view.Coherent ∧
    view.Rests key found) ⟨view, shows_, coherent, rests⟩ ?_
  · obtain ⟨view', shown, coherent', rests'⟩ := still
    have drained := vacuums.invariant (fun _ graph => ∃ view, graph.Shows view ∧ view.Tidy ∧
      view.Stays key found) ⟨view', shown, coherent'.tidy, coherent'.stays rests'.current⟩ ?_
    · obtain ⟨last, shown', tidy, stays⟩ := drained
      exact shown'.read_of_stays tidy stays
    · rintro _ graph op ⟨view, shows_, tidy, stays⟩ call
      cases op with
      | vacuumOnce order =>
        obtain ⟨exhaustive, ok⟩ := call
        have vacuumed := sat_vacuumOnce_shows shows_ tidy exhaustive.nodup
        have shown : (graph.after (.vacuumOnce order)).Shows ((Move.vacuum order).apply view) :=
          (sat_discard.mpr vacuumed).final_of_succeeds ok
        exact ⟨_, shown, tidy.vacuum, tidy.stays_vacuum stays⟩
      | _ => exact call.elim
  · rintro _ graph op ⟨view, shows_, coherent, rests⟩ ⟨⟨call, lands⟩, untouched⟩
    obtain ⟨view', shown, coherent', kept⟩ := shows_.arrives coherent call lands
    exact ⟨view', shown, coherent', kept key found untouched rests⟩

end Updates

/-- An auto-commit update that returns is what readers see from then on exactly if no committed
version covers the page, or the newest one says the same. -/
theorem update_kept_iff {start graph : Graph} {contents : Contents} {past : List Graph} {op : Op}
    {key : EntityKey} {record : Record} (stocked : start.Stocked contents)
    (history : Run (fun _ graph op => AnyCall graph op ∧ Lands graph op) after start.enabled
      past graph) (idle : ∀ txn, graph.isActive txn = false) (updates : Updates op key record)
    (names : record.Names key) (ok : succeeds op.run graph) :
    KeepsReading (graph.after op) key record ↔ graph.Uncovered key record := by
  obtain ⟨view, shows_, coherent⟩ := stocked.sound.run_any history
  have rewritten := updates.rewrites shows_ coherent names ok
  have coherent' := rewritten.coherent coherent names
  have committed : ∀ delta ∈ view.chain key, delta.commitTs ≠ none := by
    intro delta member pending
    obtain ⟨state, active, _⟩ := coherent.registry.pending member pending
    have running := idle delta.txn
    rw [shows_.isActive, Mvcc.isActive, active] at running
    cases running
  unfold Uncovered
  rw [shows_.chain]
  cases chain : view.chain key with
  | nil =>
    have current : ((Move.write key record).apply view).current key = some record.observed := by
      have settled : ((Move.write key record).apply view).chain key = [] := chain
      rw [View.current_of_settled settled]
      apply View.baseShown_of_live <;> simp [Move.apply]
    have rests : ((Move.write key record).apply view).Rests key record.observed :=
      ⟨current, committed⟩
    simp only [List.head?_nil, mem_def, reduceCtorEq, false_implies, implies_true, iff_true]
    intro past mid past' later run vacuums
    have reads := reads_of_rests rewritten.2 coherent' rests run vacuums
    exact reads
  | cons delta older =>
    have current := coherent'.current_of_cons chain
      (committed delta (by rw [chain]; exact .head _))
    simp only [List.head?_cons, mem_def, some.injEq, forall_eq']
    constructor
    · intro kept
      have reads := kept _ _ _ _ .start .start
      have visible := rewritten.2.read coherent' key
      rw [ReadsAs, visible] at reads
      cases shown : ((Move.write key record).apply view).version key
          ((Move.write key record).apply view).mvcc.clock none with
      | none =>
        rw [shown] at reads
        cases reads
      | some answer =>
        rw [shown] at reads
        have same : (answer.label, answer.properties) = (record.label, record.properties) :=
          Except.ok.inj reads
        have now : ((Move.write key record).apply view).current key = some answer.observed := by
          simp [View.current, View.shown, shown]
        rw [now] at current
        obtain ⟨head, here, observed⟩ := map_eq_some_iff.mp current.symm
        obtain ⟨snapshot, new, isLive⟩ := bind_eq_some_iff.mp here
        cases snapshot with
        | deleted => cases isLive
        | live found =>
          obtain rfl := some.inj isLive
          refine ⟨found, new, ?_, ?_⟩
          · exact (congrArg Record.label observed).trans (congrArg Prod.fst same)
          · exact (congrArg Record.properties observed).trans (congrArg Prod.snd same)
    · rintro ⟨head, new, label, properties⟩ past mid past' later run vacuums
      rw [new] at current
      have rests : ((Move.write key record).apply view).Rests key head.observed :=
        ⟨current, committed⟩
      have reads := reads_of_rests rewritten.2 coherent' rests run vacuums
      rw [ReadsAs] at reads ⊢
      rw [reads, ← label, ← properties]
      rfl

def plainNode : Graph := (fresh true fun _ _ => false).enabled.after (.addNode "A" .empty)

theorem update_kept_iff_plainNode : KeepsReading (plainNode.after (.updateNode 1 ⟨1, "C", .empty, {}⟩))
    (.node 1) ⟨1, "C", .empty, .heads {}⟩ := by
  have history : Run (fun _ graph op => AnyCall graph op ∧ Lands graph op) after
      (fresh true fun _ _ => false).enabled _ plainNode :=
    Run.start.step (Op.addNode "A" .empty) ⟨trivial, trivial⟩
  have ok : succeeds (Op.run (.updateNode 1 ⟨1, "C", .empty, {}⟩)) plainNode := by decide +kernel
  have uncovered : (plainNode.chain (.node 1)).head? = none := by decide +kernel
  refine (update_kept_iff (stocked_fresh true _) history (fun txn => rfl) (.node 1 _)
    ⟨rfl, trivial⟩ ok).mpr ?_
  intro delta member
  rw [uncovered] at member
  cases member

/-- A transaction creates a node with a loop and commits. The link puts the node on its page. -/
def covering : List Op :=
  [.beginTxn, .addNodeInTxn 1 "A" .empty, .addEdgeInTxn 1 "L" 1 1 .empty, .commitTxn 1]

theorem covered_update_is_lost :
    ¬∀ (start graph : Graph) (contents : Contents) (past : List Graph) (op : Op) (key : EntityKey)
      (record : Record), start.Stocked contents →
      Run (fun _ graph op => AnyCall graph op) after start.enabled past graph →
      (∀ txn, graph.isActive txn = false) → Updates op key record → record.Names key →
      succeeds op.run graph → KeepsReading (graph.after op) key record := by
  intro claim
  let start : Graph := fresh true fun _ _ => false
  have allows : Allows (fun _ graph op => AnyCall graph op ∧ Lands graph op) after
      [start.enabled] start.enabled covering := by
    refine ⟨⟨trivial, trivial⟩, ⟨trivial, trivial⟩, ⟨trivial, trivial⟩, ⟨trivial, ⟨?_, ?_⟩⟩,
      trivial⟩
    · intro mvcc here
      obtain rfl := some.inj here
      decide +kernel
    · decide +kernel
  obtain ⟨past, run⟩ := Run.start.append allows
  have known : (covering.foldl after start.enabled).mvcc.map Mvcc.nextTxnId = some 2 := by
    decide +kernel
  have ended : (covering.foldl after start.enabled).isActive 0 = false ∧
      (covering.foldl after start.enabled).isActive 1 = false := by decide +kernel
  have ok : succeeds (Op.run (.updateNode 1 ⟨1, "C", .empty, {}⟩))
      (covering.foldl after start.enabled) := by decide +kernel
  have read : (((covering.foldl after start.enabled).after
      (.updateNode 1 ⟨1, "C", .empty, {}⟩)).read (.node 1)).map Record.label = .ok "A" := by
    decide +kernel
  generalize covering.foldl after start.enabled = graph at run known ended ok read
  have idle (txn : Nat) : graph.isActive txn = false := by
    obtain ⟨view, shows_, coherent⟩ := (stocked_fresh true _).sound.run_any run
    rw [shows_.mvcc, map_some, some.injEq] at known
    cases active : view.mvcc.active txn with
    | none => simp [shows_.isActive, Mvcc.isActive, active]
    | some state =>
      have below := coherent.registry.known active
      rw [known] at below
      obtain rfl | rfl : txn = 0 ∨ txn = 1 := by omega
      · exact ended.1
      · exact ended.2
  have reads := claim start graph _ past _ (.node 1) _ (stocked_fresh true _)
    (run.mono fun _ _ _ allowed => allowed.1) idle (.node 1 ⟨1, "C", .empty, {}⟩) ⟨rfl, trivial⟩ ok
    _ _ _ _ .start .start
  rw [ReadsAs] at reads
  obtain ⟨record, answer, read⟩ := ok_of_bind read
  rw [answer] at reads
  have labelA : record.label = "A" := Except.ok.inj read
  have labelC : record.label = "C" := congrArg Prod.fst (Except.ok.inj reads)
  rw [labelA] at labelC
  exact absurd labelC (by decide)

end ErmyaGraph.Graph
