import ErmyaGraph.Graph.FailedVacuum
import ErmyaGraph.Graph.LatestCommit

/-! # What transactions keep from each other

Readers outside transactions see what was committed and nothing else, a commit publishes what its
transaction read last, and a transaction reads its own versions whatever others commit. Once all
have ended, a vacuum leaves every entity to its page. -/

namespace ErmyaGraph

namespace DeltaChain

open List

/-- A version pushed over one of an active transaction was committed, if at all, after that
transaction began. -/
def Fresh (active : Nat → Option TxnState) (chain : DeltaChain) : Prop :=
  chain.Pairwise fun upper lower => ∀ state, active lower.txn = some state →
    upper.txn ≠ lower.txn → ∀ ts, upper.commitTs = some ts → state.startTs ≤ ts

variable {active active' : Nat → Option TxnState} {chain chain' : DeltaChain}

theorem Fresh.mono (fresh : chain.Fresh active) (fewer : chain'.Sublist chain)
    (kept : ∀ delta ∈ chain, ∀ state', active' delta.txn = some state' →
      ∃ state, active delta.txn = some state ∧ state'.startTs = state.startTs) :
    chain'.Fresh active' := by
  refine (Pairwise.imp_of_mem ?_ fresh).sublist fewer
  intro upper lower _ mem early state' active' foreign ts stamped
  obtain ⟨state, active, start⟩ := kept lower mem state' active'
  rw [start]
  exact early state active foreign ts stamped

theorem Fresh.applyForRead (fresh : chain.Fresh active) {txn : Nat} {state : TxnState}
    (running : active txn = some state) {own : Delta} (found : chain.newestOfTxn txn = some own)
    (base : Option EntitySnapshot) :
    chain.applyForRead base state.startTs (some txn) = own.new := by
  induction chain with
  | nil => cases found
  | cons delta rest ih =>
    obtain ⟨early, fresh⟩ := pairwise_cons.mp fresh
    by_cases mine : delta.txn = txn
    · obtain rfl : delta = own := by simpa [newestOfTxn, mine] using found
      exact applyForRead_cons_visible (by simp [Delta.visibleTo, mine])
    · have later : newestOfTxn rest txn = some own := by simpa [newestOfTxn, mine] using found
      obtain ⟨mem, rfl⟩ := mem_of_newestOfTxn later
      have hidden : delta.visibleTo state.startTs (some own.txn) = false := by
        cases stamped : delta.commitTs with
        | none => simp [Delta.visibleTo, stamped, Ne.symm mine]
        | some ts =>
          have late := early own mem state running mine ts stamped
          simp [Delta.visibleTo, stamped, Ne.symm mine, late]
      rw [applyForRead_cons_hidden hidden]
      exact ih fresh later

end DeltaChain

namespace View

open List

def Fresh (view : View) : Prop := ∀ key, (view.chain key).Fresh view.mvcc.active

variable {view after : View}

theorem Fresh.apply (fresh : view.Fresh) (coherent : view.Coherent) {move : Move}
    (valid : move.Valid view) : (move.apply view).Fresh := by
  have kept (key : EntityKey) : ∀ delta ∈ view.chain key, ∀ state',
      (move.apply view).mvcc.active delta.txn = some state' →
        ∃ state, view.mvcc.active delta.txn = some state ∧ state'.startTs = state.startTs := by
    intro delta mem state' running
    have known : delta.txn < view.mvcc.nextTxnId := coherent.registry.given mem
    obtain ⟨state, active, start, -⟩ := (Move.continues valid).states _ known state' running
    exact ⟨state, active, start⟩
  intro key
  cases move with
  | push pushed delta =>
    rw [chain_push]
    split
    · next same =>
        subst same
        refine pairwise_cons.mpr
          ⟨fun _ _ _ _ _ ts stamped => ?_, (fresh key).mono (.refl _) (kept key)⟩
        rw [valid.pending] at stamped
        cases stamped
    · exact (fresh key).mono (.refl _) (kept key)
  | forget txn =>
    obtain ⟨state, active⟩ := valid
    rw [coherent.chain_forget active]
    exact (fresh key).mono filter_sublist (kept key)
  | commit txn =>
    obtain ⟨state, active⟩ := valid
    rw [coherent.chain_commit active, ← DeltaChain.stampTxn_eq_map, DeltaChain.stampTxn_eq_map]
    refine pairwise_map.mpr (Pairwise.imp_of_mem ?_ (fresh key))
    intro upper lower upperMem lowerMem early state' running foreign ts stamped
    rw [DeltaChain.stampOne_txn] at running
    rw [DeltaChain.stampOne_txn, DeltaChain.stampOne_txn] at foreign
    obtain ⟨state, active, start⟩ := kept key lower lowerMem state' running
    rw [start]
    cases old : upper.commitTs with
    | some ts' =>
      obtain rfl : ts' = ts := by simpa [DeltaChain.stampOne, old] using stamped
      exact early state active foreign ts' old
    | none =>
      rw [DeltaChain.stampOne, old] at stamped
      split at stamped
      · obtain rfl := Option.some.inj stamped
        exact (coherent.registry.started active).le
      · rw [old] at stamped
        cases stamped
  | vacuum order =>
    refine (fresh key).mono ?_ (kept key)
    simp only [View.chain, Move.apply, Mvcc.drain]
    split
    · exact nil_sublist _
    · exact .refl _
  | _ => exact (fresh key).mono (.refl _) (kept key)

theorem Path.fresh {moves : List Move} (path : Path view moves after) (coherent : view.Coherent)
    (fresh : view.Fresh) : after.Fresh := by
  induction path with
  | nil => exact fresh
  | cons valid later ih => exact ih (coherent.apply valid) (fresh.apply coherent valid)

end View

namespace Graph

open Outcome Runs

/-- What readers outside transactions see is the same, apart from adjacency heads. -/
def SameReads (before after : Graph) : Prop :=
  ∀ key, (after.read key).map Record.observed = (before.read key).map Record.observed

/-- A call that publishes nothing. -/
def Unpublished (graph : Graph) : Op → Prop
  | .commitTxn txn => ¬succeeds (commitTxn txn) graph
  | _ => True

/-- What a transaction has not written reads as before, and what it has as it read it last, unless
a later version was committed before. -/
structure Publishes (txn : Nat) (before after : Graph) : Prop where
  others : ∀ key ∉ before.keysWrittenBy txn,
    (after.read key).map Record.observed = (before.read key).map Record.observed
  own : ∀ key, ((before.chain key).newestOfTxn txn).isSome → (before.chain key).inOrder txn →
    (after.read key).map Record.observed = (before.readInTxn txn key).map Record.observed

/-- No version is left, and every page says what readers saw. -/
def Emptied (before after : Graph) : Prop :=
  ∀ key, after.chain key = [] ∧ SameRead (after.pageRead key) (before.read key)

section

variable {start graph after : Graph} {contents : Contents} {past past' : List Graph}
  {view view' : View} {txn : Nat} {key : EntityKey}

theorem Shows.read_congr (shows_ : graph.Shows view) (coherent : view.Coherent)
    (shows' : after.Shows view') (coherent' : view'.Coherent)
    (same : view'.current key = view.current key) :
    (after.read key).map Record.observed = (graph.read key).map Record.observed := by
  rw [shows_.read coherent, shows'.read coherent']
  exact map_found_of_shown Record.observed (fun record => (observed_observed record).symm) same

theorem Shows.readInTxn_own (shows_ : graph.Shows view) (coherent : view.Coherent)
    (fresh : view.Fresh) {state : TxnState} (active : view.mvcc.active txn = some state)
    {own : Delta} (newest : (graph.chain key).newestOfTxn txn = some own) :
    graph.readInTxn txn key = found key (own.new.bind EntitySnapshot.record?) := by
  rw [shows_.chain] at newest
  rw [shows_.readInTxn coherent active, View.version, (fresh key).applyForRead active newest]

variable (stocked : start.Stocked contents)
  (history : Run (fun _ graph op => TxnCall graph op ∧ Settles graph op) Graph.after start.enabled
    past graph)
include stocked history

theorem Stocked.reached : ∃ view, graph.Shows view ∧ view.Coherent ∧ view.Fresh := by
  apply history.invariant fun _ graph => ∃ view, graph.Shows view ∧ view.Coherent ∧ view.Fresh
  · obtain ⟨view, shows_, coherent⟩ := stocked.sound
    have empty : view.mvcc = {} := (Option.some.inj shows_.mvcc).symm
    refine ⟨view, shows_, coherent, fun key => ?_⟩
    rw [View.chain, empty]
    exact .nil
  · rintro _ graph op ⟨view, shows_, coherent, fresh⟩ ⟨call, settles⟩
    obtain ⟨moves, view', path, _, shown⟩ := shows_.moves coherent call settles
    exact ⟨view', shown, path.coherent coherent, path.fresh coherent fresh⟩

/-- **Nothing is published but by a commit.** As long as no commit returns, whatever is begun,
written, rolled back, vacuumed or tried, readers outside transactions see the same. -/
theorem unpublished_reads_same
    (later : Run (fun _ graph op => TxnCall graph op ∧ Settles graph op ∧ Unpublished graph op)
      Graph.after graph past' after) : SameReads graph after := by
  obtain ⟨view, shows_, coherent, -⟩ := stocked.reached history
  have kept := later.invariant
    (fun _ after => ∃ view', after.Shows view' ∧ view'.Coherent ∧ view.Steady view') ?_ ?_
  · obtain ⟨view', shown, coherent', steady⟩ := kept
    exact fun key => shows_.read_congr coherent shown coherent' (steady.current key)
  · exact ⟨view, shows_, coherent, refl_of View.Steady view⟩
  · rintro _ between op ⟨view', shown, coherent', steady⟩ ⟨call, settles, unpublished⟩
    obtain ⟨moves, view'', path, permitted, shown'⟩ := shown.moves coherent' call settles
    refine ⟨view'', shown', path.coherent coherent', trans_of View.Steady steady ?_⟩
    refine path.steady coherent' ?_
    cases op with
    | commitTxn txn =>
      rw [TxnMoves, if_neg unpublished] at permitted
      exact permitted.versioned
    | _ => exact permitted

/-- **A commit publishes what its transaction read last.** -/
theorem commit_publishes (settles : Settles graph (.commitTxn txn))
    (returns : succeeds (commitTxn txn) graph) :
    Publishes txn graph (graph.after (.commitTxn txn)) := by
  obtain ⟨view, shows_, coherent, fresh⟩ := stocked.reached history
  have call : TxnCall graph (.commitTxn txn) := trivial
  obtain ⟨moves, view', path, permitted, shown⟩ := shows_.moves coherent call settles
  have coherent' := path.coherent coherent
  rw [TxnMoves, if_pos returns] at permitted
  obtain ⟨linked, rfl⟩ := permitted
  cases path with
  | cons valid later =>
    cases later with
    | cons links rest =>
      cases rest
      obtain ⟨state, active⟩ := valid
      have same (key : EntityKey) : ((Move.link _ linked).apply _).current key =
          ((Move.commit txn).apply view).current key :=
        ((coherent.commit ⟨state, active⟩).steady_link links).current key
      constructor
      · intro key unwritten
        refine shows_.read_congr coherent shown coherent' ((same key).trans ?_)
        refine coherent.current_commit_of_absent active fun delta mem own => unwritten ?_
        subst own
        simpa [keysWrittenBy, shows_.mvcc, Mvcc.keysWrittenBy, active] using
          coherent.registry.written mem active
      · intro key wrote ordered
        obtain ⟨own, newest⟩ := Option.isSome_iff_exists.mp wrote
        rw [shows_.readInTxn_own coherent fresh active newest, shown.read coherent']
        rw [shows_.chain] at newest ordered
        refine map_found_of_shown Record.observed (fun record => (observed_observed record).symm) ?_
        exact (same key).trans (coherent.current_commit_of_newest active newest ordered)

/-- **A transaction reads what it wrote.** Whatever others commit meanwhile, an active transaction
reads its own newest version of an entity that it has written. -/
theorem own_versions_read (active : graph.isActive txn) {own : Delta}
    (newest : (graph.chain key).newestOfTxn txn = some own) :
    graph.readInTxn txn key = found key (own.new.bind EntitySnapshot.record?) := by
  obtain ⟨view, shows_, coherent, fresh⟩ := stocked.reached history
  rw [shows_.isActive] at active
  obtain ⟨state, running⟩ := Option.isSome_iff_exists.mp active
  exact shows_.readInTxn_own coherent fresh running newest

/-- **The registry stays sound.** -/
theorem registry_sound : ∃ mvcc, graph.mvcc = some mvcc ∧ mvcc.Sound := by
  obtain ⟨view, shows_, coherent, -⟩ := stocked.reached history
  exact ⟨view.mvcc, shows_.mvcc, coherent.registry⟩

/-- **A vacuum among no transactions leaves no version behind.** -/
theorem quiet_vacuum (quiet : ∀ mvcc, graph.mvcc = some mvcc → mvcc.oldestActiveStartTs = none)
    {order : List EntityKey} (exhaustive : DrainOrder graph order)
    (settles : Settles graph (.vacuumOnce order)) :
    Emptied graph (graph.after (.vacuumOnce order)) := by
  obtain ⟨view, shows_, coherent, -⟩ := stocked.reached history
  have valid : (Move.vacuum order).Valid view := by
    intro key drained present deleted
    rw [← shows_.present] at present
    exact settles.2 view.mvcc shows_.mvcc key drained present deleted
  have shown : (graph.after (.vacuumOnce order)).Shows ((Move.vacuum order).apply view) :=
    Sat.final_of_succeeds
      (sat_discard.mpr (sat_vacuumOnce_shows shows_ coherent.tidy exhaustive.nodup)) settles.1
  have none_ := quiet view.mvcc shows_.mvcc
  intro key
  have empty : (graph.after (.vacuumOnce order)).chain key = [] := by
    rw [shown.chain]
    by_contra left
    simp only [View.chain, Move.apply, Mvcc.drain, ite_eq_left_iff, not_forall] at left
    obtain ⟨kept, versions⟩ := left
    have ripe : view.mvcc.vacuumable key := by
      rw [Mvcc.vacuumable, Bool.and_eq_true, none_]
      refine ⟨by simpa using versions, List.all_eq_true.mpr fun delta mem => ?_⟩
      cases stamped : delta.commitTs with
      | some ts => simp [Delta.safeToVacuum, stamped]
      | none =>
        obtain ⟨state, running, -⟩ := coherent.registry.pending mem stamped
        obtain ⟨_, least, -⟩ :=
          Mvcc.oldestActiveStartTs_le (coherent.registry.known running) running
        cases none_.symm.trans least
    exact kept (mem_drainedKeys.mp
      (List.mem_filter.mpr ⟨exhaustive.complete view.mvcc shows_.mvcc key ripe, ripe⟩))
  exact ⟨empty, read_of_unchained empty ▸ read_vacuumed shows_ coherent valid shown key⟩

end

/-- A transaction has created a node. -/
def created : Graph :=
  (Graph.fresh true fun _ _ => false).enabled.afterAll [.beginTxn, .addNodeInTxn 1 "A" .empty]

theorem created_reached :
    ∃ past, Run (fun _ graph op => TxnCall graph op ∧ Settles graph op) Graph.after
      (Graph.fresh true fun _ _ => false).enabled past created :=
  Run.start.append ⟨⟨trivial, trivial⟩, ⟨trivial, trivial⟩, trivial⟩

theorem unpublished_reads_same_rollback : SameReads created (created.after (.rollbackTxn 1)) := by
  obtain ⟨past, history⟩ := created_reached
  obtain ⟨past', later⟩ : ∃ past',
      Run (fun _ graph op => TxnCall graph op ∧ Settles graph op ∧ Unpublished graph op)
        Graph.after created past' (created.after (.rollbackTxn 1)) :=
    ⟨_, Run.start.step _ ⟨trivial, trivial, trivial⟩⟩
  exact unpublished_reads_same (stocked_fresh true _) history later

theorem commit_publishes_created : Publishes 1 created (created.after (.commitTxn 1)) := by
  obtain ⟨past, history⟩ := created_reached
  refine commit_publishes (stocked_fresh true _) history ⟨fun mvcc here => ?_, ?_⟩ ?_
  · obtain rfl := Option.some.inj here
    decide +kernel
  · decide +kernel
  · decide +kernel

theorem own_versions_read_created :
    created.readInTxn 1 (.node 1) = .ok ⟨1, "A", .empty, .heads {}⟩ := by
  obtain ⟨past, history⟩ := created_reached
  have newest : (created.chain (.node 1)).newestOfTxn 1 =
      some ⟨1, none, some (.live ⟨1, "A", .empty, .heads {}⟩), .insert, none⟩ := by
    decide +kernel
  exact own_versions_read (stocked_fresh true _) history (by decide +kernel) newest

theorem registry_sound_created : ∃ mvcc, created.mvcc = some mvcc ∧ mvcc.Sound := by
  obtain ⟨past, history⟩ := created_reached
  exact registry_sound (stocked_fresh true _) history

theorem quiet_vacuum_oneCommitted :
    Emptied oneCommitted (oneCommitted.after (.vacuumOnce [.node 1])) := by
  obtain ⟨past, history⟩ := oneCommitted_run
  refine quiet_vacuum (stocked_fresh true _) history (fun mvcc here => ?_)
    oneCommitted_drainOrder oneCommitted_settles
  obtain rfl := Option.some.inj here
  decide +kernel

end Graph

end ErmyaGraph
