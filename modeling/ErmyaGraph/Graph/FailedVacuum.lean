import ErmyaGraph.Graph.TxnRuns
import ErmyaGraph.Lib.Faults

/-! # A vacuum that fails midway

The table gives up every chain before the first page is written. A chain that is not written
after that is gone, and its page says what readers see. -/

namespace ErmyaGraph.Graph

open Outcome Store Runs List

variable {key : EntityKey} {count : Nat}

def drainedEntries (mvcc : Mvcc) (order : List EntityKey) :
    List (EntityKey × Option EntitySnapshot × Option EntitySnapshot) :=
  (order.filter mvcc.vacuumable).map fun key => (key, drainedEnds (mvcc.chain key))

def settleEntry (entry : EntityKey × Option EntitySnapshot × Option EntitySnapshot) :
    GraphM Unit := do
  materializeToPage entry.1 entry.2.1
  applyVacuumCategoryB entry.1 entry.2.1 entry.2.2

/-- A vacuum as far as its first chains. -/
def vacuumFirst (mvcc : Mvcc) (order : List EntityKey) (count : Nat) : GraphM Unit := do
  modifyMvcc fun mvcc =>
    { mvcc with
      chain := fun key => if key ∈ order ∧ mvcc.vacuumable key then [] else mvcc.chain key }
  ((drainedEntries mvcc order).take count).forM settleEntry

/-- A vacuum that fails at the page write of the chain after the given number of chains. Nothing
of that write has reached a slot. -/
def failedVacuum (order : List EntityKey) (count : Nat) (fault : Error) : GraphM Nat := do
  let mvcc ← getMvcc
  vacuumFirst mvcc order count
  throw fault

theorem vacuumOnce_eq (order : List EntityKey) : vacuumOnce order = (do
    let mvcc ← getMvcc
    vacuumFirst mvcc order (drainedEntries mvcc order).length
    return (drainedEntries mvcc order).length) := by
  unfold vacuumOnce vacuumFirst
  simp only [take_length, bind_assoc]
  rfl

/-- Two reads that find versions a reader takes for the same, or find none. -/
def SameRead (left right : Except Error Record) : Prop :=
  left.toOption.map Record.observed = right.toOption.map Record.observed

/-- What a reader finds on the page of an entity, whatever its chain says. -/
def pageRead (graph : Graph) (key : EntityKey) : Except Error Record :=
  if graph.exists? key then graph.store.readRecord key else .error key.notFound

/-- No committed version is lost, and a later vacuum leads where one without the fault would
have led. -/
structure Undamaged (graph after : Graph) (order : List EntityKey) : Prop where
  visible : ∀ key record, graph.read key = .ok record → SameRead (after.read key) (.ok record)
  later : ∀ order', DrainOrder after order' → succeeds (discard (vacuumOnce order')) after →
    ∀ key, SameRead ((after.after (.vacuumOnce order')).read key)
      ((graph.after (.vacuumOnce order)).read key)

section Faults

variable {graph : Graph} {view : View} {order : List EntityKey}

def drainedKeys (mvcc : Mvcc) (order : List EntityKey) : List EntityKey :=
  order.filter mvcc.vacuumable

def vacuumedFirst (view : View) (order : List EntityKey) (count : Nat) : View :=
  settledView { view with mvcc := view.mvcc.drain order }
    ((drainedKeys view.mvcc order).take count) view.newestNew view.oldestPrior

theorem mem_drainedKeys : key ∈ drainedKeys view.mvcc order ↔ view.mvcc.drains order key := by
  simp [drainedKeys, Mvcc.drains]

theorem sat_vacuumFirst (count : Nat) (shows_ : graph.Shows view) (tidy : view.Tidy)
    (distinct : order.Nodup) :
    Sat (vacuumFirst view.mvcc order count) graph
      (fun _ after => after.Shows (vacuumedFirst view order count)) (fun _ _ => True) := by
  unfold vacuumFirst
  have clears : (fun mvcc : Mvcc => { mvcc with
      chain := fun key =>
        if key ∈ order ∧ mvcc.vacuumable key then [] else mvcc.chain key }) =
      fun mvcc => mvcc.drain order := by
    funext mvcc
    simp [Mvcc.drain, Mvcc.drains]
  rw [sat_bind, clears, sat_modifyMvcc]
  have cleared := shows_.modifyMvcc fun mvcc => mvcc.drain order
  have drained {key : EntityKey} (mem : key ∈ (drainedKeys view.mvcc order).take count) :
      view.mvcc.drains order key := mem_drainedKeys.mp (mem_of_mem_take mem)
  have written {key : EntityKey} (mem : key ∈ (drainedKeys view.mvcc order).take count) :
      view.chain key ≠ [] := by
    obtain ⟨newest, older, chain, _⟩ := tidy.registry.drained (drained mem)
    simp [View.chain, chain]
  have entries : (drainedEntries view.mvcc order).take count =
      ((drainedKeys view.mvcc order).take count).map fun key =>
        (key, (view.newestNew key, view.oldestPrior key)) := by
    rw [drainedEntries, ← map_take]
    rfl
  rw [entries]
  refine sat_drainAll view.newestNew view.oldestPrior _
    ((distinct.filter _).sublist (take_sublist _ _)) cleared
    (fun key mem => ?_) (fun key mem => ?_) (fun key mem record live => ?_)
    (fun key mem record live => ?_)
  · exact tidy.positive key (written mem)
  · intro erased
    exact written mem (tidy.erased key erased)
  · obtain ⟨delta, here, new⟩ := Option.bind_eq_some_iff.mp live
    exact (tidy.fits key delta (mem_of_mem_head? here)).named record new
  · obtain ⟨delta, here, prior⟩ := Option.bind_eq_some_iff.mp live
    exact (tidy.fits key delta (mem_of_getLast? here)).prior record prior

def leftKeys (mvcc : Mvcc) (order : List EntityKey) (count : Nat) : List EntityKey :=
  (drainedKeys mvcc order).drop count

theorem vacuumedFirst_eq (settled : key ∉ leftKeys view.mvcc order count) :
    (vacuumedFirst view order count).contents key = ((Move.vacuum order).apply view).contents key ∧
      (vacuumedFirst view order count).present key =
        ((Move.vacuum order).apply view).present key := by
  have mem : key ∈ (drainedKeys view.mvcc order).take count ↔
      view.mvcc.drains order key := by
    rw [← mem_drainedKeys]
    refine ⟨mem_of_mem_take, fun taken => ?_⟩
    rw [← take_append_drop count (drainedKeys view.mvcc order)] at taken
    exact (mem_append.mp taken).resolve_right settled
  simp only [vacuumedFirst, settledView, mem, Move.apply]
  exact ⟨trivial, trivial⟩

theorem sameRead_found {left right : Option Record} :
    SameRead (found key left) (found key right) ↔
      left.map Record.observed = right.map Record.observed := by
  cases left <;> cases right <;> rfl

theorem read_of_unchained (empty : graph.chain key = []) : graph.read key = graph.pageRead key := by
  unfold Graph.read pageRead
  split
  · rfl
  · next versioned =>
    have enabled : graph.mvcc.isNone = false := by
      rw [Bool.not_eq_true, Bool.or_eq_false_iff] at versioned
      exact versioned.2
    unfold Graph.resolveVisible Graph.committedBase
    rw [empty]
    by_cases here : graph.exists? key
    · cases read : graph.store.readRecord key with
      | ok record => simp [enabled, here, DeltaChain.applyForRead, bind, Except.bind, pure,
          Except.pure]
      | error e => simp [enabled, here, bind, Except.bind]
    · simp [enabled, here, DeltaChain.applyForRead, bind, Except.bind]
      rfl

theorem read_settled {after whole : Graph} (shown : after.Shows (vacuumedFirst view order count))
    (shown' : whole.Shows ((Move.vacuum order).apply view))
    (coherent : ((Move.vacuum order).apply view).Coherent)
    (settled : key ∉ leftKeys view.mvcc order count) : after.read key = whole.read key := by
  obtain ⟨contents, present⟩ := vacuumedFirst_eq settled
  have readable := coherent.readable key
  have readable' : (vacuumedFirst view order count).Readable key := by
    refine ⟨fun here => readable.positive (present ▸ here), fun here empty => ?_, readable.pinned⟩
    rw [contents]
    exact readable.live (present ▸ here) empty
  rw [shown.read_of_readable readable', shown'.read_of_readable readable]
  have bases : (vacuumedFirst view order count).base key =
      ((Move.vacuum order).apply view).base key := by
    unfold View.base
    rw [contents, present]
  unfold View.version
  rw [bases]
  rfl

theorem read_left {after : Graph} (shows_ : graph.Shows view) (tidy : view.Tidy)
    (distinct : order.Nodup) (shown : after.Shows (vacuumedFirst view order count))
    (left : key ∈ leftKeys view.mvcc order count) :
    SameRead (after.read key) (graph.pageRead key) := by
  have taken : view.mvcc.drains order key := mem_drainedKeys.mp (mem_of_mem_drop left)
  have apart : key ∉ (drainedKeys view.mvcc order).take count := fun mem =>
    disjoint_take_drop (distinct.filter _) le_rfl mem left
  have empty : after.chain key = [] := by
    rw [shown.chain]
    change (if view.mvcc.drains order key then [] else view.mvcc.chain key) = []
    rw [if_pos taken]
  have pos : 0 < key.id := by
    obtain ⟨newest, older, chain, _⟩ := tidy.registry.drained taken
    exact tidy.positive key (by simp [View.chain, chain])
  have contents : (vacuumedFirst view order count).contents key = view.contents key := if_neg apart
  have present : (vacuumedFirst view order count).present key = view.present key := if_neg apart
  rw [read_of_unchained empty]
  unfold pageRead
  rw [shown.present, shows_.present, present]
  split
  · have before := shows_.readRecord pos
    have now := shown.readRecord pos
    rw [contents] at now
    cases held : view.contents key with
    | live record =>
      rw [held] at before now
      rw [before, now]
      rfl
    | blank | erased =>
      rw [held] at before now
      obtain ⟨e, failed⟩ := before
      obtain ⟨e', failed'⟩ := now
      rw [failed, failed']
      rfl
  · rfl

theorem read_vacuumed {whole : Graph} (shows_ : graph.Shows view) (coherent : view.Coherent)
    (valid : (Move.vacuum order).Valid view) (shown : whole.Shows ((Move.vacuum order).apply view))
    (key : EntityKey) : SameRead (whole.read key) (graph.read key) := by
  rw [shown.read (coherent.apply valid), shows_.read coherent, sameRead_found]
  exact (coherent.steady valid trivial).current key

theorem vacuumOnce_idle {mvcc : Mvcc} (versioned : graph.mvcc = some mvcc)
    (idle : ∀ key, mvcc.vacuumable key = false) (order : List EntityKey) :
    Sat (discard (vacuumOnce order)) graph (fun _ after => after = graph) (fun _ _ => False) := by
  have none_ : order.filter mvcc.vacuumable = [] :=
    filter_eq_nil_iff.mpr fun key _ => by rw [idle key]; exact Bool.false_ne_true
  have same : (fun key => if key ∈ order ∧ mvcc.vacuumable key then [] else mvcc.chain key) =
      mvcc.chain := by
    funext key
    rw [if_neg fun both => by rw [idle key] at both; exact Bool.false_ne_true both.2]
  rw [sat_discard]
  unfold vacuumOnce getMvcc
  rw [sat_bind, sat_bind, sat_get, versioned]
  change Sat (do
    modifyMvcc _
    ((order.filter mvcc.vacuumable).map _).forM _
    return _) graph _ _
  rw [none_, sat_bind, sat_modifyMvcc, versioned, Option.map_some, same, ← versioned]
  rfl

theorem drained_idle (exhaustive : DrainOrder graph order) (shows_ : graph.Shows view)
    (key : EntityKey) : (view.mvcc.drain order).vacuumable key = false := by
  rw [Bool.eq_false_iff]
  intro ripe
  have chains : (view.mvcc.drain order).chain key =
      if view.mvcc.drains order key then [] else view.mvcc.chain key := rfl
  unfold Mvcc.vacuumable at ripe
  rw [chains] at ripe
  split at ripe
  · cases ripe
  · next kept =>
    have mem := exhaustive.complete view.mvcc shows_.mvcc key ripe
    exact kept (by rw [Mvcc.drains, decide_eq_true mem]; exact ripe)

theorem succeeds_vacuumFirst (shows_ : graph.Shows view) (count : Nat)
    (whole : succeeds (discard (vacuumOnce order)) graph) :
    succeeds (vacuumFirst view.mvcc order count) graph := by
  have ran : Sat (discard (vacuumOnce order)) graph (fun _ _ => True) (fun _ _ => False) :=
    succeeds_iff_sat.mp whole
  rw [sat_discard, vacuumOnce_eq, sat_bind] at ran
  obtain ⟨_, _, read, rfl, rfl⟩ := (sat_getMvcc shows_).exists_run
  have ran := ran.of_ok read
  rw [sat_bind] at ran
  refine succeeds_iff_sat.mpr ?_
  unfold vacuumFirst at ran ⊢
  rw [sat_bind, sat_modifyMvcc] at ran ⊢
  rw [take_length, ← take_append_drop count (drainedEntries view.mvcc order),
    forM_eq_forM, forM_append, sat_bind] at ran
  exact ran.mono (fun _ _ _ => trivial) fun _ _ => id

/-- A vacuum that fails loses nothing exactly if the chains that it took and did not write say
what their pages say. -/
theorem recovers_iff (shows_ : graph.Shows view) (coherent : view.Coherent)
    (exhaustive : DrainOrder graph order) (settles : Settles graph (.vacuumOnce order))
    (count : Nat) :
    Undamaged graph (final (vacuumFirst view.mvcc order count) graph) order ↔
      ∀ key ∈ leftKeys view.mvcc order count,
        SameRead (graph.pageRead key) (graph.read key) := by
  obtain ⟨whole, removes⟩ := settles
  have valid : (Move.vacuum order).Valid view := by
    intro key drained present deleted
    rw [← shows_.present] at present
    exact removes view.mvcc shows_.mvcc key drained present deleted
  have tidy := coherent.tidy
  have shown : (final (vacuumFirst view.mvcc order count) graph).Shows
      (vacuumedFirst view order count) :=
    (sat_vacuumFirst count shows_ tidy exhaustive.nodup).final_of_succeeds
      (succeeds_vacuumFirst shows_ count whole)
  generalize final (vacuumFirst view.mvcc order count) graph = after at shown ⊢
  have shown' : (graph.after (.vacuumOnce order)).Shows ((Move.vacuum order).apply view) :=
    Sat.final_of_succeeds
      (sat_discard.mpr (sat_vacuumOnce_shows shows_ tidy exhaustive.nodup)) whole
  have idle (order' : List EntityKey) :=
    vacuumOnce_idle shown.mvcc (drained_idle exhaustive shows_) order'
  have again (order' : List EntityKey) : after.after (.vacuumOnce order') = after :=
    ((idle order').mono (fun _ _ => id) fun _ _ => False.elim).final
  have vacuumed := read_vacuumed shows_ coherent valid shown'
  constructor
  · intro undamaged key left
    have ordered : DrainOrder after [] := by
      refine ⟨nodup_nil, fun mvcc here key ripe => ?_⟩
      rw [shown.mvcc] at here
      obtain rfl := Option.some.inj here
      exact absurd ripe (Bool.eq_false_iff.mp (drained_idle exhaustive shows_ key))
    have ran : succeeds (discard (vacuumOnce [])) after :=
      succeeds_iff_sat.mpr ((idle []).mono (fun _ _ _ => trivial) fun _ _ => id)
    have later := undamaged.later [] ordered ran key
    rw [again] at later
    exact (read_left shows_ tidy exhaustive.nodup shown left).symm.trans
      (later.trans (vacuumed key))
  · intro settled
    have all (key : EntityKey) : SameRead (after.read key) (graph.read key) := by
      by_cases left : key ∈ leftKeys view.mvcc order count
      · exact (read_left shows_ tidy exhaustive.nodup shown left).trans (settled key left)
      · rw [read_settled shown shown' (coherent.apply valid) left]
        exact vacuumed key
    refine ⟨fun key record visible => ?_, fun order' _ _ key => ?_⟩
    · have same := all key
      rwa [visible] at same
    · rw [again]
      exact (all key).trans (vacuumed key).symm

theorem sat_failedVacuum (shows_ : graph.Shows view) (count : Nat) (fault : Error)
    (whole : succeeds (discard (vacuumOnce order)) graph) :
    Sat (failedVacuum order count fault) graph (fun _ _ => False)
      (fun _ after => after = final (vacuumFirst view.mvcc order count) graph) := by
  have first := succeeds_vacuumFirst shows_ count whole
  unfold failedVacuum
  rw [sat_bind]
  refine (sat_getMvcc shows_).mono ?_ fun _ _ => id
  rintro mvcc g ⟨rfl, rfl⟩
  rw [sat_bind, Sat, run_of_succeeds first]
  rfl

end Faults

def creatingOne : List Op := [.beginTxn, .addNodeInTxn 1 "A" .empty, .commitTxn 1]

def oneCommitted : Graph := (Graph.fresh true fun _ _ => false).enabled.afterAll creatingOne

def oneLost : Graph :=
  final (failedVacuum [.node 1] 0 (.corruptPage "nodes.db" 0 "write failed")) oneCommitted

theorem oneCommitted_run : ∃ past, Run (fun _ graph op => TxnCall graph op ∧ Settles graph op)
    Graph.after (Graph.fresh true fun _ _ => false).enabled past oneCommitted := by
  have allows : Allows (fun _ graph op => TxnCall graph op ∧ Settles graph op) Graph.after
      [(Graph.fresh true fun _ _ => false).enabled] (Graph.fresh true fun _ _ => false).enabled
      creatingOne := by
    simp only [creatingOne, Allows]
    refine ⟨⟨trivial, trivial⟩, ⟨trivial, trivial⟩, ⟨trivial, ?_, ?_⟩, trivial⟩
    · intro mvcc here
      obtain rfl := Option.some.inj here
      decide +kernel
    · decide +kernel
  exact Run.start.append allows

def oneCommittedMvcc : Mvcc := oneCommitted.mvcc.getD {}

theorem oneCommitted_mvcc : oneCommitted.mvcc = some oneCommittedMvcc := by
  have versioned : oneCommitted.mvcc.isSome := by decide +kernel
  obtain ⟨mvcc, here⟩ := Option.isSome_iff_exists.mp versioned
  rw [oneCommittedMvcc, here]
  rfl

theorem oneCommitted_drainOrder : DrainOrder oneCommitted [.node 1] := by
  refine ⟨nodup_singleton _, fun mvcc here key ripe => ?_⟩
  obtain ⟨past, run⟩ := oneCommitted_run
  obtain ⟨view, shows_, coherent⟩ := (stocked_fresh true _).sound.run run
  obtain rfl : mvcc = view.mvcc := Option.some.inj (here.symm.trans shows_.mvcc)
  have chained : view.chain key ≠ [] := by
    intro empty
    simp [Mvcc.vacuumable, show view.mvcc.chain key = [] from empty] at ripe
  obtain ⟨pos, below⟩ := coherent.allotted_of_chain chained
  have nodes : oneCommitted.store.info.nextId .node = 2 := by decide +kernel
  have edges : oneCommitted.store.info.nextId .edge = 1 := by decide +kernel
  rw [← shows_.nextId] at below
  obtain ⟨kind, id⟩ := key
  cases kind with
  | node =>
    obtain rfl : id = 1 := by
      change 0 < id at pos
      change id < oneCommitted.store.info.nextId .node at below
      omega
    exact mem_singleton_self _
  | edge =>
    change 0 < id at pos
    change id < oneCommitted.store.info.nextId .edge at below
    omega

theorem oneCommitted_settles : Settles oneCommitted (.vacuumOnce [.node 1]) := by
  refine ⟨by decide +kernel, fun mvcc here key drained _ deleted => ?_⟩
  obtain rfl : mvcc = oneCommittedMvcc := Option.some.inj (here.symm.trans oneCommitted_mvcc)
  have only : key ∈ [EntityKey.node 1] := by
    rw [Mvcc.drains, Bool.and_eq_true, decide_eq_true_eq] at drained
    exact drained.1
  obtain rfl := mem_singleton.mp only
  have live : (drainedEnds (oneCommittedMvcc.chain (.node 1))).1 ≠ some .deleted := by
    decide +kernel
  exact absurd deleted live

theorem oneLost_fails :
    (failedVacuum [.node 1] 0 (.corruptPage "nodes.db" 0 "write failed")).run oneCommitted =
      .error (.corruptPage "nodes.db" 0 "write failed") oneLost := by
  have failed : answer (failedVacuum [.node 1] 0 (.corruptPage "nodes.db" 0 "write failed"))
      oneCommitted = .error (.corruptPage "nodes.db" 0 "write failed") := by decide +kernel
  exact run_of_answer failed

end ErmyaGraph.Graph
