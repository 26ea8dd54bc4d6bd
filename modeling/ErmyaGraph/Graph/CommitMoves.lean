import ErmyaGraph.Graph.Simulation

/-! # Commits as moves

A commit journals the newest version of every key, stamps the deltas and lets
the derived structures follow. Seen from the records it is one move, and the
links of the edges it inserts are another. -/

namespace ErmyaGraph

open Outcome Store List DeltaChain

namespace Mvcc

variable {chain : DeltaChain} {f : Delta → Delta}

theorem newestOfTxn_map (txn : Nat) (same : ∀ delta, (f delta).txn = delta.txn) :
    newestOfTxn (chain.map f) txn = (chain.newestOfTxn txn).map f := by
  simp [newestOfTxn, List.find?_map, Function.comp_def, same]

theorem oldestOfTxn_map (txn : Nat) (same : ∀ delta, (f delta).txn = delta.txn) :
    oldestOfTxn (chain.map f) txn = (chain.oldestOfTxn txn).map f := by
  simp [oldestOfTxn, ← map_reverse, List.find?_map, Function.comp_def, same]

theorem Sound.inserts_stamp {mvcc : Mvcc} (sound : mvcc.Sound) {txn : Nat} {state : TxnState}
    (active : mvcc.active txn = some state) (key : EntityKey) :
    (mvcc.stamp txn).inserts txn key = mvcc.inserts txn key := by
  unfold inserts
  rw [sound.stamp_chain active, stampTxn_eq_map,
    newestOfTxn_map txn (stampOne_txn txn mvcc.clock),
    oldestOfTxn_map txn (stampOne_txn txn mvcc.clock)]
  cases (mvcc.chain key).oldestOfTxn txn with
  | none => rfl
  | some oldest =>
    cases (mvcc.chain key).newestOfTxn txn with
    | none => simp
    | some newest => simp

/-- The nodes at which a commit of the transaction links edges: the ends of those it inserts. -/
def linkTargets (mvcc : Mvcc) (txn : Nat) (id : Nat) : Prop :=
  ∃ edge delta record, (EntityKey.edge edge, delta) ∈ mvcc.committed txn ∧
    mvcc.inserts txn (.edge edge) ∧ delta.new = some (.live record) ∧
    (id = record.source ∨ id = record.target)

end Mvcc

namespace Graph

variable {graph : Graph} {view : View} {txn : Nat}

/-- No redo record of the commit rewrites in place what a live slot still reads. Each record is
judged in the state in which it is written. -/
def redoKeeps (txn : Nat) : List (EntityKey × Delta) → Graph → Bool
  | [], _ => true
  | entry :: rest, graph =>
    (match entry.2.new with
      | some (.live record) =>
        !graph.store.walEnabled || !graph.store.rewritesInPlace entry.1 record
      | _ => true) &&
    (!succeeds (walLogCommittedDelta entry.1 entry.2.new txn) graph ||
      redoKeeps txn rest (final (walLogCommittedDelta entry.1 entry.2.new txn) graph))

theorem sat_walLogCommittedDelta {key : EntityKey} {new : Option EntitySnapshot} (txn : Nat)
    (shows_ : graph.Shows view) (names : ∀ record, new = some (.live record) → record.id = key.id)
    (keeps : ∀ record, new = some (.live record) → graph.store.walEnabled →
      graph.store.rewritesInPlace key record = false) :
    Sat (walLogCommittedDelta key new txn) graph (fun _ after => after.Shows view)
      (fun _ after => after.Shows view) := by
  unfold walLogCommittedDelta
  rw [sat_bind, sat_get, sat_ite]
  refine ⟨fun enabled => ?_, fun _ => shows_⟩
  have tombstone := shows_.sat (sameView_walAppend (.tombstone key (some txn)))
  cases new with
  | none => exact tombstone
  | some snapshot =>
    cases snapshot with
    | deleted => exact tombstone
    | live record =>
      have same : (⟨key.kind, record.id⟩ : EntityKey) = key := by
        rw [names record rfl]
      have apart : graph.store.rewritesInPlace ⟨key.kind, record.id⟩ record = false := by
        rw [same]
        exact keeps record rfl enabled
      exact shows_.onStore_kept (keeps_walLogRedo key.kind record txn)
        (sat_walLogRedo key.kind record txn shows_.store apart)

variable (entries : List (EntityKey × Delta))

theorem sat_redoRecords (shows_ : graph.Shows view)
    (names : ∀ entry ∈ entries, ∀ record, entry.2.new = some (.live record) →
      record.id = entry.1.id) (keeps : redoKeeps txn entries graph) :
    Sat (entries.forM fun entry => walLogCommittedDelta entry.1 entry.2.new txn) graph
      (fun _ after => after.Shows view) (fun _ after => after.Shows view) := by
  induction entries generalizing graph with
  | nil => exact shows_
  | cons entry rest ih =>
    simp only [forM_eq_forM, forM_cons, sat_bind]
    simp only [redoKeeps, Bool.and_eq_true] at keeps
    have apart (record : Record) (live : entry.2.new = some (.live record))
        (enabled : graph.store.walEnabled) :
        graph.store.rewritesInPlace entry.1 record = false := by
      have here := keeps.1
      rw [live] at here
      simpa [enabled] using here
    have first := sat_walLogCommittedDelta txn shows_ (names entry (by simp)) apart
    rw [sat_iff] at first ⊢
    refine ⟨fun _ after ran => ?_, first.2⟩
    apply ih (first.1 _ after ran) fun other mem => names other (.tail _ mem)
    simpa [Outcome.succeeds, Outcome.final, ran] using keeps.2

/-- The view after some entities came into existence. -/
def withPresent (view : View) (more : EntityKey → Bool) : View :=
  { view with present := fun key => view.present key || more key }

theorem Shows.insertPresent {f : Indexes → Indexes} (key : EntityKey) (shows_ : graph.Shows view)
    (same : ∀ index, (f index).present = (index.insertPresent key).present) :
    Sat (modifyIndex f) graph
      (fun _ after => after.Shows (withPresent view fun other => other = key))
      (fun _ _ => False) := by
  refine ⟨shows_.store, fun other => ?_, shows_.pinned, shows_.mvcc, shows_.nextId, shows_.pending⟩
  have before := shows_.present other
  simp only [exists?] at before
  simp only [exists?, same, Indexes.insertPresent, withPresent]
  obtain ⟨kind, id⟩ := other
  by_cases sameKind : kind = key.kind
  · subst sameKind
    by_cases sameId : id = key.id
    · subst sameId
      simp
    · have ne : (⟨key.kind, id⟩ : EntityKey) ≠ key := fun equal => sameId (by rw [← equal])
      simp [← before, sameId, ne]
  · have ne : (⟨kind, id⟩ : EntityKey) ≠ key := fun equal => sameKind (by rw [← equal])
    simp [← before, Function.update_of_ne sameKind, ne]

theorem buried_withPresent {more : EntityKey → Bool} (buried : view.Buried)
    (written : ∀ key, more key → view.chain key ≠ []) : (withPresent view more).Buried := by
  intro key erased
  obtain ⟨empty, absent⟩ := buried key erased
  refine ⟨empty, ?_⟩
  cases added : more key with
  | true => exact absurd empty (written key added)
  | false => simp [withPresent, absent, added]

theorem sat_reconcileNodeInsert (record : Record) (shows_ : graph.Shows view) :
    Sat (reconcileNodeInsert record) graph
      (fun _ after => after.Shows (withPresent view fun key => key = .node record.id))
      (fun _ _ => False) := by
  unfold reconcileNodeInsert
  rw [sat_bind]
  apply Sat.mono (shows_.insertPresent (.node record.id) ?_)
  · exact fun _ after entered =>
      entered.congr ⟨⟨rfl, rfl, rfl, rfl, rfl, rfl, rfl, rfl⟩, rfl, rfl, rfl, rfl, rfl⟩
  · exact fun _ _ => id
  · exact fun _ => rfl

theorem sat_linkEnds {source target : Nat} (edge : Nat) (shows_ : graph.Shows view)
    (buried : view.Buried) (sourcePositive : 0 < source) (targetPositive : 0 < target) :
    Sat (do
        addEdgeToAdjacency source .outgoing edge
        addEdgeToAdjacency target .incoming edge) graph
      (fun _ after => LinkedAt view (fun id => id = source ∨ id = target) after)
      (fun _ after => LinkedAt view (fun id => id = source ∨ id = target) after) := by
  rw [sat_bind]
  apply (sat_addEdgeToAdjacency .outgoing edge shows_ buried sourcePositive).mono
  · rintro _ between ⟨contents, linked, shows₁⟩
    have buried₁ := linked.buried buried
    have first := linked.mono (fun id same => (.inl same : id = source ∨ id = target))
    have second {after : Graph}
        (done : LinkedAt { view with contents := contents } (· = target) after) :
        LinkedAt view (fun id => id = source ∨ id = target) after := by
      obtain ⟨contents', linked', shows₂⟩ := done
      exact ⟨contents', first.trans (linked'.mono fun id same => .inr same), shows₂⟩
    exact (sat_addEdgeToAdjacency .incoming edge shows₁ buried₁ targetPositive).mono
      (fun _ _ => second) (fun _ _ => second)
  · rintro _ after ⟨contents, linked, shown⟩
    exact ⟨contents, linked.mono fun id same => .inl same, shown⟩

theorem sat_reconcileEdgeInsert {record : Record} (shows_ : graph.Shows view)
    (buried : (withPresent view fun key => key = .edge record.id).Buried)
    (sourcePositive : 0 < record.source) (targetPositive : 0 < record.target) :
    Sat (reconcileEdgeInsert record) graph
      (fun _ after => LinkedAt (withPresent view fun key => key = .edge record.id)
        (fun id => id = record.source ∨ id = record.target) after)
      (fun _ after => LinkedAt (withPresent view fun key => key = .edge record.id)
        (fun id => id = record.source ∨ id = record.target) after) := by
  unfold reconcileEdgeInsert
  rw [sat_bind]
  apply Sat.mono (shows_.insertPresent (.edge record.id) ?_)
  · intro _ after entered
    apply entered.then (sameView_bumpCount .edge _)
    · exact fun _ failed shown => ⟨_, .refl _ _, shown⟩
    · exact fun _ counted shown => sat_linkEnds record.id shown buried sourcePositive targetPositive
  · exact fun _ _ => False.elim
  · exact fun _ => rfl

theorem sameView_reconcileNodeUpdateAddOnly (prior new : Record) :
    Keeps SameView (reconcileNodeUpdateAddOnly prior new) := by
  refine sameView_modifyIndex fun index => ?_
  dsimp only
  split <;> rfl

theorem sameView_reconcileEdgeUpdateAddOnly (prior new : Record) :
    Keeps SameView (reconcileEdgeUpdateAddOnly prior new) := by
  refine sameView_modifyIndex fun index => ?_
  split <;> rfl

theorem oldestOfTxn_of_newest {chain : DeltaChain} {newest : Delta}
    (found : chain.newestOfTxn txn = some newest) :
    ∃ oldest, chain.oldestOfTxn txn = some oldest := by
  obtain ⟨mem, own⟩ := mem_of_newestOfTxn found
  apply Option.isSome_iff_exists.mp
  rw [oldestOfTxn, List.find?_isSome]
  exact ⟨newest, mem_reverse.mpr mem, by simp [own]⟩

/-- The links one committed key makes: those of an edge that the transaction inserts. -/
def entryTargets (mvcc : Mvcc) (txn : Nat) (entry : EntityKey × Delta) (id : Nat) : Prop :=
  entry.1.kind = .edge ∧ mvcc.inserts txn entry.1 ∧ ∃ record,
    entry.2.new = some (.live record) ∧ (id = record.source ∨ id = record.target)

/-- An entry of a commit, as the chains record it. -/
structure Entry (view : View) (txn : Nat) (entry : EntityKey × Delta) : Prop where
  owner : entry.2.txn = txn
  fits : View.Fits entry.1 entry.2
  newest : ∃ delta, (view.chain entry.1).newestOfTxn txn = some delta ∧ delta.new = entry.2.new

variable {entry : EntityKey × Delta}

/-- One key of a commit: it comes into existence if the transaction inserted it. -/
theorem sat_reconcileCommittedDelta (shows_ : graph.Shows view) (buried : view.Buried)
    (isEntry : Entry view txn entry) :
    Sat (reconcileCommittedDelta entry.1 entry.2) graph
      (fun _ after => LinkedAt
        (withPresent view fun key => decide (key = entry.1) && view.mvcc.inserts txn key)
        (entryTargets view.mvcc txn entry) after)
      (fun _ _ => True) := by
  obtain ⟨key, delta⟩ := entry
  obtain ⟨owner, fits, newest, found, same⟩ := isEntry
  obtain ⟨oldest, oldestFound⟩ := oldestOfTxn_of_newest found
  dsimp only at owner fits found same oldestFound ⊢
  have inserts : view.mvcc.inserts txn key =
      (decide (oldest.op = .insert) && (delta.new.bind EntitySnapshot.record?).isSome) := by
    unfold View.chain at found oldestFound
    simp [Mvcc.inserts, found, oldestFound, same]
  have nonempty : view.chain key ≠ [] := by
    intro empty
    rw [empty] at found
    cases found
  -- Without an insertion the view is as before.
  have unchanged (none : view.mvcc.inserts txn key = false) {x : GraphM Unit}
      (keeps : Keeps SameView x) : Sat x graph (fun _ after => LinkedAt
        (withPresent view fun k => decide (k = key) && view.mvcc.inserts txn k)
        (entryTargets view.mvcc txn (key, delta)) after) (fun _ _ => True) := by
    have idle : (withPresent view fun k => decide (k = key) && view.mvcc.inserts txn k) = view := by
      have each : (fun k => view.present k || (decide (k = key) && view.mvcc.inserts txn k)) =
          view.present := by
        funext k
        by_cases here : k = key
        · subst here
          simp [none]
        · simp [here]
      simp only [withPresent, each]
    rw [idle]
    exact (shows_.sat keeps).loose (fun _ _ shown => ⟨_, .refl _ _, shown⟩)
  have present (isInsert : view.mvcc.inserts txn key = true) :
      (withPresent view fun k => decide (k = key) && view.mvcc.inserts txn k) =
        withPresent view fun k => k = key := by
    have each : (fun k => decide (k = key) && view.mvcc.inserts txn k) = fun k => decide (k = key) := by
      funext k
      by_cases here : k = key
      · subst here
        simp [isInsert]
      · simp [here]
    rw [each]
  unfold reconcileCommittedDelta
  rw [sat_bind, sat_get, shows_.chain, owner, oldestFound]
  simp only [Option.map_some, Option.getD_some, Option.bind_some]
  obtain ⟨kind, id⟩ := key
  cases new : delta.new with
  | none =>
    have idle : view.mvcc.inserts txn ⟨kind, id⟩ = false := by simp [inserts, new]
    cases kind <;> cases oldest.op <;> exact unchanged idle (keeps_pure _)
  | some snapshot =>
    cases snapshot with
    | deleted =>
      have idle : view.mvcc.inserts txn ⟨kind, id⟩ = false := by
        simp [inserts, new, EntitySnapshot.record?]
      cases kind <;> cases oldest.op <;> exact unchanged idle (keeps_pure _)
    | live record =>
      obtain ⟨sameId, linked⟩ := fits.named record new
      dsimp only at sameId linked
      cases first : oldest.op with
      | insert =>
        have isInsert : view.mvcc.inserts txn ⟨kind, id⟩ = true := by
          simp [inserts, new, first, EntitySnapshot.record?]
        rw [present isInsert]
        subst sameId
        cases kind with
        | node =>
          apply (sat_reconcileNodeInsert record shows_).mono
          · exact fun _ after shown => ⟨_, .refl _ _, shown⟩
          · exact fun _ _ _ => trivial
        | edge =>
          have buried' : (withPresent view fun k => k = .edge record.id).Buried := by
            refine buried_withPresent buried fun key isKey => ?_
            rw [of_decide_eq_true isKey]
            exact nonempty
          have pos : 0 < record.source ∧ 0 < record.target := by
            unfold Record.source Record.target
            cases link : record.link with
            | heads ptr =>
              rw [link] at linked
              exact linked.elim
            | ends source target =>
              rw [link] at linked
              exact linked
          apply (sat_reconcileEdgeInsert shows_ buried' pos.1 pos.2).mono
          · rintro _ after ⟨contents, links, shown⟩
            refine ⟨contents, links.mono fun id isEnd => ?_, shown⟩
            exact ⟨rfl, isInsert, record, new, isEnd⟩
          · exact fun _ _ _ => trivial
      | update =>
        have idle : view.mvcc.inserts txn ⟨kind, id⟩ = false := by simp [inserts, first]
        cases kind with
        | node =>
          dsimp only
          split
          · exact unchanged idle (sameView_reconcileNodeUpdateAddOnly _ _)
          · exact unchanged idle (keeps_pure _)
        | edge =>
          dsimp only
          split
          · exact unchanged idle (sameView_reconcileEdgeUpdateAddOnly _ _)
          · exact unchanged idle (keeps_pure _)
      | delete =>
        have idle : view.mvcc.inserts txn ⟨kind, id⟩ = false := by simp [inserts, first]
        cases kind <;> exact unchanged idle (keeps_pure _)

theorem sat_reconcileAll (shows_ : graph.Shows view) (buried : view.Buried)
    (each : ∀ entry ∈ entries, Entry view txn entry) :
    Sat (entries.forM fun entry => reconcileCommittedDelta entry.1 entry.2) graph
      (fun _ after => LinkedAt
        (withPresent view fun key =>
          decide (key ∈ entries.map Prod.fst) && view.mvcc.inserts txn key)
        (fun id => ∃ entry ∈ entries, entryTargets view.mvcc txn entry id) after)
      (fun _ _ => True) := by
  induction entries generalizing graph view with
  | nil =>
    have idle : (withPresent view fun key =>
        decide (key ∈ ([] : List (EntityKey × Delta)).map Prod.fst) &&
          view.mvcc.inserts txn key) = view := by
      simp [withPresent]
    rw [idle]
    exact ⟨_, .refl _ _, shows_⟩
  | cons entry rest ih =>
    simp only [forM_eq_forM, forM_cons, sat_bind]
    have first := sat_reconcileCommittedDelta shows_ buried (each entry (by simp))
    refine first.relax (fun _ between done => ?_)
    obtain ⟨contents, linked, shows₁⟩ := done
    have written (key : EntityKey)
        (isKey : decide (key = entry.1) && view.mvcc.inserts txn key) : view.chain key ≠ [] := by
      simp only [Bool.and_eq_true, decide_eq_true_eq] at isKey
      obtain ⟨delta, found, _⟩ := (each entry (by simp)).newest
      rintro empty
      rw [← isKey.1, empty] at found
      cases found
    have later := ih shows₁ (linked.buried (buried_withPresent buried written)) fun other mem =>
      have same := each other (.tail _ mem)
      ⟨same.owner, same.fits, same.newest⟩
    refine later.relax (fun _ after done => ?_)
    obtain ⟨contents', linked', shows₂⟩ := done
    -- The two changes of the existence sets add up.
    have sum : (withPresent view fun key =>
        decide (key ∈ (entry :: rest).map Prod.fst) && view.mvcc.inserts txn key) =
        withPresent (withPresent view fun key =>
          decide (key = entry.1) && view.mvcc.inserts txn key) fun key =>
            decide (key ∈ rest.map Prod.fst) && view.mvcc.inserts txn key := by
      have same : (fun key => view.present key ||
          (decide (key ∈ (entry :: rest).map Prod.fst) && view.mvcc.inserts txn key)) =
          fun key => (view.present key || (decide (key = entry.1) && view.mvcc.inserts txn key)) ||
              (decide (key ∈ rest.map Prod.fst) && view.mvcc.inserts txn key) := by
        funext key
        by_cases here : key = entry.1
        · cases view.mvcc.inserts txn key <;> simp [here]
        · simp only [map_cons, mem_cons, here, false_or, decide_false, Bool.false_and,
            Bool.or_false]
      simp only [withPresent, same]
    rw [sum]
    refine ⟨contents', ?_, shows₂⟩
    apply View.Linked.trans (linked.mono fun id target => ⟨entry, by simp, target⟩)
    refine linked'.mono fun id found => ?_
    obtain ⟨other, mem, target⟩ := found
    exact ⟨other, .tail _ mem, target⟩

/-- Once its redo records and its marker are in the journal, the commit returns normally. -/
def commitEnds (graph : Graph) (txn : Nat) : Bool :=
  match graph.mvcc with
  | none => true
  | some mvcc =>
    !mvcc.isActive txn || succeeds (commitTxn txn) graph ||
      !succeeds (journalCommit txn (mvcc.committed txn))
        { graph with mvcc := some { mvcc with clock := mvcc.clock + 1 } }

/-- The moves of a commit that is made: the commit and its links. -/
def CommitPath (mvcc : Mvcc) (txn : Nat) (moves : List Move) : Prop :=
  ∃ contents, moves = [.commit txn, .link (mvcc.linkTargets txn) contents]

/-- The moves of a commit that is refused or fails: at most the clock advances. -/
def FailedCommitPath (moves : List Move) : Prop := moves = [] ∨ moves = [.tick]

variable {state : TxnState}

theorem entry_of_committed (coherent : view.Coherent) (active : view.mvcc.active txn = some state)
    (mem : entry ∈ view.mvcc.committed txn) :
    Entry { view with mvcc := view.mvcc.stamp txn } txn entry := by
  obtain ⟨key, delta⟩ := entry
  obtain ⟨_, found⟩ := Mvcc.mem_committed.mp mem
  obtain ⟨here, own⟩ := mem_of_newestOfTxn found
  refine ⟨own, coherent.fits key delta here, stampOne txn view.mvcc.clock delta, ?_, ?_⟩
  · simp only [View.chain]
    rw [coherent.registry.stamp_chain active, stampTxn_eq_map,
      Mvcc.newestOfTxn_map txn (stampOne_txn txn view.mvcc.clock), found]
    rfl
  · exact stampOne_new ..

theorem sat_applyCommit (coherent : view.Coherent) (active : view.mvcc.active txn = some state)
    (shows_ : graph.Shows (Move.tick.apply view)) :
    Sat (applyCommit txn view.mvcc.clock (view.mvcc.committed txn)) graph
      (fun _ after => MovedBy (CommitPath view.mvcc txn) view after) (fun _ _ => True) := by
  unfold applyCommit
  rw [sat_bind, sat_modifyMvcc, sat_bind]
  have stamped : Shows _ { view with mvcc := view.mvcc.stamp txn } := shows_.modifyMvcc fun mvcc =>
    mvcc.stampKeys txn view.mvcc.clock ((view.mvcc.committed txn).map Prod.fst)
  have buried : View.Buried { view with mvcc := view.mvcc.stamp txn } := by
    intro key erased
    obtain ⟨empty, absent⟩ := coherent.erased key erased
    refine ⟨?_, absent⟩
    simp only [View.chain] at empty ⊢
    rw [coherent.registry.stamp_chain active, empty]
    rfl
  have reconciled := sat_reconcileAll (view.mvcc.committed txn) stamped buried fun entry mem =>
    entry_of_committed coherent active mem
  refine reconciled.relax (fun _ between done => ?_)
  obtain ⟨contents, linked, shows₁⟩ := done
  rw [sat_modifyMvcc]
  have ended := shows₁.modifyMvcc fun mvcc => mvcc.endTxn txn
  -- Every key the transaction inserts is among those it commits.
  have present : (withPresent { view with mvcc := view.mvcc.stamp txn } fun key =>
      decide (key ∈ (view.mvcc.committed txn).map Prod.fst) &&
        (view.mvcc.stamp txn).inserts txn key).present =
      fun key => view.present key || view.mvcc.inserts txn key := by
    funext key
    simp only [withPresent, coherent.registry.inserts_stamp active]
    cases inserted : view.mvcc.inserts txn key with
    | false => simp
    | true =>
      simp only [Mvcc.inserts, Bool.and_eq_true] at inserted
      obtain ⟨newest, found, _⟩ := (Option.any_eq_true _ _).mp inserted.2
      obtain ⟨here, own⟩ := mem_of_newestOfTxn found
      have written : key ∈ view.mvcc.keysWrittenBy txn := by
        rw [Mvcc.keysWrittenBy_eq active]
        exact coherent.registry.written here (own ▸ active)
      have mem : key ∈ (view.mvcc.committed txn).map Prod.fst :=
        mem_map.mpr ⟨(key, newest), Mvcc.mem_committed.mpr ⟨written, found⟩, rfl⟩
      simp [mem]
  refine ⟨[.commit txn, .link (view.mvcc.linkTargets txn) contents], _,
    .cons ⟨state, active⟩ (.cons ?_ (.nil _)), ⟨contents, rfl⟩, ?_⟩
  rotate_left
  · simp only [Move.apply, ← present]
    exact ended
  refine View.Linked.mono linked fun id target => ?_
  obtain ⟨⟨key, delta⟩, mem, isEdge, inserted, record, new, isEnd⟩ := target
  obtain ⟨kind, edge⟩ := key
  cases isEdge
  refine ⟨edge, delta, record, mem, ?_, new, isEnd⟩
  rw [← coherent.registry.inserts_stamp active]
  exact inserted

theorem sat_commitTxn (txn : Nat) (shows_ : graph.Shows view) (coherent : view.Coherent)
    (keeps : redoKeeps txn (view.mvcc.committed txn)
      { graph with mvcc := some { view.mvcc with clock := view.mvcc.clock + 1 } })
    (ends : graph.commitEnds txn) :
    Sat (commitTxn txn) graph
      (fun _ after => MovedBy (CommitPath view.mvcc txn) view after)
      (fun _ after => MovedBy FailedCommitPath view after) := by
  have ticked : Shows { graph with mvcc := some { view.mvcc with clock := view.mvcc.clock + 1 } }
      (Move.tick.apply view) :=
    ⟨shows_.store, shows_.present, shows_.pinned, rfl, shows_.nextId, shows_.pending⟩
  have journalled : Sat (journalCommit txn (view.mvcc.committed txn))
      { graph with mvcc := some { view.mvcc with clock := view.mvcc.clock + 1 } }
      (fun _ after => after.Shows (Move.tick.apply view))
      (fun _ after => after.Shows (Move.tick.apply view)) := by
    unfold journalCommit
    rw [sat_bind]
    refine (sat_redoRecords _ ticked (fun entry mem record live => ?_) keeps).relax
      (fun _ redone shows₁ => ?_)
    · obtain ⟨_, found⟩ := Mvcc.mem_committed.mp (show (entry.1, entry.2) ∈ _ from mem)
      obtain ⟨here, _⟩ := mem_of_newestOfTxn found
      exact ((coherent.fits entry.1 entry.2 here).named record live).1
    · refine shows₁.then (sameView_walAppend _) (fun _ _ => id) fun _ marked shows₂ => ?_
      exact shows₂.sat sameView_walSync
  have enabled : graph.mvcc.map (fun mvcc => { mvcc with clock := mvcc.clock + 1 }) =
      some { view.mvcc with clock := view.mvcc.clock + 1 } := by
    simp [shows_.mvcc]
  by_cases returns : succeeds (commitTxn txn) graph
  · suffices committed : Sat (commitTxn txn) graph
        (fun _ after => MovedBy (CommitPath view.mvcc txn) view after) (fun _ _ => True) from
      committed.of_succeeds returns
    unfold commitTxn
    rw [sat_bind]
    refine (sat_requireActive shows_).loose ?_
    rintro _ g ⟨rfl, state, active⟩
    rw [sat_bind]
    refine (sat_getMvcc shows_).relax ?_
    rintro mvcc g ⟨rfl, rfl⟩
    rw [sat_bind, sat_modifyMvcc, enabled, sat_bind]
    refine journalled.loose (fun _ logged shows₁ => ?_)
    exact sat_applyCommit coherent active shows₁
  · unfold commitTxn
    rw [sat_bind]
    refine (sat_requireActive shows_).mono ?_ (fun _ _ same => ?_)
    rotate_left
    · exact ⟨[], view, .nil view, .inl rfl, same ▸ shows_⟩
    rintro _ g ⟨rfl, state, active⟩
    have failed : succeeds (journalCommit txn (view.mvcc.committed txn))
        { g with mvcc := some { view.mvcc with clock := view.mvcc.clock + 1 } } = false := by
      simpa [commitEnds, shows_.mvcc, Mvcc.isActive, active, returns] using ends
    rw [sat_bind]
    refine (sat_getMvcc shows_).relax ?_
    rintro mvcc g ⟨rfl, rfl⟩
    rw [sat_bind, sat_modifyMvcc, enabled, sat_bind]
    refine (journalled.of_fails failed).mono (fun _ _ => id) (fun _ after shown => ?_)
    exact ⟨[.tick], _, .cons trivial (.nil _), .inr rfl, shown⟩

end Graph

end ErmyaGraph
