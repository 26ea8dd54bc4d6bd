import ErmyaGraph.Graph.VacuumMoves

/-! # Auto-commit writes as moves -/

namespace ErmyaGraph

open Outcome Store List Function Move

namespace Move

/-- The moves an auto-commit write of the given entities is made of. -/
def Auto (keys : EntityKey → Prop) : Move → Prop
  | skipId _ => True
  | link _ _ => True
  | write key _ => keys key
  | pin key => keys key
  | erase key => keys key
  | _ => False

end Move

namespace View

variable {view : View}

theorem Path.coherent {after : View} {moves : List Move} (path : Path view moves after)
    (coherent : view.Coherent) : after.Coherent := by
  induction path with
  | nil => exact coherent
  | cons valid _ ih => exact ih (coherent.apply valid)

theorem Coherent.buried (coherent : view.Coherent) : view.Buried :=
  fun key erased => coherent.erased key erased

theorem Coherent.buried_update (coherent : view.Coherent) (key : EntityKey) (record : Record)
    (more : EntityKey → Bool) (only : ∀ other, more other → other = key) :
    (Graph.withPresent
      { view with contents := update view.contents key (.live record) } more).Buried := by
  intro other erased
  have ne : other ≠ key := by
    rintro rfl
    simp [Graph.withPresent] at erased
  simp only [Graph.withPresent, update_of_ne ne] at erased
  obtain ⟨empty, absent⟩ := coherent.erased other erased
  refine ⟨empty, ?_⟩
  cases added : more other with
  | true => exact absurd (only other added) ne
  | false => simp [Graph.withPresent, absent, added]

end View

namespace Graph

variable {graph : Graph} {view : View} {key : EntityKey} {id : Nat} {record : Record}

theorem sat_onWriteRecordSlot (shows_ : graph.Shows view) (names : record.Names key)
    (pos : 0 < key.id) (intact : view.contents key ≠ .erased) :
    Sat (onStore (writeRecordSlot key.kind record)) graph
      (fun _ after => after.Shows { view with contents := update view.contents key (.live record) })
      (fun _ after => after.Shows view) := by
  have same : (⟨key.kind, record.id⟩ : EntityKey) = key := by rw [names.1]
  have written := sat_writeRecordSlot key.kind record shows_.store (names.1 ▸ pos)
    (by rw [same]; exact intact)
  rw [same] at written
  have shaped : Sat (writeRecordSlot key.kind record) graph.store
      (fun _ store => ∃ contents,
        contents = update view.contents key (.live record) ∧ StoreIs store contents)
      (fun _ store => ∃ contents, contents = view.contents ∧ StoreIs store contents) :=
    written.mono (fun _ _ holds => ⟨_, rfl, holds⟩) (fun _ _ holds => ⟨_, rfl, holds⟩)
  apply (shows_.onStore (keeps_writeRecordSlot key.kind record) shaped).mono
  · rintro _ after ⟨contents, rfl, shown⟩
    exact shown
  · rintro _ after ⟨contents, rfl, shown⟩
    exact shown

theorem sat_currentRecord (shows_ : graph.Shows view) (coherent : view.Coherent) :
    Sat (currentRecord key) graph
      (fun record after => after = graph ∧ view.present key ∧ view.contents key = .live record)
      (fun _ after => after = graph) := by
  unfold currentRecord
  rw [sat_bind, sat_get, sat_ite]
  refine ⟨fun present => ?_, fun _ => rfl⟩
  rw [shows_.present] at present
  rw [sat_ofResult]
  refine ⟨fun record read => ⟨rfl, present, ?_⟩, fun _ _ => rfl⟩
  have found := shows_.readRecord (coherent.allotted_of_present present).1
  cases held : view.contents key with
  | live other =>
    rw [held, read] at found
    cases found
    rfl
  | blank =>
    rw [held, read] at found
    obtain ⟨e, failed⟩ := found
    cases failed
  | erased =>
    rw [held, read] at found
    obtain ⟨e, failed⟩ := found
    cases failed

theorem withPresent_eq_write (view : View) (key : EntityKey) (record : Record) :
    withPresent { view with contents := update view.contents key (.live record) }
      (fun other => other = key) = (Move.write key record).apply view := by
  have same : (fun other => view.present other || decide (other = key)) =
      update view.present key true := by
    funext other
    by_cases here : other = key
    · subst here
      simp
    · simp [here]
  simp only [withPresent, apply, same]

variable (label : String)

theorem sat_addNode (props : Properties) (shows_ : graph.Shows view) (coherent : view.Coherent) :
    Sat (addNode label props) graph
      (fun _ after => Moved (Move.Auto (· = .node (view.nextId .node))) view after)
      (fun _ after => Moved (Move.Auto (· = .node (view.nextId .node))) view after) := by
  unfold addNode
  refine shows_.then sameView_checkQuota (fun _ _ => .none) fun _ g₁ shows₁ => ?_
  refine shows₁.then (sameView_chargeBatchOp _) (fun _ _ => .none) fun _ g₂ shows₂ => ?_
  refine shows₂.then (sameView_checkUnique _ _ _) (fun _ _ => .none) fun _ g₃ shows₃ => ?_
  rw [sat_bind]
  refine (sat_allocateId .node shows₃).sure ?_
  rintro id g₄ ⟨rfl, shows₄⟩
  have names : Record.Names ⟨view.nextId .node, label, props, .heads {}⟩
      (.node (view.nextId .node)) := ⟨rfl, trivial⟩
  obtain ⟨blank, absent, settled, _⟩ := coherent.fresh _ (untouched view .node)
  have allotted : ((Move.skipId .node).apply view).Allotted (.node (view.nextId .node)) :=
    ⟨coherent.nextId .node, by simp [apply]⟩
  have skipped {after : Graph}
      (later : Moved (Move.Auto (· = .node (view.nextId .node))) ((Move.skipId .node).apply view)
        after) : Moved (Move.Auto (· = .node (view.nextId .node))) view after :=
    .step (.skipId .node) trivial trivial later
  have intact : ((Move.skipId .node).apply view).contents (.node (view.nextId .node)) ≠ .erased := by
    rw [show ((Move.skipId .node).apply view).contents (.node (view.nextId .node)) = .blank from
      blank]
    simp
  rw [sat_bind]
  refine (sat_onWriteRecordSlot shows₄ names allotted.1 intact).mono (fun _ g₅ shows₅ => ?_)
    (fun _ _ shown => skipped (.none shown))
  rw [sat_bind]
  refine (sat_reconcileNodeInsert _ shows₅).sure (fun _ g₆ shows₆ => ?_)
  have written := withPresent_eq_write ((Move.skipId .node).apply view)
    (.node (view.nextId .node)) ⟨view.nextId .node, label, props, .heads {}⟩
  rw [written] at shows₆
  have valid : (Move.write (.node (view.nextId .node))
      ⟨view.nextId .node, label, props, .heads {}⟩).Valid ((Move.skipId .node).apply view) :=
    ⟨allotted, settled, names⟩
  have wrote {after : Graph}
      (later : Moved (Move.Auto (· = .node (view.nextId .node)))
        ((Move.write (.node (view.nextId .node)) ⟨view.nextId .node, label, props, .heads {}⟩).apply
          ((Move.skipId .node).apply view)) after) :
      Moved (Move.Auto (· = .node (view.nextId .node))) view after :=
    skipped (.step (.write _ _) rfl valid later)
  rw [sat_bind, sat_modify]
  split
  · -- The node is created under an append-only label and gets no versions.
    suffices pinned : Shows
        { g₆ with appendOnlyIds := insert (view.nextId .node) g₆.appendOnlyIds }
        ((Move.pin (.node (view.nextId .node))).apply _) from
      pinned.then sameView_walSync
        (fun _ _ shown => wrote (.one (.pin _) rfl ⟨allotted, settled⟩ shown))
        (fun _ _ shown => wrote (.one (.pin _) rfl ⟨allotted, settled⟩ shown))
    refine ⟨shows₆.store, shows₆.present, fun key => ?_, shows₆.mvcc, shows₆.nextId, shows₆.pending⟩
    have before := shows₆.pinned key
    simp only [skipsVersions, Finset.mem_insert] at before ⊢
    by_cases same : key = .node (view.nextId .node)
    · subst same
      simp [apply]
    · have other : ¬(key.kind = .node ∧ key.id = view.nextId .node) := by
        rintro ⟨sameKind, sameId⟩
        apply same
        obtain ⟨kind, id⟩ := key
        cases sameKind
        cases sameId
        rfl
      simp only [apply, update_of_ne same] at before ⊢
      rw [← before]
      by_cases isNode : key.kind = .node
      · have differs : key.id ≠ view.nextId .node := fun equal => other ⟨isNode, equal⟩
        simp [isNode, differs]
      · simp [isNode]
  · exact shows₆.then sameView_walSync (fun _ _ shown => wrote (.none shown))
      fun _ _ shown => wrote (.none shown)

theorem sameView_reconcileNodeUpdate (prior new : Record) :
    Keeps SameView (reconcileNodeUpdate prior new) := by
  refine sameView_modifyIndex fun index => ?_
  dsimp only
  split <;> rfl

theorem sameView_reconcileEdgeUpdate (prior new : Record) :
    Keeps SameView (reconcileEdgeUpdate prior new) := by
  refine sameView_modifyIndex fun index => ?_
  split <;> rfl

/-- The record is on the page of an entity that existed. -/
def Rewritten (view : View) (key : EntityKey) (record : Record) (after : Graph) : Prop :=
  view.present key ∧ after.Shows ((Move.write key record).apply view)

theorem sat_rewrite {current : Record} (shows_ : graph.Shows view) (coherent : view.Coherent)
    (present : view.present key) (live : view.contents key = .live current)
    (names : record.Names key) :
    Sat (do
        onStore (writeRecordSlot key.kind record)
        walSync) graph
      (fun _ after => Rewritten view key record after)
      (fun _ after => after.Shows view ∨ Rewritten view key record after) := by
  have allotted := coherent.allotted_of_present present
  have intact : view.contents key ≠ .erased := by simp [live]
  have written : (Move.write key record).apply view =
      { view with contents := update view.contents key (.live record) } := by
    simp only [apply, ← present, update_eq_self]
  rw [sat_bind]
  refine (sat_onWriteRecordSlot shows_ names allotted.1 intact).mono (fun _ g₁ shows₁ => ?_)
    (fun _ _ => .inl)
  rw [← written] at shows₁
  exact (shows₁.sat sameView_walSync).mono (fun _ _ shown => ⟨present, shown⟩)
    (fun _ _ shown => .inr ⟨present, shown⟩)

theorem sat_updateNode {node : Node} (shows_ : graph.Shows view) (coherent : view.Coherent)
    (own : node.id = id) :
    Sat (updateNode id node) graph
      (fun _ after => Rewritten view (.node id) node.toRecord after)
      (fun _ after => after.Shows view ∨ Rewritten view (.node id) node.toRecord after) := by
  unfold updateNode
  refine shows_.then sameView_checkQuota (fun _ _ => .inl) fun _ g₁ shows₁ => ?_
  refine shows₁.then (sameView_chargeBatchOp _) (fun _ _ => .inl) fun _ g₂ shows₂ => ?_
  rw [sat_bind]
  refine (sat_currentRecord shows₂ coherent).mono ?_ (fun _ _ same => .inl (same ▸ shows₂))
  rintro current g ⟨rfl, present, live⟩
  refine shows₂.then (sameView_checkUnique _ _ _) (fun _ _ => .inl) fun _ g₃ shows₃ => ?_
  refine shows₃.then (sameView_reconcileNodeUpdate _ _) (fun _ _ => .inl) fun _ g₄ shows₄ => ?_
  have names : node.toRecord.Names (.node id) := ⟨own, trivial⟩
  have rewritten := sat_rewrite shows₄ coherent present live names
  exact rewritten

theorem sat_updateEdge {edge : Edge} (shows_ : graph.Shows view) (coherent : view.Coherent)
    (names : edge.toRecord.Names (.edge id)) :
    Sat (updateEdge id edge) graph
      (fun _ after => Rewritten view (.edge id) edge.toRecord after)
      (fun _ after => after.Shows view ∨ Rewritten view (.edge id) edge.toRecord after) := by
  unfold updateEdge
  refine shows_.then (sameView_chargeBatchOp _) (fun _ _ => .inl) fun _ g₁ shows₁ => ?_
  rw [sat_bind]
  refine (sat_currentRecord shows₁ coherent).mono ?_ (fun _ _ same => .inl (same ▸ shows₁))
  rintro current g ⟨rfl, present, live⟩
  refine shows₁.then (sameView_reconcileEdgeUpdate _ _) (fun _ _ => .inl) fun _ g₂ shows₂ => ?_
  have rewritten := sat_rewrite shows₂ coherent present live names
  exact rewritten

theorem sat_addEdge (source target : Nat) (props : Properties) (shows_ : graph.Shows view)
    (coherent : view.Coherent) :
    Sat (addEdge label source target props) graph
      (fun _ after => Moved (Move.Auto (· = .edge (view.nextId .edge))) view after)
      (fun _ after => Moved (Move.Auto (· = .edge (view.nextId .edge))) view after) := by
  unfold addEdge
  refine shows_.then sameView_checkQuota (fun _ _ => .none) fun _ g₁ shows₁ => ?_
  refine shows₁.then (sameView_chargeBatchOp _) (fun _ _ => .none) fun _ g₂ shows₂ => ?_
  rw [sat_bind, sat_get, sat_ite]
  refine ⟨fun _ => .none shows₂, fun hasSource => ?_⟩
  rw [sat_ite]
  refine ⟨fun _ => .none shows₂, fun hasTarget => ?_⟩
  simp only [shows₂.present, Bool.not_eq_eq_eq_not, Bool.not_true, Bool.not_eq_false]
    at hasSource hasTarget
  have sourcePositive : 0 < source := (coherent.allotted_of_present hasSource).1
  have targetPositive : 0 < target := (coherent.allotted_of_present hasTarget).1
  rw [sat_bind]
  refine (sat_allocateId .edge shows₂).sure ?_
  rintro id g₃ ⟨rfl, shows₃⟩
  have names : Record.Names ⟨view.nextId .edge, label, props, .ends source target⟩
      (.edge (view.nextId .edge)) := ⟨rfl, sourcePositive, targetPositive⟩
  obtain ⟨blank, absent, settled, _⟩ := coherent.fresh _ (untouched view .edge)
  have allotted : ((Move.skipId .edge).apply view).Allotted (.edge (view.nextId .edge)) :=
    ⟨coherent.nextId .edge, by simp [apply]⟩
  have skipped {after : Graph}
      (later : Moved (Move.Auto (· = .edge (view.nextId .edge))) ((Move.skipId .edge).apply view)
        after) : Moved (Move.Auto (· = .edge (view.nextId .edge))) view after :=
    .step (.skipId .edge) trivial trivial later
  have intact : ((Move.skipId .edge).apply view).contents (.edge (view.nextId .edge)) ≠ .erased := by
    rw [show ((Move.skipId .edge).apply view).contents (.edge (view.nextId .edge)) = .blank from
      blank]
    simp
  have valid : (Move.write (.edge (view.nextId .edge))
      ⟨view.nextId .edge, label, props, .ends source target⟩).Valid
      ((Move.skipId .edge).apply view) := ⟨allotted, settled, names⟩
  rw [sat_bind]
  refine (sat_onWriteRecordSlot shows₃ names allotted.1 intact).mono (fun _ g₄ shows₄ => ?_)
    (fun _ _ shown => skipped (.none shown))
  have buried := (coherent.skipId .edge).buried_update (.edge (view.nextId .edge))
    ⟨view.nextId .edge, label, props, .ends source target⟩
    (fun other => other = .edge (view.nextId .edge)) fun other isKey => of_decide_eq_true isKey
  have linked {after : Graph}
      (links : LinkedAt (withPresent { (Move.skipId .edge).apply view with
          contents := update ((Move.skipId .edge).apply view).contents
            (.edge (view.nextId .edge))
            (.live ⟨view.nextId .edge, label, props, .ends source target⟩) }
        fun other => other = .edge (view.nextId .edge))
        (fun id => id = source ∨ id = target) after) :
      Moved (Move.Auto (· = .edge (view.nextId .edge))) view after := by
    rw [withPresent_eq_write] at links
    obtain ⟨contents, links, shown⟩ := links
    exact skipped (.step (.write _ _) rfl valid (.one (.link _ contents) trivial links shown))
  rw [sat_bind]
  apply Sat.mono (sat_reconcileEdgeInsert shows₄ ?_ ?_ ?_)
  · rintro _ g₅ ⟨contents, links, shown⟩
    exact shown.then sameView_walSync (fun _ _ shown => linked ⟨contents, links, shown⟩)
      fun _ _ shown => linked ⟨contents, links, shown⟩
  · exact fun _ _ => linked
  · exact buried
  · exact sourcePositive
  · exact targetPositive

/-- What a failing removal leaves: nothing happened, or a live slot was erased. -/
def Eroded (view : View) (after : Graph) : Prop :=
  ∃ view', after.Shows view' ∧ (∀ key, view.contents key = .erased → view'.contents key = .erased) ∧
    (view' = view ∨ ∃ key record, 0 < key.id ∧ view.contents key = .live record ∧
      view'.contents key = .erased)

variable {after : Graph}

theorem Eroded.none (shows_ : after.Shows view) : Eroded view after :=
  ⟨view, shows_, fun _ => id, .inl rfl⟩

theorem Eroded.erase (pos : 0 < key.id) (live : view.contents key = .live record)
    (later : Eroded ((Move.erase key).apply view) after) : Eroded view after := by
  obtain ⟨view', shows_, kept, _⟩ := later
  have gone : ((Move.erase key).apply view).contents key = .erased := by
    simp [apply, live, Content.erase]
  refine ⟨view', shows_, fun other erased => kept other ?_, .inr ⟨key, record, pos, live,
    kept key gone⟩⟩
  by_cases same : other = key
  · exact same ▸ gone
  · simpa only [apply, update_of_ne same] using erased

theorem Eroded.shows (eroded : Eroded view after) (shows_ : graph.Shows view)
    (same : after.store.pages.slots = graph.store.pages.slots) : after.Shows view := by
  obtain ⟨view', shown, _, rfl | ⟨key, record, pos, live, gone⟩⟩ := eroded
  · exact shown
  · obtain ⟨blobs, represents⟩ := shows_.store
    obtain ⟨blobs', represents'⟩ := shown.store
    have before := represents.slots key pos
    have now := represents'.slots key pos
    rw [live] at before
    rw [gone] at now
    obtain ⟨slot, found, holds⟩ := before
    have found' : after.store.readSlot key = .ok slot := by
      rw [← found]
      simp only [readSlot, readSlotPage, same]
    exact absurd holds.flag (now slot found')

theorem sat_onTombstoneSlot (logWal : Bool) (shows_ : graph.Shows view) (pos : 0 < key.id)
    (intact : view.contents key ≠ .erased) :
    Sat (onStore (tombstoneSlot key logWal)) graph
      (fun _ after => after.Shows { view with
        contents := update view.contents key (view.contents key).erase })
      (fun _ _ => False) := by
  have shaped : Sat (tombstoneSlot key logWal) graph.store
      (fun _ store => ∃ contents, contents = update view.contents key (view.contents key).erase ∧
          StoreIs store contents)
      (fun _ store => ∃ contents, False ∧ StoreIs store contents) :=
    (sat_tombstoneSlot logWal shows_.store pos intact).sure
      (fun _ _ holds => ⟨_, rfl, holds⟩)
  apply (shows_.onStore (keeps_tombstoneSlot key logWal) shaped).mono
  · rintro _ after ⟨contents, rfl, shown⟩
    exact shown
  · rintro _ after ⟨_, impossible, _⟩
    exact impossible

theorem sat_removeEdgeInternal (shows_ : graph.Shows view) (coherent : view.Coherent)
    (present : view.present (.edge id)) (settled : view.chain (.edge id) = []) :
    Sat (removeEdgeInternal id) graph
      (fun _ after => after.Shows ((Move.erase (.edge id)).apply view))
      (fun _ after => Eroded view after) := by
  have pos := (coherent.allotted_of_present present).1
  obtain ⟨record, live⟩ := coherent.live_of_present present settled
  have read := shows_.readRecord pos
  rw [live] at read
  have intact : view.contents (.edge id) ≠ .erased := by simp [live]
  have own : record.id = id := (coherent.named _ record live).1
  unfold removeEdgeInternal
  rw [sat_bind, sat_get, sat_bind, read, sat_ofResult_ok, sat_bind]
  refine (sat_onTombstoneSlot true shows_ pos intact).sure (fun _ g₁ shows₁ => ?_)
  rw [sat_bind]
  apply (sat_reconcileEdgeDelete record shows₁).mono
  · intro _ after shown
    rw [own] at shown
    exact shown
  · intro _ after shown
    refine ⟨_, shown, fun key erased => ?_, .inr ⟨.edge id, record, pos, live, ?_⟩⟩
    · by_cases same : key = .edge id
      · rw [same, live] at erased
        cases erased
      · simpa only [update_of_ne same] using erased
    · simp [live, Content.erase]

theorem sat_removeEdge (shows_ : graph.Shows view) (coherent : view.Coherent)
    (settled : view.chain (.edge id) = []) :
    Sat (removeEdge id) graph
      (fun _ after => Moved (Move.Auto (· = .edge id)) view after)
      (fun _ after => Eroded view after) := by
  unfold removeEdge
  refine shows_.then (sameView_chargeBatchOp _) (fun _ _ => .none) fun _ g₁ shows₁ => ?_
  rw [sat_bind, sat_get, sat_ite]
  refine ⟨fun _ => .none shows₁, fun present => ?_⟩
  simp only [shows₁.present, Bool.not_eq_eq_eq_not, Bool.not_true, Bool.not_eq_false] at present
  obtain ⟨record, live⟩ := coherent.live_of_present present settled
  rw [sat_bind]
  refine (sat_removeEdgeInternal shows₁ coherent present settled).mono (fun _ g₂ shows₂ => ?_)
    (fun _ _ eroded => eroded)
  refine shows₂.then sameView_walSync (fun _ _ shown => ?_) fun _ _ shown => ?_
  · exact .erase (coherent.allotted_of_present present).1 live (.none shown)
  · exact .one (.erase (.edge id)) rfl settled shown

/-- What erasing edges leaves of the nodes and the chains. -/
structure EdgesErased (view view' : View) : Prop where
  mvcc : view'.mvcc = view.mvcc
  contents : ∀ id, view'.contents (.node id) = view.contents (.node id)
  present : ∀ id, view'.present (.node id) = view.present (.node id)

/-- The loop over the edges of a node that is removed. -/
theorem sat_removeEdges {keys : EntityKey → Prop} (edges : List Nat) (shows_ : graph.Shows view)
    (coherent : view.Coherent) (named : ∀ id ∈ edges, keys (.edge id))
    (settled : ∀ id ∈ edges, view.present (.edge id) → view.chain (.edge id) = []) :
    Sat (edges.forM fun edge => do
        let graph ← get
        if graph.exists? (.edge edge) then
          discard (removeEdgeInternal edge)) graph
      (fun _ after => ∃ moves view', View.Path view moves view' ∧
        (∀ move ∈ moves, Move.Auto keys move) ∧ after.Shows view' ∧ EdgesErased view view' ∧
        ∀ outcome, Eroded view' outcome → Eroded view outcome)
      (fun _ after => Eroded view after) := by
  induction edges generalizing graph view with
  | nil =>
    exact ⟨[], view, .nil view, by simp, shows_, ⟨rfl, fun _ => rfl, fun _ => rfl⟩, fun _ => id⟩
  | cons edge rest ih =>
    simp only [forM_eq_forM, forM_cons, sat_bind, sat_get]
    have later := fun id mem => named id (mem_cons_of_mem edge mem)
    rw [shows_.present]
    by_cases present : view.present (.edge edge)
    · have empty := settled edge (by simp) present
      obtain ⟨record, live⟩ := coherent.live_of_present present empty
      have valid : (Move.erase (.edge edge)).Valid view := empty
      simp only [present, ↓reduceIte, sat_discard]
      refine (sat_removeEdgeInternal shows_ coherent present empty).relax (fun _ g shows₁ => ?_)
      have eroded {outcome : Graph} (broken : Eroded ((Move.erase (.edge edge)).apply view) outcome) :
          Eroded view outcome :=
        .erase (coherent.allotted_of_present present).1 live broken
      refine (ih shows₁ (coherent.apply valid) later fun id mem present' => ?_).mono
        (fun _ after done => ?_) (fun _ _ => eroded)
      · by_cases same : id = edge
        · rw [same]
          exact empty
        · have ne : (EntityKey.edge id) ≠ .edge edge := fun equal => same (by cases equal; rfl)
          simp only [apply, update_of_ne ne] at present'
          exact settled id (mem_cons_of_mem edge mem) present'
      · obtain ⟨moves, view', path, allowed, shown, erased, back⟩ := done
        refine ⟨.erase (.edge edge) :: moves, view', .cons valid path, fun move mem => ?_, shown,
          ?_, fun outcome broken => eroded (back outcome broken)⟩
        · rcases mem_cons.mp mem with rfl | old
          · exact named edge (by simp)
          · exact allowed move old
        · have other (id : Nat) : EntityKey.node id ≠ .edge edge := by
            simp [EntityKey.node, EntityKey.edge]
          refine ⟨erased.mvcc, fun id => ?_, fun id => ?_⟩
          · rw [erased.contents]
            simp only [apply, update_of_ne (other id)]
          · rw [erased.present]
            simp only [apply, update_of_ne (other id)]
    · simp only [present, Bool.false_eq_true, ↓reduceIte, sat_pure]
      exact ih shows_ coherent later fun id mem => settled id (mem_cons_of_mem edge mem)

/-- The heads under which a node's edges are looked up. -/
def currentHeads (graph : Graph) (node : Nat) : AdjacencyPointer :=
  match graph.adj.cache node with
  | some ptr => ptr
  | none =>
    match graph.store.readSlot (.node node) with
    | .ok slot => if slot.flag = .live then slot.link.pointer else {}
    | .error _ => {}

theorem sat_resolveAdjPointer (graph : Graph) (node : Nat) :
    Sat (resolveAdjPointer node) graph
      (fun ptr after => ptr.getD {} = graph.currentHeads node ∧ after.store = graph.store)
      (fun _ _ => False) := by
  have shown (ptr : AdjacencyPointer) :
      (if ptr.isAbsent then none else some ptr : Option AdjacencyPointer).getD {} = ptr := by
    by_cases absent : ptr.isAbsent
    · simp only [absent, ↓reduceIte, Option.getD_none]
      obtain ⟨out, inc⟩ := ptr
      simp_all [AdjacencyPointer.isAbsent]
    · simp [absent]
  unfold resolveAdjPointer currentHeads
  rw [sat_bind, sat_get]
  cases graph.adj.cache node with
  | some ptr => exact ⟨shown ptr, rfl⟩
  | none => exact ⟨shown _, rfl⟩

/-- The edges that removing a node looks at. -/
def incidentEdges (graph : Graph) (node : Nat) : List Nat :=
  match graph.listedEdgeIds node .outgoing (graph.currentHeads node),
    graph.listedEdgeIds node .incoming (graph.currentHeads node) with
  | .ok out, .ok inc => ((out ++ inc).mergeSort (· ≤ ·)).dedup
  | _, _ => []

theorem sat_incidentEdgeIds (graph : Graph) (node : Nat) :
    Sat (incidentEdgeIds node) graph
      (fun ids after => ids = graph.incidentEdges node ∧ SameView graph after)
      (fun _ after => SameView graph after) := by
  have sameView := keeps_incidentEdgeIds node graph
  suffices listed : Sat (incidentEdgeIds node) graph
      (fun ids _ => ids = graph.incidentEdges node) (fun _ _ => True) from
    (listed.and sameView).mono (fun _ _ both => ⟨both.1, both.2.sameView⟩)
      (fun _ _ both => both.2.sameView)
  unfold incidentEdgeIds
  rw [sat_bind]
  refine (sat_resolveAdjPointer graph node).sure (fun ptr g resolved => ?_)
  obtain ⟨heads, store⟩ := resolved
  unfold incidentEdges listedEdgeIds
  rw [← heads]
  cases ptr with
  | none => simp [AdjacencyPointer.head]
  | some ptr =>
    rw [sat_bind, sat_get, sat_bind, sat_ofResult]
    refine ⟨fun out outgoing => ?_, fun _ _ => trivial⟩
    rw [sat_bind, sat_ofResult]
    refine ⟨fun inc incoming => ?_, fun _ _ => trivial⟩
    simp only [store] at outgoing incoming
    simp only [Option.getD_some, outgoing, incoming]
    rfl

theorem sat_removeNode (shows_ : graph.Shows view) (coherent : view.Coherent)
    (settled : view.chain (.node id) = [])
    (edgesSettled : ∀ edge ∈ graph.incidentEdges id, view.present (.edge edge) →
      view.chain (.edge edge) = []) :
    Sat (removeNode id) graph
      (fun _ after => Moved (Move.Auto fun key => key = .node id ∨
        ∃ edge ∈ graph.incidentEdges id, key = .edge edge) view after)
      (fun _ after => Eroded view after) := by
  have charged : Sat (chargeBatchOp removedApproxSize) graph
      (fun _ after => ∃ ops bytes,
        after = { graph with batchOpCount := ops, batchByteCount := bytes })
      (fun _ after => after = graph) := by
    unfold chargeBatchOp
    rw [sat_bind, sat_get]
    split
    · exact ⟨_, _, rfl⟩
    · dsimp only
      split
      · exact rfl
      · exact rfl
      · exact ⟨_, _, rfl⟩
  unfold removeNode
  rw [sat_bind]
  refine charged.mono ?_ (fun _ _ same => .none (same ▸ shows_))
  rintro _ g₁ ⟨ops, bytes, rfl⟩
  have shows₁ : Shows { graph with batchOpCount := ops, batchByteCount := bytes } view :=
    shows_.congr ⟨refl_of SameData graph.store, rfl, rfl, rfl, rfl, rfl⟩
  rw [sat_bind]
  refine (sat_currentRecord shows₁ coherent).mono ?_ (fun _ _ same => .none (same ▸ shows₁))
  rintro record g ⟨rfl, present, live⟩
  have own : record.id = id := (coherent.named _ record live).1
  have pos := (coherent.allotted_of_present present).1
  rw [sat_bind]
  refine (sat_incidentEdgeIds _ id).mono ?_ (fun _ _ same => .none (shows₁.congr same))
  rintro ids g₂ ⟨rfl, same⟩
  rw [sat_bind]
  let keys : EntityKey → Prop := fun key =>
    key = .node id ∨ ∃ edge ∈ graph.incidentEdges id, key = .edge edge
  have named : ∀ edge ∈ graph.incidentEdges id, keys (.edge edge) := fun edge mem =>
    .inr ⟨edge, mem, rfl⟩
  have removed := sat_removeEdges (graph.incidentEdges id) (shows₁.congr same) coherent named
    edgesSettled
  refine removed.mono ?_ (fun _ _ eroded => eroded)
  rintro _ g₃ ⟨moves, view', path, allowed, shows₃, erased, back⟩
  have live' : view'.contents (.node id) = .live record := (erased.contents id).trans live
  have settled' : view'.chain (.node id) = [] := by
    unfold View.chain
    rw [erased.mvcc]
    exact settled
  have intact : view'.contents (.node id) ≠ .erased := by simp [live']
  rw [sat_bind]
  refine (sat_onTombstoneSlot true shows₃ pos intact).sure (fun _ g₄ shows₄ => ?_)
  rw [sat_bind]
  refine (sat_reconcileNodeDelete record shows₄).sure (fun _ g₅ shows₅ => ?_)
  rw [own] at shows₅
  have erasedNode : Shows g₅ ((Move.erase (.node id)).apply view') := shows₅
  refine erasedNode.then sameView_walSync (fun _ _ shown => ?_) fun _ _ shown => ?_
  · exact back _ (.erase pos live' (.none shown))
  · have last : View.Path view' [.erase (.node id)] ((Move.erase (.node id)).apply view') :=
      .cons settled' (.nil _)
    refine ⟨moves ++ [.erase (.node id)], _, path.append last, ?_, shown⟩
    intro move mem
    rcases mem_append.mp mem with old | new
    · exact allowed move old
    · rw [mem_singleton.mp new]
      exact .inl rfl

theorem sat_flushPendingEntry {latest : List (Nat × AdjacencyPointer)}
    {entry : (Nat × AdjDirection) × List Nat} (shows_ : graph.Shows view) (pos : 0 < entry.1.1)
    (earlier : ∀ other ∈ latest, 0 < other.1) :
    Sat (flushPendingEntry latest entry) graph
      (fun latest after => after.Shows view ∧ ∀ other ∈ latest, 0 < other.1)
      (fun _ after => after.Shows view) := by
  have shown := shows_.sat ((keeps_flushPendingEntry latest entry).mono
    fun _ _ => LinksOnly.sameView)
  suffices nodes : Sat (flushPendingEntry latest entry) graph
      (fun latest _ => ∀ other ∈ latest, 0 < other.1) (fun _ _ => True) from
    (shown.and nodes).mono (fun _ _ both => both) (fun _ _ both => both.1)
  unfold flushPendingEntry
  dsimp only
  rw [sat_bind, sat_iff]
  refine ⟨fun ptr g₁ _ => ?_, fun _ _ _ => trivial⟩
  rw [sat_bind, sat_iff]
  refine ⟨fun updated g₂ _ => ?_, fun _ _ _ => trivial⟩
  rw [sat_pure]
  intro other mem
  split at mem
  · obtain ⟨old, here, rfl⟩ := mem_map.mp mem
    split
    · exact pos
    · exact earlier old here
  · rcases mem_append.mp mem with old | new
    · exact earlier other old
    · rw [mem_singleton.mp new]
      exact pos

theorem sat_flushAdjPending (shows_ : graph.Shows view) (coherent : view.Coherent) :
    Sat flushAdjPending graph (fun _ after => LinkedAt view (fun _ => True) after)
      (fun _ after => LinkedAt view (fun _ => True) after) := by
  have unchanged {after : Graph} (same : after.Shows view) :
      LinkedAt view (fun _ => True) after := ⟨view.contents, .refl view _, same⟩
  unfold flushAdjPending modifyAdj
  rw [sat_bind, sat_get, sat_bind, sat_modify, sat_bind]
  have emptied : Shows { graph with adj := { graph.adj with pending := [] } } view :=
    ⟨shows_.store, shows_.present, shows_.pinned, shows_.mvcc, shows_.nextId, nofun⟩
  let resolved : List (Nat × AdjacencyPointer) → Graph → Prop := fun latest after =>
    after.Shows view ∧ ∀ other ∈ latest, 0 < other.1
  have start : resolved [] { graph with adj := { graph.adj with pending := [] } } :=
    ⟨emptied, fun _ impossible => nomatch impossible⟩
  have flushed : Sat (graph.adj.pending.foldlM flushPendingEntry [])
      { graph with adj := { graph.adj with pending := [] } } resolved
      (fun _ after => after.Shows view) := by
    refine sat_foldlM_of_invariant resolved start fun entry mem latest g held => ?_
    have pos := shows_.pending entry.1 (mem_map.mpr ⟨entry, mem, rfl⟩)
    exact sat_flushPendingEntry held.1 pos held.2
  refine flushed.mono (fun latest g₁ held => ?_) (fun _ _ => unchanged)
  refine sat_forM_of_invariant (LinkedAt view fun _ => True) (unchanged held.1) ?_
  rintro entry mem g ⟨contents, linked, shown⟩
  have buried := linked.buried coherent.buried
  have further {after : Graph}
      (more : LinkedAt { view with contents := contents } (· = entry.1) after) :
      LinkedAt view (fun _ => True) after := by
    obtain ⟨contents', linked', shown'⟩ := more
    exact ⟨contents', linked.trans (linked'.mono fun _ _ => trivial), shown'⟩
  exact (sat_persistAdjPointerToSlot entry.2 shown buried (held.2 entry mem)).mono
    (fun _ _ => further) (fun _ _ => further)

theorem sameView_flush : Keeps SameView flush :=
  keeps_modify fun _ => ⟨⟨rfl, rfl, rfl, rfl, rfl, rfl, rfl, rfl⟩, rfl, rfl, rfl, rfl, rfl⟩

theorem moved_endBatch (checkpointDue : Bool) (shows_ : graph.Shows view)
    (coherent : view.Coherent) :
    Sat (endBatch checkpointDue) graph
      (fun _ after => Moved (Move.Auto fun _ => False) view after)
      (fun _ after => Moved (Move.Auto fun _ => False) view after) := by
  have linked {after : Graph} (links : LinkedAt view (fun _ => True) after) :
      Moved (Move.Auto fun _ => False) view after := by
    obtain ⟨contents, valid, shown⟩ := links
    exact .one (.link _ contents) trivial valid shown
  have more {after later : Graph} (same : SameView after later)
      (links : LinkedAt view (fun _ => True) after) : LinkedAt view (fun _ => True) later := by
    obtain ⟨contents, valid, shown⟩ := links
    exact ⟨contents, valid, shown.congr same⟩
  unfold endBatch
  rw [sat_bind, sat_get, sat_ite]
  refine ⟨fun _ => .none shows_, fun _ => ?_⟩
  rw [sat_bind, sat_set]
  have closed (depth : Nat) : Shows { graph with batchDepth := depth } view :=
    shows_.congr ⟨refl_of SameData graph.store, rfl, rfl, rfl, rfl, rfl⟩
  rw [sat_ite]
  refine ⟨fun _ => ?_, fun _ => .none (closed _)⟩
  rw [sat_bind, sat_modify, sat_bind]
  have reset : Shows { graph with
      batchDepth := graph.batchDepth - 1, batchOpCount := 0, batchByteCount := 0 } view :=
    shows_.congr ⟨refl_of SameData graph.store, rfl, rfl, rfl, rfl, rfl⟩
  refine (sat_flushAdjPending reset coherent).mono (fun _ g₁ links => ?_) (fun _ _ => linked)
  rw [sat_bind]
  refine (sameView_walSync g₁).mono (fun _ g₂ same => ?_) (fun _ _ same => linked (more same links))
  cases checkpointDue with
  | false => exact linked (more same links)
  | true =>
    refine (sameView_flush g₂).mono (fun _ _ same' => ?_) (fun _ _ same' => ?_)
    · exact linked (more same' (more same links))
    · exact linked (more same' (more same links))

end Graph

end ErmyaGraph
