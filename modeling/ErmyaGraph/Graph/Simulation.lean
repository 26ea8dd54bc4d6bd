import ErmyaGraph.Graph.Linking

/-! # Operations as moves

Every operation, whichever way it ends, takes the view along a path of moves. -/

namespace ErmyaGraph

open Outcome Store

namespace Move

/-- The moves a transaction's write is made of. -/
def For (txn : Nat) (keys : EntityKey → Prop) : Move → Prop
  | skipId _ => True
  | note owner _ => owner = txn
  | push key delta => delta.txn = txn ∧ keys key
  | forget owner => owner = txn
  | _ => False

theorem Pushes.note {view : View} {key : EntityKey} {delta : Delta} {txn : Nat}
    {f : TxnState → TxnState} (pushes : Pushes view key delta)
    (valid : (Move.note txn f).Valid view) : Pushes ((Move.note txn f).apply view) key delta := by
  obtain ⟨⟨state, active, ready⟩, pending, fits, free, prior, removes⟩ := pushes
  refine ⟨?_, pending, fits, free, prior, removes⟩
  by_cases same : delta.txn = txn
  · refine ⟨f state, ?_, ?_⟩
    · simp [Move.apply, Mvcc.modifyTxn, ← same, active]
    · rw [(valid state).1]
      exact ready
  · refine ⟨state, ?_, ready⟩
    simpa only [Move.apply, Mvcc.modifyTxn, Function.update_of_ne same] using active

end Move

namespace Graph

variable {txn : Nat} {key : EntityKey}

/-- The graph shows what some permitted path of moves leads to. -/
def MovedBy (permits : List Move → Prop) (view : View) (after : Graph) : Prop :=
  ∃ moves view', View.Path view moves view' ∧ permits moves ∧ after.Shows view'

/-- The graph shows what some path of permitted moves leads to. -/
def Moved (permits : Move → Prop) : View → Graph → Prop :=
  MovedBy fun moves => ∀ move ∈ moves, permits move

section Moved

variable {permits : Move → Prop} {view : View} {graph after : Graph}

theorem Moved.none (shows_ : after.Shows view) : Moved permits view after :=
  ⟨[], view, .nil view, nofun, shows_⟩

theorem Moved.step (move : Move) (permitted : permits move) (valid : move.Valid view)
    (later : Moved permits (move.apply view) after) : Moved permits view after := by
  obtain ⟨moves, view', path, allowed, shows_⟩ := later
  refine ⟨move :: moves, view', .cons valid path, fun other mem => ?_, shows_⟩
  rcases List.mem_cons.mp mem with rfl | rest
  · exact permitted
  · exact allowed other rest

theorem Moved.one (move : Move) (permitted : permits move) (valid : move.Valid view)
    (shows_ : after.Shows (move.apply view)) : Moved permits view after :=
  .step move permitted valid (.none shows_)

theorem Shows.then {α β : Type} {x : GraphM α} {f : α → GraphM β} {post : β → Graph → Prop}
    {fail : Error → Graph → Prop} (shows_ : graph.Shows view) (keeps : Keeps SameView x)
    (failed : ∀ e after, after.Shows view → fail e after)
    (rest : ∀ a after, after.Shows view → Sat (f a) after post fail) :
    Sat (x >>= f) graph post fail := by
  rw [sat_bind]
  exact (shows_.sat keeps).mono rest failed

theorem Shows.modifyMvcc (shows_ : graph.Shows view) (f : Mvcc → Mvcc) :
    Shows { graph with mvcc := graph.mvcc.map f } { view with mvcc := f view.mvcc } where
  store := shows_.store
  present := shows_.present
  pinned := shows_.pinned
  mvcc := by simp [shows_.mvcc]
  nextId := shows_.nextId
  pending := shows_.pending

end Moved

variable {graph : Graph} {fail : Error → Graph → Prop}

@[simp]
theorem sat_modifyMvcc {f : Mvcc → Mvcc} {post : Unit → Graph → Prop} :
    Sat (modifyMvcc f) graph post fail ↔ post () { graph with mvcc := graph.mvcc.map f } := Iff.rfl

variable {view : View}

section

variable (shows_ : graph.Shows view)
include shows_

theorem sat_getMvcc :
    Sat getMvcc graph (fun mvcc after => mvcc = view.mvcc ∧ after = graph) fail := by
  unfold getMvcc
  rw [sat_bind, sat_get, shows_.mvcc]
  exact ⟨rfl, rfl⟩

theorem sat_requireActive : Sat (requireActive txn) graph
      (fun _ after => after = graph ∧ ∃ state, view.mvcc.active txn = some state)
      (fun _ after => after = graph) := by
  unfold requireActive
  rw [sat_bind, sat_get, sat_ite]
  refine ⟨fun _ => rfl, fun active => ⟨rfl, ?_⟩⟩
  simp only [shows_.isActive, Bool.not_eq_eq_eq_not, Bool.not_true, Bool.not_eq_false] at active
  exact Option.isSome_iff_exists.mp active

theorem sat_beginTxn : Sat beginTxn graph
      (fun txn after => txn = view.mvcc.nextTxnId ∧ after.Shows (Move.begin.apply view))
      (fun _ _ => False) := by
  unfold beginTxn
  rw [sat_bind]
  apply (sat_getMvcc shows_).mono
  · rintro mvcc after ⟨rfl, rfl⟩
    have begun := shows_.modifyMvcc Mvcc.begin
    rw [sat_bind]
    refine ⟨rfl, begun.congr ?_⟩
    exact ⟨⟨rfl, rfl, rfl, rfl, rfl, rfl, rfl, rfl⟩, rfl, rfl, rfl, rfl, rfl⟩
  · exact fun _ _ => id

theorem sat_rollbackTxn {permits : Move → Prop} (permitted : permits (.forget txn)) :
    Sat (rollbackTxn txn) graph (fun _ after => Moved permits view after)
      (fun _ after => Moved permits view after) := by
  unfold rollbackTxn
  rw [sat_bind]
  apply (sat_requireActive shows_).mono
  · rintro _ after ⟨rfl, active⟩
    have forgotten := shows_.modifyMvcc fun mvcc => mvcc.forget txn
    have done {g : Graph} (shows' : g.Shows ((Move.forget txn).apply view)) :
        Moved permits view g := .one (.forget txn) permitted active shows'
    rw [sat_bind]
    refine Shows.then forgotten (sameView_walAppend _) (fun _ _ => done) fun _ after logged => ?_
    exact (logged.sat sameView_walSync).mono (fun _ _ => done) (fun _ _ => done)
  · rintro _ after rfl
    exact .none shows_

end

variable {state : TxnState}

theorem sat_chargeTxnMemory {bytes : Nat} {keys : EntityKey → Prop} (shows_ : graph.Shows view)
    (active : view.mvcc.active txn = some state) :
    Sat (chargeTxnMemory txn bytes) graph
      (fun _ after => ∃ f, (Move.note txn f).Valid view ∧
        after.Shows ((Move.note txn f).apply view))
      (fun _ after => Moved (Move.For txn keys) view after) := by
  unfold chargeTxnMemory
  rw [sat_bind]
  apply (sat_getMvcc shows_).mono
  · rintro mvcc after ⟨rfl, rfl⟩
    simp only [active, sat_bind, sat_modifyMvcc, sat_get]
    generalize noted : (fun current : TxnState =>
      { current with bytesUsed := state.bytesUsed + bytes }) = f
    have valid : (Move.note txn f).Valid view := by
      intro current
      rw [← noted]
      exact ⟨rfl, rfl⟩
    have charged : Shows _ ((Move.note txn f).apply view) :=
      shows_.modifyMvcc fun mvcc => mvcc.modifyTxn txn f
    split
    · rw [sat_bind]
      have permitted : Move.For txn keys (.forget txn) := rfl
      refine (sat_rollbackTxn charged permitted).mono (fun _ _ moved => ?_) (fun _ _ moved => ?_)
      · exact .step (.note txn f) rfl valid moved
      · exact .step (.note txn f) rfl valid moved
    · exact ⟨f, valid, charged⟩
  · exact fun _ _ => id

variable {new : EntitySnapshot}

theorem sat_recordDelta {prior : Option EntitySnapshot} {op : DeltaOp} (keys : EntityKey → Prop)
    (shows_ : graph.Shows view) (named : keys key)
    (pushes : Move.Pushes view key { txn := txn, prior := prior, new := some new, op := op }) :
    Sat (recordDelta txn key prior new op) graph
      (fun _ after => Moved (Move.For txn keys) view after)
      (fun _ after => Moved (Move.For txn keys) view after) := by
  obtain ⟨state, active, _⟩ := pushes.active
  unfold recordDelta
  rw [sat_bind]
  refine (sat_chargeTxnMemory shows_ active).relax (fun _ between charged => ?_)
  obtain ⟨f, valid, shows₁⟩ := charged
  let delta : Delta := { txn := txn, prior := prior, new := some new, op := op }
  -- The overlay and the chain change in one step of the code, in two moves here.
  let seed : TxnState → TxnState := fun current =>
    { current with overlay := seedOverlay key delta current.overlay }
  have seeded : (Move.note txn seed).Valid ((Move.note txn f).apply view) := fun _ => ⟨rfl, rfl⟩
  have shows₂ := shows₁.modifyMvcc fun mvcc =>
    (mvcc.modifyTxn txn seed).pushDelta key delta
  refine .step (.note txn f) rfl valid (.step (.note txn seed) rfl seeded ?_)
  refine .one (.push key delta) ⟨rfl, named⟩ ?_ shows₂
  exact (pushes.note valid).note seeded

theorem sat_allocateId (kind : EntityKind) (shows_ : graph.Shows view) :
    Sat (allocateId kind) graph
      (fun id after => id = view.nextId kind ∧ after.Shows ((Move.skipId kind).apply view))
      (fun _ _ => False) := by
  have next : graph.store.info.nextId kind = view.nextId kind := by rw [shows_.nextId]
  refine ⟨next, shows_.store.congr ⟨rfl, rfl, rfl, rfl, rfl, rfl, rfl, rfl⟩, shows_.present,
    shows_.pinned, shows_.mvcc, ?_, shows_.pending⟩
  change Function.update graph.store.info.nextId kind (graph.store.info.nextId kind + 1) = _
  rw [shows_.nextId]
  rfl

theorem untouched (view : View) (kind : EntityKind) :
    ¬view.Allotted ⟨kind, view.nextId kind⟩ := fun allotted => lt_irrefl _ allotted.2

variable {record : Record}

theorem pushes_insert {kind : EntityKind} (coherent : view.Coherent)
    (active : view.mvcc.active txn = some state) (names : record.Names ⟨kind, view.nextId kind⟩) :
    Move.Pushes ((Move.skipId kind).apply view) ⟨kind, view.nextId kind⟩
      { txn := txn, prior := none, new := some (.live record), op := .insert } := by
  obtain ⟨blank, absent, empty, free⟩ := coherent.fresh _ (untouched view kind)
  refine ⟨⟨state, active, .inl ⟨rfl, ?_, empty, blank, absent⟩⟩, rfl, ⟨⟨_, rfl⟩, ?_, nofun⟩, free,
    rfl, nofun⟩
  · refine ⟨coherent.nextId kind, ?_⟩
    simp [Move.apply]
  · rintro found same
    cases same
    exact names

theorem sat_addNodeInTxn (txn : Nat) (label : String) (props : Properties)
    (shows_ : graph.Shows view) (coherent : view.Coherent) :
    Sat (addNodeInTxn txn label props) graph
      (fun _ after => Moved (Move.For txn (· = .node (view.nextId .node))) view after)
      (fun _ after => Moved (Move.For txn (· = .node (view.nextId .node))) view after) := by
  unfold addNodeInTxn
  refine shows_.then sameView_checkQuota (fun _ _ => .none) fun _ g shows₁ => ?_
  rw [sat_bind]
  refine (sat_requireActive shows₁).mono ?_ (fun _ _ same => .none (same ▸ shows₁))
  rintro _ g ⟨rfl, state, active⟩
  rw [sat_bind, sat_get, sat_ite]
  refine ⟨fun _ => .none shows₁, fun _ => ?_⟩
  rw [sat_bind]
  refine (sat_allocateId .node shows₁).sure ?_
  rintro id g ⟨rfl, shows₂⟩
  rw [sat_bind]
  have pushes := pushes_insert coherent active
    (show Record.Names ⟨view.nextId .node, label, props, .heads {}⟩ (.node _) from ⟨rfl, trivial⟩)
  have recorded := sat_recordDelta (· = .node (view.nextId .node)) shows₂ rfl pushes
  exact recorded.mono (fun _ _ moved => .step (.skipId .node) trivial trivial moved)
    (fun _ _ moved => .step (.skipId .node) trivial trivial moved)

theorem sat_rejectIfAppendOnly (shows_ : graph.Shows view) :
    Sat (rejectIfAppendOnly key) graph
      (fun _ after => after = graph ∧ view.pinned key = false) (fun _ after => after = graph) := by
  unfold rejectIfAppendOnly
  rw [sat_bind, sat_get, sat_ite]
  refine ⟨fun _ => ?_, fun free => ⟨rfl, ?_⟩⟩
  · split
    · rfl
    · rfl
  · rw [← shows_.pinned]
    simpa using free

theorem names_of_chainBase (coherent : view.Coherent)
    (found : view.chainBase txn key = some (.live record)) : record.Names key := by
  unfold View.chainBase at found
  split at found
  · next own here =>
      exact (coherent.fits key own (List.mem_of_find?_eq_some here)).named record found
  · unfold View.base at found
    split at found
    · split at found
      · next held =>
          cases found
          exact coherent.named key record held
      · cases found
    · cases found

theorem sat_replaceInTxn (txn : Nat) {op : DeltaOp} (shows_ : graph.Shows view)
    (coherent : view.Coherent) (replaces : op ≠ .insert) (removes : op = .delete → new = .deleted)
    (names : ∀ record, new = .live record → record.Names key) :
    Sat (replaceInTxn txn key new op) graph
      (fun _ after => Moved (Move.For txn (· = key)) view after)
      (fun _ after => Moved (Move.For txn (· = key)) view after) := by
  unfold replaceInTxn
  rw [sat_bind]
  refine (sat_requireActive shows_).mono ?_ (fun _ _ same => .none (same ▸ shows_))
  rintro _ g ⟨rfl, state, active⟩
  rw [sat_bind]
  refine (sat_rejectIfAppendOnly shows_).mono ?_ (fun _ _ same => .none (same ▸ shows_))
  rintro _ g ⟨rfl, free⟩
  rw [sat_bind, sat_get, sat_bind, sat_ofResult, shows_.readInTxn coherent active]
  refine ⟨fun current visible => ?_, fun _ _ => .none shows_⟩
  have seen : ∃ record, view.version key state.startTs (some txn) = some record := by
    cases shown : view.version key state.startTs (some txn) with
    | some record => exact ⟨record, rfl⟩
    | none =>
      rw [shown] at visible
      cases visible
  rw [shows_.chainBase coherent]
  apply sat_recordDelta (· = key) shows_ rfl
  refine ⟨⟨state, active, .inr ⟨replaces, seen⟩⟩, rfl, ⟨⟨new, rfl⟩, ?_, ?_⟩, free, ?_,
    fun deletes => congrArg some (removes deletes)⟩
  · intro record same
    cases same
    exact names record rfl
  · intro record same
    exact names_of_chainBase coherent same
  · rw [if_neg replaces]

theorem sat_requireNodeInTxn {node : Nat} (shows_ : graph.Shows view) (coherent : view.Coherent)
    (active : view.mvcc.active txn = some state) :
    Sat (requireNodeInTxn txn node) graph
      (fun _ after => after = graph ∧ view.Allotted (.node node)) (fun _ after => after = graph) := by
  unfold requireNodeInTxn
  rw [sat_bind, sat_get, nodeInTxn, shows_.readInTxn coherent active]
  cases shown : view.version (.node node) state.startTs (some txn) with
  | none => rfl
  | some record => exact ⟨rfl, coherent.allotted_of_version shown⟩

theorem sat_addEdgeInTxn (txn : Nat) (label : String) (source target : Nat) (props : Properties)
    (shows_ : graph.Shows view) (coherent : view.Coherent) :
    Sat (addEdgeInTxn txn label source target props) graph
      (fun _ after => Moved (Move.For txn (· = .edge (view.nextId .edge))) view after)
      (fun _ after => Moved (Move.For txn (· = .edge (view.nextId .edge))) view after) := by
  unfold addEdgeInTxn
  refine shows_.then sameView_checkQuota (fun _ _ => .none) fun _ g shows₁ => ?_
  rw [sat_bind]
  refine (sat_requireActive shows₁).mono ?_ (fun _ _ same => .none (same ▸ shows₁))
  rintro _ g ⟨rfl, state, active⟩
  rw [sat_bind]
  refine (sat_requireNodeInTxn shows₁ coherent active).mono ?_ (fun _ _ same => .none (same ▸ shows₁))
  rintro _ g ⟨rfl, sourceAllotted⟩
  rw [sat_bind]
  refine (sat_requireNodeInTxn shows₁ coherent active).mono ?_ (fun _ _ same => .none (same ▸ shows₁))
  rintro _ g ⟨rfl, targetAllotted⟩
  rw [sat_bind]
  refine (sat_allocateId .edge shows₁).sure ?_
  rintro id g ⟨rfl, shows₂⟩
  rw [sat_bind]
  have pushes := pushes_insert coherent active
    (show Record.Names ⟨view.nextId .edge, label, props, .ends source target⟩ (.edge _) from
      ⟨rfl, sourceAllotted.1, targetAllotted.1⟩)
  have recorded := sat_recordDelta (· = .edge (view.nextId .edge)) shows₂ rfl pushes
  exact recorded.mono (fun _ _ moved => .step (.skipId .edge) trivial trivial moved)
    (fun _ _ moved => .step (.skipId .edge) trivial trivial moved)

end Graph

end ErmyaGraph
