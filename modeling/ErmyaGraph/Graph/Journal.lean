import ErmyaGraph.Storage.Journal
import ErmyaGraph.Graph.Txn

/-! # What graph operations append to the journal

Only a commit writes records that bear on a transaction, and only on its own. -/

namespace ErmyaGraph.Graph

open Outcome Store Keeps

variable {allowed : WalRecord → Prop} {before : Graph}

/-- The journal grew by records of the allowed kinds, and no transaction became active under
an id that had been given out before. -/
structure Logs (allowed : WalRecord → Prop) (before after : Graph) : Prop where
  journal : Journals allowed before.store.wal after.store.wal
  registry : ∀ mvcc', after.mvcc = some mvcc' → ∃ mvcc, before.mvcc = some mvcc ∧ mvcc.Ages mvcc'

instance (allowed : WalRecord → Prop) : IsPreorder Graph (Logs allowed) where
  refl graph := ⟨Journals.refl graph.store.wal, fun mvcc same => ⟨mvcc, same, refl_of Mvcc.Ages mvcc⟩⟩
  trans first second third := by
    rintro ⟨journal, registry⟩ ⟨journal', registry'⟩
    refine ⟨journal.trans journal', ?_⟩
    intro mvcc'' here
    obtain ⟨mvcc', there, older⟩ := registry' mvcc'' here
    obtain ⟨mvcc, origin, oldest⟩ := registry mvcc' there
    exact ⟨mvcc, origin, trans_of Mvcc.Ages oldest older⟩

variable {wider : WalRecord → Prop} {after : Graph}

theorem Logs.mono (logs : Logs allowed before after)
    (widen : ∀ record, allowed record → wider record) : Logs wider before after :=
  ⟨logs.journal.mono widen, logs.registry⟩

theorem Logs.of_mvcc (journal : Journals allowed before.store.wal after.store.wal)
    (same : after.mvcc = before.mvcc) : Logs allowed before after := by
  refine ⟨journal, fun mvcc here => ?_⟩
  rw [same] at here
  exact ⟨mvcc, here, refl_of Mvcc.Ages mvcc⟩

/-- The journal grew, and no id that had been given out is to be given out again. -/
structure Advances (allowed : WalRecord → Prop) (before after : Graph) : Prop
    extends Logs allowed before after where
  ids : ∀ kind, before.store.info.nextId kind ≤ after.store.info.nextId kind

instance (allowed : WalRecord → Prop) : IsPreorder Graph (Advances allowed) where
  refl graph := ⟨refl_of (Logs allowed) graph, fun _ => le_rfl⟩
  trans _ _ _ first second := ⟨trans_of (Logs allowed) first.toLogs second.toLogs,
      fun kind => (first.ids kind).trans (second.ids kind)⟩

theorem Advances.mono (advances : Advances allowed before after)
    (widen : ∀ record, allowed record → wider record) : Advances wider before after :=
  ⟨advances.toLogs.mono widen, advances.ids⟩

theorem Advances.of_same (journal : Journals allowed before.store.wal after.store.wal)
    (registry : after.mvcc = before.mvcc)
    (ids : after.store.info.nextId = before.store.info.nextId) : Advances allowed before after :=
  ⟨Logs.of_mvcc journal registry, fun kind => (congrFun ids kind).ge⟩

variable {α : Type}

theorem keeps_onStore_records {x : StoreM α} (keeps : Keeps (RecordsOnly allowed) x) :
    Keeps (Advances allowed) (onStore x) :=
  keeps_zoom keeps fun _ _ only => Advances.of_same only.logs rfl only.nextId

theorem keeps_modify_of_store {f : Graph → Graph} (store : ∀ graph, (f graph).store = graph.store)
    (mvcc : ∀ graph, (f graph).mvcc = graph.mvcc) :
    Keeps (Advances allowed) (modify f : GraphM PUnit) := by
  refine keeps_modify fun graph => Advances.of_same ?_ (mvcc graph) ?_
  · rw [store graph]
    exact Journals.refl graph.store.wal
  · rw [store graph]

theorem keeps_modifyAdj (f : AdjState → AdjState) : Keeps (Advances allowed) (modifyAdj f) :=
  keeps_modify_of_store (fun _ => rfl) fun _ => rfl

theorem keeps_modifyIndex (f : Indexes → Indexes) : Keeps (Advances allowed) (modifyIndex f) :=
  keeps_modify_of_store (fun _ => rfl) fun _ => rfl

theorem keeps_modifyMvcc {f : Mvcc → Mvcc} (ages : ∀ mvcc : Mvcc, mvcc.Ages (f mvcc)) :
    Keeps (Advances allowed) (modifyMvcc f) := by
  refine keeps_modify fun graph => ⟨⟨Journals.refl graph.store.wal, ?_⟩, fun _ => le_rfl⟩
  intro mvcc' here
  obtain ⟨mvcc, origin, rfl⟩ := Option.map_eq_some_iff.mp here
  exact ⟨mvcc, origin, ages mvcc⟩

theorem keeps_walSync : Keeps (Advances allowed) walSync :=
  keeps_get.bind fun _ =>
    keeps_ite (fun _ => keeps_onStore_records Store.keeps_walSync) fun _ => keeps_pure ()

def StoreOnly (before after : Graph) : Prop := after = { before with store := after.store }

instance : IsPreorder Graph StoreOnly where
  refl _ := rfl
  trans first second third := by
    intro here there
    unfold StoreOnly at here there ⊢
    rw [there, here]

theorem storeOnly_onStore (x : StoreM α) : Keeps StoreOnly (onStore x) := by
  have any : Keeps (fun _ _ : Store => True) x :=
    fun store => sat_iff.mpr ⟨fun _ _ _ => trivial, fun _ _ _ => trivial⟩
  exact keeps_zoom any fun _ _ _ => rfl

/-- Only adjacency pages, the journal and the adjacency caches changed; the nodes with deferred
links are the same. -/
structure LinksOnly (before after : Graph) : Prop where
  store : AdjacencyOnly before.store after.store
  rest : after = { before with store := after.store, adj := after.adj }
  pending : after.adj.pending.map Prod.fst = before.adj.pending.map Prod.fst

instance : IsPreorder Graph LinksOnly where
  refl graph := ⟨refl_of AdjacencyOnly graph.store, rfl, rfl⟩
  trans first second third := by
    rintro ⟨store, rest, pending⟩ ⟨store', rest', pending'⟩
    refine ⟨trans_of AdjacencyOnly store store', ?_, pending'.trans pending⟩
    rw [rest', rest]

theorem LinksOnly.advances (only : LinksOnly before after) : Advances Plain before after := by
  refine Advances.of_same (only.store.logs.mono fun _ => WalRecord.OnAdjacency.plain) ?_ ?_
  · rw [only.rest]
  · rw [only.store.rest]

theorem linksOnly_onStore {x : StoreM α} (keeps : Keeps AdjacencyOnly x) :
    Keeps LinksOnly (onStore x) :=
  keeps_zoom keeps fun _ _ only => ⟨only, rfl, rfl⟩

theorem linksOnly_modifyAdj {f : AdjState → AdjState}
    (pending : ∀ adj, (f adj).pending.map Prod.fst = adj.pending.map Prod.fst) :
    Keeps LinksOnly (modifyAdj f) :=
  keeps_modify fun graph => ⟨refl_of AdjacencyOnly graph.store, rfl, pending graph.adj⟩

theorem keeps_resolveAdjPointer (node : Nat) : Keeps (LinksOnly) (resolveAdjPointer node) := by
  unfold resolveAdjPointer
  refine keeps_get.bind fun graph => ?_
  split
  · exact keeps_pure _
  · exact (linksOnly_modifyAdj (by exact fun _ => rfl)).bind fun _ => keeps_pure _

theorem keeps_appendToDedicatedChain (node : Nat) (direction : AdjDirection)
    (existing : Option PageId) (edges : List Nat) :
    Keeps (LinksOnly) (appendToDedicatedChain node direction existing edges) := by
  unfold appendToDedicatedChain
  refine keeps_get.bind fun graph => ?_
  refine (linksOnly_onStore (keeps_appendAdjacencyWithState _ _ _ _ _)).bind fun result => ?_
  obtain ⟨first, written, state⟩ := result
  refine bind ?_ fun _ => (linksOnly_modifyAdj (by exact fun _ => rfl)).bind fun _ =>
    keeps_pure first
  exact keeps_forM written fun page _ => linksOnly_onStore (keeps_walLogAdjPage page)

theorem keeps_openSlabPageFor (direction : AdjDirection) (edgeCount : Nat) :
    Keeps (LinksOnly) (openSlabPageFor direction edgeCount) := by
  unfold openSlabPageFor
  refine keeps_get.bind fun graph => (keeps_ofResult _).bind fun fitting => ?_
  split
  · exact keeps_pure _
  · refine (linksOnly_onStore keeps_allocateSlabPage).bind fun page => ?_
    exact (linksOnly_modifyAdj (by exact fun _ => rfl)).bind fun _ => keeps_pure page

section

variable (node : Nat)
include node

section

variable (direction : AdjDirection)
include direction

theorem keeps_migrateSubblock (slab : PageId)
    (added : List Nat) : Keeps (LinksOnly) (migrateSubblock node direction slab added) := by
  unfold migrateSubblock
  refine keeps_get.bind fun graph => (keeps_ofResult _).bind fun present => ?_
  refine (keeps_appendToDedicatedChain node direction none _).bind fun first => ?_
  refine (linksOnly_onStore (keeps_freeSubblock slab node direction)).bind fun _ => ?_
  exact (linksOnly_onStore (keeps_walLogAdjPage slab)).bind fun _ => keeps_pure first

theorem keeps_appendToPage (page : PageId)
    (edges : List Nat) : Keeps (LinksOnly) (appendToPage node direction page edges) := by
  unfold appendToPage
  refine keeps_get.bind fun graph => (keeps_ofResult _).bind fun isSlab => ?_
  refine keeps_ite (fun _ => ?_) fun _ => keeps_appendToDedicatedChain node direction _ edges
  refine (linksOnly_onStore (keeps_appendSubblockEdges _ _ _ _)).bind fun grown => ?_
  refine keeps_ite (fun _ => ?_) fun _ => keeps_migrateSubblock node direction page edges
  exact (linksOnly_onStore (keeps_walLogAdjPage page)).bind fun _ => keeps_pure page

theorem keeps_startList (edges : List Nat) :
    Keeps (LinksOnly) (startList node direction edges) := by
  unfold startList
  refine keeps_ite (fun _ => ?_) fun _ => keeps_appendToDedicatedChain node direction none edges
  refine (keeps_openSlabPageFor direction edges.length).bind fun page => ?_
  refine (linksOnly_onStore (keeps_writeSubblock page node direction edges)).bind fun _ => ?_
  exact (linksOnly_onStore (keeps_walLogAdjPage page)).bind fun _ => keeps_pure page

theorem keeps_appendAndUpdateCaches (ptr : AdjacencyPointer)
    (edges : List Nat) : Keeps (LinksOnly) (appendAndUpdateCaches node direction ptr edges) := by
  unfold appendAndUpdateCaches
  dsimp only
  split
  · next page _ =>
      refine (keeps_appendToPage node direction page edges).bind fun first => ?_
      exact (linksOnly_modifyAdj (by exact fun _ => rfl)).bind fun _ => keeps_pure _
  · refine (keeps_startList node direction edges).bind fun first => ?_
    exact (linksOnly_modifyAdj (by exact fun _ => rfl)).bind fun _ => keeps_pure _

theorem keeps_rewriteList (page : PageId)
    (edges : List Nat) : Keeps (LinksOnly) (rewriteList node direction page edges) := by
  unfold rewriteList
  refine keeps_get.bind fun graph => (keeps_ofResult _).bind fun isSlab => ?_
  refine keeps_ite (fun _ => ?_) fun _ => ?_
  · refine (linksOnly_onStore (keeps_rewriteSubblockEdges _ _ _ _)).bind fun _ => ?_
    exact keeps_pure page
  · exact linksOnly_onStore (keeps_writeAdjacency node direction edges)

theorem keeps_removeEdgeFromAdjacency (edge : Nat) :
    Keeps (LinksOnly) (removeEdgeFromAdjacency node direction edge) := by
  unfold removeEdgeFromAdjacency
  refine keeps_get.bind fun graph => keeps_ite (fun _ => ?_) fun _ => ?_
  · refine linksOnly_modifyAdj fun adj => ?_
    simp only [List.map_map]
    refine List.map_congr_left fun entry _ => ?_
    simp only [Function.comp]
    split <;> rfl
  refine (keeps_resolveAdjPointer node).bind fun resolved => ?_
  split
  · exact keeps_pure ()
  · split
    · exact keeps_pure ()
    · refine keeps_get.bind fun graph => (keeps_ofResult _).bind fun present => ?_
      refine (keeps_rewriteList node direction _ _).bind fun newPage => ?_
      refine (linksOnly_onStore (keeps_walLogAdjPage newPage)).bind fun _ => ?_
      exact linksOnly_modifyAdj fun _ => rfl

end

variable (ptr : AdjacencyPointer)

theorem keeps_materializeNodeSlotWithPointer :
    Keeps (Advances Plain) (materializeNodeSlotWithPointer node ptr) := by
  unfold materializeNodeSlotWithPointer
  refine keeps_get.bind fun graph => keeps_ite (fun _ => keeps_pure ()) fun _ => ?_
  split
  · exact keeps_pure ()
  · refine (keeps_ofResult _).bind fun encoded => ?_
    refine (keeps_onStore_records (keeps_handleSlotOverflow _ encoded _)).bind fun slot => ?_
    exact keeps_onStore_records (keeps_writeSlotToPage _ _ true)

theorem keeps_persistAdjPointerToSlot :
    Keeps (Advances Plain) (persistAdjPointerToSlot node ptr) := by
  unfold persistAdjPointerToSlot
  refine keeps_get.bind fun graph => ?_
  split
  · refine keeps_ite (fun _ => ?_) fun _ => keeps_materializeNodeSlotWithPointer node ptr
    exact keeps_onStore_records (keeps_writeSlotToPage _ _ true)
  · exact keeps_materializeNodeSlotWithPointer node ptr

theorem keeps_addEdgeToAdjacency (direction : AdjDirection) (edge : Nat) :
    Keeps (Advances Plain) (addEdgeToAdjacency node direction edge) := by
  unfold addEdgeToAdjacency
  refine keeps_get.bind fun graph => keeps_ite (fun _ => keeps_modifyAdj _) fun _ => ?_
  refine ((keeps_resolveAdjPointer node).mono fun _ _ => LinksOnly.advances).bind fun ptr => ?_
  refine bind ?_ fun entry => ?_
  · exact (keeps_appendAndUpdateCaches node direction _ _).mono fun _ _ => LinksOnly.advances
  · exact keeps_persistAdjPointerToSlot node entry

end

variable (kind : EntityKind)

theorem keeps_bumpCount (f : Nat → Nat) : Keeps (Advances Plain) (bumpCount kind f) := by
  have changed : Keeps (fun before after : Store =>
      after.wal = before.wal ∧ after.info.nextId = before.info.nextId)
      (modifyMeta fun info => { info with
        entityCount := Function.update info.entityCount kind (f (info.entityCount kind)) }) :=
    keeps_modify fun _ => ⟨rfl, rfl⟩
  unfold bumpCount onStore
  refine keeps_zoom changed fun graph store same => ?_
  refine Advances.of_same ?_ rfl same.2
  change Journals Plain graph.store.wal store.wal
  rw [same.1]
  exact Journals.refl graph.store.wal

variable (record : Record)

theorem keeps_reconcileNodeInsert : Keeps (Advances Plain) (reconcileNodeInsert record) :=
  (keeps_modifyIndex _).bind fun _ => (keeps_bumpCount .node _).bind fun _ => keeps_modifyAdj _

theorem keeps_reconcileNodeDelete : Keeps (Advances Plain) (reconcileNodeDelete record) :=
  (keeps_modifyIndex _).bind fun _ => (keeps_modifyAdj _).bind fun _ => keeps_bumpCount .node _

theorem keeps_reconcileEdgeInsert : Keeps (Advances Plain) (reconcileEdgeInsert record) := by
  refine (keeps_modifyIndex _).bind fun _ => (keeps_bumpCount .edge _).bind fun _ => ?_
  refine (keeps_addEdgeToAdjacency record.source .outgoing record.id).bind fun _ => ?_
  exact keeps_addEdgeToAdjacency record.target .incoming record.id

theorem keeps_reconcileEdgeDelete : Keeps (Advances Plain) (reconcileEdgeDelete record) := by
  have unlink (node : Nat) (direction : AdjDirection) :
      Keeps (Advances Plain) (removeEdgeFromAdjacency node direction record.id) :=
    (keeps_removeEdgeFromAdjacency node direction record.id).mono fun _ _ => LinksOnly.advances
  refine (unlink record.source .outgoing).bind fun _ => ?_
  refine (unlink record.target .incoming).bind fun _ => ?_
  exact (keeps_modifyIndex _).bind fun _ => keeps_bumpCount .edge _

theorem keeps_checkQuota : Keeps (Advances Plain) checkQuota :=
  keeps_get.bind fun _ => keeps_ite (fun _ => keeps_throw _) fun _ => keeps_pure ()

theorem keeps_chargeBatchOp (bytes : Nat) : Keeps (Advances Plain) (chargeBatchOp bytes) := by
  refine keeps_get_bind fun graph => ?_
  by_cases outside : graph.batchDepth = 0
  · simp only [outside, ↓reduceIte]
    exact refl_of (Advances Plain) graph
  · simp only [outside, ↓reduceIte]
    split
    · exact refl_of (Advances Plain) graph
    · exact refl_of (Advances Plain) graph
    · exact Advances.of_same (Journals.refl graph.store.wal) rfl rfl

variable (label : String) (props : Properties)

theorem keeps_checkUnique (exclude : Option Nat) :
    Keeps (Advances Plain) (checkUnique label props exclude) := by
  refine keeps_get.bind fun graph => ?_
  split
  · exact keeps_throw _
  · exact keeps_pure ()

theorem keeps_allocateId : Keeps (Advances Plain) (allocateId kind) := by
  refine keeps_get_bind fun graph => ?_
  refine ⟨Logs.of_mvcc (Journals.refl graph.store.wal) rfl, fun other => ?_⟩
  change graph.store.info.nextId other ≤
    Function.update graph.store.info.nextId kind (graph.store.info.nextId kind + 1) other
  by_cases same : other = kind
  · rw [same, Function.update_self]
    exact Nat.le_succ _
  · rw [Function.update_of_ne same]

variable (key : EntityKey)

theorem keeps_currentRecord : Keeps (Advances Plain) (currentRecord key) :=
  keeps_get.bind fun _ => keeps_ite (fun _ => keeps_ofResult _) fun _ => keeps_throw _

theorem keeps_pin (id : Nat) :
    Keeps (Advances Plain) (modify fun graph =>
      if graph.isLabelAppendOnly label then
        { graph with appendOnlyIds := insert id graph.appendOnlyIds }
      else graph : GraphM PUnit) := by
  refine keeps_modify_of_store (fun graph => ?_) fun graph => ?_
  · split
    · rfl
    · rfl
  · split
    · rfl
    · rfl

theorem keeps_addNode : Keeps (Advances Plain) (addNode label props) := by
  unfold addNode
  refine keeps_checkQuota.bind fun _ => (keeps_chargeBatchOp _).bind fun _ => ?_
  refine (keeps_checkUnique label props none).bind fun _ => (keeps_allocateId .node).bind fun id => ?_
  refine (keeps_onStore_records (keeps_writeRecordSlot .node _)).bind fun _ => ?_
  refine (keeps_reconcileNodeInsert _).bind fun _ => (keeps_pin label id).bind fun _ => ?_
  exact keeps_walSync.bind fun _ => keeps_pure id

variable (id : Nat)

theorem keeps_updateNode (node : Node) : Keeps (Advances Plain) (updateNode id node) := by
  unfold updateNode
  refine keeps_checkQuota.bind fun _ => (keeps_chargeBatchOp _).bind fun _ => ?_
  refine (keeps_currentRecord _).bind fun current => (keeps_checkUnique _ _ _).bind fun _ => ?_
  refine bind (keeps_modifyIndex _) fun _ => ?_
  exact (keeps_onStore_records (keeps_writeRecordSlot .node _)).bind fun _ => keeps_walSync

theorem keeps_removeEdgeInternal : Keeps (Advances Plain) (removeEdgeInternal id) := by
  unfold removeEdgeInternal
  refine keeps_get.bind fun graph => (keeps_ofResult _).bind fun record => ?_
  refine (keeps_onStore_records (keeps_tombstoneSlot _ true)).bind fun _ => ?_
  exact (keeps_reconcileEdgeDelete record).bind fun _ => keeps_pure record

theorem keeps_incidentEdgeIds (node : Nat) : Keeps LinksOnly (incidentEdgeIds node) := by
  unfold incidentEdgeIds
  refine (keeps_resolveAdjPointer node).bind fun resolved => ?_
  split
  · exact keeps_pure _
  · refine keeps_get.bind fun graph => (keeps_ofResult _).bind fun out => ?_
    exact (keeps_ofResult _).bind fun inc => keeps_pure _

theorem keeps_removeNode : Keeps (Advances Plain) (removeNode id) := by
  unfold removeNode
  refine (keeps_chargeBatchOp _).bind fun _ => (keeps_currentRecord _).bind fun record => ?_
  refine bind ((keeps_incidentEdgeIds id).mono fun _ _ => LinksOnly.advances) fun edges => ?_
  refine bind ?_ fun _ => ?_
  · refine keeps_forM edges fun edge _ => keeps_get.bind fun graph => ?_
    refine keeps_ite (fun _ => ?_) fun _ => keeps_pure ()
    exact (keeps_removeEdgeInternal edge).map _
  · refine (keeps_onStore_records (keeps_tombstoneSlot _ true)).bind fun _ => ?_
    refine (keeps_reconcileNodeDelete record).bind fun _ => ?_
    exact keeps_walSync.bind fun _ => keeps_pure _

theorem keeps_addEdge (source target : Nat) (props : Properties) :
    Keeps (Advances Plain) (addEdge label source target props) := by
  unfold addEdge
  refine keeps_checkQuota.bind fun _ => (keeps_chargeBatchOp _).bind fun _ => ?_
  refine keeps_get.bind fun graph => keeps_ite (fun _ => keeps_throw _) fun _ => ?_
  refine keeps_ite (fun _ => keeps_throw _) fun _ => (keeps_allocateId .edge).bind fun id => ?_
  refine (keeps_onStore_records (keeps_writeRecordSlot .edge _)).bind fun _ => ?_
  exact (keeps_reconcileEdgeInsert _).bind fun _ => keeps_walSync.bind fun _ => keeps_pure id

theorem keeps_updateEdge (edge : Edge) : Keeps (Advances Plain) (updateEdge id edge) := by
  unfold updateEdge
  refine (keeps_chargeBatchOp _).bind fun _ => (keeps_currentRecord _).bind fun current => ?_
  refine bind (keeps_modifyIndex _) fun _ => ?_
  exact (keeps_onStore_records (keeps_writeRecordSlot .edge _)).bind fun _ => keeps_walSync

theorem keeps_removeEdge : Keeps (Advances Plain) (removeEdge id) := by
  unfold removeEdge
  refine (keeps_chargeBatchOp _).bind fun _ => keeps_get.bind fun graph => ?_
  refine keeps_ite (fun _ => keeps_throw _) fun _ => ?_
  exact (keeps_removeEdgeInternal id).bind fun record => keeps_walSync.bind fun _ => keeps_pure _

theorem keeps_getMvcc : Keeps (Advances allowed) getMvcc := by
  refine keeps_get.bind fun graph => ?_
  split
  · exact keeps_pure _
  · exact keeps_throw _

variable (txn : Nat)

theorem keeps_requireActive : Keeps (Advances allowed) (requireActive txn) :=
  keeps_get.bind fun _ => keeps_ite (fun _ => keeps_throw _) fun _ => keeps_pure ()

theorem keeps_beginTxn : Keeps (Advances Plain) beginTxn := by
  unfold beginTxn
  refine keeps_getMvcc.bind fun mvcc => (keeps_modifyMvcc Mvcc.ages_begin).bind fun _ => ?_
  exact (keeps_onStore_records (keeps_walAppend_records (show Plain _ from rfl))).bind fun _ => keeps_pure _

theorem keeps_rollbackTxn : Keeps (Advances Plain) (rollbackTxn txn) := by
  unfold rollbackTxn
  refine (keeps_requireActive txn).bind fun _ => bind (keeps_modifyMvcc ?_) fun _ => ?_
  · intro mvcc
    exact trans_of Mvcc.Ages (mvcc.ages_removeDeltas txn) (Mvcc.ages_endTxn _ txn)
  · refine (keeps_onStore_records (keeps_walAppend_records ?_)).bind fun _ => keeps_walSync
    exact (rfl : Plain (.rollback txn))

variable (state : Option EntitySnapshot)

theorem keeps_walLogCommittedDelta (txn : Nat) :
    Keeps (Advances (About txn)) (walLogCommittedDelta key state txn) := by
  unfold walLogCommittedDelta
  refine keeps_get.bind fun graph => keeps_ite (fun _ => ?_) fun _ => keeps_pure ()
  split
  · exact keeps_onStore_records (keeps_walLogRedo key.kind _ txn)
  · refine keeps_onStore_records (keeps_walAppend_records ?_)
    intro other named
    exact (Option.some.inj named).symm

theorem keeps_reconcileCommittedDelta (delta : Delta) :
    Keeps (Advances Plain) (reconcileCommittedDelta key delta) := by
  unfold reconcileCommittedDelta
  refine keeps_get.bind fun graph => ?_
  dsimp only
  split
  · exact keeps_reconcileNodeInsert _
  · exact keeps_reconcileEdgeInsert _
  · split
    · exact keeps_modifyIndex _
    · exact keeps_pure ()
  · split
    · exact keeps_modifyIndex _
    · exact keeps_pure ()
  · exact keeps_pure ()

theorem keeps_journalCommit (committed : List (EntityKey × Delta)) :
    Keeps (Advances (About txn)) (journalCommit txn committed) := by
  unfold journalCommit
  refine bind ?_ fun _ => bind ?_ fun _ => keeps_walSync
  · exact keeps_forM committed fun entry _ => keeps_walLogCommittedDelta entry.1 entry.2.new txn
  · refine keeps_onStore_records (keeps_walAppend_records ?_)
    intro other named
    exact (Option.some.inj named).symm

theorem keeps_applyCommit (ts : Nat) (committed : List (EntityKey × Delta)) :
    Keeps (Advances Plain) (applyCommit txn ts committed) := by
  unfold applyCommit
  refine (keeps_modifyMvcc fun mvcc => mvcc.ages_stampKeys txn ts _).bind fun _ => ?_
  refine bind ?_ fun _ => keeps_modifyMvcc fun mvcc => mvcc.ages_endTxn txn
  exact keeps_forM committed fun entry _ => keeps_reconcileCommittedDelta entry.1 entry.2

theorem keeps_commitTxn : Keeps (Advances (About txn)) (commitTxn txn) := by
  unfold commitTxn
  refine (keeps_requireActive txn).bind fun _ => keeps_getMvcc.bind fun mvcc => ?_
  refine bind (keeps_modifyMvcc fun _ => ?_) fun _ => ?_
  · exact Mvcc.ages_of_active rfl rfl
  · refine (keeps_journalCommit txn _).bind fun _ => ?_
    exact (keeps_applyCommit txn _ _).mono fun _ _ logs => logs.mono fun _ => About.of_plain

theorem keeps_recordDelta (key : EntityKey) (prior : Option EntitySnapshot) (new : EntitySnapshot)
    (op : DeltaOp) : Keeps (Advances Plain) (recordDelta txn key prior new op) := by
  unfold recordDelta chargeTxnMemory
  refine bind ?_ fun _ => keeps_modifyMvcc fun mvcc => ?_
  · refine keeps_getMvcc.bind fun mvcc => ?_
    split
    · exact keeps_throw _
    · refine (keeps_modifyMvcc fun mvcc => mvcc.ages_modifyTxn txn _).bind fun _ => ?_
      refine keeps_get.bind fun graph => ?_
      split
      · exact (keeps_rollbackTxn txn).bind fun _ => keeps_throw _
      · exact keeps_pure ()
  · exact trans_of Mvcc.Ages (mvcc.ages_modifyTxn _ _) (Mvcc.ages_pushDelta _ key _)

theorem keeps_addNodeInTxn (label : String) (props : Properties) :
    Keeps (Advances Plain) (addNodeInTxn txn label props) := by
  unfold addNodeInTxn
  refine keeps_checkQuota.bind fun _ => (keeps_requireActive txn).bind fun _ => ?_
  refine keeps_get.bind fun graph => keeps_ite (fun _ => keeps_throw _) fun _ => ?_
  refine (keeps_allocateId .node).bind fun id => ?_
  exact (keeps_recordDelta txn _ _ _ _).bind fun _ => keeps_pure id

theorem keeps_replaceInTxn (key : EntityKey) (new : EntitySnapshot) (op : DeltaOp) :
    Keeps (Advances Plain) (replaceInTxn txn key new op) := by
  unfold replaceInTxn rejectIfAppendOnly
  refine (keeps_requireActive txn).bind fun _ => bind ?_ fun _ => ?_
  · refine keeps_get.bind fun graph => keeps_ite (fun _ => ?_) fun _ => keeps_pure ()
    split
    · exact keeps_throw _
    · exact keeps_throw _
  · refine keeps_get.bind fun graph => (keeps_ofResult _).bind fun _ => ?_
    exact keeps_recordDelta txn key _ new op

theorem keeps_requireNodeInTxn (node : Nat) :
    Keeps (Advances Plain) (requireNodeInTxn txn node) := by
  refine keeps_get.bind fun graph => ?_
  split
  · exact keeps_pure ()
  · exact keeps_throw _

theorem keeps_addEdgeInTxn (label : String) (source target : Nat) (props : Properties) :
    Keeps (Advances Plain) (addEdgeInTxn txn label source target props) := by
  unfold addEdgeInTxn
  refine keeps_checkQuota.bind fun _ => (keeps_requireActive txn).bind fun _ => ?_
  refine (keeps_requireNodeInTxn txn source).bind fun _ => ?_
  refine (keeps_requireNodeInTxn txn target).bind fun _ => (keeps_allocateId .edge).bind fun id => ?_
  exact (keeps_recordDelta txn _ _ _ _).bind fun _ => keeps_pure id

theorem keeps_materializeToPage : Keeps (Advances Plain) (materializeToPage key state) := by
  unfold materializeToPage
  split
  · exact keeps_onStore_records (keeps_materializeRecord key.kind _)
  · exact keeps_onStore_records (keeps_tombstoneSlot key false)

theorem keeps_applyVacuumCategoryB (new old : Option EntitySnapshot) :
    Keeps (Advances Plain) (applyVacuumCategoryB key new old) := by
  unfold applyVacuumCategoryB
  split
  · exact keeps_modifyIndex _
  · exact keeps_modifyIndex _
  · exact keeps_reconcileNodeDelete _
  · exact keeps_reconcileEdgeDelete _
  · exact keeps_pure ()

theorem keeps_vacuumOnce (order : List EntityKey) : Keeps (Advances Plain) (vacuumOnce order) := by
  unfold vacuumOnce
  refine keeps_getMvcc.bind fun mvcc => ?_
  refine bind (keeps_modifyMvcc fun _ => ?_) fun _ => bind ?_ fun _ => keeps_pure _
  · exact Mvcc.ages_of_active rfl rfl
  · refine keeps_forM _ fun entry _ => ?_
    refine (keeps_materializeToPage entry.1 entry.2.1).bind fun _ => ?_
    exact keeps_applyVacuumCategoryB entry.1 entry.2.1 entry.2.2

end ErmyaGraph.Graph
