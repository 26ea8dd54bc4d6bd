import ErmyaGraph.Graph.NodeUpdate
import ErmyaGraph.Storage.Faults

/-! # Refused writes

A write that is refused, for a missing entity, a unique constraint, a cap or a record that is
too large, leaves the indexes of an update behind it unless these stay the same. -/

namespace ErmyaGraph.Graph

open Outcome Store

section Linking

theorem errs_onStore {α : Type} {x : StoreM α} (errs : Errs Error.AtStorage x) :
    Errs Error.AtStorage (onStore x) :=
  errs.zoom _ _

variable (node : Nat)

theorem errs_appendToDedicatedChain (direction : AdjDirection) (existing : Option PageId)
    (edges : List Nat) :
    Errs Error.AtStorage (appendToDedicatedChain node direction existing edges) := by
  unfold appendToDedicatedChain
  refine errs_get.bind fun graph =>
    (errs_onStore (errs_appendAdjacencyWithState _ _ _ _ _)).bind fun ⟨_, written, _⟩ => ?_
  exact (errs_forM (fun page => errs_onStore (errs_walLogAdjPage page)) written).bind fun _ =>
    (errs_modify _).bind fun _ => errs_pure _

theorem fails_fittingSlabPage (graph : Graph) (direction : AdjDirection) (edgeCount : Nat) :
    Fails Error.AtStorage (graph.fittingSlabPage direction edgeCount) := by
  unfold fittingSlabPage
  split
  · exact fails_ok _
  · exact (fails_subblocks _ _).bind fun _ =>
      (fails_slabCanFitSubblock _ _ _).bind fun _ => fails_ok _

section

variable (direction : AdjDirection)
include direction

theorem errs_openSlabPageFor (edgeCount : Nat) :
    Errs Error.AtStorage (openSlabPageFor direction edgeCount) := by
  unfold openSlabPageFor
  refine errs_get.bind fun graph =>
    (errs_ofResult (fails_fittingSlabPage graph direction edgeCount)).bind fun fitting => ?_
  split
  · exact errs_pure _
  · exact (errs_onStore errs_allocateSlabPage).bind fun _ =>
      (errs_modify _).bind fun _ => errs_pure _

theorem errs_migrateSubblock (slab : PageId) (added : List Nat) :
    Errs Error.AtStorage (migrateSubblock node direction slab added) := by
  unfold migrateSubblock
  refine errs_get.bind fun graph => (errs_ofResult (fails_readSubblock _ _ _ _)).bind fun _ => ?_
  exact (errs_appendToDedicatedChain _ _ _ _).bind fun _ =>
    (errs_onStore (errs_freeSubblock _ _ _)).bind fun _ =>
    (errs_onStore (errs_walLogAdjPage _)).bind fun _ => errs_pure _

theorem errs_appendToPage (page : PageId) (edges : List Nat) :
    Errs Error.AtStorage (appendToPage node direction page edges) := by
  unfold appendToPage
  refine errs_get.bind fun graph => (errs_ofResult (fails_isAdjSlabPage _ _)).bind fun shared => ?_
  refine errs_ite (fun _ => ?_) fun _ => errs_appendToDedicatedChain _ _ _ _
  refine (errs_onStore (errs_appendSubblockEdges _ _ _ _)).bind fun grown => ?_
  refine errs_ite (fun _ => ?_) fun _ => errs_migrateSubblock _ _ _ _
  exact (errs_onStore (errs_walLogAdjPage _)).bind fun _ => errs_pure _

theorem errs_startList (edges : List Nat) :
    Errs Error.AtStorage (startList node direction edges) := by
  unfold startList
  refine errs_ite (fun _ => ?_) fun _ => errs_appendToDedicatedChain _ _ _ _
  exact (errs_openSlabPageFor _ _).bind fun _ => (errs_onStore (errs_writeSubblock _ _ _ _)).bind
    fun _ => (errs_onStore (errs_walLogAdjPage _)).bind fun _ => errs_pure _

theorem errs_appendAndUpdateCaches (ptr : AdjacencyPointer)
    (edges : List Nat) : Errs Error.AtStorage (appendAndUpdateCaches node direction ptr edges) := by
  unfold appendAndUpdateCaches
  dsimp only
  split
  · exact (errs_appendToPage _ _ _ _).bind fun _ => (errs_modify _).bind fun _ => errs_pure _
  · exact (errs_startList _ _ _).bind fun _ => (errs_modify _).bind fun _ => errs_pure _

end

variable {graph : Graph}

theorem sat_persistAdjPointerToSlot_refuses (ptr : AdjacencyPointer) (mode : graph.mvcc = none) :
    Sat (persistAdjPointerToSlot node ptr) graph (fun _ after => after.mvcc = none)
      (fun e _ => e.AtStorage) := by
  have materialized : Sat (materializeNodeSlotWithPointer node ptr) graph
      (fun _ after => after.mvcc = none) (fun e _ => e.AtStorage) := by
    unfold materializeNodeSlotWithPointer
    rw [sat_bind, sat_get, if_pos (by rw [mode]; rfl)]
    exact mode
  unfold persistAdjPointerToSlot
  rw [sat_bind, sat_get]
  split
  · rw [sat_ite]
    refine ⟨fun _ => ?_, fun _ => materialized⟩
    rw [sat_onStore]
    exact (errs_writeSlotToPage _ _ _ graph.store).mono (fun _ _ _ => mode) fun _ _ => id
  · exact materialized

theorem sat_addEdgeToAdjacency_refuses (direction : AdjDirection) (edge : Nat)
    (mode : graph.mvcc = none) :
    Sat (addEdgeToAdjacency node direction edge) graph (fun _ after => after.mvcc = none)
      (fun e _ => e.AtStorage) := by
  unfold addEdgeToAdjacency
  rw [sat_bind, sat_get, sat_ite]
  refine ⟨fun _ => mode, fun _ => ?_⟩
  unfold writeAdjImmediate
  rw [sat_bind]
  apply (sat_resolveAdjPointer_cache graph node).sure _
  rintro ptr _ ⟨_, adj, rfl, _⟩
  rw [sat_bind]
  apply ((keeps_appendAndUpdateCaches node direction (ptr.getD {}) [edge] _).and
    (errs_appendAndUpdateCaches node direction (ptr.getD {}) [edge] _)).mono _
      (fun _ _ => And.right)
  rintro entry after ⟨only, -⟩
  refine sat_persistAdjPointerToSlot_refuses node entry ?_
  rw [only.rest]
  exact mode

end Linking

/-- Two graphs that answer alike. -/
structure SameGraph (graph after : Graph) : Prop where
  reads : ∀ key, after.read key = graph.read key
  edges : ∀ direction node,
    answer (edgesOf direction node) after = answer (edgesOf direction node) graph
  index : after.index = graph.index
  counts : after.store.info.entityCount = graph.store.info.entityCount

/-- Two openings: graphs that answer alike, or failures both. -/
def SameOpening : Except Error Graph → Except Error Graph → Prop
  | .ok graph, .ok after => SameGraph graph after
  | .error _, .error _ => True
  | _, _ => False

/-- Nobody can tell that a call was made: not at once, and not after a flush and a reopening. -/
structure Unchanged (graph after : Graph) : Prop extends SameGraph graph after where
  reopened : ∀ evicts, SameOpening (reopen (final flush graph) 0 evicts)
    (reopen (final flush after) 0 evicts)

/-- A graph without version chains, in a batch or not: storage holds some contents, and the
nodes and edges that exist are on their pages. -/
structure Unversioned (graph : Graph) (contents : Contents) : Prop where
  mode : graph.mvcc = none
  store : StoreIs graph.store contents
  named : Named contents
  live : ∀ key, graph.exists? key → 0 < key.id ∧ ∃ record, contents key = .live record

section States

variable {graph after : Graph} {contents : Contents}

theorem Unversioned.stored (unversioned : graph.Unversioned contents) : Stored graph contents where
  store := unversioned.store
  named := unversioned.named
  positive kind id member := (unversioned.live ⟨kind, id⟩ (decide_eq_true member)).1
  backed id member _ := (unversioned.live (.edge id) (decide_eq_true member)).2

theorem Consistent.unversioned (consistent : graph.Consistent contents) :
    graph.Unversioned contents where
  mode := consistent.legacy.mode
  store := consistent.legacy.store
  named := consistent.legacy.allotted
  live := by
    rintro ⟨kind, id⟩ here
    have mem : id ∈ graph.index.present kind := of_decide_eq_true here
    cases kind with
    | node => exact consistent.legacy.nodesLive id mem
    | edge =>
      obtain ⟨pos, record, live, _⟩ := consistent.legacy.edgesLive id mem
      exact ⟨pos, record, live⟩

/-- Nothing but ids, counters of a batch and texts on the heap changed, the indexes aside. -/
structure Refused (graph after : Graph) (contents : Contents) : Prop where
  rest : after = { graph with
    store := after.store
    index := after.index
    batchOpCount := after.batchOpCount
    batchByteCount := after.batchByteCount }
  holds : StoreIs after.store contents
  slots : after.store.pages.slots = graph.store.pages.slots
  adjacency : after.store.pages.adjacency = graph.store.pages.adjacency
  counts : after.store.info.entityCount = graph.store.info.entityCount

theorem read_unversioned (mode : graph.mvcc = none) (key : EntityKey) :
    graph.read key =
      if graph.exists? key then graph.store.readRecord key else .error key.notFound := by
  unfold Graph.read
  rw [if_pos (by rw [mode]; exact Bool.or_true _)]

theorem Refused.sameGraph (refused : Refused graph after contents)
    (unversioned : graph.Unversioned contents) (index : after.index = graph.index) :
    SameGraph graph after where
  reads key := by
    have mode : after.mvcc = none := by rw [refused.rest]; exact unversioned.mode
    have same : after.exists? key = graph.exists? key := by rw [Graph.exists?, index, Graph.exists?]
    rw [read_unversioned mode, read_unversioned unversioned.mode, same]
    split
    · next here =>
      obtain ⟨pos, record, live⟩ := unversioned.live key here
      have before := unversioned.store.read pos
      have now := refused.holds.read pos
      rw [live] at before now
      rw [before, now]
    · rfl
  edges direction node := by
    have lists : SameLists graph after contents contents :=
      ⟨congrArg Indexes.present index, congrArg (fun g => g.mvcc) refused.rest,
        congrArg (fun g => g.adj.pending) refused.rest, refused.adjacency, fun _ => rfl⟩
    have stored' : Stored after contents := by
      refine ⟨refused.holds, unversioned.named, ?_, fun id mem _ => ?_⟩
      · rw [index]
        exact unversioned.stored.positive
      · rw [index] at mem
        exact (unversioned.live (.edge id) (decide_eq_true mem)).2
    have heads : after.currentHeads node = graph.currentHeads node := by
      rw [currentHeads_eq, currentHeads_eq, congrArg (fun g => g.adj.cache) refused.rest,
        storedHeads, storedHeads, readSlot_slots refused.slots]
    rw [answer_edgesOf, answer_edgesOf]
    exact lists.queriedEdges unversioned.stored stored' heads
  index := index
  counts := refused.counts

end States

section Reopening

variable {graph after : Graph} {contents : Contents} {store store' : Store}

theorem liveOf_slots (slots : store'.pages.slots = store.pages.slots) :
    liveOf store' = liveOf store := by
  funext kind
  unfold liveOf
  rw [slots]

theorem foundIds_slots (slots : store'.pages.slots = store.pages.slots) :
    foundIds store' = foundIds store := by
  funext kind
  unfold foundIds
  rw [liveOf_slots slots]

theorem rebuildAdjSlot_adjacency (adjacency : store'.pages.adjacency = store.pages.adjacency) :
    rebuildAdjSlot store' = rebuildAdjSlot store := by
  have tails : rebuildTail store' = rebuildTail store := by
    funext slot adj direction
    unfold rebuildTail
    simp only [isAdjSlabPage_adjacency adjacency, readAdjChainState_adjacency adjacency]
  funext adj slot
  rw [rebuildAdjSlot_eq, rebuildAdjSlot_eq, tails]

variable {disk : Disk} {labels : EntityKind → String → Finset Nat}

theorem openedIndexes_same {disk' : Disk} (holds : StoreIs store contents)
    (holds' : StoreIs store' contents) (named : Named contents)
    (slots : store'.pages.slots = store.pages.slots) (listed : disk.labels = some labels)
    (listed' : disk'.labels = some labels) :
    openedIndexes disk' store' = openedIndexes disk store := by
  unfold openedIndexes
  rw [listed, listed', liveOf_slots slots, foundIds_slots slots]
  refine Joins.foldlM_congr (fun index id mem => ?_) _
  have found : id ∈ foundIds store .node := List.mem_toFinset.mpr (List.mem_dedup.mp mem)
  obtain ⟨record, live, read⟩ := readRecord_of_found holds named found
  have pos := ((mem_foundIds holds named).mp found).1
  have read' := holds'.read (show 0 < (EntityKey.node id).id from pos)
  rw [show contents (.node id) = _ from live] at read'
  rw [rebuildProperties, rebuildProperties, read', show store.readRecord (.node id) = _ from read]

/-- What opens over a store. -/
def openedOver (disk : Disk) (store : Store) (evicts : Nat → Nat → Bool) : Except Error Graph := do
  let adj ← (liveOf store .node).foldlM (rebuildAdjSlot store) { evicts := evicts }
  let index ← openedIndexes disk store
  return openedGraph disk store adj index

theorem reopen_flush (graph : Graph) (evicts : Nat → Nat → Bool) :
    reopen (final flush graph) 0 evicts =
      openedOver (final flush graph).disk (flushedStore graph) evicts := by
  rw [reopen, open_eq]
  rfl

theorem openedGraph_opened {adj : AdjState} {index : Indexes} {evicts : Nat → Nat → Bool}
    (rebuilt : (liveOf store .node).foldlM (rebuildAdjSlot store) { evicts := evicts } = .ok adj)
    (indexes : openedIndexes disk store = .ok index) :
    Opened store (openedGraph disk store adj index) := by
  have empty : Rebuilt store (liveOf store .node) { evicts := evicts } :=
    ⟨fun _ _ none => (nomatch none), fun _ _ _ none => (nomatch none), fun _ => rfl, rfl⟩
  exact ⟨rfl, openedIndexes_present indexes,
    (rebuildAdj_ok rebuilt).2 _ (List.Subset.refl _) empty, rfl⟩

/-- Stores with the same slots and lists, whose records read alike, open alike. -/
theorem sameOpening_of_slots {disk' : Disk} (holds : StoreIs store contents)
    (holds' : StoreIs store' contents) (named : Named contents)
    (slots : store'.pages.slots = store.pages.slots)
    (adjacency : store'.pages.adjacency = store.pages.adjacency)
    (listed : disk.labels = some labels) (listed' : disk'.labels = some labels)
    (evicts : Nat → Nat → Bool) :
    SameOpening (openedOver disk store evicts) (openedOver disk' store' evicts) := by
  have indexes := openedIndexes_same holds holds' named slots listed listed'
  have caches : (liveOf store' .node).foldlM (rebuildAdjSlot store') { evicts := evicts } =
      (liveOf store .node).foldlM (rebuildAdjSlot store) { evicts := evicts } := by
    rw [liveOf_slots slots, rebuildAdjSlot_adjacency adjacency]
  obtain ⟨index, ok⟩ := openedIndexes_ok disk holds named
  unfold openedOver
  rw [caches, indexes, ok]
  cases rebuilt : (liveOf store .node).foldlM (rebuildAdjSlot store) { evicts := evicts } with
  | error e => trivial
  | ok adj =>
    have opened := openedGraph_opened rebuilt ok
    have opened' := openedGraph_opened (caches.trans rebuilt) (indexes.trans ok)
    refine ⟨fun key => ?_, fun direction node => ?_, rfl, ?_⟩
    · rw [read_unversioned opened.mvcc, read_unversioned opened'.mvcc, opened.exists?,
        opened'.exists?, foundIds_slots slots]
      split
      · next here =>
        have found := of_decide_eq_true here
        obtain ⟨record, live, read⟩ := readRecord_of_found holds named found
        have read' := holds'.read ((mem_foundIds holds named).mp found).1
        rw [show contents ⟨key.kind, key.id⟩ = _ from live] at read'
        rw [readRecord_pages opened.pages, readRecord_pages opened'.pages]
        exact read'.trans read.symm
      · rfl
    · rw [opened.answer (slotsNamed_of_storeIs holds named),
        opened'.answer (slotsNamed_of_storeIs holds' named)]
      have pages : SamePages store store' contents contents :=
        ⟨fun kind => congrFun (foundIds_slots slots) kind, adjacency, fun _ => rfl, rfl⟩
      exact pages.pageEdges holds named holds' direction node
    · funext kind
      exact congrArg Finset.card (congrFun (foundIds_slots slots) kind)

theorem Refused.reopened (refused : Refused graph after contents)
    (unversioned : graph.Unversioned contents) (index : after.index = graph.index)
    (evicts : Nat → Nat → Bool) :
    SameOpening (reopen (final flush graph) 0 evicts) (reopen (final flush after) 0 evicts) := by
  rw [reopen_flush, reopen_flush]
  refine sameOpening_of_slots (storeIs_flushedStore unversioned.store)
    (storeIs_flushedStore refused.holds) unversioned.named ?_ ?_ rfl
    (show some after.index.label = some graph.index.label by rw [index]) evicts
  · rw [flushedStore_pages, flushedStore_pages, refused.slots]
  · rw [flushedStore_pages, flushedStore_pages, refused.adjacency]

theorem Refused.unchanged (refused : Refused graph after contents)
    (unversioned : graph.Unversioned contents) (index : after.index = graph.index) :
    Unchanged graph after :=
  ⟨refused.sameGraph unversioned index, refused.reopened unversioned index⟩

end Reopening

theorem sat_writeRecordSlot_refused {store : Store} {contents : Contents} (kind : EntityKind)
    (record : Record) (holds : StoreIs store contents) :
    Sat (writeRecordSlot kind record) store (fun _ _ => True)
      (fun e after => ¬e.AtStorage → StringsOnly store after ∧ StoreIs after contents) := by
  obtain ⟨blobs, represents⟩ := id holds
  unfold writeRecordSlot
  rw [sat_bind, sat_ofResult]
  refine ⟨fun encoded _ => ?_, fun _ _ _ => ⟨refl_of StringsOnly store, holds⟩⟩
  rw [sat_bind, sat_get, sat_bind]
  have written (slot : Slot) (mid : Store) : Sat (writeSlotToPage ⟨kind, record.id⟩ slot true) mid
      (fun _ _ => True) (fun e after => ¬e.AtStorage →
        StringsOnly store after ∧ StoreIs after contents) :=
    (errs_writeSlotToPage _ slot true mid).mono (fun _ _ => id) fun _ _ failed refused =>
      absurd failed refused
  suffices stored : Sat (handleSlotOverflow ⟨kind, record.id⟩ encoded
      (store.existingPropOverflow ⟨kind, record.id⟩)) store (fun _ _ => True)
      (fun e after => ¬e.AtStorage → StringsOnly store after ∧ StoreIs after contents) from
    stored.mono (fun slot mid _ => written slot mid) fun _ _ => id
  unfold handleSlotOverflow
  rw [sat_bind]
  refine (sat_storeLabel encoded.labelOverflow represents.heap).mono (fun _ labelled done => ?_)
    fun _ _ failed _ => ⟨failed.1, represents.kept failed⟩
  obtain ⟨strings, heap, texts, -⟩ := done
  rw [sat_bind]
  refine (@sat_storeProps labelled blobs (encoded.propsOverflow.getD []) ⟨kind, record.id⟩
    encoded.propsOverflow (fun data here => by rw [here]; rfl)
    (strings.holdsBlobs represents.overflow)).mono
    (fun stored mid _ => ?_) fun _ after same _ => ?_
  · rw [sat_bind]
    refine (errs_releasePrevious _ _ stored mid).mono (fun _ _ _ => ?_) fun _ _ failed refused =>
      absurd failed refused
    rw [sat_ite]
    exact ⟨fun _ => trivial, fun _ => trivial⟩
  · rw [same]
    exact ⟨strings, represents.kept ⟨strings, heap, texts⟩⟩

/-- A call that adds or updates a node or an edge. -/
inductive Mutation where
  | addNode (label : String) (props : Properties)
  | addEdge (label : String) (source target : Nat) (props : Properties)
  | updateNode (id : Nat) (node : Node)
  | updateEdge (id : Nat) (edge : Edge)

namespace Mutation

def run : Mutation → GraphM Unit
  | addNode label props => discard (Graph.addNode label props)
  | addEdge label source target props => discard (Graph.addEdge label source target props)
  | updateNode id node => Graph.updateNode id node
  | updateEdge id edge => Graph.updateEdge id edge

end Mutation

/-- The checks that an update of a node makes first; the answer is the record it replaces. -/
def nodeChecks (id : Nat) (node : Node) : GraphM Record := do
  checkQuota
  chargeBatchOp (estimateEntityBytes node.label node.properties)
  let current ← currentRecord (.node id)
  checkUnique node.label node.properties (some id)
  return current

def edgeChecks (id : Nat) (edge : Edge) : GraphM Record := do
  chargeBatchOp (estimateEntityBytes edge.label edge.properties)
  currentRecord (.edge id)

theorem updateNode_eq (id : Nat) (node : Node) : updateNode id node = (do
    let current ← nodeChecks id node
    reconcileNodeUpdate current node.toRecord
    onStore (Store.writeRecordSlot .node node.toRecord)
    walSync) := by
  unfold updateNode nodeChecks
  simp only [bind_assoc, pure_bind]

theorem updateEdge_eq (id : Nat) (edge : Edge) : updateEdge id edge = (do
    let current ← edgeChecks id edge
    reconcileEdgeUpdate current edge.toRecord
    onStore (Store.writeRecordSlot .edge edge.toRecord)
    walSync) := by
  unfold updateEdge edgeChecks
  simp only [bind_assoc]

/-- The indexes stay the same when an update that passes its checks has re-indexed. -/
def KeepsIndexes (graph : Graph) : Mutation → Prop
  | .addNode _ _ | .addEdge _ _ _ _ => True
  | .updateNode id node => ∀ current, answer (nodeChecks id node) graph = .ok current →
      (final (reconcileNodeUpdate current node.toRecord) graph).index = graph.index
  | .updateEdge id edge => ∀ current, answer (edgeChecks id edge) graph = .ok current →
      (final (reconcileEdgeUpdate current edge.toRecord) graph).index = graph.index

section Calls

variable {graph : Graph} {contents : Contents}

def Charged (graph after : Graph) : Prop :=
  after = { graph with batchOpCount := after.batchOpCount, batchByteCount := after.batchByteCount }

theorem Charged.refl (graph : Graph) : Charged graph graph := rfl

theorem Charged.refused {after : Graph} (charged : Charged graph after)
    (unversioned : graph.Unversioned contents) :
    Refused graph after contents ∧ after.index = graph.index := by
  have store : after.store = graph.store := congrArg (fun g => g.store) charged
  have index : after.index = graph.index := congrArg (fun g => g.index) charged
  refine ⟨⟨?_, ?_, ?_, ?_, ?_⟩, index⟩
  · rw [store, index]
    exact charged
  · rw [store]
    exact unversioned.store
  · rw [store]
  · rw [store]
  · rw [store]

theorem Charged.unchanged {after : Graph} (charged : Charged graph after)
    (unversioned : graph.Unversioned contents) : Unchanged graph after :=
  (charged.refused unversioned).1.unchanged unversioned (charged.refused unversioned).2

theorem sat_chargeBatchOp_charged (bytes : Nat) (graph : Graph) :
    Sat (chargeBatchOp bytes) graph (fun _ after => Charged graph after)
      (fun _ after => Charged graph after) := by
  unfold chargeBatchOp
  rw [sat_bind, sat_get]
  split
  · exact Charged.refl graph
  · dsimp only
    split
    · exact Charged.refl graph
    · exact Charged.refl graph
    · exact rfl

theorem sat_nodeChecks (id : Nat) (node : Node) (graph : Graph) :
    Sat (nodeChecks id node) graph (fun _ after => Charged graph after)
      (fun _ after => Charged graph after) := by
  unfold nodeChecks
  rw [sat_bind]
  apply (sat_checkQuota_same graph).mono _ (fun _ _ same => same ▸ Charged.refl graph)
  rintro _ _ rfl
  rw [sat_bind]
  apply (sat_chargeBatchOp_charged _ _).mono _ (fun _ _ charged => charged)
  intro _ mid charged
  rw [sat_bind]
  apply (sat_currentRecord_same _ mid).mono _ (fun _ _ same => same ▸ charged)
  rintro current _ ⟨rfl, _, _⟩
  rw [sat_bind]
  apply (sat_checkUnique_same _ _ _ _).mono _ (fun _ _ same => same ▸ charged)
  rintro _ _ rfl
  exact charged

theorem sat_edgeChecks (id : Nat) (edge : Edge) (graph : Graph) :
    Sat (edgeChecks id edge) graph (fun _ after => Charged graph after)
      (fun _ after => Charged graph after) := by
  unfold edgeChecks
  rw [sat_bind]
  apply (sat_chargeBatchOp_charged _ _).mono _ (fun _ _ charged => charged)
  intro _ mid charged
  exact (sat_currentRecord_same _ mid).mono (fun _ _ same => same.1 ▸ charged)
    fun _ _ same => same ▸ charged

end Calls

section Rejections

variable {graph : Graph} {contents : Contents} {mid : Graph}

theorem Charged.refusedWith {store : Store} (charged : Charged graph mid) (index : Indexes)
    (holds : StoreIs store contents) (slots : store.pages.slots = graph.store.pages.slots)
    (adjacency : store.pages.adjacency = graph.store.pages.adjacency)
    (counts : store.info.entityCount = graph.store.info.entityCount) :
    Refused graph { mid with store := store, index := index } contents :=
  ⟨congrArg (fun g => { g with store := store, index := index }) charged, holds, slots,
    adjacency, counts⟩

theorem Charged.unversioned (charged : Charged graph mid)
    (unversioned : graph.Unversioned contents) : mid.Unversioned contents := by
  rw [charged]
  exact ⟨unversioned.mode, unversioned.store, unversioned.named, unversioned.live⟩

/-- An update re-indexes before its record may be refused. -/
theorem sat_update_refused {checks : GraphM Record} {reconcile : Record → GraphM Unit}
    {kind : EntityKind} {record : Record} (unversioned : graph.Unversioned contents)
    (charged : Sat checks graph (fun _ after => Charged graph after)
      (fun _ after => Charged graph after))
    (reindexes : ∀ current, ∃ f : Indexes → Indexes, reconcile current = modifyIndex f) :
    Sat (do
        let current ← checks
        reconcile current
        onStore (Store.writeRecordSlot kind record)
        walSync) graph (fun _ _ => True)
      (fun e after => ¬e.AtStorage → (Unchanged graph after ↔ ∀ current,
        answer checks graph = .ok current →
          (final (reconcile current) graph).index = graph.index)) := by
  rw [sat_bind]
  cases ran : checks.run graph with
  | error e after =>
    have charged : Charged graph after := charged.of_error ran
    unfold Sat
    rw [ran]
    refine fun _ => iff_of_true (charged.unchanged unversioned) fun current passed => ?_
    rw [answer, ran] at passed
    cases passed
  | ok current mid =>
    have charged : Charged graph mid := charged.of_ok ran
    have passed : answer checks graph = .ok current := by rw [answer, ran]
    obtain ⟨f, same⟩ := reindexes current
    have same_store : mid.store = graph.store := congrArg (fun g => g.store) charged
    have same_index : mid.index = graph.index := congrArg (fun g => g.index) charged
    unfold Sat
    rw [ran]
    change Sat _ mid _ _
    rw [same, sat_bind, modifyIndex, sat_modify, sat_bind, sat_onStore]
    refine (sat_writeRecordSlot_refused kind record (charged.unversioned unversioned).store).mono
      (fun _ store _ => (sat_walSync_journal _).mono (fun _ _ _ => trivial)
        fun _ _ => False.elim) fun e store failed refused => ?_
    obtain ⟨strings, holds⟩ := failed refused
    have left := charged.refusedWith (f mid.index) holds
      ((congrArg (fun s => s.pages.slots) strings.rest).trans (by rw [same_store]))
      ((congrArg (fun s => s.pages.adjacency) strings.rest).trans (by rw [same_store]))
      ((congrArg (fun s => s.info.entityCount) strings.rest).trans (by rw [same_store]))
    have reindexed : (final (reconcile current) graph).index = f mid.index := by
      rw [same, same_index]
      rfl
    constructor
    · intro unchanged other answered
      obtain rfl : current = other := Except.ok.inj (passed.symm.trans answered)
      exact reindexed.trans unchanged.index
    · intro keeps
      exact left.unchanged unversioned (reindexed.symm.trans (keeps current passed))

theorem sat_writeFresh_refused (charged : Charged graph mid)
    (unversioned : graph.Unversioned contents) (kind : EntityKind) (record : Record) :
    Sat (Store.writeRecordSlot kind record) (takeId mid.store kind) (fun _ _ => True)
      (fun e store => ¬e.AtStorage → Unchanged graph { mid with store := store }) := by
  have same : mid.store = graph.store := congrArg (fun g => g.store) charged
  have holds : StoreIs (takeId mid.store kind) contents :=
    (charged.unversioned unversioned).store.congr ⟨rfl, rfl, rfl, rfl, rfl, rfl, rfl, rfl⟩
  refine (sat_writeRecordSlot_refused kind record holds).mono (fun _ _ => id)
    fun e store failed refused => ?_
  obtain ⟨strings, holds⟩ := failed refused
  have left := charged.refusedWith mid.index holds
    ((congrArg (fun s => s.pages.slots) strings.rest).trans (by rw [same]; rfl))
    ((congrArg (fun s => s.pages.adjacency) strings.rest).trans (by rw [same]; rfl))
    ((congrArg (fun s => s.info.entityCount) strings.rest).trans (by rw [same]; rfl))
  exact left.unchanged unversioned (congrArg (fun g => g.index) charged)

variable (label : String)

theorem sat_addNode_refused (props : Properties) (unversioned : graph.Unversioned contents) :
    Sat (addNode label props) graph (fun _ _ => True)
      (fun e after => ¬e.AtStorage → Unchanged graph after) := by
  unfold addNode
  rw [sat_bind]
  refine (sat_checkQuota_same graph).mono (fun _ checked same => ?_)
    fun _ _ same _ => same ▸ (Charged.refl graph).unchanged unversioned
  rw [same]
  rw [sat_bind]
  refine (sat_chargeBatchOp_charged _ _).mono (fun _ mid charged => ?_)
    fun _ _ charged _ => charged.unchanged unversioned
  rw [sat_bind]
  refine (sat_checkUnique_same _ _ _ _).mono (fun _ checked same => ?_)
    fun _ _ same _ => same ▸ charged.unchanged unversioned
  rw [same]
  simp only [allocateId, modifyMeta, sat_bind, sat_get, sat_onStore, sat_modify, sat_pure]
  apply (sat_writeFresh_refused charged unversioned .node _).relax _
  intro _ store _
  simp only [reconcileNodeInsert, modifyIndex, bumpCount, modifyMeta, modifyAdj, sat_bind,
    sat_modify, sat_onStore]
  exact (sat_walSync_journal _).mono (fun _ _ _ => trivial) fun _ _ => False.elim

theorem sat_addEdge_refused (source target : Nat) (props : Properties)
    (unversioned : graph.Unversioned contents) :
    Sat (addEdge label source target props) graph (fun _ _ => True)
      (fun e after => ¬e.AtStorage → Unchanged graph after) := by
  unfold addEdge
  rw [sat_bind]
  refine (sat_checkQuota_same graph).mono (fun _ checked same => ?_)
    fun _ _ same _ => same ▸ (Charged.refl graph).unchanged unversioned
  rw [same]
  rw [sat_bind]
  refine (sat_chargeBatchOp_charged _ _).mono (fun _ mid charged => ?_)
    fun _ _ charged _ => charged.unchanged unversioned
  rw [sat_bind, sat_get, sat_ite]
  refine ⟨fun _ _ => charged.unchanged unversioned, fun _ => ?_⟩
  rw [sat_ite]
  refine ⟨fun _ _ => charged.unchanged unversioned, fun _ => ?_⟩
  simp only [allocateId, modifyMeta, sat_bind, sat_get, sat_onStore, sat_modify, sat_pure]
  apply (sat_writeFresh_refused charged unversioned .edge _).relax _
  intro _ store _
  simp only [reconcileEdgeInsert, modifyIndex, bumpCount, modifyMeta, sat_bind, sat_modify,
    sat_onStore]
  have mode : mid.mvcc = none := (charged.unversioned unversioned).mode
  apply (sat_addEdgeToAdjacency_refuses source .outgoing _ (by exact mode)).mono _
    (fun _ _ failed refused => absurd failed refused)
  intro _ linked mode
  apply (sat_addEdgeToAdjacency_refuses target .incoming _ mode).mono _
    (fun _ _ failed refused => absurd failed refused)
  intro _ after _
  exact (sat_walSync_journal _).mono (fun _ _ _ => trivial) fun _ _ => False.elim

end Rejections

section Indexed

variable {graph : Graph}

end Indexed

/-- The node of the directory, with a key that no page can hold. -/
def tooLarge : Node :=
  ⟨1, "B", ⟨[(String.ofList (List.replicate 256 'k'), .bool true)], List.nodup_singleton _⟩, {}⟩

def tooLargeUpdated : Graph := final (Mutation.updateNode 1 tooLarge).run oneNode

theorem tooLarge_fails : (Mutation.updateNode 1 tooLarge).run.run oneNode =
    .error (.recordTooLarge 256) tooLargeUpdated := by
  have failed : answer (Mutation.updateNode 1 tooLarge).run oneNode =
      .error (.recordTooLarge 256) := by decide +kernel
  exact run_of_answer failed

end ErmyaGraph.Graph
