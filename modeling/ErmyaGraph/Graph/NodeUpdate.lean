import ErmyaGraph.Graph.Reopening

/-! # Updating a node and its edges

A node value carries the adjacency heads it was decoded with, and an update
stores them with the label and the properties. Its edge queries are the same
afterwards exactly when these heads list what the current ones do. -/

namespace ErmyaGraph

open Outcome Runs Function Graph

namespace Store

def putSlot (store : Store) (key : EntityKey) (slot : Slot) : Store :=
  store.withSlotFile key.kind ((store.pages.slots key.kind).write (pageAndSlot key.id).1
    (((store.pages.slots key.kind).page (pageAndSlot key.id).1).write (pageAndSlot key.id).2 slot))

def SlotsKept (before after : Store) : Prop := after.pages.slots = before.pages.slots

theorem keepsSlots_handleSlotOverflow (key : EntityKey) (encoded : EncodedSlot)
    (previous : Option PageId) : Keeps SlotsKept (handleSlotOverflow key encoded previous) :=
  keeps_handleSlotOverflow_of (fun _ _ => StringsOnly.slots) (fun _ _ => OverflowOnly.slots) key
    encoded previous

theorem sat_writeSlotToPage_allocated {store : Store} {key : EntityKey} (slot : Slot)
    (logWal : Bool) (allocated : (pageAndSlot key.id).1 < (store.pages.slots key.kind).count) :
    Sat (writeSlotToPage key slot logWal) store
      (fun _ after => after.pages.slots = (store.putSlot key slot).pages.slots)
      (fun _ _ => False) := by
  have missing : (pageAndSlot key.id).1 + 1 - (store.pages.slots key.kind).count = 0 :=
    Nat.sub_eq_zero_of_le allocated
  have logged : Sat (walAppendIf logWal (.writeSlot key.kind (pageAndSlot key.id).1
      (pageAndSlot key.id).2 slot none)) store
      (fun _ after => after.pages = store.pages) (fun _ _ => False) := by
    cases logWal with
    | false => exact rfl
    | true => exact rfl
  unfold writeSlotToPage ensureSlotPage
  simp only [sat_bind, sat_get, missing, List.range_zero]
  apply logged.relax _
  intro _ after same
  simp only [readSlotPage, same, allocated, ↓reduceIte, sat_ofResult_ok, setSlotFile, sat_modify]
  rfl

theorem readSlot_slots {before after : Store} (same : after.pages.slots = before.pages.slots)
    (key : EntityKey) : after.readSlot key = before.readSlot key := by
  simp only [readSlot, readSlotPage, same]

theorem sat_writeRecordSlot_slots {store : Store} (kind : EntityKind) (record : Record)
    (pos : 0 < record.id)
    (allocated : (pageAndSlot record.id).1 < (store.pages.slots kind).count) :
    Sat (writeRecordSlot kind record) store
      (fun _ after => ∃ slot, after.readSlot ⟨kind, record.id⟩ = .ok slot ∧
        after.pages.slots = (store.putSlot ⟨kind, record.id⟩ slot).pages.slots)
      (fun _ _ => True) := by
  unfold writeRecordSlot
  rw [sat_bind, sat_ofResult]
  refine ⟨?_, fun _ _ => trivial⟩
  intro encoded _
  rw [sat_bind, sat_get, sat_bind]
  apply (keepsSlots_handleSlotOverflow _ encoded _ store).loose _
  intro slot mid kept
  have kept : mid.pages.slots = store.pages.slots := kept
  apply (sat_writeSlotToPage_allocated slot true _).sure _
  · rw [kept]
    exact allocated
  · intro _ after written
    have written : after.pages.slots =
        (store.putSlot ⟨kind, record.id⟩ slot).pages.slots := by
      rw [written]
      simp only [putSlot, withSlotFile, kept]
    refine ⟨slot, ?_, written⟩
    rw [readSlot_slots written]
    exact (slotWritten_setSlotFile pos allocated).self

theorem slotCount_write (page : SlotPage) (index : Nat) {slot slot' : Slot}
    (flag : slot.flag = slot'.flag) :
    (page.write index slot).slotCount = (page.write index slot').slotCount := by
  have same : ∀ i, ((page.write index slot).slot i).flag = ((page.write index slot').slot i).flag := by
    intro i
    by_cases here : i = index
    · simp [SlotPage.write, here, flag]
    · simp [SlotPage.write, update_of_ne here]
  have counted (slot : Slot) : (page.write index slot).slotCount =
      SlotPage.countUsedSlots (page.write index slot) := rfl
  rw [counted, counted, SlotPage.countUsedSlots, SlotPage.countUsedSlots]
  simp only [same]

end Store

namespace Graph

variable {id : Nat}

open Store

theorem covered_putSlot {store : Store} {key : EntityKey} {slot slot' : Slot}
    (flag : slot.flag = slot'.flag) {other : EntityKey}
    (covered : Covered (store.putSlot key slot) other) :
    Covered (store.putSlot key slot') other := by
  unfold Covered at covered ⊢
  simp only [putSlot, withSlotFile] at covered ⊢
  by_cases kind : other.kind = key.kind
  · rw [kind] at covered ⊢
    simp only [update_self, PageFile.write_count] at covered ⊢
    refine ⟨covered.1, ?_⟩
    by_cases page : (pageAndSlot other.id).1 = (pageAndSlot key.id).1
    · have same := slotCount_write ((store.pages.slots key.kind).page (pageAndSlot key.id).1)
        (pageAndSlot key.id).2 flag
      simp only [PageFile.write, page, update_self] at covered ⊢
      rw [← same]
      exact covered.2
    · simp only [PageFile.write, update_of_ne page] at covered ⊢
      exact covered.2
  · simp only [update_of_ne kind] at covered ⊢
    exact covered

/-- A graph whose storage holds some contents. Its edges in use are on a page or still in a
version chain. -/
structure Stored (graph : Graph) (contents : Contents) : Prop where
  store : StoreIs graph.store contents
  named : Named contents
  positive : ∀ kind, ∀ id ∈ graph.index.present kind, 0 < id
  backed : ∀ id ∈ graph.index.present .edge, graph.chain (.edge id) = [] →
    ∃ record, contents (.edge id) = .live record

def forgetHeads (graph : Graph) (node : Nat) : Graph :=
  { graph with adj := graph.adj.remove node }

/-- The adjacency cache holds the given heads for a node. -/
def cacheHeads (graph : Graph) (node : Nat) (ptr : AdjacencyPointer) : Graph :=
  { graph with adj := { graph.adj with cache := update graph.adj.cache node (some ptr) } }

/-- A step on a node disturbs no edge query: not at once, not once the cache has evicted the
node, and not after a flush and a reopening. -/
structure KeepsEdges (graph after : Graph) (node : Nat) : Prop where
  now : SameEdges graph after
  evicted : SameEdges graph (after.forgetHeads node)
  reopened : ∀ evicts, ∃ again, reopen (final flush after) 0 evicts = .ok again ∧
    SameEdges graph again

/-- The pages with a node's slot pointing to other heads. -/
def relinkSlot (store : Store) (node : Nat) (ptr : AdjacencyPointer) : Store :=
  match store.readSlot (.node node) with
  | .ok slot => store.putSlot (.node node) (slot.patchAdjPointer ptr)
  | .error _ => store

/-- The heads that a node value carries list what the node's own heads list: to readers that
find them in the cache, and to those that have only the pages. -/
structure CarriesHeads (graph : Graph) (node : Node) : Prop where
  cached : ∀ direction, SameAnswer (graph.queriedEdges direction node.id)
    ((graph.cacheHeads node.id node.adj).queriedEdges direction node.id)
  stored : PagesHold graph (relinkSlot graph.store node.id node.adj)

section Update

variable {graph after : Graph} {contents : Contents} {node : Node}

/-- An update of a node as the edge queries see it. -/
structure NodeRewritten (graph after : Graph) (contents : Contents) (node : Node) : Prop where
  positive : 0 < node.id
  adj : after.adj = graph.adj
  present : after.index.present = graph.index.present
  mvcc : after.mvcc = graph.mvcc
  adjacency : after.store.pages.adjacency = graph.store.pages.adjacency
  store : StoreIs after.store
    (update contents (.node node.id) (.live node.toRecord))
  slots : ∃ slot, slot.flag = .live ∧
    after.store.pages.slots = (graph.store.putSlot (.node node.id) slot).pages.slots
  old : ∃ record, contents (.node node.id) = .live record

theorem sat_chargeBatchOp_counters (bytes : Nat) (graph : Graph) :
    Sat (chargeBatchOp bytes) graph
      (fun _ after => ∃ ops total,
        after = { graph with batchOpCount := ops, batchByteCount := total })
      (fun _ _ => True) := by
  unfold chargeBatchOp
  rw [sat_bind, sat_get]
  split
  · exact ⟨graph.batchOpCount, graph.batchByteCount, rfl⟩
  · dsimp only
    split
    · exact trivial
    · exact trivial
    · exact ⟨_, _, rfl⟩

theorem sat_walSync_journal (graph : Graph) :
    Sat Graph.walSync graph
      (fun _ after => ∃ wal, after = { graph with store := { graph.store with wal := wal } })
      (fun _ _ => False) := by
  unfold Graph.walSync
  rw [sat_bind, sat_get]
  split
  · exact ⟨_, rfl⟩
  · exact ⟨_, rfl⟩

theorem Stored.congr (stored : Stored graph contents) (store : SameData graph.store after.store)
    (present : after.index.present = graph.index.present) (mvcc : after.mvcc = graph.mvcc) :
    Stored after contents where
  store := stored.store.congr store
  named := stored.named
  positive := by
    rw [present]
    exact stored.positive
  backed := by
    have chains : ∀ key, after.chain key = graph.chain key := fun key => by rw [chain, mvcc, chain]
    intro id member
    rw [present] at member
    rw [chains]
    exact stored.backed id member

theorem sat_updateNode_rewritten (stored : Stored graph contents) :
    Sat (updateNode node.id node) graph
      (fun _ after => NodeRewritten graph after contents node) (fun _ _ => True) := by
  unfold updateNode
  rw [sat_bind]
  apply (sat_checkQuota_same graph).loose _
  intro _ checked same
  rw [same, sat_bind]
  apply (sat_chargeBatchOp_counters _ _).loose _
  intro _ charged counted
  obtain ⟨ops, total, counters⟩ := counted
  rw [counters, sat_bind]
  apply (sat_currentRecord_same _ _).loose _
  intro current reached outcome
  obtain ⟨unchanged, here, read⟩ := outcome
  rw [unchanged]
  have pos : 0 < node.id := stored.positive .node node.id (of_decide_eq_true here)
  have live : ∃ record, contents (.node node.id) = .live record := by
    have lookup := stored.store.read (show 0 < (EntityKey.node node.id).id from pos)
    cases held : contents (.node node.id) with
    | live record => exact ⟨record, rfl⟩
    | blank =>
      rw [held] at lookup
      obtain ⟨e, failed⟩ := lookup
      exact absurd (read.symm.trans failed) (by simp)
    | erased =>
      rw [held] at lookup
      obtain ⟨e, failed⟩ := lookup
      exact absurd (read.symm.trans failed) (by simp)
  obtain ⟨record, live⟩ := live
  have intact : contents (.node node.id) ≠ .erased := by simp [live]
  rw [sat_bind]
  apply (sat_checkUnique_same _ _ _ _).loose _
  intro _ checked same
  rw [same]
  have allocated : (pageAndSlot node.id).1 < (graph.store.pages.slots .node).count := by
    obtain ⟨slot, found, _⟩ := slot_of_live stored.store pos live
    by_contra missing
    obtain ⟨e, failed⟩ : ∃ e, graph.store.readSlot (.node node.id) = .error e :=
      readSlot_of_le (not_lt.mp missing)
    exact absurd (found.symm.trans failed) (by simp)
  have rewritten : Sat (writeRecordSlot .node node.toRecord) graph.store
      (fun _ store => (StoreIs store (update contents (.node node.id) (.live node.toRecord)) ∧
        ∃ slot, store.readSlot (.node node.id) = .ok slot ∧
          store.pages.slots = (graph.store.putSlot (.node node.id) slot).pages.slots) ∧
        RecordsOnly Plain graph.store store)
      (fun _ _ => True) :=
    (((sat_writeRecordSlot .node node.toRecord stored.store pos intact).loose
      (fun _ _ done => done)).and
      (sat_writeRecordSlot_slots .node node.toRecord pos allocated)).and
      (keeps_writeRecordSlot .node node.toRecord graph.store) |>.loose
        (fun _ _ done => done)
  rw [sat_bind, reconcileNodeUpdate, modifyIndex, sat_modify, sat_bind, sat_onStore]
  apply rewritten.loose _
  intro _ store done
  obtain ⟨⟨holds, slot, found, slots⟩, only⟩ := done
  have flag : slot.flag = .live := by
    obtain ⟨other, read, flag, _⟩ := slot_of_live holds
      (show 0 < (EntityKey.node node.id).id from pos) (update_self _ _ _)
    rw [Except.ok.inj (found.symm.trans read)]
    exact flag
  apply (sat_walSync_journal _).sure _
  intro _ last synced
  obtain ⟨wal, synced⟩ := synced
  rw [synced]
  refine ⟨pos, rfl, ?_, rfl, only.adjacency, ?_, ⟨slot, flag, slots⟩, record, live⟩
  · dsimp only
    split
    · rfl
    · rfl
  · exact holds.congr ⟨rfl, rfl, rfl, rfl, rfl, rfl, rfl, rfl⟩

/-- Two graphs whose edge queries can differ by the heads of nodes alone. -/
structure SameLists (graph after : Graph) (contents contents' : Contents) : Prop where
  present : after.index.present = graph.index.present
  mvcc : after.mvcc = graph.mvcc
  pending : after.adj.pending = graph.adj.pending
  adjacency : after.store.pages.adjacency = graph.store.pages.adjacency
  edges : ∀ id, contents' (.edge id) = contents (.edge id)

variable {contents' : Contents}

theorem SameLists.visibleEdge {startTs : Nat} {reader : Option Nat}
    (same : SameLists graph after contents contents') (stored : Stored graph contents)
    (stored' : Stored after contents') (mem : id ∈ graph.index.present .edge) :
    after.visibleEdge startTs reader id = graph.visibleEdge startTs reader id := by
  have pos := stored.positive .edge id mem
  have chains : after.chain (.edge id) = graph.chain (.edge id) := by rw [chain, same.mvcc, chain]
  have here : graph.exists? (.edge id) := decide_eq_true mem
  have here' : after.exists? (.edge id) := by rw [exists?, same.present]; exact here
  have read := stored.store.read (show 0 < (EntityKey.edge id).id from pos)
  have read' := stored'.store.read (show 0 < (EntityKey.edge id).id from pos)
  rw [same.edges] at read'
  have bases : after.committedBase (.edge id) = graph.committedBase (.edge id) := by
    unfold committedBase
    rw [if_pos here, if_pos here', chains]
    cases held : contents (.edge id) with
    | live record =>
      rw [held] at read read'
      rw [read, read']
    | blank =>
      rw [held] at read read'
      obtain ⟨e, failed⟩ := read
      obtain ⟨e', failed'⟩ := read'
      rw [failed, failed']
      cases empty : graph.chain (.edge id) with
      | cons delta rest => rfl
      | nil =>
        obtain ⟨record, live⟩ := stored.backed id mem empty
        rw [held] at live
        cases live
    | erased =>
      rw [held] at read read'
      obtain ⟨e, failed⟩ := read
      obtain ⟨e', failed'⟩ := read'
      rw [failed, failed']
      cases empty : graph.chain (.edge id) with
      | cons delta rest => rfl
      | nil =>
        obtain ⟨record, live⟩ := stored.backed id mem empty
        rw [held] at live
        cases live
  unfold Graph.visibleEdge
  rw [same.mvcc]
  by_cases legacy : graph.mvcc.isNone
  · have empty : graph.chain (.edge id) = [] := by
      rw [Option.isNone_iff_eq_none] at legacy
      simp [chain, legacy]
    obtain ⟨record, live⟩ := stored.backed id mem empty
    rw [live] at read read'
    rw [if_pos legacy, if_pos legacy, read, read']
  · rw [if_neg legacy, if_neg legacy]
    simp only [resolveVisible, same.mvcc, bases, chains]

theorem SameLists.queriedEdges {direction : AdjDirection}
    (same : SameLists graph after contents contents') (stored : Stored graph contents)
    (stored' : Stored after contents') (heads : after.currentHeads id = graph.currentHeads id) :
    after.queriedEdges direction id = graph.queriedEdges direction id := by
  have exists_ : ∀ key, after.exists? key = graph.exists? key := by
    intro key
    rw [exists?, same.present, exists?]
  have listed : after.listedEdgeIds id direction (graph.currentHeads id) =
      graph.listedEdgeIds id direction (graph.currentHeads id) := by
    unfold listedEdgeIds
    cases (graph.currentHeads id).head direction with
    | none => rfl
    | some head => exact readAdjEdgeIds_adjacency same.adjacency head id direction
  have pending : after.pendingEdges id direction = graph.pendingEdges id direction := by
    rw [pendingEdges, same.pending, pendingEdges]
  have start : after.autoCommitStartTs = graph.autoCommitStartTs := by
    rw [autoCommitStartTs, same.mvcc, autoCommitStartTs]
  have reads : ∀ ids : List Nat, after.visibleEdges graph.autoCommitStartTs none
        (ids.filter fun id => graph.exists? (.edge id)) =
      graph.visibleEdges graph.autoCommitStartTs none
        (ids.filter fun id => graph.exists? (.edge id)) := by
    intro ids
    have each : ∀ id ∈ ids.filter fun id => graph.exists? (.edge id),
        after.visibleEdge graph.autoCommitStartTs none id =
          graph.visibleEdge graph.autoCommitStartTs none id := by
      intro id mem
      exact same.visibleEdge stored stored' (of_decide_eq_true (List.mem_filter.mp mem).2)
    unfold Graph.visibleEdges
    rw [mapM_congr_left each]
  unfold Graph.queriedEdges
  simp only [exists_, heads, listed, pending, start, reads]

theorem currentHeads_eq (graph : Graph) (id : Nat) :
    graph.currentHeads id = (graph.adj.cache id).getD (storedHeads graph.store id) := by
  unfold currentHeads storedHeads
  cases graph.adj.cache id with
  | some ptr => rfl
  | none => rfl

def rewrite (contents : Contents) (node : Node) : Contents :=
  update contents (.node node.id) (.live node.toRecord)

theorem NodeRewritten.stored (done : NodeRewritten graph after contents node)
    (stored : Stored graph contents) : Stored after (rewrite contents node) where
  store := done.store
  named key record live := by
    by_cases here : key = .node node.id
    · subst here
      rw [rewrite, update_self] at live
      cases live
      exact ⟨rfl, trivial⟩
    · rw [rewrite, update_of_ne here] at live
      exact stored.named key record live
  positive := by
    rw [done.present]
    exact stored.positive
  backed id member empty := by
    rw [done.present] at member
    rw [chain, done.mvcc] at empty
    rw [rewrite, update_of_ne (by simp)]
    exact stored.backed id member empty

theorem NodeRewritten.sameLists (done : NodeRewritten graph after contents node) :
    SameLists graph after contents (rewrite contents node) where
  present := done.present
  mvcc := done.mvcc
  pending := by rw [done.adj]
  adjacency := done.adjacency
  edges id := update_of_ne (by simp) _ _

theorem slotPointer_rewrite (contents : Contents) (node : Node) (id : Nat) :
    slotPointer (rewrite contents node) id =
      if id = node.id then node.adj else slotPointer contents id := by
  unfold slotPointer rewrite
  by_cases here : id = node.id
  · subst here
    rw [update_self, if_pos rfl]
    rfl
  · rw [update_of_ne (by simpa using here), if_neg here]

theorem queriedEdges_absent (absent : ¬graph.exists? (.node id)) (direction : AdjDirection) :
    graph.queriedEdges direction id = .error (.nodeNotFound id) := by
  rw [queriedEdges, if_neg absent]

theorem positive_of_exists (stored : Stored graph contents) (here : graph.exists? (.node id)) :
    0 < id :=
  stored.positive .node id (of_decide_eq_true here)

section

variable (done : NodeRewritten graph after contents node)
include done

theorem NodeRewritten.heads_evicted (stored : Stored graph contents) (pos : 0 < id) :
    (after.forgetHeads node.id).currentHeads id =
      (graph.cacheHeads node.id node.adj).currentHeads id := by
  have pages := storedHeads_eq done.store pos
  rw [currentHeads_eq, currentHeads_eq]
  change (update after.adj.cache node.id none id).getD (storedHeads after.store id) =
    (update graph.adj.cache node.id (some node.adj) id).getD
      (storedHeads graph.store id)
  rw [pages, storedHeads_eq stored.store pos, done.adj]
  have relinked := slotPointer_rewrite contents node id
  rw [rewrite] at relinked
  rw [relinked]
  by_cases here : id = node.id
  · subst here
    rw [update_self, update_self, if_pos rfl]
    rfl
  · rw [update_of_ne here, update_of_ne here, if_neg here]

theorem NodeRewritten.heads_now (stored : Stored graph contents) (pos : 0 < id) :
    after.currentHeads id = graph.currentHeads id ∨
      id = node.id ∧ after.currentHeads id = node.adj := by
  rw [currentHeads_eq, currentHeads_eq, done.adj]
  cases graph.adj.cache id with
  | some ptr => exact .inl rfl
  | none =>
    have relinked := slotPointer_rewrite contents node id
    rw [rewrite] at relinked
    rw [storedHeads_eq done.store pos, storedHeads_eq stored.store pos, relinked]
    by_cases here : id = node.id
    · exact .inr ⟨here, by rw [if_pos here]; rfl⟩
    · exact .inl (by rw [if_neg here])

theorem NodeRewritten.queried_evicted
    (stored : Stored graph contents) (direction : AdjDirection) (id : Nat) :
    (after.forgetHeads node.id).queriedEdges direction id =
      (graph.cacheHeads node.id node.adj).queriedEdges direction id := by
  have cached : Stored (graph.cacheHeads node.id node.adj) contents :=
    stored.congr ⟨rfl, rfl, rfl, rfl, rfl, rfl, rfl, rfl⟩ rfl rfl
  have forgot : Stored (after.forgetHeads node.id) (rewrite contents node) :=
    (done.stored stored).congr ⟨rfl, rfl, rfl, rfl, rfl, rfl, rfl, rfl⟩ rfl rfl
  have lists := done.sameLists
  have same : SameLists (graph.cacheHeads node.id node.adj) (after.forgetHeads node.id) contents
      (rewrite contents node) :=
    ⟨lists.present, lists.mvcc, lists.pending, lists.adjacency, lists.edges⟩
  by_cases here : graph.exists? (.node id)
  · exact same.queriedEdges cached forgot
      (done.heads_evicted stored (positive_of_exists stored here))
  · have gone : ¬(after.forgetHeads node.id).exists? (.node id) := by
      rw [exists?, same.present]
      exact here
    have gone' : ¬(graph.cacheHeads node.id node.adj).exists? (.node id) := here
    rw [queriedEdges_absent gone, queriedEdges_absent gone']

end

theorem queriedEdges_cacheHeads {other : Nat} (apart : other ≠ id) (ptr : AdjacencyPointer)
    (direction : AdjDirection) :
    (graph.cacheHeads id ptr).queriedEdges direction other = graph.queriedEdges direction other := by
  have heads : (graph.cacheHeads id ptr).currentHeads other = graph.currentHeads other := by
    rw [currentHeads_eq, currentHeads_eq]
    change (update graph.adj.cache id (some ptr) other).getD _ = _
    rw [update_of_ne apart]
    rfl
  unfold queriedEdges
  rw [heads]
  rfl

theorem NodeRewritten.queried_now (done : NodeRewritten graph after contents node)
    (stored : Stored graph contents) (direction : AdjDirection) (id : Nat) :
    after.queriedEdges direction id = graph.queriedEdges direction id ∨
      id = node.id ∧ after.queriedEdges direction id =
        (graph.cacheHeads node.id node.adj).queriedEdges direction id := by
  have same := done.sameLists
  by_cases here : graph.exists? (.node id)
  · obtain heads | ⟨rfl, heads⟩ := done.heads_now stored (positive_of_exists stored here)
    · exact .inl (same.queriedEdges stored (done.stored stored) heads)
    · have cached : Stored (graph.cacheHeads node.id node.adj) contents :=
        stored.congr ⟨rfl, rfl, rfl, rfl, rfl, rfl, rfl, rfl⟩ rfl rfl
      have same' : SameLists (graph.cacheHeads node.id node.adj) after contents
          (rewrite contents node) :=
        ⟨same.present, same.mvcc, same.pending, same.adjacency, same.edges⟩
      refine .inr ⟨rfl, same'.queriedEdges cached (done.stored stored) ?_⟩
      rw [heads, currentHeads_eq]
      change node.adj = (update graph.adj.cache node.id (some node.adj) node.id).getD _
      rw [update_self]
      rfl
  · have gone : ¬after.exists? (.node id) := by
      rw [exists?, same.present]
      exact here
    rw [queriedEdges_absent gone, queriedEdges_absent here]
    exact .inl rfl

/-- The pages after an update lead to what the pages with the value's heads lead to. -/
theorem NodeRewritten.relinked (done : NodeRewritten graph after contents node)
    (stored : Stored graph contents) :
    ∃ relinked, StoreIs (relinkSlot graph.store node.id node.adj) relinked ∧ Named relinked ∧
      SamePages (relinkSlot graph.store node.id node.adj) after.store relinked
        (rewrite contents node) := by
  have pos : 0 < (EntityKey.node node.id).id := done.positive
  obtain ⟨record, live⟩ := done.old
  obtain ⟨slot, found, flag, _, _⟩ := slot_of_live stored.store pos live
  have allocated : (pageAndSlot (EntityKey.node node.id).id).1 <
      (graph.store.pages.slots (EntityKey.node node.id).kind).count := by
    by_contra missing
    obtain ⟨e, failed⟩ := readSlot_of_le (not_lt.mp missing)
    exact absurd (found.symm.trans failed) (by simp)
  have relink : relinkSlot graph.store node.id node.adj =
      graph.store.putSlot (.node node.id) (slot.patchAdjPointer node.adj) := by
    rw [relinkSlot, found]
  let relinked : Contents := update contents (.node node.id) (.live (record.withHeads node.adj))
  have holds : StoreIs (relinkSlot graph.store node.id node.adj) relinked := by
    have slots := sat_writeSlotToPage_allocated (slot.patchAdjPointer node.adj) false allocated
    have rest : Sat (writeSlotToPage (.node node.id) (slot.patchAdjPointer node.adj) false)
        graph.store (fun _ store => SlotWritten graph.store store (.node node.id)
          (slot.patchAdjPointer node.adj)) (fun _ _ => False) :=
      sat_writeSlotToPage _ false pos
    have heads := sat_writeHeads node.adj false stored.store pos live found
    obtain ⟨_, store, _, ⟨⟨holds, written⟩, pages⟩⟩ :=
      (((heads.and rest).and slots).mono (fun _ _ all => all) (fun _ _ failed => failed.2)).exists_run
    obtain ⟨wal, same⟩ := written.rest
    rw [relink]
    refine holds.congr ⟨pages.symm, ?_, ?_, ?_, ?_, ?_, ?_, ?_⟩ <;> rw [same] <;> rfl
  have named : Named relinked := by
    intro key held there
    by_cases here : key = .node node.id
    · subst here
      simp only [relinked, update_self, Content.live.injEq] at there
      rw [← there]
      exact (stored.named _ record live).withHeads rfl node.adj
    · simp only [relinked, update_of_ne here] at there
      exact stored.named key held there
  refine ⟨relinked, holds, named, ?_, ?_, ?_, ?_⟩
  · obtain ⟨slot', flag', slots⟩ := done.slots
    have flags : slot'.flag = (slot.patchAdjPointer node.adj).flag := flag'.trans flag.symm
    intro kind
    ext id
    have covered : Covered after.store ⟨kind, id⟩ ↔
        Covered (relinkSlot graph.store node.id node.adj) ⟨kind, id⟩ := by
      rw [covered_slots slots, relink]
      exact ⟨covered_putSlot flags, covered_putSlot flags.symm⟩
    have live : (∃ held, rewrite contents node ⟨kind, id⟩ = .live held) ↔
        ∃ held, relinked ⟨kind, id⟩ = .live held := by
      by_cases here : (⟨kind, id⟩ : EntityKey) = .node node.id
      · simp [rewrite, relinked, here]
      · simp [rewrite, relinked, here]
    rw [mem_foundIds (done.stored stored).store (done.stored stored).named,
      mem_foundIds holds named, covered, live]
  · rw [done.adjacency, relink]
    rfl
  · intro id
    simp [relinked, rewrite]
  · funext id
    rw [slotPointer_rewrite]
    unfold slotPointer
    by_cases here : id = node.id
    · subst here
      simp [relinked, Record.withHeads, Link.pointer]
    · simp [relinked, here]

/-- An update of a node leaves every edge query as it was, now, after an eviction of its cache
entry and after a flush and a reopening, exactly when the heads its value carries list what the
node's own heads list. -/
theorem updateNode_keepsEdges_iff (stored : Stored graph contents)
    (updated : (updateNode node.id node).run graph = .ok () after) :
    KeepsEdges graph after node.id ↔ CarriesHeads graph node := by
  have done := (sat_of_run updated).mp (sat_updateNode_rewritten stored)
  have holds := (done.stored stored).store
  have named := (done.stored stored).named
  obtain ⟨relinked, holds', named', same⟩ := done.relinked stored
  have evicted : SameEdges graph (after.forgetHeads node.id) ↔
      ∀ direction, SameAnswer (graph.queriedEdges direction node.id)
        ((graph.cacheHeads node.id node.adj).queriedEdges direction node.id) := by
    constructor
    · intro edges direction
      have agree := edges direction node.id
      rw [answer_edgesOf, answer_edgesOf, done.queried_evicted stored] at agree
      exact agree
    · intro agree direction id
      rw [answer_edgesOf, answer_edgesOf, done.queried_evicted stored]
      by_cases here : id = node.id
      · subst here
        exact agree direction
      · rw [queriedEdges_cacheHeads here]
        exact SameAnswer.refl _
  have reopened : (∀ evicts, ∃ again, reopen (final flush after) 0 evicts = .ok again ∧
      SameEdges graph again) ↔ PagesHold graph after.store := reopened_iff holds named
  constructor
  · intro keeps
    exact ⟨evicted.mp keeps.evicted,
      same.symm.pagesHold holds named holds' (reopened.mp keeps.reopened)⟩
  · intro carries
    refine ⟨fun direction id => ?_, evicted.mpr carries.cached,
      reopened.mpr (same.pagesHold holds' named' holds carries.stored)⟩
    rw [answer_edgesOf, answer_edgesOf]
    obtain unchanged | ⟨rfl, stale⟩ := done.queried_now stored direction id
    · rw [unchanged]
      exact SameAnswer.refl _
    · rw [stale]
      exact carries.cached direction

theorem Consistent.stored (consistent : graph.Consistent contents) : Stored graph contents where
  store := consistent.legacy.store
  named := consistent.legacy.allotted
  positive kind id member := by
    cases kind with
    | node => exact (consistent.legacy.nodesLive id member).1
    | edge => exact (consistent.legacy.edgesLive id member).1
  backed id member _ := by
    obtain ⟨_, record, live, _⟩ := consistent.legacy.edgesLive id member
    exact ⟨record, live⟩

end Update

def oneNode : Graph := (fresh true fun _ _ => false).after (.addNode "A" .empty)

def readEarly : Node := ⟨1, "A", .empty, {}⟩

def looped : Graph := oneNode.after (.addEdge "L" 1 1 .empty)

def staleUpdated : Graph := final (updateNode readEarly.id readEarly) looped

theorem oneNode_consistent : ∃ contents, oneNode.Consistent contents := by
  have ok : succeeds (Op.addNode "A" .empty).run (fresh true fun _ _ => false) := by
    decide +kernel
  have created : Sat (Op.addNode "A" .empty).run (fresh true fun _ _ => false)
      (fun _ after => ∃ contents', Stepped (fresh true fun _ _ => false) after
        (fun _ => .blank) contents' fun _ => False) (fun _ _ => True) :=
    sat_discard.mpr (sat_addNode_legacy "A" .empty (consistent_fresh true fun _ _ => false))
  obtain ⟨contents, stepped⟩ := created.final_of_succeeds ok
  exact ⟨contents, stepped.consistent⟩

theorem oneNode_stored : ∃ contents, Stored oneNode contents :=
  oneNode_consistent.imp fun _ consistent => consistent.stored

/-- Stored back at once, the value keeps the edges if it carries the right heads. -/
theorem updateNode_keepsEdges_oneNode :
    KeepsEdges oneNode (final (updateNode readEarly.id readEarly) oneNode) readEarly.id ↔
      CarriesHeads oneNode readEarly := by
  have ok : succeeds (updateNode readEarly.id readEarly) oneNode := by decide +kernel
  obtain ⟨contents, stored⟩ := oneNode_stored
  exact updateNode_keepsEdges_iff stored (run_of_succeeds ok)

theorem looped_run : ∃ past, oneNode ∈ past ∧
    Run EdgeCall after (fresh true fun _ _ => false) past looped := by
  have created : EdgeCall [fresh true fun _ _ => false] (fresh true fun _ _ => false)
      (Op.addNode "A" .empty) := ⟨by decide +kernel, trivial⟩
  have first : Run EdgeCall after (fresh true fun _ _ => false)
      [oneNode, fresh true fun _ _ => false] oneNode :=
    Run.step (Op.addNode "A" .empty) Run.start created
  have linked : EdgeCall [oneNode, fresh true fun _ _ => false] oneNode
      (Op.addEdge "L" 1 1 .empty) := ⟨by decide +kernel, trivial⟩
  have second : Run EdgeCall after (fresh true fun _ _ => false)
      [looped, oneNode, fresh true fun _ _ => false] looped :=
    Run.step (Op.addEdge "L" 1 1 .empty) first linked
  exact ⟨_, List.mem_cons_of_mem _ List.mem_cons_self, second⟩

theorem stale_update_succeeds :
    (updateNode readEarly.id readEarly).run looped = .ok () staleUpdated := by
  have ok : succeeds (updateNode readEarly.id readEarly) looped := by decide +kernel
  exact run_of_succeeds ok

theorem staleUpdated_loses_loop :
    (answer (edgesOf .outgoing 1) looped).toOption.map List.length = some 1 ∧
      (answer (edgesOf .outgoing 1) (staleUpdated.forgetHeads readEarly.id)).toOption.map
        List.length = some 0 := by
  decide +kernel

theorem SameAnswer.length {left right : Except Error (List Edge)} (same : SameAnswer left right)
    (empty : right.toOption.map List.length = some 0) : left.toOption.map List.length = some 0 := by
  cases left with
  | error e =>
    cases right with
    | error e' => cases empty
    | ok edges' => exact same.elim
  | ok edges =>
    cases right with
    | error e => exact same.elim
    | ok edges' =>
      have none : edges' = [] := List.length_eq_zero_iff.mp (Option.some.inj empty)
      have gone : edges = [] := by
        apply List.eq_nil_iff_forall_not_mem.mpr
        intro edge mem
        have mem' := (same edge).mp mem
        rw [none] at mem'
        cases mem'
      rw [gone]
      rfl

theorem KeepsEdges.empty {graph after : Graph} {node : Nat} (keeps : KeepsEdges graph after node)
    {direction : AdjDirection}
    (empty : (answer (edgesOf direction id) (after.forgetHeads node)).toOption.map List.length =
      some 0) : (answer (edgesOf direction id) graph).toOption.map List.length = some 0 :=
  (keeps.evicted direction id).length empty

theorem updateNode_loses_edges :
    ¬∀ wal evicts past graph, Run EdgeCall after (fresh wal evicts) past graph →
      ∀ node origin, origin ∈ past → origin.node node.id = .ok node →
        ∀ after, (updateNode node.id node).run graph = .ok () after →
          KeepsEdges graph after node.id := by
  intro claim
  obtain ⟨past, member, run⟩ := looped_run
  have read : oneNode.node readEarly.id = .ok readEarly := by decide +kernel
  have keeps := claim _ _ past looped run readEarly oneNode member read staleUpdated
    stale_update_succeeds
  have one := staleUpdated_loses_loop.1
  have zero := keeps.empty staleUpdated_loses_loop.2
  exact absurd (one.symm.trans zero) (by decide)

end Graph

end ErmyaGraph
