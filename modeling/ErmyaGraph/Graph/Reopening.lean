import ErmyaGraph.Graph.Opening

/-! # Opening a directory again

What an opened graph answers is read off its pages, so stores whose pages lead
to the same lists open to graphs that answer alike. -/

namespace ErmyaGraph.Graph

open Outcome List

open Store

theorem covered_slots {before after : Store} (same : after.pages.slots = before.pages.slots)
    (key : EntityKey) : Covered after key ↔ Covered before key := by
  rw [Covered, Covered, same]

theorem mapM_congr_left {α β ε : Type} {f g : α → Except ε β} {items : List α}
    (each : ∀ a ∈ items, f a = g a) : items.mapM f = items.mapM g := by
  induction items with
  | nil => rfl
  | cons a rest ih =>
    rw [mapM_cons, mapM_cons, each a mem_cons_self,
      ih fun b mem => each b (mem_cons_of_mem a mem)]

section Pages

variable {store after : Store} (same : after.pages = store.pages)
include same

theorem foundIds_pages (kind : EntityKind) : foundIds after kind = foundIds store kind := by
  unfold foundIds liveOf
  rw [same]

theorem storedHeads_pages (node : Nat) : storedHeads after node = storedHeads store node := by
  unfold Graph.storedHeads
  rw [readSlot_pages same]

theorem listedAt_pages (node : Nat) (direction : AdjDirection) (ptr : AdjacencyPointer) :
    listedAt after node direction ptr = listedAt store node direction ptr := by
  unfold listedAt
  cases ptr.head direction with
  | none => rfl
  | some head => exact readAdjEdgeIds_adjacency (congrArg Pages.adjacency same) head node direction

theorem pageEdges_pages (direction : AdjDirection) (node : Nat) :
    pageEdges after direction node = pageEdges store direction node := by
  have reads : (fun id => (after.readRecord (.edge id)).map Record.toEdge) =
      fun id => (store.readRecord (.edge id)).map Record.toEdge := by
    funext id
    rw [readRecord_pages same]
  unfold Graph.pageEdges
  rw [foundIds_pages same, foundIds_pages same, storedHeads_pages same, listedAt_pages same, reads]

theorem headReads_pages (head : PageId) : headReads after head ↔ headReads store head := by
  have adjacency := congrArg Pages.adjacency same
  unfold headReads
  rw [isAdjSlabPage_adjacency adjacency, readAdjChainState_adjacency adjacency]

theorem openedIndexes_pages (disk : Disk) :
    openedIndexes disk after = openedIndexes disk store := by
  have labels : rebuildLabels after = rebuildLabels store := by
    funext kind index
    simp only [rebuildLabels, slotLabel_pages same, same]
  have properties : rebuildProperties after = rebuildProperties store := by
    funext index id
    simp only [rebuildProperties, readRecord_pages same]
  have found : foundIds after = foundIds store := funext (foundIds_pages same)
  unfold openedIndexes liveOf
  rw [labels, properties, found, same]

end Pages

section Heads

variable {contents : Contents}

theorem storedHeads_eq {store : Store} {id : Nat} (holds : StoreIs store contents)
    (pos : 0 < id) : storedHeads store id = slotPointer contents id := by
  cases held : contents (.node id) with
  | live record => exact storedHeads_of_storeIs holds pos held
  | blank =>
    unfold storedHeads
    cases found : store.readSlot (.node id) with
    | error e => simp [slotPointer, held]
    | ok slot =>
      have dead : slot.flag ≠ .live := by
        intro flag
        obtain ⟨record, live, _⟩ := live_of_flag holds
          (show 0 < (EntityKey.node id).id from pos) found flag
        rw [held] at live
        cases live
      simp [slotPointer, held, dead]
  | erased =>
    unfold storedHeads
    cases found : store.readSlot (.node id) with
    | error e => simp [slotPointer, held]
    | ok slot =>
      have dead : slot.flag ≠ .live := by
        intro flag
        obtain ⟨record, live, _⟩ := live_of_flag holds
          (show 0 < (EntityKey.node id).id from pos) found flag
        rw [held] at live
        cases live
      simp [slotPointer, held, dead]

end Heads

/-- Two answers to an edge query: the same edges, or failures both. -/
def SameAnswer : Except Error (List Edge) → Except Error (List Edge) → Prop
  | .ok left, .ok right => ∀ edge, edge ∈ left ↔ edge ∈ right
  | .error _, .error _ => True
  | _, _ => False

theorem SameAnswer.refl (answer : Except Error (List Edge)) : SameAnswer answer answer := by
  cases answer with
  | error e => trivial
  | ok edges => exact fun _ => Iff.rfl

def SameEdges (before after : Graph) : Prop :=
  ∀ direction node, SameAnswer (answer (edgesOf direction node) before)
    (answer (edgesOf direction node) after)

/-- The pages alone lead to everything the queries of a graph answer. -/
structure PagesHold (graph : Graph) (store : Store) : Prop where
  heads : ∀ node ∈ foundIds store .node, ∀ direction head,
    (storedHeads store node).head direction = some head → headReads store head
  edges : ∀ direction node, SameAnswer (graph.queriedEdges direction node)
    (pageEdges store direction node)

/-- Two stores whose pages lead to the same lists. -/
structure SamePages (store after : Store) (contents contents' : Contents) : Prop where
  found : ∀ kind, foundIds after kind = foundIds store kind
  adjacency : after.pages.adjacency = store.pages.adjacency
  edges : ∀ id, contents' (.edge id) = contents (.edge id)
  heads : slotPointer contents' = slotPointer contents

section Pages

variable {store after : Store} {contents contents' : Contents}

section

variable (same : SamePages store after contents contents')
include same

theorem SamePages.storedHeads (holds : StoreIs store contents) (holds' : StoreIs after contents')
    {id : Nat} (pos : 0 < id) : Graph.storedHeads after id = Graph.storedHeads store id := by
  rw [storedHeads_eq holds pos, storedHeads_eq holds' pos, same.heads]

theorem SamePages.pageEdges (holds : StoreIs store contents) (named : Named contents)
    (holds' : StoreIs after contents') (direction : AdjDirection) (node : Nat) :
    Graph.pageEdges after direction node = Graph.pageEdges store direction node := by
  unfold Graph.pageEdges
  rw [same.found]
  by_cases here : node ∈ foundIds store .node
  · have pos := ((mem_foundIds holds named).mp here).1
    have listed : listedAt after node direction (Graph.storedHeads after node) =
        listedAt store node direction (Graph.storedHeads store node) := by
      rw [same.storedHeads holds holds' pos]
      unfold listedAt
      cases (Graph.storedHeads store node).head direction with
      | none => rfl
      | some head => exact readAdjEdgeIds_adjacency same.adjacency head node direction
    have reads : ∀ ids : List Nat, (ids.filter fun id => id ∈ foundIds store .edge).mapM
            (fun id => (after.readRecord (.edge id)).map Record.toEdge) =
          (ids.filter fun id => id ∈ foundIds store .edge).mapM
            (fun id => (store.readRecord (.edge id)).map Record.toEdge) := by
      intro ids
      apply mapM_congr_left
      intro id mem
      have found : id ∈ foundIds store .edge := of_decide_eq_true (mem_filter.mp mem).2
      obtain ⟨pos, _, record, live⟩ := (mem_foundIds holds named).mp found
      have read := holds.read (show 0 < (EntityKey.edge id).id from pos)
      have read' := holds'.read (show 0 < (EntityKey.edge id).id from pos)
      rw [same.edges] at read'
      rw [live] at read read'
      rw [read, read']
    rw [if_pos here, if_pos here, listed, same.found]
    simp only [reads]
  · rw [if_neg here, if_neg here]

theorem SamePages.pagesHold {graph : Graph}
    (holds : StoreIs store contents) (named : Named contents) (holds' : StoreIs after contents')
    (pages : PagesHold graph store) : PagesHold graph after where
  heads node mem direction head here := by
    rw [same.found] at mem
    have pos := ((mem_foundIds holds named).mp mem).1
    rw [same.storedHeads holds holds' pos] at here
    have reads := pages.heads node mem direction head here
    unfold headReads at reads ⊢
    rw [isAdjSlabPage_adjacency same.adjacency]
    simpa only [readAdjChainState_adjacency same.adjacency] using reads
  edges direction node := by
    rw [same.pageEdges holds named holds']
    exact pages.edges direction node

theorem SamePages.symm : SamePages after store contents' contents where
  found kind := (same.found kind).symm
  adjacency := same.adjacency.symm
  edges id := (same.edges id).symm
  heads := same.heads.symm

end

theorem samePages_of_pages (holds : StoreIs store contents) (holds' : StoreIs after contents)
    (named : Named contents) (pages : after.pages = store.pages) :
    SamePages store after contents contents where
  found kind := by
    ext id
    rw [mem_foundIds holds named, mem_foundIds holds' named,
      covered_slots (congrArg Pages.slots pages)]
  adjacency := congrArg Pages.adjacency pages
  edges _ := rfl
  heads := rfl

end Pages

section Flush

variable {graph : Graph} {contents : Contents}

def flushedStore (graph : Graph) : Store :=
  openStore (final flush graph).disk ((final flush graph).journalAfter 0)

theorem flushedStore_pages (graph : Graph) : (flushedStore graph).pages = graph.store.pages := by
  unfold flushedStore journalAfter
  rw [show (final flush graph).store.wal = graph.store.wal.map fun _ => {} from rfl]
  cases graph.store.wal with
  | none => rfl
  | some wal => rfl

theorem storeIs_flushedStore (holds : StoreIs graph.store contents) :
    StoreIs (flushedStore graph) contents := by
  obtain ⟨blobs, ⟨use, free, layout, each⟩, heap, slots⟩ := holds
  have reopened : ∃ wal info, flushedStore graph =
      { pages := graph.store.pages, info := info, wal := wal
        heapOffset := graph.store.heapOffset } ∧
      info.freeDirectoryHead = graph.store.info.freeDirectoryHead ∧
      info.freeSparePage = graph.store.info.freeSparePage := by
    unfold flushedStore journalAfter
    rw [show (final flush graph).store.wal = graph.store.wal.map fun _ => {} from rfl]
    cases graph.store.wal with
    | none => exact ⟨_, _, rfl, rfl, rfl⟩
    | some wal => exact ⟨_, _, rfl, rfl, rfl⟩
  obtain ⟨wal, info, same, directory, spare⟩ := reopened
  rw [same]
  have layout' : Layout { graph.store with info := info, propSlabOpenPage := none } use free := by
    refine ⟨?_, layout.nodup, layout.bounded, layout.unused, ?_⟩
    · rw [directory, spare]
      exact layout.listed
    · intro page opened
      cases opened
  have texts : KeepsTexts graph.store
      { pages := graph.store.pages, info := info, wal := wal
        heapOffset := graph.store.heapOffset } := keepsTexts_of_strings rfl rfl
  refine ⟨blobs, ⟨use, free, ⟨layout'.listed, layout'.nodup, layout'.bounded, layout'.unused,
    layout'.openPage⟩, each⟩, ⟨heap.cursor, fun entry mem => (nomatch mem)⟩, ?_⟩
  intro key pos
  exact (slots key pos).congr (.inl rfl) texts fun _ _ _ _ _ _ known => known

theorem foldlM_ok {α β ε : Type} {f : β → α → Except ε β} {items : List α}
    (each : ∀ acc, ∀ item ∈ items, ∃ acc', f acc item = .ok acc') (init : β) :
    ∃ result, items.foldlM f init = .ok result := by
  induction items generalizing init with
  | nil => exact ⟨init, rfl⟩
  | cons item rest ih =>
    obtain ⟨next, ok⟩ := each init item mem_cons_self
    obtain ⟨result, done⟩ := ih (fun acc other mem =>
      each acc other (mem_cons_of_mem item mem)) next
    refine ⟨result, ?_⟩
    rw [foldlM_cons, ok]
    exact done

variable {store : Store} {kind : EntityKind}

theorem slotLabel_of_mem_liveOf (holds : StoreIs store contents) (named : Named contents)
    {slot : Slot} (mem : slot ∈ liveOf store kind) :
    ∃ record, contents ⟨kind, slot.id⟩ = .live record ∧
      store.slotLabel slot = .ok record.label := by
  have names := slotsNamed_of_storeIs holds named
  obtain ⟨pos, _, read, flag⟩ := found_of_mem_liveOf names mem
  have pos : 0 < (EntityKey.mk kind slot.id).id := pos
  obtain ⟨record, live, _⟩ := live_of_flag holds pos read flag
  obtain ⟨blobs, represents⟩ := holds
  have here := represents.slots _ pos
  rw [live] at here
  obtain ⟨other, found, slotHolds⟩ := here
  obtain rfl : other = slot := Except.ok.inj (found.symm.trans read)
  refine ⟨record, live, ?_⟩
  obtain inline | ⟨offset, overflow, text⟩ := slotHolds.label
  · rw [slotLabel, inline]
  · rw [slotLabel, overflow]
    exact text.resolve represents.heap

theorem readRecord_of_found (holds : StoreIs store contents) (named : Named contents) {id : Nat}
    (found : id ∈ foundIds store kind) :
    ∃ record, contents ⟨kind, id⟩ = .live record ∧ store.readRecord ⟨kind, id⟩ = .ok record := by
  obtain ⟨pos, _, record, live⟩ := (mem_foundIds holds named).mp found
  have lookup := holds.read (show 0 < (EntityKey.mk kind id).id from pos)
  rw [live] at lookup
  exact ⟨record, live, lookup⟩

theorem openedIndexes_ok (disk : Disk) (holds : StoreIs store contents) (named : Named contents) :
    ∃ index, openedIndexes disk store = .ok index := by
  have properties (index : Indexes) : ∃ index',
      ((liveOf store .node).map Slot.id).dedup.foldlM (rebuildProperties store) index =
        .ok index' := by
    apply foldlM_ok
    intro index id mem
    have found : id ∈ foundIds store .node := by
      rw [foundIds, mem_toFinset]
      exact mem_dedup.mp mem
    obtain ⟨record, _, read⟩ := readRecord_of_found holds named found
    have read : store.readRecord (.node id) = .ok record := read
    exact ⟨_, by rw [rebuildProperties, read]; rfl⟩
  have labels (kind : EntityKind) (index : Indexes) : ∃ index',
      rebuildLabels store kind index = .ok index' := by
    apply foldlM_ok
    intro index slot mem
    obtain ⟨record, _, label⟩ := slotLabel_of_mem_liveOf holds named mem
    exact ⟨_, by rw [label]; rfl⟩
  unfold openedIndexes
  cases disk.labels with
  | some labels => exact properties _
  | none =>
    obtain ⟨nodes, ok⟩ := labels .node
      ((liveOf store .edge).foldl insertScannedPair { present := foundIds store })
    obtain ⟨edges, ok'⟩ := labels .edge ((liveOf store .edge).foldl insertScannedPair nodes)
    obtain ⟨index, done⟩ := properties edges
    refine ⟨index, ?_⟩
    dsimp only
    rw [ok]
    change (rebuildLabels store .edge ((liveOf store .edge).foldl insertScannedPair nodes) >>=
      fun index => ((liveOf store .node).map Slot.id).dedup.foldlM (rebuildProperties store)
        index) = _
    rw [ok']
    exact done

/-- What a flush and an opening keep is exactly what the pages lead to. -/
theorem reopened_iff {before : Graph} (holds : StoreIs graph.store contents)
    (named : Named contents) :
    (∀ evicts, ∃ again, reopen (final flush graph) 0 evicts = .ok again ∧
      SameEdges before again) ↔ PagesHold before graph.store := by
  have flushed := storeIs_flushedStore holds
  have names := slotsNamed_of_storeIs flushed named
  have same := samePages_of_pages holds flushed named (flushedStore_pages graph)
  have answers {evicts : Nat → Nat → Bool} {again : Graph}
      (opened : reopen (final flush graph) 0 evicts = .ok again) :
      ∀ direction node, answer (edgesOf direction node) again =
        pageEdges (flushedStore graph) direction node :=
    (open_opened opened).1.answer names
  constructor
  · intro reopened
    obtain ⟨again, opened, edges⟩ := reopened fun _ _ => false
    have read := (open_opened opened).2.1
    have held : PagesHold before (flushedStore graph) := by
      refine ⟨fun node mem direction head here => ?_, fun direction node => ?_⟩
      · rw [foundIds, mem_toFinset] at mem
        obtain ⟨slot, scanned, rfl⟩ := mem_map.mp mem
        obtain ⟨_, _, found, flag⟩ := found_of_mem_liveOf names scanned
        apply read slot scanned direction head
        rw [Graph.storedHeads, found] at here
        simpa only [flag, ↓reduceIte] using here
      · have agree := edges direction node
        rw [answers opened, answer_edgesOf] at agree
        exact agree
    exact same.symm.pagesHold flushed named holds held
  · intro held evicts
    have held := same.pagesHold holds named flushed held
    have reads : ∀ slot ∈ liveOf (flushedStore graph) .node,
        headsRead (flushedStore graph) slot := by
      intro slot scanned direction head here
      obtain ⟨_, _, found, flag⟩ := found_of_mem_liveOf names scanned
      have mem : slot.id ∈ foundIds (flushedStore graph) .node :=
        mem_toFinset.mpr (mem_map_of_mem scanned)
      apply held.heads slot.id mem direction head
      rw [Graph.storedHeads, found]
      simpa only [flag, ↓reduceIte] using here
    obtain ⟨index, indexes⟩ := openedIndexes_ok (final flush graph).disk flushed named
    obtain ⟨again, opened⟩ := open_of_reads evicts reads indexes
    refine ⟨again, opened, fun direction node => ?_⟩
    rw [answers opened, answer_edgesOf]
    exact held.edges direction node

end Flush

end ErmyaGraph.Graph
