import ErmyaGraph.Graph.Exactness
import ErmyaGraph.Graph.WriteMoves

/-! # What an opening graph finds

Recovery leaves the data files; opening scans their slots and rebuilds the
caches and the indexes from them. The edge queries of the opened graph answer
what the pages say, whatever the caches keep. -/

namespace ErmyaGraph

open Outcome Store List

namespace Store

section Adjacency

variable {store after : Store} (same : after.pages.adjacency = store.pages.adjacency)

include same

variable (page : PageId)

theorem readAdjPage_adjacency : after.readAdjPage page = store.readAdjPage page := by
  simp only [readAdjPage, same]

theorem readContinuation_adjacency (total fuel : Nat) (next : Option PageId) (edges : List Nat) :
    after.readContinuation total fuel next edges = store.readContinuation total fuel next edges := by
  induction fuel generalizing next edges with
  | zero => rfl
  | succ fuel ih =>
    cases next with
    | none => rfl
    | some page => simp only [readContinuation, readAdjPage_adjacency same, ih]

theorem isAdjSlabPage_adjacency : after.isAdjSlabPage page = store.isAdjSlabPage page := by
  simp only [isAdjSlabPage, readAdjPage_adjacency same]

theorem readAdjChainState_adjacency :
    after.readAdjChainState page = store.readAdjChainState page := by
  simp only [readAdjChainState, readAdjPage_adjacency same]

theorem readAdjEdgeIds_adjacency (head node : Nat) (direction : AdjDirection) :
    after.readAdjEdgeIds head node direction = store.readAdjEdgeIds head node direction := by
  simp only [readAdjEdgeIds, isAdjSlabPage_adjacency same, readSubblock, subblocks, readAdjacency,
    readAdjPage_adjacency same, readContinuation_adjacency same]

end Adjacency

section Pages

variable {store after : Store} (same : after.pages = store.pages)

include same

theorem readOverflowPage_pages (page : PageId) :
    after.readOverflowPage page = store.readOverflowPage page := by
  simp only [readOverflowPage, same]

theorem readContPages_pages (total fuel : Nat) (next : Option PageId) (data : List UInt8) :
    after.readContPages total fuel next data = store.readContPages total fuel next data := by
  induction fuel generalizing next data with
  | zero => rfl
  | succ fuel ih =>
    cases next with
    | none => rfl
    | some page => simp only [readContPages, readOverflowPage_pages same, ih]

variable (key : EntityKey)

theorem readSlot_pages : after.readSlot key = store.readSlot key := by
  simp only [readSlot, readSlotPage, same]

theorem slotLabel_pages (slot : Slot) : after.slotLabel slot = store.slotLabel slot := by
  unfold slotLabel
  cases slot.label with
  | inline text => rfl
  | overflow offset =>
    simp only [heapResolve, same]

theorem slotPropBytes_pages (slot : Slot) :
    after.slotPropBytes key slot = store.slotPropBytes key slot := by
  unfold slotPropBytes
  cases slot.propOverflow? with
  | none => rfl
  | some page =>
    simp only [readOverflowedProps, isSlabPage, slabEntries, readOverflow,
      readOverflowPage_pages same, readContPages_pages same]
    rfl

theorem readRecord_pages : after.readRecord key = store.readRecord key := by
  simp only [readRecord, readSlot_pages same, slotLabel_pages same, slotPropBytes_pages same]

end Pages
end Store

namespace Graph

variable {slot : Slot} {adj' : AdjState} {kind : EntityKind}

abbrev liveOf (store : Store) (kind : EntityKind) : List Slot := liveSlots (store.pages.slots kind)

/-- A head leads to a shared page or to the first page of a chain. -/
def headReads (store : Store) (head : PageId) : Prop :=
  store.isAdjSlabPage head = .ok true ∨
    store.isAdjSlabPage head = .ok false ∧ ∃ state, store.readAdjChainState head = .ok state

/-- Both heads of a slot lead to pages that can be read. -/
def headsRead (store : Store) (slot : Slot) : Prop :=
  ∀ direction head, slot.link.pointer.head direction = some head → headReads store head

/-- A rebuilt cache holds heads of live slots only, and remembers the ends of their chains. -/
structure Rebuilt (store : Store) (slots : List Slot) (adj : AdjState) : Prop where
  cache : ∀ node ptr, adj.cache node = some ptr → ∃ slot ∈ slots, slot.id = node ∧
    slot.link.pointer = ptr
  tails : ∀ node direction state, adj.tails node direction = some state →
    ∃ slot ∈ slots, slot.id = node ∧ ∃ head, slot.link.pointer.head direction = some head ∧
      store.isAdjSlabPage head = .ok false ∧ store.readAdjChainState head = .ok state
  openSlab : ∀ direction, adj.openSlab direction = none
  pending : adj.pending = []

variable {store : Store} {slots : List Slot} {adj : AdjState}

theorem Rebuilt.insert (rebuilt : Rebuilt store slots adj) (mem : slot ∈ slots) :
    Rebuilt store slots (adj.insert slot.id slot.link.pointer) where
  cache node ptr cached := by
    simp only [AdjState.insert] at cached
    split at cached
    · next same => exact ⟨slot, mem, same.symm, Option.some.inj cached⟩
    · split at cached
      · cases cached
      · exact rebuilt.cache node ptr cached
  tails := rebuilt.tails
  openSlab := rebuilt.openSlab
  pending := rebuilt.pending

variable {direction : AdjDirection}

theorem Rebuilt.insertTail {head : PageId} {state : ChainState} (rebuilt : Rebuilt store slots adj)
    (mem : slot ∈ slots) (here : slot.link.pointer.head direction = some head)
    (dedicated : store.isAdjSlabPage head = .ok false)
    (read : store.readAdjChainState head = .ok state) :
    Rebuilt store slots (adj.insertTail slot.id direction state) where
  cache := rebuilt.cache
  tails node side other remembered := by
    simp only [AdjState.insertTail] at remembered
    split at remembered
    · next same =>
        obtain ⟨rfl, rfl⟩ := same
        cases remembered
        exact ⟨slot, mem, rfl, head, here, dedicated, read⟩
    · split at remembered
      · cases remembered
      · exact rebuilt.tails node side other remembered
  openSlab := rebuilt.openSlab
  pending := rebuilt.pending

/-- What caching the end of one of a slot's chains does. -/
def rebuildTail (store : Store) (slot : Slot) (adj : AdjState) (direction : AdjDirection) :
    Except Error AdjState :=
  match slot.link.pointer.head direction with
  | none => .ok adj
  | some head =>
    match store.isAdjSlabPage head with
    | .error e => .error e
    | .ok true => .ok adj
    | .ok false => (store.readAdjChainState head).map (adj.insertTail slot.id direction)

theorem rebuildAdjSlot_eq (store : Store) (adj : AdjState) (slot : Slot) :
    rebuildAdjSlot store adj slot =
      if slot.link.pointer.isAbsent then .ok adj
      else (rebuildTail store slot (adj.insert slot.id slot.link.pointer) .outgoing).bind
        fun adj => rebuildTail store slot adj .incoming := by
  have step (adj : AdjState) (direction : AdjDirection) :
      (match slot.link.pointer.head direction with
        | none => pure adj
        | some head => do
          if ← store.isAdjSlabPage head then
            pure adj
          else do
            let state ← store.readAdjChainState head
            pure (adj.insertTail slot.id direction state) : Except Error AdjState) =
        rebuildTail store slot adj direction := by
    unfold rebuildTail
    cases slot.link.pointer.head direction with
    | none => rfl
    | some head =>
      cases slab : store.isAdjSlabPage head with
      | error e => simp [slab, bind, Except.bind]
      | ok shared =>
        cases shared with
        | true => simp [slab, bind, Except.bind, pure, Except.pure]
        | false =>
          cases read : store.readAdjChainState head with
          | error e => simp [slab, read, bind, Except.bind, Except.map]
          | ok state => simp [slab, read, bind, Except.bind, pure, Except.pure, Except.map]
  unfold rebuildAdjSlot
  simp only [← step]
  rfl

theorem rebuildTail_ok (ok : rebuildTail store slot adj direction = .ok adj') :
    (∀ head, slot.link.pointer.head direction = some head → headReads store head) ∧
      ∀ slots, slot ∈ slots → Rebuilt store slots adj → Rebuilt store slots adj' := by
  unfold rebuildTail at ok
  cases here : slot.link.pointer.head direction with
  | none =>
    rw [here] at ok
    cases ok
    exact ⟨fun _ none => (nomatch none), fun _ _ rebuilt => rebuilt⟩
  | some head =>
    rw [here] at ok
    dsimp only at ok
    split at ok
    · cases ok
    · next shared =>
        cases ok
        refine ⟨?_, fun _ _ rebuilt => rebuilt⟩
        intro other same
        cases same
        exact .inl shared
    · next dedicated =>
        obtain ⟨state, read, ok⟩ := ok_of_bind ok
        cases ok
        refine ⟨?_, fun slots mem rebuilt => ?_⟩
        · intro other same
          cases same
          exact .inr ⟨dedicated, state, read⟩
        · exact rebuilt.insertTail mem here dedicated read

theorem rebuildTail_of_reads (adj : AdjState)
    (reads : ∀ head, slot.link.pointer.head direction = some head → headReads store head) :
    ∃ adj', rebuildTail store slot adj direction = .ok adj' := by
  unfold rebuildTail
  cases here : slot.link.pointer.head direction with
  | none => exact ⟨adj, rfl⟩
  | some head =>
    rcases reads head here with shared | ⟨dedicated, state, read⟩
    · exact ⟨adj, by simp [shared]⟩
    · exact ⟨adj.insertTail slot.id direction state, by simp [dedicated, read, Except.map]⟩

theorem head_of_isAbsent {ptr : AdjacencyPointer} (absent : ptr.isAbsent) (direction : AdjDirection) :
    ptr.head direction = none := by
  rw [pointer_of_isAbsent absent]
  cases direction with
  | outgoing => rfl
  | incoming => rfl

theorem rebuildAdjSlot_ok (ok : rebuildAdjSlot store adj slot = .ok adj') :
    headsRead store slot ∧
      ∀ slots, slot ∈ slots → Rebuilt store slots adj → Rebuilt store slots adj' := by
  rw [rebuildAdjSlot_eq] at ok
  split at ok
  · next absent =>
      cases ok
      refine ⟨fun direction head here => ?_, fun _ _ rebuilt => rebuilt⟩
      rw [head_of_isAbsent absent] at here
      cases here
  · obtain ⟨between, first, ok⟩ := ok_of_bind ok
    have out := rebuildTail_ok first
    have inc := rebuildTail_ok ok
    constructor
    · intro direction
      cases direction with
      | outgoing => exact out.1
      | incoming => exact inc.1
    · intro slots mem rebuilt
      exact inc.2 slots mem (out.2 slots mem (rebuilt.insert mem))

theorem rebuildAdjSlot_of_reads (adj : AdjState) (reads : headsRead store slot) :
    ∃ adj', rebuildAdjSlot store adj slot = .ok adj' := by
  rw [rebuildAdjSlot_eq]
  split
  · exact ⟨adj, rfl⟩
  · obtain ⟨between, first⟩ :=
      rebuildTail_of_reads (adj.insert slot.id slot.link.pointer) (reads .outgoing)
    rw [first]
    exact rebuildTail_of_reads between (reads .incoming)

/-- Rebuilding the caches succeeds when every head can be read, and keeps only what the slots
say. -/
theorem rebuildAdj_ok (ok : slots.foldlM (rebuildAdjSlot store) adj = .ok adj') :
    (∀ slot ∈ slots, headsRead store slot) ∧
      ∀ all, slots ⊆ all → Rebuilt store all adj → Rebuilt store all adj' := by
  induction slots generalizing adj with
  | nil =>
    cases ok
    exact ⟨fun _ mem => (nomatch mem), fun _ _ rebuilt => rebuilt⟩
  | cons slot rest ih =>
    rw [foldlM_cons] at ok
    obtain ⟨between, first, ok⟩ := ok_of_bind ok
    have here := rebuildAdjSlot_ok first
    have later := ih ok
    constructor
    · intro other mem
      rcases mem_cons.mp mem with rfl | mem
      · exact here.1
      · exact later.1 other mem
    · intro all sub rebuilt
      have rebuilt := here.2 all (sub mem_cons_self) rebuilt
      exact later.2 all (fun other mem => sub (mem_cons_of_mem _ mem)) rebuilt

theorem rebuildAdj_of_reads (adj : AdjState) (reads : ∀ slot ∈ slots, headsRead store slot) :
    ∃ adj', slots.foldlM (rebuildAdjSlot store) adj = .ok adj' := by
  induction slots generalizing adj with
  | nil => exact ⟨adj, rfl⟩
  | cons slot rest ih =>
    obtain ⟨between, first⟩ := rebuildAdjSlot_of_reads adj (reads slot mem_cons_self)
    rw [foldlM_cons, first]
    exact ih between fun other mem => reads other (.tail _ mem)

def foundIds (store : Store) (kind : EntityKind) : Finset Nat :=
  ((liveOf store kind).map Slot.id).toFinset

/-- The indexes an opening graph builds. -/
def openedIndexes (disk : Disk) (store : Store) : Except Error Indexes := do
  let index : Indexes := (liveOf store .edge).foldl insertScannedPair { present := foundIds store }
  let index ← match disk.labels with
    | some labels => pure { index with label := labels }
    | none => do
        let index ← rebuildLabels store .node index
        rebuildLabels store .edge ((liveOf store .edge).foldl insertScannedPair index)
  ((liveOf store .node).map Slot.id).dedup.foldlM (rebuildProperties store) index

/-- The graph that opens over a store, given its caches and indexes. -/
def openedGraph (disk : Disk) (store : Store) (adj : AdjState) (index : Indexes) : Graph :=
  { store := { store with info := { store.info with
      entityCount := fun kind => (foundIds store kind).card
      nextId := fun kind => max (store.info.nextId kind) ((foundIds store kind).sup fun id => id + 1) } }
    disk := { disk with pages := store.pages, info := store.info }
    adj := adj
    index := index
    catalog := disk.catalog
    appendOnlyIds := (foundIds store .node).filter fun id => coveredByAppendOnly disk.catalog store id }

theorem open_eq (disk : Disk) (journal : Option (List WalRecord)) (evicts : Nat → Nat → Bool) :
    Graph.open disk journal evicts = (do
      let store := openStore disk journal
      let adj ← (liveOf store .node).foldlM (rebuildAdjSlot store) { evicts := evicts }
      let index ← openedIndexes disk store
      return openedGraph disk store adj index) := by
  obtain ⟨pages, info, labels, catalog⟩ := disk
  unfold «open» openedIndexes
  cases labels with
  | none =>
    simp only [bind_assoc]
    rfl
  | some labels => rfl

theorem foldlM_keeps {α β γ : Type} (part : β → γ) {f : β → α → Except Error β} {items : List α}
    {init result : β} (each : ∀ acc item acc', f acc item = .ok acc' → part acc' = part acc)
    (ok : items.foldlM f init = .ok result) : part result = part init := by
  induction items generalizing init with
  | nil =>
    cases ok
    rfl
  | cons item rest ih =>
    rw [foldlM_cons] at ok
    obtain ⟨between, first, ok⟩ := ok_of_bind ok
    exact (ih ok).trans (each _ _ _ first)

theorem foldl_insertScannedPair_present (slots : List Slot) (index : Indexes) :
    (slots.foldl insertScannedPair index).present = index.present := by
  induction slots generalizing index with
  | nil => rfl
  | cons slot rest ih => exact ih _

variable {index : Indexes}

theorem rebuildLabels_present {index' : Indexes}
    (ok : rebuildLabels store kind index = .ok index') : index'.present = index.present := by
  refine foldlM_keeps Indexes.present ?_ ok
  intro acc slot acc' step
  obtain ⟨text, label, step⟩ := ok_of_bind step
  cases step
  rfl

theorem rebuildProperties_present {ids : List Nat} {index' : Indexes}
    (ok : ids.foldlM (rebuildProperties store) index = .ok index') :
    index'.present = index.present := by
  refine foldlM_keeps Indexes.present ?_ ok
  intro acc id acc' step
  unfold rebuildProperties at step
  obtain ⟨record, read, step⟩ := ok_of_bind step
  cases step
  rfl

variable {disk : Disk}

theorem openedIndexes_present (ok : openedIndexes disk store = .ok index) :
    index.present = foundIds store := by
  unfold openedIndexes at ok
  cases labels : disk.labels with
  | some labels =>
    rw [labels] at ok
    have kept := rebuildProperties_present ok
    rw [kept, foldl_insertScannedPair_present]
  | none =>
    rw [labels] at ok
    dsimp only at ok
    obtain ⟨between, nodes, ok⟩ := ok_of_bind ok
    cases edges : rebuildLabels store .edge
        ((liveOf store .edge).foldl insertScannedPair between) with
    | error e => simp [edges, bind, Except.bind] at ok
    | ok last =>
      simp only [edges, bind, Except.bind] at ok
      rw [rebuildProperties_present ok, rebuildLabels_present edges,
        foldl_insertScannedPair_present, rebuildLabels_present nodes,
        foldl_insertScannedPair_present]

/-- What a graph has in memory after opening over a store. -/
structure Opened (store : Store) (graph : Graph) : Prop where
  pages : graph.store.pages = store.pages
  present : graph.index.present = foundIds store
  rebuilt : Rebuilt store (liveOf store .node) graph.adj
  mvcc : graph.mvcc = none

variable {journal : Option (List WalRecord)}

theorem open_opened {evicts : Nat → Nat → Bool} {graph : Graph}
    (opened : Graph.open disk journal evicts = .ok graph) :
    Opened (openStore disk journal) graph ∧
      (∀ slot ∈ liveOf (openStore disk journal) .node, headsRead (openStore disk journal) slot) ∧
      ∃ index, openedIndexes disk (openStore disk journal) = .ok index ∧
        graph = openedGraph disk (openStore disk journal) graph.adj index := by
  rw [open_eq] at opened
  cases adj : (liveOf (openStore disk journal) .node).foldlM
      (rebuildAdjSlot (openStore disk journal)) { evicts := evicts } with
  | error e => simp [adj, bind, Except.bind] at opened
  | ok adj' =>
    cases indexes : openedIndexes disk (openStore disk journal) with
    | error e => simp [adj, indexes, bind, Except.bind] at opened
    | ok index =>
      simp only [adj, indexes, bind, Except.bind, pure, Except.pure] at opened
      cases opened
      obtain ⟨reads, rebuilt⟩ := rebuildAdj_ok adj
      have empty : Rebuilt (openStore disk journal) (liveOf (openStore disk journal) .node)
          { evicts := evicts } :=
        ⟨fun _ _ none => (nomatch none), fun _ _ _ none => (nomatch none), fun _ => rfl, rfl⟩
      exact ⟨⟨rfl, openedIndexes_present indexes, rebuilt _ (List.Subset.refl _) empty, rfl⟩,
        reads, index, rfl, rfl⟩

theorem open_of_reads (evicts : Nat → Nat → Bool)
    (reads : ∀ slot ∈ liveOf (openStore disk journal) .node,
      headsRead (openStore disk journal) slot)
    (indexes : openedIndexes disk (openStore disk journal) = .ok index) :
    ∃ graph, Graph.open disk journal evicts = .ok graph := by
  obtain ⟨adj, rebuilt⟩ := rebuildAdj_of_reads { evicts := evicts } reads
  exact ⟨openedGraph disk (openStore disk journal) adj index, by
    simp only [open_eq, rebuilt, indexes, bind, Except.bind, pure, Except.pure]⟩

/-- The scan reaches the slot of an entity. -/
def Covered (store : Store) (key : EntityKey) : Prop :=
  (pageAndSlot key.id).1 < (store.pages.slots key.kind).count ∧ (pageAndSlot key.id).2 <
      (((store.pages.slots key.kind).page (pageAndSlot key.id).1).slotCount)

/-- Every record is stored under its own id, with the link its kind has. -/
def Named (contents : Contents) : Prop := ∀ key record, contents key = .live record →
  record.Names key

section Scan

variable {contents : Contents}

theorem pageAndSlot_of_position (page : PageId) {index : Nat} (below : index < slotsPerPage) :
    pageAndSlot (page * slotsPerPage + index + 1) = (page, index) := by
  have pos : 0 < slotsPerPage := by decide
  simp only [pageAndSlot, Nat.add_sub_cancel]
  rw [Nat.mul_comm page, Nat.mul_add_mod, Nat.mod_eq_of_lt below, Nat.mul_add_div pos,
    Nat.div_eq_of_lt below, Nat.add_zero]

theorem mem_liveOf : slot ∈ liveOf store kind ↔
    ∃ id, 0 < id ∧ Covered store ⟨kind, id⟩ ∧ store.readSlot ⟨kind, id⟩ = .ok slot ∧
      slot.flag = .live := by
  simp only [liveOf, liveSlots, scannedSlots, mem_filter, mem_flatMap, mem_range,
    mem_map, lt_min_iff, decide_eq_true_eq]
  constructor
  · rintro ⟨⟨page, inFile, index, ⟨covered, below⟩, rfl⟩, flag⟩
    have position := pageAndSlot_of_position page below
    have reached : Covered store ⟨kind, page * slotsPerPage + index + 1⟩ := by
      rw [Covered, position]
      exact ⟨inFile, covered⟩
    refine ⟨_, Nat.succ_pos _, reached, ?_, flag⟩
    rw [readSlot_of_lt reached.1, position]
  · rintro ⟨id, pos, covered, read, flag⟩
    rw [readSlot_of_lt covered.1] at read
    cases read
    refine ⟨⟨_, covered.1, _, ⟨covered.2, ?_⟩, rfl⟩, flag⟩
    exact Nat.mod_lt _ (by decide)

variable {key : EntityKey}

theorem live_of_flag (holds : StoreIs store contents) (pos : 0 < key.id)
    (read : store.readSlot key = .ok slot) (flag : slot.flag = .live) :
    ∃ record, contents key = .live record ∧ slot.id = record.id ∧ slot.link = record.link := by
  obtain ⟨blobs, represents⟩ := holds
  have here := represents.slots key pos
  cases held : contents key with
  | blank =>
    rw [held] at here
    exact absurd flag (here slot read).1
  | erased =>
    rw [held] at here
    exact absurd flag (here slot read)
  | live record =>
    rw [held] at here
    obtain ⟨other, found, slotHolds⟩ := here
    obtain rfl : other = slot := Except.ok.inj (found.symm.trans read)
    exact ⟨record, rfl, slotHolds.id, slotHolds.link⟩

theorem slot_of_live (holds : StoreIs store contents) {record : Record} (pos : 0 < key.id)
    (live : contents key = .live record) :
    ∃ slot, store.readSlot key = .ok slot ∧ slot.flag = .live ∧ slot.id = record.id ∧
      slot.link = record.link := by
  obtain ⟨blobs, represents⟩ := holds
  have here := represents.slots key pos
  rw [live] at here
  obtain ⟨slot, found, slotHolds⟩ := here
  exact ⟨slot, found, slotHolds.flag, slotHolds.id, slotHolds.link⟩

def SlotsNamed (store : Store) : Prop := ∀ key slot, 0 < key.id →
  store.readSlot key = .ok slot → slot.flag = .live → slot.id = key.id

theorem slotsNamed_of_storeIs (holds : StoreIs store contents) (named : Named contents) :
    SlotsNamed store := by
  intro key slot pos read flag
  obtain ⟨record, live, sameId, _⟩ := live_of_flag holds pos read flag
  exact sameId.trans (named key record live).1

theorem found_of_mem_liveOf (named : SlotsNamed store) (mem : slot ∈ liveOf store kind) :
    0 < slot.id ∧ Covered store ⟨kind, slot.id⟩ ∧ store.readSlot ⟨kind, slot.id⟩ = .ok slot ∧
      slot.flag = .live := by
  obtain ⟨id, pos, covered, read, flag⟩ := mem_liveOf.mp mem
  obtain rfl : slot.id = id := named ⟨kind, id⟩ slot pos read flag
  exact ⟨pos, covered, read, flag⟩

theorem mem_foundIds_of_named (named : SlotsNamed store) {id : Nat} :
    id ∈ foundIds store kind ↔ 0 < id ∧ Covered store ⟨kind, id⟩ ∧
      ∃ slot, store.readSlot ⟨kind, id⟩ = .ok slot ∧ slot.flag = .live := by
  rw [foundIds, mem_toFinset, mem_map]
  constructor
  · intro ⟨slot, mem, same⟩
    obtain ⟨pos, covered, read, flag⟩ := found_of_mem_liveOf named mem
    rw [same] at pos covered read
    exact ⟨pos, covered, slot, read, flag⟩
  · intro ⟨pos, covered, slot, read, flag⟩
    have mem : slot ∈ liveOf store kind := mem_liveOf.mpr ⟨id, pos, covered, read, flag⟩
    exact ⟨slot, mem, named ⟨kind, id⟩ slot pos read flag⟩

theorem mem_foundIds (holds : StoreIs store contents) (named : Named contents) {id : Nat} :
    id ∈ foundIds store kind ↔
      0 < id ∧ Covered store ⟨kind, id⟩ ∧ ∃ record, contents ⟨kind, id⟩ = .live record := by
  rw [mem_foundIds_of_named (slotsNamed_of_storeIs holds named)]
  constructor
  · intro ⟨pos, covered, slot, read, flag⟩
    obtain ⟨record, live, _⟩ := live_of_flag holds
      (show 0 < (EntityKey.mk kind id).id from pos) read flag
    exact ⟨pos, covered, record, live⟩
  · intro ⟨pos, covered, record, live⟩
    obtain ⟨slot, read, flag, _⟩ := slot_of_live holds
      (show 0 < (EntityKey.mk kind id).id from pos) live
    exact ⟨pos, covered, slot, read, flag⟩

end Scan

/-- The edge ids the pages list under a node's heads. -/
def listedAt (store : Store) (node : Nat) (direction : AdjDirection) (ptr : AdjacencyPointer) :
    Except Error (List Nat) :=
  match ptr.head direction with
  | some head => store.readAdjEdgeIds head node direction
  | none => .ok []

/-- The edges that the pages list for a node in one direction. -/
def pageEdges (store : Store) (direction : AdjDirection) (node : Nat) :
    Except Error (List Edge) :=
  if node ∈ foundIds store .node then do
    let ids ← listedAt store node direction (storedHeads store node)
    (ids.filter fun id => id ∈ foundIds store .edge).mapM fun id =>
      (store.readRecord (.edge id)).map Record.toEdge
  else .error (.nodeNotFound node)

section Queries

variable {graph : Graph}

theorem reduceOption_mapM {α β ε : Type} (f : α → Except ε β) (items : List α) :
    (do
      let found ← items.mapM fun a => (f a).map some
      return found.reduceOption : Except ε (List β)) = items.mapM f := by
  induction items with
  | nil => rfl
  | cons a rest ih =>
    rw [mapM_cons, mapM_cons, ← ih]
    cases f a with
    | error e => rfl
    | ok b =>
      cases rest.mapM fun a => (f a).map some with
      | error e => rfl
      | ok found => rfl

theorem resolved_getD (ptr : AdjacencyPointer) :
    (if ptr.isAbsent then none else some ptr : Option AdjacencyPointer).getD {} = ptr := by
  split
  · next absent => exact (pointer_of_isAbsent absent).symm
  · rfl

theorem sat_resolveAdjPointer_cache (graph : Graph) (node : Nat) :
    Sat (resolveAdjPointer node) graph
      (fun ptr after => ptr.getD {} = graph.currentHeads node ∧
        ∃ adj, after = { graph with adj := adj } ∧ adj.pending = graph.adj.pending)
      (fun _ _ => False) := by
  unfold resolveAdjPointer currentHeads
  rw [sat_bind, sat_get]
  cases graph.adj.cache node with
  | some ptr => exact ⟨resolved_getD ptr, graph.adj, rfl, rfl⟩
  | none => exact ⟨resolved_getD _, _, rfl, rfl⟩

/-- What a query for the edges of a node answers. -/
def queriedEdges (graph : Graph) (direction : AdjDirection) (node : Nat) :
    Except Error (List Edge) :=
  if graph.exists? (.node node) then do
    let ids ← graph.listedEdgeIds node direction (graph.currentHeads node)
    graph.visibleEdges graph.autoCommitStartTs none
      ((ids ++ graph.pendingEdges node direction).filter fun id => graph.exists? (.edge id))
  else .error (.nodeNotFound node)

theorem answer_edgesOf (graph : Graph) (direction : AdjDirection) (node : Nat) :
    answer (edgesOf direction node) graph = graph.queriedEdges direction node := by
  apply Sat.answer_eq
  by_cases here : graph.exists? (.node node)
  · rw [sat_edgesOf here, Graph.edgesForDirection, sat_bind]
    apply (sat_resolveAdjPointer_cache graph node).sure _
    intro ptr after resolved
    obtain ⟨heads, adj, rfl, pending⟩ := resolved
    rw [sat_bind, sat_get, heads, sat_bind]
    simp only [queriedEdges, here, ↓reduceIte]
    change Sat (ofResult (graph.listedEdgeIds node direction (graph.currentHeads node))) _ _ _
    cases graph.listedEdgeIds node direction (graph.currentHeads node) with
    | error e => exact rfl
    | ok ids =>
      rw [sat_ofResult_ok]
      have own : Graph.pendingTxnEdgeIds { graph with adj := adj } node direction none = [] := rfl
      have same : Graph.pendingEdges { graph with adj := adj } node direction =
          graph.pendingEdges node direction := by simp only [pendingEdges, pending]
      rw [own, append_nil, same, sat_ofResult]
      exact ⟨fun _ read => read, fun _ read => read⟩
  · simp only [queriedEdges, here, Bool.false_eq_true, ↓reduceIte]
    cases direction with
    | outgoing => simp [edgesOf, outgoingEdges, here]
    | incoming => simp [edgesOf, incomingEdges, here]

theorem Opened.exists? (opened : Opened store graph) (key : EntityKey) :
    graph.exists? key = decide (key.id ∈ foundIds store key.kind) := by
  simp [Graph.exists?, opened.present]

theorem Opened.currentHeads (named : SlotsNamed store) (opened : Opened store graph) (node : Nat) :
    graph.currentHeads node = storedHeads store node := by
  have pages : ∀ key, graph.store.readSlot key = store.readSlot key := readSlot_pages opened.pages
  unfold Graph.currentHeads storedHeads
  cases cached : graph.adj.cache node with
  | none =>
    change storedHeads graph.store node = storedHeads store node
    simp only [storedHeads, pages]
  | some ptr =>
    obtain ⟨slot, mem, rfl, rfl⟩ := opened.rebuilt.cache node ptr cached
    obtain ⟨_, _, read, flag⟩ := found_of_mem_liveOf named mem
    simp only [read, flag, ↓reduceIte]

theorem Opened.answer (named : SlotsNamed store) (opened : Opened store graph)
    (direction : AdjDirection) (node : Nat) :
    answer (edgesOf direction node) graph = pageEdges store direction node := by
  have pending : graph.pendingEdges node direction = [] := by
    simp [pendingEdges, opened.rebuilt.pending]
  have listed : graph.listedEdgeIds node direction (graph.currentHeads node) =
      listedAt store node direction (storedHeads store node) := by
    rw [opened.currentHeads named, listedEdgeIds, listedAt]
    cases (storedHeads store node).head direction with
    | none => rfl
    | some head => exact readAdjEdgeIds_adjacency (congrArg Pages.adjacency opened.pages) head node direction
  have reads (ids : List Nat) : graph.visibleEdges graph.autoCommitStartTs none ids =
      ids.mapM fun id => (store.readRecord (.edge id)).map Record.toEdge := by
    rw [← reduceOption_mapM]
    have each : ∀ id, graph.visibleEdge graph.autoCommitStartTs none id =
        ((store.readRecord (.edge id)).map Record.toEdge).map some := by
      intro id
      simp only [visibleEdge, opened.mvcc, Option.isNone_none, ↓reduceIte,
        readRecord_pages opened.pages]
      cases store.readRecord (.edge id) with
      | error e => rfl
      | ok record => rfl
    simp only [visibleEdges, funext each]
  rw [answer_edgesOf, queriedEdges, pageEdges, listed, pending]
  simp only [opened.exists?, append_nil, reads, decide_eq_true_eq]

end Queries

end Graph

end ErmyaGraph
