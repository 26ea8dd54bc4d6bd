import ErmyaGraph.Storage.Appends
import ErmyaGraph.Graph.Replay
import ErmyaGraph.Graph.NodeUpdate

/-! # Adding an edge and a crash

The slot of a new edge reaches the journal before the lists of its ends do. A
crash in between leaves a live edge that no list names. -/

namespace ErmyaGraph.Graph

open Outcome Store Runs Option Graph

/-- The edge lists of all nodes can be read, and every edge is in the lists of its ends. -/
structure ListsEdges (graph : Graph) : Prop where
  read : ∀ node, graph.exists? (.node node) → ∀ direction,
    ∃ edges, answer (edgesOf direction node) graph = .ok edges
  listed : ∀ id, graph.exists? (.edge id) → ∃ edge, graph.edge id = .ok edge ∧
    ∀ direction, ∃ edges, answer (edgesOf direction (edge.endpoint direction)) graph = .ok edges ∧
      edge ∈ edges

/-- Opening a directory with a journal yields such a graph. -/
def Recovers (disk : Disk) (journal : Option (List WalRecord)) : Prop :=
  ∀ evicts, ∃ graph, Graph.open disk journal evicts = .ok graph ∧ ListsEdges graph

/-- Whichever part of what a call appended to the journal survives a crash. -/
def CrashAtomic (before after : Graph) : Prop :=
  ∀ kept, (∀ wal, before.store.wal = some wal → wal.records.length ≤ kept) →
    Recovers after.disk (after.store.wal.map fun wal => wal.records.take kept)

/-- The same of the pages an opening graph starts from. -/
structure PagesListEdges (store : Store) : Prop where
  heads : ∀ slot ∈ liveOf store .node, headsRead store slot
  read : ∀ node ∈ foundIds store .node, ∀ direction,
    ∃ edges, pageEdges store direction node = .ok edges
  listed : ∀ id ∈ foundIds store .edge, ∃ record, store.readRecord (.edge id) = .ok record ∧
    ∀ direction, ∃ edges, pageEdges store direction (record.toEdge.endpoint direction) = .ok edges ∧
      record.toEdge ∈ edges

section Pages

variable {store : Store} {contents : Contents} {graph : Graph} {disk : Disk}
  {journal : Option (List WalRecord)}

theorem Opened.edge (opened : Opened store graph) {id : Nat} (found : id ∈ foundIds store .edge) :
    graph.edge id = (store.readRecord (.edge id)).map Record.toEdge := by
  have here : graph.exists? (.edge id) := by
    rw [opened.exists?]
    exact decide_eq_true found
  unfold Graph.edge Graph.read
  rw [opened.mvcc, here, readRecord_pages opened.pages]
  simp

theorem Opened.listsEdges_iff (named : SlotsNamed store) (opened : Opened store graph)
    (heads : ∀ slot ∈ liveOf store .node, headsRead store slot) :
    ListsEdges graph ↔ PagesListEdges store := by
  have present (kind : EntityKind) (id : Nat) :
      graph.exists? ⟨kind, id⟩ ↔ id ∈ foundIds store kind := by
    rw [opened.exists?]
    exact decide_eq_true_iff
  constructor
  · intro lists
    refine ⟨heads, ?_, ?_⟩
    · intro node found direction
      obtain ⟨edges, answered⟩ := lists.read node ((present .node node).mpr found) direction
      exact ⟨edges, by rw [← opened.answer named]; exact answered⟩
    · intro id found
      obtain ⟨edge, read, ends⟩ := lists.listed id ((present .edge id).mpr found)
      rw [opened.edge found] at read
      obtain ⟨record, stored, read⟩ := ok_of_bind read
      rw [stored]
      cases read
      refine ⟨record, rfl, ?_⟩
      intro direction
      obtain ⟨edges, answered, member⟩ := ends direction
      exact ⟨edges, by rw [← opened.answer named]; exact answered, member⟩
  · intro pages
    refine ⟨?_, ?_⟩
    · intro node here direction
      obtain ⟨edges, answered⟩ := pages.read node ((present .node node).mp here) direction
      exact ⟨edges, by rw [opened.answer named]; exact answered⟩
    · intro id here
      have found := (present .edge id).mp here
      obtain ⟨record, stored, ends⟩ := pages.listed id found
      refine ⟨record.toEdge, by rw [opened.edge found, stored]; rfl, ?_⟩
      intro direction
      obtain ⟨edges, answered, member⟩ := ends direction
      exact ⟨edges, by rw [opened.answer named]; exact answered, member⟩

theorem PagesListEdges.congr {after : Store} (pages : PagesListEdges store)
    (same : after.pages = store.pages) : PagesListEdges after where
  heads slot member direction head here := by
    unfold liveOf at member
    rw [same] at member
    exact (headReads_pages same head).mpr (pages.heads slot member direction head here)
  read node found direction := by
    rw [foundIds_pages same] at found
    rw [pageEdges_pages same]
    exact pages.read node found direction
  listed id found := by
    rw [foundIds_pages same] at found
    simp only [readRecord_pages same, pageEdges_pages same]
    exact pages.listed id found

theorem Recovers.pages (named : SlotsNamed (openStore disk journal))
    (recovers : Recovers disk journal) : PagesListEdges (openStore disk journal) := by
  obtain ⟨graph, ok, lists⟩ := recovers fun _ _ => false
  obtain ⟨opened, heads, _⟩ := open_opened ok
  exact (opened.listsEdges_iff named heads).mp lists

theorem recovers_of_pages (same : (openStore disk journal).pages = store.pages)
    (holds : StoreIs store contents) (named : Named contents) (pages : PagesListEdges store) :
    Recovers disk journal := by
  intro evicts
  obtain ⟨index, indexes⟩ := openedIndexes_ok disk holds named
  rw [← openedIndexes_pages same] at indexes
  have pages := pages.congr same
  obtain ⟨graph, ok⟩ := open_of_reads evicts pages.heads indexes
  have names : SlotsNamed (openStore disk journal) := by
    intro key slot positive read
    rw [readSlot_pages same] at read
    exact slotsNamed_of_storeIs holds named key slot positive read
  exact ⟨graph, ok, ((open_opened ok).1.listsEdges_iff names pages.heads).mpr pages⟩

theorem slot_of_readRecord {key : EntityKey} {record : Record}
    (read : store.readRecord key = .ok record) :
    ∃ slot, store.readSlot key = .ok slot ∧ slot.flag = .live ∧ record.id = slot.id := by
  unfold Store.readRecord at read
  obtain ⟨slot, found, read⟩ := ok_of_bind read
  rw [found]
  refine ⟨slot, rfl, ?_⟩
  obtain ⟨text, label, read⟩ := ok_of_bind read
  cases props : store.slotPropBytes key slot with
  | error e =>
    simp only [props, bind, Except.bind] at read
    cases read
  | ok bytes =>
    simp only [props, bind, Except.bind] at read
    by_cases live : slot.flag = .live
    · simp only [live, ↓reduceIte] at read
      split at read
      · cases read
      · cases read
        exact ⟨live, rfl⟩
    · simp only [live, ↓reduceIte] at read
      cases read

theorem mem_mapM_ok {α β ε : Type} {f : α → Except ε β} {items : List α} {results : List β}
    (ok : items.mapM f = .ok results) {b : β} (member : b ∈ results) :
    ∃ a ∈ items, f a = .ok b := by
  induction items generalizing results with
  | nil =>
    cases ok
    cases member
  | cons a rest ih =>
    rw [List.mapM_cons] at ok
    cases first : f a with
    | error e =>
      rw [first] at ok
      cases ok
    | ok c =>
      cases more : rest.mapM f with
      | error e =>
        rw [first, more] at ok
        cases ok
      | ok others =>
        rw [first, more] at ok
        cases ok
        rcases List.mem_cons.mp member with rfl | later
        · exact ⟨a, .head _, first⟩
        · obtain ⟨origin, inside, read⟩ := ih more later
          exact ⟨origin, List.mem_cons_of_mem a inside, read⟩

theorem PagesListEdges.named (pages : PagesListEdges store) (named : SlotsNamed store) {id : Nat}
    (found : id ∈ foundIds store .edge) : ∃ direction node ids,
      listedAt store node direction (storedHeads store node) = .ok ids ∧ id ∈ ids := by
  obtain ⟨record, read, ends⟩ := pages.listed id found
  obtain ⟨edges, answered, member⟩ := ends .outgoing
  have owner {other : Nat} {record : Record} (found : other ∈ foundIds store .edge)
      (read : store.readRecord (.edge other) = .ok record) : record.id = other := by
    obtain ⟨slot, here, flag, sameId⟩ := slot_of_readRecord read
    have positive := ((mem_foundIds_of_named named).mp found).1
    exact sameId.trans (named (.edge other) slot positive here flag)
  unfold pageEdges at answered
  split at answered
  · obtain ⟨ids, listed, answered⟩ := ok_of_bind answered
    obtain ⟨other, inside, read'⟩ := mem_mapM_ok answered member
    obtain ⟨inIds, found'⟩ := List.mem_filter.mp inside
    cases stored : store.readRecord (.edge other) with
    | error e =>
      rw [stored] at read'
      cases read'
    | ok record' =>
      rw [stored] at read'
      have same : record'.toEdge = record.toEdge := Except.ok.inj read'
      have sameId : record'.id = record.id := congrArg Edge.id same
      rw [owner (of_decide_eq_true found') stored, owner found read] at sameId
      rw [sameId] at inIds
      exact ⟨.outgoing, _, ids, listed, inIds⟩
  · cases answered

end Pages

/-- Every live slot of the files, allocated or not, names the entity whose place it is in. -/
def PagesNamed (pages : Pages) : Prop := ∀ kind id, 0 < id →
  (((pages.slots kind).page (pageAndSlot id).1).slot (pageAndSlot id).2).flag = .live →
  (((pages.slots kind).page (pageAndSlot id).1).slot (pageAndSlot id).2).id = id

theorem PagesNamed.slotsNamed {store : Store} (named : PagesNamed store.pages) :
    SlotsNamed store := by
  intro key slot positive read flag
  by_cases allocated : (pageAndSlot key.id).1 < (store.pages.slots key.kind).count
  · rw [readSlot_of_lt allocated] at read
    cases read
    exact named key.kind key.id positive flag
  · obtain ⟨e, failed⟩ := readSlot_of_le (not_lt.mp allocated)
    rw [failed] at read
    cases read

section Slot

variable {kind : EntityKind} {state : Recovered} {id : Nat} {slot : Slot}

variable (kind slot state) in
theorem replayed_slot (other : Nat) (positive : 0 < id) (positive' : 0 < other) :
    (((applyRecord state (.writeSlot kind (pageAndSlot id).1 (pageAndSlot id).2 slot
        none)).pages.slots kind).page (pageAndSlot other).1).slot (pageAndSlot other).2 =
      if other = id then slot
      else ((state.pages.slots kind).page (pageAndSlot other).1).slot (pageAndSlot other).2 := by
  simp only [applyRecord, Recovered.setSlotPage, Function.update_self]
  by_cases same : other = id
  · subst same
    simp [SlotPage.replay]
  · rw [if_neg same]
    by_cases page : (pageAndSlot other).1 = (pageAndSlot id).1
    · have index : (pageAndSlot other).2 ≠ (pageAndSlot id).2 :=
        fun index => same (pageAndSlot_inj positive' positive (Prod.ext page index))
      rw [page]
      simp [SlotPage.replay, index]
    · rw [Function.update_of_ne page]

theorem pagesNamed_replayed (named : PagesNamed state.pages) (positive : 0 < id)
    (sameId : slot.id = id) :
    PagesNamed (applyRecord state (.writeSlot kind (pageAndSlot id).1 (pageAndSlot id).2 slot
      none)).pages := by
  intro kind' other positive' flag
  by_cases sameKind : kind' = kind
  · subst sameKind
    rw [replayed_slot kind' state slot other positive positive'] at flag ⊢
    by_cases same : other = id
    · rw [if_pos same, same]
      exact sameId
    · rw [if_neg same] at flag ⊢
      exact named kind' other positive' flag
  · have untouched : (applyRecord state (.writeSlot kind (pageAndSlot id).1 (pageAndSlot id).2 slot
        none)).pages.slots kind' = state.pages.slots kind' := Function.update_of_ne sameKind _ _
    rw [untouched] at flag ⊢
    exact named kind' other positive' flag

end Slot

section Crash

variable {disk : Disk} {records added : List WalRecord} {last : WalRecord} {record : Record}

theorem recovered_aside (aside : ∀ r ∈ added, r.Aside) :
    (openStore disk (some (records ++ added))).pages =
      (applyRecords (replayRecords disk records) added).pages := by
  rw [openStore_pages, replayRecords_append fun r member => (aside r member).plain]

variable (disk records) in
theorem recovered_slot (aside : ∀ r ∈ added, r.Aside) (kind : EntityKind) (page index : Nat)
    (slot : Slot) :
    (openStore disk (some (records ++ (added ++ [.writeSlot kind page index slot none])))).pages =
      (applyRecord (applyRecords (replayRecords disk records) added)
        (.writeSlot kind page index slot none)).pages := by
  have plain : ∀ r ∈ added ++ [.writeSlot kind page index slot none], Plain r := by
    intro r member
    rcases List.mem_append.mp member with before | last
    · exact (aside r before).plain
    · rw [List.mem_singleton.mp last]
      rfl
  rw [openStore_pages, replayRecords_append plain, applyRecords, List.foldl_append]
  rfl

theorem edge_found (aside : ∀ r ∈ added, r.Aside) (isSlot : SlotRecord .edge record last)
    (positive : 0 < record.id) (named : PagesNamed (replayRecords disk records).pages) :
    SlotsNamed (openStore disk (some (records ++ (added ++ [last])))) ∧
      record.id ∈ foundIds (openStore disk (some (records ++ (added ++ [last])))) .edge := by
  obtain ⟨slot, flag, sameId, rfl⟩ := isSlot
  have pages := recovered_slot disk records aside .edge
    (pageAndSlot record.id).1 (pageAndSlot record.id).2 slot
  generalize openStore disk (some (records ++ (added ++ [.writeSlot .edge
    (pageAndSlot record.id).1 (pageAndSlot record.id).2 slot none]))) = store at pages ⊢
  have before : PagesNamed (applyRecords (replayRecords disk records) added).pages := by
    unfold PagesNamed
    rw [(applyRecords_aside aside (replayRecords disk records)).1]
    exact named
  have after : PagesNamed store.pages := by
    rw [pages]
    exact pagesNamed_replayed before positive sameId
  refine ⟨after.slotsNamed, ?_⟩
  have covered : Covered store (.edge record.id) := by
    rw [Covered, pages]
    constructor
    · change _ < max _ ((pageAndSlot record.id).1 + 1)
      exact lt_of_lt_of_le (Nat.lt_succ_self _) (le_max_right _ _)
    · simp only [applyRecord, Recovered.setSlotPage, Function.update_self]
      exact lt_of_lt_of_le (Nat.lt_succ_self _) (le_max_right _ _)
  have read : store.readSlot (.edge record.id) = .ok slot := by
    rw [readSlot_of_lt covered.1, pages]
    have there := replayed_slot .edge (applyRecords (replayRecords disk records) added) slot
      record.id positive positive
    rw [if_pos rfl] at there
    exact congrArg Except.ok there
  exact (mem_foundIds_of_named after.slotsNamed).mpr ⟨positive, covered, slot, read, flag⟩

theorem lists_unchanged (aside : ∀ r ∈ added, r.Aside) (isSlot : SlotRecord .edge record last)
    (node : Nat) (direction : AdjDirection) :
    listedAt (openStore disk (some (records ++ (added ++ [last])))) node direction
        (storedHeads (openStore disk (some (records ++ (added ++ [last])))) node) =
      listedAt (openStore disk (some records)) node direction
        (storedHeads (openStore disk (some records)) node) := by
  obtain ⟨slot, flag, sameId, rfl⟩ := isSlot
  have pages := recovered_slot disk records aside .edge
    (pageAndSlot record.id).1 (pageAndSlot record.id).2 slot
  obtain ⟨slots, adjacency⟩ := applyRecords_aside aside (replayRecords disk records)
  have nodes : (openStore disk (some (records ++ (added ++ [.writeSlot .edge
      (pageAndSlot record.id).1 (pageAndSlot record.id).2 slot none])))).pages.slots .node =
      (openStore disk (some records)).pages.slots .node := by
    have other : EntityKind.node ≠ EntityKind.edge := by decide
    rw [pages, openStore_pages]
    simp only [applyRecord, Recovered.setSlotPage, Function.update_of_ne other, slots]
  have lists : (openStore disk (some (records ++ (added ++ [.writeSlot .edge
      (pageAndSlot record.id).1 (pageAndSlot record.id).2 slot none])))).pages.adjacency =
      (openStore disk (some records)).pages.adjacency := by
    rw [pages, openStore_pages, ← adjacency]
    rfl
  have heads : storedHeads (openStore disk (some (records ++ (added ++ [.writeSlot .edge
      (pageAndSlot record.id).1 (pageAndSlot record.id).2 slot none])))) node =
      storedHeads (openStore disk (some records)) node := by
    simp only [storedHeads, Store.readSlot, readSlotPage, nodes]
  rw [heads]
  unfold listedAt
  cases (storedHeads (openStore disk (some records)) node).head direction with
  | none => rfl
  | some head => exact readAdjEdgeIds_adjacency lists head node direction

theorem not_recovers_of_slot (aside : ∀ r ∈ added, r.Aside) (isSlot : SlotRecord .edge record last)
    (positive : 0 < record.id) (named : PagesNamed (replayRecords disk records).pages)
    (unlisted : ∀ direction node ids, listedAt (openStore disk (some records)) node direction
      (storedHeads (openStore disk (some records)) node) = .ok ids → record.id ∉ ids) :
    ¬Recovers disk (some (records ++ (added ++ [last]))) := by
  intro recovers
  obtain ⟨names, found⟩ := edge_found aside isSlot positive named
  obtain ⟨direction, node, ids, listed, member⟩ := (recovers.pages names).named names found
  rw [lists_unchanged aside isSlot] at listed
  exact unlisted direction node ids listed member

theorem applyRecords_onStrings {byte : Nat → UInt8} {cursor : Nat}
    (kinds : ∀ r ∈ added, r.OnStrings ∧ r.RepeatsHeap byte cursor) {state : Recovered}
    (below : HeapBelow byte cursor state.pages.strings) :
    ∃ strings, (applyRecords state added).pages = { state.pages with strings := strings } ∧
      HeapBelow byte cursor strings := by
  induction added generalizing state with
  | nil => exact ⟨state.pages.strings, rfl, below⟩
  | cons record rest ih =>
    obtain ⟨kind, repeats⟩ := kinds record List.mem_cons_self
    cases record with
    | writeStringPage page bytes used =>
      have kept : HeapBelow byte cursor
          (applyRecord state (.writeStringPage page bytes used)).pages.strings := by
        refine ⟨?_, fun i inside => ?_⟩
        · exact below.inside.trans (Nat.mul_le_mul_right _ (le_max_left _ _))
        · change setHeapBytes state.pages.strings.byte (page * pagePayloadSize) bytes i = byte i
          unfold setHeapBytes
          by_cases reached : page * pagePayloadSize ≤ i
          · rw [if_pos reached, List.getD_eq_getElem?_getD]
            by_cases short : i - page * pagePayloadSize < bytes.length
            · have place : page * pagePayloadSize + (i - page * pagePayloadSize) = i :=
                Nat.add_sub_of_le reached
              have image := repeats (i - page * pagePayloadSize) short (by rw [place]; exact inside)
              rw [place] at image
              rw [image]
              rfl
            · have missing : bytes[i - page * pagePayloadSize]? = none :=
                List.getElem?_eq_none (not_lt.mp short)
              rw [missing]
              exact below.same i inside
          · rw [if_neg reached]
            exact below.same i inside
      obtain ⟨strings, pages, done⟩ :=
        ih (fun r member => kinds r (.tail _ member)) kept
      exact ⟨strings, pages, done⟩
    | _ => exact kind.elim

/-- More text on the heap changes nothing that the pages lead to. -/
theorem recovers_texts {found : Contents} (holds : StoreIs (openStore disk (some records)) found)
    (named : Named found)
    (kinds : ∀ r ∈ added, r.OnStrings ∧ r.RepeatsHeap
      (openStore disk (some records)).pages.strings.byte (openStore disk (some records)).heapOffset)
    (recovers : Recovers disk (some records)) : Recovers disk (some (records ++ added)) := by
  have names := slotsNamed_of_storeIs holds named
  have lists := recovers.pages names
  have first := openStore_pages disk records
  obtain ⟨blobs, overflow, heap, slots⟩ := id holds
  have below : HeapBelow (openStore disk (some records)).pages.strings.byte
      (openStore disk (some records)).heapOffset (replayRecords disk records).pages.strings := by
    rw [← first]
    exact ⟨heap.cursor, fun _ _ => rfl⟩
  obtain ⟨strings, written, below⟩ := applyRecords_onStrings kinds below
  -- The recovered store with the new texts on its heap, the cursor where it was.
  let grown : Store := { openStore disk (some records) with
    pages := { (openStore disk (some records)).pages with strings := strings } }
  have pages : (openStore disk (some (records ++ added))).pages = grown.pages := by
    rw [recovered_aside fun r member => .inl (kinds r member).1, written, ← first]
  have texts : KeepsTexts (openStore disk (some records)) grown := by
    intro offset text here
    refine ⟨here.short, here.inside, fun i inText => ?_⟩
    rw [← here.stored i inText]
    exact below.same _ (lt_of_lt_of_le (Nat.add_lt_add_left inText offset) here.inside)
  have holds' : StoreIs grown found := ⟨blobs, overflow.congr rfl rfl rfl rfl,
      ⟨below.inside, fun entry member => texts _ _ (heap.dedup entry member)⟩,
      fun key positive => (slots key positive).congr (.inl rfl) texts
        fun _ _ _ _ _ _ known => known⟩
  have same : SamePages (openStore disk (some records)) grown found found :=
    ⟨fun _ => rfl, rfl, fun _ => rfl, rfl⟩
  apply recovers_of_pages pages holds' named
  refine ⟨lists.heads, fun node here direction => ?_, fun id here => ?_⟩
  · rw [same.pageEdges holds named holds']
    exact lists.read node here direction
  · obtain ⟨record, read, ends⟩ := lists.listed id here
    obtain ⟨stored, live, read'⟩ := readRecord_of_found holds named here
    obtain ⟨stored', live', read''⟩ := readRecord_of_found holds' named here
    rw [live] at live'
    cases live'
    have one : stored = record := Except.ok.inj (read'.symm.trans read)
    refine ⟨record, one ▸ read'', fun direction => ?_⟩
    rw [same.pageEdges holds named holds']
    exact ends direction

end Crash

def DiskKept (before after : Graph) : Prop := after.disk = before.disk

instance : IsPreorder Graph DiskKept where
  refl _ := rfl
  trans _ _ _ := fun here there => Eq.trans there here

theorem diskKept_onStore {α : Type} (x : StoreM α) : Keeps DiskKept (onStore x) := by
  apply (storeOnly_onStore x).mono
  intro before after only
  have only : after = { before with store := after.store } := only
  rw [DiskKept, only]

theorem LinksOnly.diskKept {before after : Graph} (only : LinksOnly before after) :
    DiskKept before after := by
  rw [DiskKept, only.rest]

theorem diskKept_modify {f : Graph → Graph} (same : ∀ graph, (f graph).disk = graph.disk) :
    Keeps DiskKept (modify f : GraphM PUnit) := keeps_modify same

theorem diskKept_persistAdjPointerToSlot (node : Nat) (ptr : AdjacencyPointer) :
    Keeps DiskKept (persistAdjPointerToSlot node ptr) := by
  have materialize : Keeps DiskKept (materializeNodeSlotWithPointer node ptr) := by
    unfold materializeNodeSlotWithPointer
    apply keeps_get.bind
    intro graph
    apply keeps_ite (fun _ => keeps_pure ())
    intro _
    split
    · exact keeps_pure ()
    · apply (keeps_ofResult _).bind
      intro encoded
      exact (diskKept_onStore _).bind fun slot => diskKept_onStore _
  unfold persistAdjPointerToSlot
  apply keeps_get.bind
  intro graph
  split
  · exact keeps_ite (fun _ => diskKept_onStore _) fun _ => materialize
  · exact materialize

theorem diskKept_addEdgeToAdjacency (node : Nat) (direction : AdjDirection) (edge : Nat) :
    Keeps DiskKept (addEdgeToAdjacency node direction edge) := by
  unfold addEdgeToAdjacency
  apply keeps_get.bind
  intro graph
  apply keeps_ite (fun _ => diskKept_modify (by exact fun _ => rfl))
  intro _
  apply ((keeps_resolveAdjPointer node).mono fun _ _ => LinksOnly.diskKept).bind
  intro ptr
  apply ((keeps_appendAndUpdateCaches node direction _ _).mono fun _ _ => LinksOnly.diskKept).bind
  intro entry
  exact diskKept_persistAdjPointerToSlot node entry

theorem diskKept_reconcileEdgeInsert (record : Record) :
    Keeps DiskKept (reconcileEdgeInsert record) := by
  unfold reconcileEdgeInsert modifyIndex bumpCount
  apply (diskKept_modify (by exact fun _ => rfl)).bind
  intro _
  apply (diskKept_onStore _).bind
  intro _
  apply (diskKept_addEdgeToAdjacency _ _ _).bind
  intro _
  exact diskKept_addEdgeToAdjacency _ _ _

theorem diskKept_walSync : Keeps DiskKept Graph.walSync :=
  keeps_get.bind fun _ => keeps_ite (fun _ => diskKept_onStore _) fun _ => keeps_pure ()

theorem diskKept_addEdge (label : String) (source target : Nat) (props : Properties) :
    Keeps DiskKept (addEdge label source target props) := by
  have quota : Keeps DiskKept checkQuota :=
    keeps_get.bind fun _ => keeps_ite (fun _ => keeps_throw _) fun _ => keeps_pure ()
  have charge : Keeps DiskKept (chargeBatchOp (estimateEntityBytes label props)) := by
    apply keeps_get_bind
    intro graph
    by_cases outside : graph.batchDepth = 0
    · simp only [outside, ↓reduceIte]
      exact refl_of DiskKept graph
    · simp only [outside, ↓reduceIte]
      split
      · exact refl_of DiskKept graph
      · exact refl_of DiskKept graph
      · exact rfl
  have allocate : Keeps DiskKept (allocateId .edge) :=
    keeps_get.bind fun _ => (diskKept_onStore _).bind fun _ => keeps_pure _
  unfold addEdge
  apply quota.bind
  intro _
  apply charge.bind
  intro _
  apply keeps_get.bind
  intro graph
  apply keeps_ite (fun _ => keeps_throw _)
  intro _
  apply keeps_ite (fun _ => keeps_throw _)
  intro _
  apply allocate.bind
  intro id
  apply (diskKept_onStore _).bind
  intro _
  exact (diskKept_reconcileEdgeInsert _).bind fun _ => diskKept_walSync.bind fun _ => keeps_pure id

section Call

variable {graph : Graph} {label : String} {source target : Nat} {props : Properties}

def newEdge (graph : Graph) (label : String) (source target : Nat) (props : Properties) : Record :=
  ⟨graph.store.info.nextId .edge, label, props, .ends source target⟩

def numbered (store : Store) : Store :=
  { store with info := { store.info with
      nextId := Function.update store.info.nextId .edge (store.info.nextId .edge + 1) } }

/-- The call is not refused before the edge has its slot. -/
def writesSlot (graph : Graph) (label : String) (source target : Nat) (props : Properties) : Bool :=
  !graph.quotaExceeded graph.store && graph.exists? (.node source) &&
    graph.exists? (.node target) &&
    succeeds (writeRecordSlot .edge (newEdge graph label source target props))
      (numbered graph.store)

/-- What a call appended, if it got to the edge's slot and if not. -/
structure EdgeAppended (wal : Wal) (after : Graph) (writes : Bool) (record : Record)
    (byte : Nat → UInt8) (cursor : Nat) : Prop where
  refused : writes = false →
    Journals (fun r => r.OnStrings ∧ r.RepeatsHeap byte cursor) (some wal) after.store.wal
  slot : writes = true → ∃ wal' added last rest,
    after.store.wal = some wal' ∧ wal'.records = wal.records ++ (added ++ [last]) ++ rest ∧
      (∀ r ∈ added, r.Aside) ∧ SlotRecord .edge record last

variable (label source target props) in
theorem addEdge_appends {contents : Contents} {byte : Nat → UInt8} {cursor : Nat} {wal : Wal}
    (unbatched : graph.batchDepth = 0) (journal : graph.store.wal = some wal)
    (holds : StoreIs graph.store contents)
    (blank : contents (.edge (graph.store.info.nextId .edge)) = .blank)
    (positive : 0 < graph.store.info.nextId .edge)
    (below : HeapBelow byte cursor graph.store.pages.strings)
    (beyond : cursor ≤ graph.store.heapOffset) :
    EdgeAppended wal (final (addEdge label source target props) graph)
      (graph.writesSlot label source target props) (newEdge graph label source target props)
      byte cursor := by
  have early (refused : graph.writesSlot label source target props = false) :
      EdgeAppended wal graph (graph.writesSlot label source target props)
        (newEdge graph label source target props) byte cursor := by
    refine ⟨fun _ => ?_, fun written => ?_⟩
    · rw [journal]
      exact Journals.refl _
    · rw [refused] at written
      cases written
  have charged : Sat (chargeBatchOp (estimateEntityBytes label props)) graph
      (fun _ after => after = graph) (fun _ _ => False) := sat_chargeBatchOp_same _ unbatched
  apply Sat.final (P := fun after => EdgeAppended wal after
    (graph.writesSlot label source target props) (newEdge graph label source target props) byte
    cursor)
  unfold addEdge
  rw [sat_bind]
  by_cases quota : graph.quotaExceeded graph.store
  · simp only [checkQuota, sat_bind, sat_get, quota, ↓reduceIte, sat_throw]
    exact early (by simp [writesSlot, quota])
  simp only [checkQuota, sat_bind, sat_get, quota, Bool.false_eq_true, ↓reduceIte, sat_pure]
  apply charged.sure _
  intro _ same charged
  rw [charged]
  by_cases sourceHere : graph.exists? (.node source)
  · by_cases targetHere : graph.exists? (.node target)
    · simp only [sourceHere, targetHere, Bool.not_true, Bool.false_eq_true, ↓reduceIte, sat_bind,
        allocateId, sat_get, modifyMeta, sat_onStore, sat_modify, sat_pure]
      have reached : graph.writesSlot label source target props =
          succeeds (writeRecordSlot .edge (newEdge graph label source target props))
            (numbered graph.store) := by
        simp [writesSlot, quota, sourceHere, targetHere]
      have holds' : StoreIs (numbered graph.store) contents :=
        holds.congr ⟨rfl, rfl, rfl, rfl, rfl, rfl, rfl, rfl⟩
      have intact : contents ⟨.edge, (newEdge graph label source target props).id⟩ ≠ .erased := by
        change contents (.edge (graph.store.info.nextId .edge)) ≠ .erased
        simp [blank]
      have journal' : (numbered graph.store).wal = some wal := journal
      have written := appends_writeRecordSlot .edge (newEdge graph label source target props)
        holds' positive intact journal' below beyond
      change Sat (writeRecordSlot .edge (newEdge graph label source target props))
        (numbered graph.store) _ _
      cases ok : succeeds (writeRecordSlot .edge (newEdge graph label source target props))
          (numbered graph.store) with
      | false =>
        rw [ok] at reached
        apply (written.of_fails ok).mono (fun _ _ => id)
        intro _ store logs
        rw [Store.Logs, journal'] at logs
        refine ⟨fun _ => logs, fun writes => ?_⟩
        rw [reached] at writes
        cases writes
      | true =>
        rw [ok] at reached
        apply (written.of_succeeds ok).relax _
        intro _ store appended
        obtain ⟨wal', added, last, here, grown, aside, isSlot⟩ := appended
        have finish (last' : Graph) (logs : Graph.Advances Plain { graph with store := store } last') :
            EdgeAppended wal last' (graph.writesSlot label source target props)
              (newEdge graph label source target props) byte cursor := by
          refine ⟨fun refused => ?_, fun _ => ?_⟩
          · rw [reached] at refused
            cases refused
          · have journal := logs.journal
            rw [here] at journal
            generalize last'.store.wal = wal'' at journal
            cases journal with
            | on more grown' _ _ =>
              exact ⟨_, added, last, more, rfl, by rw [grown', grown], aside, isSlot⟩
        have rest : Keeps (Graph.Advances Plain) (do
            reconcileEdgeInsert (newEdge graph label source target props)
            walSync) := (keeps_reconcileEdgeInsert _).bind fun _ => Graph.keeps_walSync
        have logs := rest { graph with store := store }
        rw [sat_bind] at logs
        apply logs.mono
        · intro _ linked synced
          exact synced.mono (fun _ => finish) (fun _ => finish)
        · exact fun _ => finish
    · simp only [sourceHere, targetHere, Bool.not_true, Bool.false_eq_true, ↓reduceIte, sat_bind,
        sat_pure, Bool.not_false, sat_throw]
      exact early (by simp [writesSlot, targetHere])
  · simp only [sourceHere, ↓reduceIte, sat_bind, Bool.not_false, sat_throw]
    exact early (by simp [writesSlot, sourceHere])

/-- A state whose files, as a crash would leave them with the whole journal, hold some contents.
No list there names an edge id that was never given out. -/
structure Recoverable (graph : Graph) (contents found : Contents) : Prop where
  store : StoreIs graph.store contents
  unused : contents (.edge (graph.store.info.nextId .edge)) = .blank
  firstId : 0 < graph.store.info.nextId .edge
  recovered : StoreIs (openStore graph.disk (graph.store.wal.map Wal.records)) found
  named : Named found
  places : PagesNamed (openStore graph.disk (graph.store.wal.map Wal.records)).pages
  texts : HeapBelow (openStore graph.disk (graph.store.wal.map Wal.records)).pages.strings.byte
    (openStore graph.disk (graph.store.wal.map Wal.records)).heapOffset graph.store.pages.strings
  cursor : (openStore graph.disk (graph.store.wal.map Wal.records)).heapOffset ≤
    graph.store.heapOffset
  unlisted : ∀ direction node ids,
    listedAt (openStore graph.disk (graph.store.wal.map Wal.records)) node direction
        (storedHeads (openStore graph.disk (graph.store.wal.map Wal.records)) node) = .ok ids →
      graph.store.info.nextId .edge ∉ ids

theorem recoverable_fresh (evicts : Nat → Nat → Bool) :
    Recoverable (fresh true evicts) (fun _ => .blank) fun _ => .blank where
  store := storeIs_fresh _
  unused := rfl
  firstId := Nat.one_pos
  recovered := storeIs_fresh _
  named := fun _ _ live => nomatch live
  places := fun _ _ _ flag => nomatch flag
  texts := ⟨Nat.zero_le _, fun _ inside => (Nat.not_lt_zero _ inside).elim⟩
  cursor := Nat.zero_le _
  unlisted := by
    intro direction node ids listed
    have none : listedAt (openStore Disk.fresh (some [])) node direction
        (storedHeads (openStore Disk.fresh (some [])) node) = .ok [] := by
      cases direction with
      | outgoing => rfl
      | incoming => rfl
    have empty : ids = [] := Except.ok.inj (listed.symm.trans none)
    rw [empty]
    exact List.not_mem_nil

end Call

/-- What opens when the journal is cut while a loop is added to the first node. -/
def crashedHalfway (graph : Graph) (kept : Nat) : Except Error Graph :=
  Graph.open graph.disk
    ((final (addEdge "L" 1 1 .empty) graph).store.wal.map fun wal => wal.records.take kept)
    fun _ _ => false

/-- Whether the first edge is there, the source it names, and the length of that node's list. -/
def firstEdge (graph : Graph) : Bool × Option Nat × Option Nat :=
  (graph.exists? (.edge 1), (graph.edge 1).toOption.map Edge.source,
    (answer (edgesOf .outgoing 1) graph).toOption.map List.length)

theorem crashedHalfway_unlisted :
    (oneNode.store.wal.map fun wal => wal.records.length) = some 1 ∧
      (crashedHalfway oneNode 2).toOption.map firstEdge = some (true, some 1, some 0) := by
  decide +kernel

theorem ListsEdges.firstEdge_ne {graph : Graph} (lists : ListsEdges graph) :
    firstEdge graph ≠ (true, some 1, some 0) := by
  intro same
  have live : graph.exists? (.edge 1) = true := congrArg Prod.fst same
  have ends : (graph.edge 1).toOption.map Edge.source = some 1 :=
    congrArg (fun part => part.2.1) same
  have empty : (answer (edgesOf .outgoing 1) graph).toOption.map List.length = some 0 :=
    congrArg (fun part => part.2.2) same
  obtain ⟨edge, read, listed⟩ := lists.listed 1 live
  rw [read] at ends
  have source : edge.endpoint .outgoing = 1 := some.inj ends
  obtain ⟨edges, answered, member⟩ := listed .outgoing
  rw [source] at answered
  rw [answered] at empty
  have none : edges = [] := List.length_eq_zero_iff.mp (some.inj empty)
  rw [none] at member
  cases member

theorem CrashAtomic.firstEdge_ne {graph : Graph}
    (atomic : CrashAtomic graph (final (addEdge "L" 1 1 .empty) graph)) {length kept : Nat}
    (journal : (graph.store.wal.map fun wal => wal.records.length) = some length)
    (enough : length ≤ kept) :
    (crashedHalfway graph kept).toOption.map firstEdge ≠ some (true, some 1, some 0) := by
  have disk : (final (addEdge "L" 1 1 .empty) graph).disk = graph.disk :=
    (diskKept_addEdge "L" 1 1 .empty graph).final
  have recovers := atomic kept <| by
    intro wal same
    rw [same] at journal
    have long : wal.records.length = length := some.inj journal
    rw [long]
    exact enough
  rw [disk] at recovers
  obtain ⟨opened, opens, lists⟩ := recovers fun _ _ => false
  have halfway : crashedHalfway graph kept = .ok opened := opens
  rw [halfway]
  intro same
  exact lists.firstEdge_ne (some.inj same)

end ErmyaGraph.Graph
