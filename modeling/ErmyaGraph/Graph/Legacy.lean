import ErmyaGraph.Graph.Lists
import ErmyaGraph.Graph.Queries
import ErmyaGraph.Graph.Shows

/-! # Auto-commit writes without version chains

Without version chains a write goes to its page at once. The invariant ties the
slots, the existence sets and the edge lists together; each write is specified
by what it does to them. -/

namespace ErmyaGraph.Graph

open Outcome Store List Function Indexes

variable {record : Record} {use : Nat → AdjUse} {links : Links} {direction : AdjDirection}
  {ids : List Nat}

/-- The heads a node's slot holds. -/
def slotPointer (contents : Contents) (node : Nat) : AdjacencyPointer :=
  match contents (.node node) with
  | .live record => record.link.pointer
  | _ => {}

def placeOf (record : Record) : AdjDirection → Option Nat
  | .outgoing => some record.source
  | .incoming => some record.target

/-- Where the given edges belong. -/
def linksOf (contents : Contents) (edges : Finset Nat) : Links := fun edge =>
  if edge ∈ edges then
    match contents (.edge edge) with
    | .live record => some (placeOf record)
    | _ => none
  else none

/-- The slots of a graph without version chains. The nodes and edges are those the existence
sets hold, except in the middle of a write. -/
structure Legacy (graph : Graph) (contents : Contents) (nodes edges : Finset Nat) : Prop where
  mode : graph.mvcc = none
  unbatched : graph.batchDepth = 0
  pending : graph.adj.pending = []
  store : StoreIs graph.store contents
  fresh : ∀ key, graph.store.info.nextId key.kind ≤ key.id → contents key = .blank
  firstId : ∀ kind, 0 < graph.store.info.nextId kind
  allotted : ∀ key record, contents key = .live record → record.Names key
  nodesLive : ∀ node ∈ nodes, 0 < node ∧ ∃ record, contents (.node node) = .live record
  edgesLive : ∀ edge ∈ edges, 0 < edge ∧ ∃ record, contents (.edge edge) = .live record ∧
    record.source ∈ nodes ∧ record.target ∈ nodes

/-- Between calls the lists are exact for the edges that exist. -/
structure Consistent (graph : Graph) (contents : Contents) : Prop where
  legacy : graph.Legacy contents (graph.index.present .node) (graph.index.present .edge)
  lists : ∃ use, graph.Linked use (slotPointer contents) (graph.index.present .node)
    (linksOf contents (graph.index.present .edge))

section Legacy

variable {graph : Graph} {contents : Contents} {nodes edges : Finset Nat}
variable {store : Store} {node : Nat}

theorem storedHeads_of_storeIs (holds : StoreIs store contents) (pos : 0 < node)
    (live : contents (.node node) = .live record) :
    storedHeads store node = slotPointer contents node := by
  obtain ⟨blobs, represents⟩ := holds
  have here := represents.slots (.node node) pos
  rw [live] at here
  obtain ⟨slot, found, held⟩ := here
  simp [storedHeads, slotPointer, found, held.flag, live, held.link]

theorem Legacy.storedHeads (legacy : graph.Legacy contents nodes edges) (mem : node ∈ nodes) :
    Graph.storedHeads graph.store node = slotPointer contents node := by
  obtain ⟨pos, record, live⟩ := legacy.nodesLive node mem
  exact storedHeads_of_storeIs legacy.store pos live

variable {key : EntityKey}

theorem Legacy.read (legacy : graph.Legacy contents nodes edges) (pos : 0 < key.id)
    (live : contents key = .live record) : graph.store.readRecord key = .ok record := by
  have read := legacy.store.read pos
  rw [live] at read
  exact read

/-- Only the heads of nodes differ. -/
structure Relinked (contents contents' : Contents) : Prop where
  edges : ∀ edge, contents' (.edge edge) = contents (.edge edge)
  nodes : ∀ node, contents' (.node node) = contents (.node node) ∨
    ∃ record ptr, contents (.node node) = .live record ∧
      contents' (.node node) = .live (record.withHeads ptr)

theorem Relinked.refl (contents : Contents) : Relinked contents contents :=
  ⟨fun _ => rfl, fun _ => .inl rfl⟩

theorem Relinked.trans {first second third : Contents} (earlier : Relinked first second)
    (later : Relinked second third) : Relinked first third := by
  constructor
  · intro edge
    rw [later.edges, earlier.edges]
  · intro node
    rcases later.nodes node with same | ⟨record, ptr, live, changed⟩
    · rw [same]
      exact earlier.nodes node
    · rcases earlier.nodes node with same | ⟨original, old, wasLive, patched⟩
      · exact .inr ⟨record, ptr, same ▸ live, changed⟩
      · rw [patched, Content.live.injEq] at live
        refine .inr ⟨original, ptr, wasLive, ?_⟩
        rw [changed, ← live]
        rfl

variable {contents' : Contents}

theorem Relinked.linksOf (relinked : Relinked contents contents') (edges : Finset Nat) :
    linksOf contents' edges = linksOf contents edges := by
  funext edge
  unfold Graph.linksOf
  rw [relinked.edges]

/-- The parts of a graph that linking leaves alone. -/
structure Relinks (before after : Graph) : Prop where
  rest : after = { before with store := after.store, adj := after.adj }
  nextId : after.store.info.nextId = before.store.info.nextId
  pending : after.adj.pending.map Prod.fst = before.adj.pending.map Prod.fst

instance : IsPreorder Graph Relinks where
  refl _ := ⟨rfl, rfl, rfl⟩
  trans _ _ _ earlier later := by
    refine ⟨?_, later.nextId.trans earlier.nextId, later.pending.trans earlier.pending⟩
    rw [later.rest, earlier.rest]

variable {after : Graph}

theorem LinksOnly.relinks {before : Graph} (only : LinksOnly before after) :
    Relinks before after := by
  refine ⟨only.rest, ?_, only.pending⟩
  rw [only.store.rest]

/-- Changing heads, caches and adjacency pages keeps the invariant of the slots. -/
theorem Legacy.relink (legacy : graph.Legacy contents nodes edges) (relinks : Relinks graph after)
    (relinked : Relinked contents contents') (store : StoreIs after.store contents') :
    after.Legacy contents' nodes edges := by
  have live : ∀ node record, contents (.node node) = .live record →
      ∃ record', contents' (.node node) = .live record' := by
    intro node record held
    rcases relinked.nodes node with same | ⟨_, ptr, _, changed⟩
    · exact ⟨record, same ▸ held⟩
    · exact ⟨_, changed⟩
  constructor
  · rw [relinks.rest]
    exact legacy.mode
  · rw [relinks.rest]
    exact legacy.unbatched
  · have same := relinks.pending
    rw [legacy.pending, map_nil, map_eq_nil_iff] at same
    exact same
  · exact store
  · intro key beyond
    rw [relinks.nextId] at beyond
    have blank := legacy.fresh key beyond
    obtain ⟨kind, id⟩ := key
    cases kind with
    | node =>
      rcases relinked.nodes id with same | ⟨record, _, held, _⟩
      · exact same.trans blank
      · rw [blank] at held
        cases held
    | edge => exact (relinked.edges id).trans blank
  · rw [relinks.nextId]
    exact legacy.firstId
  · intro key record held
    obtain ⟨kind, id⟩ := key
    cases kind with
    | node =>
      rcases relinked.nodes id with same | ⟨old, ptr, wasLive, changed⟩
      · exact legacy.allotted _ record (same ▸ held)
      · have isRecord := changed.symm.trans held
        rw [Content.live.injEq] at isRecord
        exact isRecord ▸ (legacy.allotted _ old wasLive).withHeads rfl ptr
    | edge => exact legacy.allotted _ record (relinked.edges id ▸ held)
  · intro node mem
    obtain ⟨pos, record, held⟩ := legacy.nodesLive node mem
    exact ⟨pos, live node record held⟩
  · intro edge mem
    obtain ⟨pos, record, held, ends⟩ := legacy.edgesLive edge mem
    exact ⟨pos, record, (relinked.edges edge).trans held, ends⟩

theorem Legacy.linksOnly (legacy : graph.Legacy contents nodes edges)
    (only : LinksOnly graph after) : after.Legacy contents nodes edges :=
  legacy.relink only.relinks (.refl contents) (legacy.store.congr only.store.sameData)

variable (ptr : AdjacencyPointer)

theorem relinked_withHeads (live : contents (.node node) = .live record) :
    Relinked contents (update contents (.node node) (.live (record.withHeads ptr))) := by
  constructor
  · intro edge
    exact update_of_ne (by simp) _ _
  · intro other
    by_cases same : other = node
    · subst same
      exact .inr ⟨record, ptr, live, update_self _ _ _⟩
    · exact .inl (update_of_ne (by simp [same]) _ _)

theorem sat_persistHeads (legacy : graph.Legacy contents nodes edges) (pos : 0 < node)
    (live : contents (.node node) = .live record) :
    Sat (persistAdjPointerToSlot node ptr) graph
      (fun _ after => after.adj = graph.adj ∧
        after.store.pages.adjacency = graph.store.pages.adjacency ∧ Relinks graph after ∧
        after.Legacy (update contents (.node node) (.live (record.withHeads ptr))) nodes
          edges)
      (fun _ _ => False) := by
  obtain ⟨blobs, represents⟩ := id legacy.store
  have here := represents.slots (.node node) pos
  rw [live] at here
  obtain ⟨slot, found, holds⟩ := here
  unfold persistAdjPointerToSlot
  rw [sat_bind, sat_get, found]
  simp only [holds.flag, ↓reduceIte, sat_onStore]
  have only := keeps_writeSlotToPage (.node node) (slot.patchAdjPointer ptr) true graph.store
  apply ((sat_writeHeads ptr true legacy.store pos live found).and only).mono _
    (fun _ _ failed => failed.1)
  intro _ store done
  have relinks : Relinks graph { graph with store := store } := ⟨rfl, done.2.nextId, rfl⟩
  exact ⟨trivial, done.2.adjacency, relinks,
    legacy.relink relinks (relinked_withHeads ptr live) done.1⟩

theorem slotPointer_withHeads (contents : Contents) (node : Nat) (record : Record)
    (ptr : AdjacencyPointer) :
    slotPointer (update contents (.node node) (.live (record.withHeads ptr))) =
      update (slotPointer contents) node ptr := by
  funext other
  unfold slotPointer
  by_cases same : other = node
  · subst same
    simp [Record.withHeads, Link.pointer]
  · rw [update_of_ne (by simp [same]), update_of_ne same]

/-- What linking one edge at one node leads to. -/
structure LinkedOnce (graph after : Graph) (contents : Contents) (nodes edges : Finset Nat)
    (links : Links) (contents' : Contents) : Prop where
  legacy : after.Legacy contents' nodes edges
  lists : ∃ use, after.Linked use (slotPointer contents') nodes links
  relinked : Relinked contents contents'
  relinks : Relinks graph after

variable {edge : Nat}

theorem sat_addEdgeToAdjacency_legacy (legacy : graph.Legacy contents nodes edges)
    (linked : graph.Linked use (slotPointer contents) nodes links) (mem : node ∈ nodes)
    (below : edge < graph.store.info.nextId .edge) (unplaced : links.Unplaced [edge] direction) :
    Sat (addEdgeToAdjacency node direction edge) graph
      (fun _ after => ∃ contents', LinkedOnce graph after contents nodes edges
        (links.place [edge] direction node) contents')
      (fun _ _ => True) := by
  unfold addEdgeToAdjacency
  rw [sat_bind, sat_get, if_neg (by rw [legacy.unbatched]; exact lt_irrefl 0)]
  unfold writeAdjImmediate
  rw [sat_bind]
  apply ((sat_resolveHeads linked (legacy.storedHeads mem)).and
    (keeps_resolveAdjPointer node graph)).mono _ (fun _ _ failed => failed.1.elim)
  intro answer resolved found
  obtain ⟨⟨ptr, found⟩, onlyCache⟩ := found
  rw [sat_bind, found.getD]
  have current : resolved.Current (slotPointer contents) node ptr := .inr found.cached
  have single : ∀ other ∈ [edge], other < resolved.store.info.nextId .edge := by
    rw [found.store]
    simpa using below
  apply ((sat_appendAndUpdateCaches found.linked mem current (nodup_singleton edge) single
    unplaced).and (keeps_appendAndUpdateCaches node direction ptr [edge] resolved)).loose _
  intro entry appended outcome
  obtain ⟨⟨cached, use', linked'⟩, onlyLists⟩ := outcome
  have only := trans_of LinksOnly onlyCache onlyLists
  obtain ⟨pos, record, live⟩ := legacy.nodesLive node mem
  apply (sat_persistHeads entry (legacy.linksOnly only) pos live).sure _
  intro _ after persisted
  obtain ⟨adj, file, relinks, legacy'⟩ := persisted
  refine ⟨_, legacy', ⟨use', ?_⟩, relinked_withHeads entry live,
    trans_of Relinks only.relinks relinks⟩
  rw [slotPointer_withHeads]
  exact linked'.congr file relinks.nextId adj

theorem sat_checkQuota_same (graph : Graph) :
    Sat checkQuota graph (fun _ after => after = graph) (fun _ after => after = graph) := by
  unfold checkQuota
  rw [sat_bind, sat_get, sat_ite]
  exact ⟨fun _ => rfl, fun _ => rfl⟩

theorem sat_chargeBatchOp_same (bytes : Nat) (unbatched : graph.batchDepth = 0) :
    Sat (chargeBatchOp bytes) graph (fun _ after => after = graph) (fun _ _ => False) := by
  unfold chargeBatchOp
  rw [sat_bind, sat_get, if_pos unbatched]
  rfl

variable (label : String) (props : Properties)

theorem sat_checkUnique_same (exclude : Option Nat) (graph : Graph) :
    Sat (checkUnique label props exclude) graph (fun _ after => after = graph)
      (fun _ after => after = graph) := by
  unfold checkUnique
  rw [sat_bind, sat_get]
  split
  · rfl
  · rfl

variable {heads : Nat → AdjacencyPointer}

theorem Linked.onStore (linked : graph.Linked use heads nodes links)
    (file : store.pages.adjacency = graph.store.pages.adjacency)
    (bound : store.info.nextId = graph.store.info.nextId) :
    Linked { graph with store := store } use heads nodes links :=
  linked.congr file bound rfl

variable {heads' : Nat → AdjacencyPointer}

section

variable (linked : graph.Linked use heads nodes links)
include linked

theorem Linked.watch {links' : Links}
    (file : after.store.pages.adjacency = graph.store.pages.adjacency) (adj : after.adj = graph.adj)
    (same : ∀ node ∈ nodes, heads' node = heads node)
    (exact_ : ∀ key ids, Exact links (graph.store.info.nextId .edge) key ids →
      Exact links' (after.store.info.nextId .edge) key ids) :
    after.Linked use heads' nodes links' := by
  have kept : ∀ key head,
      Leads graph.store.pages.adjacency use links (graph.store.info.nextId .edge) key head →
      Leads after.store.pages.adjacency use links' (after.store.info.nextId .edge) key head := by
    intro key head leads
    rw [file]
    exact leads.mono (fun _ _ _ _ listed => listed) fun ids => exact_ key ids
  constructor
  · rw [file]
    exact linked.shape
  · rw [adj]
    exact linked.openSlab
  · intro node mem direction
    rw [same node mem]
    exact kept _ _ (linked.stored node mem direction)
  · intro node mem ptr cached direction
    rw [adj] at cached
    exact kept _ _ (linked.cached node mem ptr cached direction)
  · intro node direction state remembered
    rw [adj] at remembered
    obtain ⟨mem, page, ids, stored, inCache, listed⟩ :=
      linked.tails node direction state remembered
    rw [file, adj, same node mem]
    exact ⟨mem, page, ids, stored, inCache, listed⟩

/-- A new node has no list, and none is remembered for it. -/
theorem Linked.addNode (isNew : node ∉ nodes)
    (nowhere : ∀ edge place, links edge = some place → ∀ direction, place direction ≠ some node)
    (empty : heads node = {}) :
    Linked { graph with adj := graph.adj.insert node {} } use heads (insert node nodes) links := by
  have absent : ∀ direction, Leads graph.store.pages.adjacency use links
      (graph.store.info.nextId .edge) (node, direction) none := by
    intro direction
    refine ⟨[], rfl, ?_⟩
    constructor
    · exact nodup_nil
    · simp
    · intro edge place watched
      simp [nowhere edge place watched direction]
  have noHead : ∀ direction, AdjacencyPointer.head {} direction = none := by
    intro direction
    cases direction with
    | outgoing => rfl
    | incoming => rfl
  constructor
  · exact linked.shape
  · exact linked.openSlab
  · intro other mem direction
    rcases Finset.mem_insert.mp mem with rfl | mem
    · rw [empty, noHead]
      exact absent direction
    · exact linked.stored other mem direction
  · intro other mem ptr cached direction
    simp only [AdjState.insert] at cached
    by_cases same : other = node
    · subst same
      rw [if_pos rfl, Option.some.injEq] at cached
      rw [← cached, noHead]
      exact absent direction
    · rw [if_neg same] at cached
      split at cached
      · cases cached
      · have old : other ∈ nodes := (Finset.mem_insert.mp mem).resolve_left same
        exact linked.cached other old ptr cached direction
  · intro other direction state remembered
    have remembered : graph.adj.tails other direction = some state := remembered
    obtain ⟨mem, page, ids, stored, inCache, listed⟩ :=
      linked.tails other direction state remembered
    refine ⟨Finset.mem_insert_of_mem mem, page, ids, stored, ?_, listed⟩
    intro ptr cached
    have ne : other ≠ node := fun same => isNew (same ▸ mem)
    simp only [AdjState.insert] at cached
    rw [if_neg ne] at cached
    split at cached
    · cases cached
    · exact inCache ptr cached

theorem Linked.removeNode (same : ∀ other ∈ nodes.erase node, heads' other = heads other) :
    Linked { graph with adj := (graph.adj.remove node).removeTails node } use heads'
      (nodes.erase node) links := by
  constructor
  · exact linked.shape
  · exact linked.openSlab
  · intro other mem direction
    rw [same other mem]
    exact linked.stored other (Finset.mem_of_mem_erase mem) direction
  · intro other mem ptr cached direction
    have ne := Finset.ne_of_mem_erase mem
    simp only [AdjState.removeTails, AdjState.remove, update_of_ne ne] at cached
    exact linked.cached other (Finset.mem_of_mem_erase mem) ptr cached direction
  · intro other direction state remembered
    simp only [AdjState.removeTails, AdjState.remove] at remembered
    by_cases isNode : other = node
    · rw [if_pos isNode] at remembered
      cases remembered
    · rw [if_neg isNode] at remembered
      obtain ⟨mem, page, ids, stored, inCache, listed⟩ :=
        linked.tails other direction state remembered
      have kept : other ∈ nodes.erase node := Finset.mem_erase.mpr ⟨isNode, mem⟩
      refine ⟨kept, page, ids, (same other kept) ▸ stored, ?_, listed⟩
      intro ptr cached
      simp only [AdjState.removeTails, AdjState.remove, update_of_ne isNode] at cached
      exact inCache ptr cached

end

theorem Legacy.congr (legacy : graph.Legacy contents nodes edges) (mode : after.mvcc = graph.mvcc)
    (batch : after.batchDepth = graph.batchDepth) (pending : after.adj.pending = graph.adj.pending)
    (store : SameData graph.store after.store)
    (nextId : after.store.info.nextId = graph.store.info.nextId) :
    after.Legacy contents nodes edges where
  mode := mode.trans legacy.mode
  unbatched := batch.trans legacy.unbatched
  pending := pending.trans legacy.pending
  store := legacy.store.congr store
  fresh := by
    rw [nextId]
    exact legacy.fresh
  firstId := by
    rw [nextId]
    exact legacy.firstId
  allotted := legacy.allotted
  nodesLive := legacy.nodesLive
  edgesLive := legacy.edgesLive

/-- A record was written to its slot. An edge that is in use keeps its endpoints in use. -/
theorem Legacy.write (legacy : graph.Legacy contents nodes edges) (mode : after.mvcc = graph.mvcc)
    (batch : after.batchDepth = graph.batchDepth) (pending : after.adj.pending = graph.adj.pending)
    (store : StoreIs after.store (update contents key (.live record)))
    (grown : ∀ kind, graph.store.info.nextId kind ≤ after.store.info.nextId kind)
    (below : key.id < after.store.info.nextId key.kind) (names : record.Names key)
    (ends : ∀ edge ∈ edges, key = .edge edge → record.source ∈ nodes ∧ record.target ∈ nodes) :
    after.Legacy (update contents key (.live record)) nodes edges where
  mode := mode.trans legacy.mode
  unbatched := batch.trans legacy.unbatched
  pending := pending.trans legacy.pending
  store := store
  fresh := by
    intro other beyond
    have ne : other ≠ key := by
      rintro rfl
      exact absurd below (Nat.not_lt.mpr beyond)
    rw [update_of_ne ne]
    exact legacy.fresh other ((grown other.kind).trans beyond)
  firstId := fun kind => lt_of_lt_of_le (legacy.firstId kind) (grown kind)
  allotted := by
    intro other held live
    by_cases same : other = key
    · subst same
      rw [update_self, Content.live.injEq] at live
      exact live ▸ names
    · rw [update_of_ne same] at live
      exact legacy.allotted other held live
  nodesLive := by
    intro node mem
    obtain ⟨pos, held, live⟩ := legacy.nodesLive node mem
    by_cases same : EntityKey.node node = key
    · subst same
      exact ⟨pos, record, update_self _ _ _⟩
    · exact ⟨pos, held, (update_of_ne same _ _).trans live⟩
  edgesLive := by
    intro edge mem
    obtain ⟨pos, held, live, inUse⟩ := legacy.edgesLive edge mem
    by_cases same : EntityKey.edge edge = key
    · subst same
      exact ⟨pos, record, update_self _ _ _, ends edge mem rfl⟩
    · exact ⟨pos, held, (update_of_ne same _ _).trans live, inUse⟩

/-- What a call leads to: a consistent graph, in which only the given records are new. -/
structure Stepped (graph after : Graph) (contents contents' : Contents)
    (wrote : Record → Prop) : Prop where
  consistent : after.Consistent contents'
  edges : ∀ edge record, contents' (.edge edge) = .live record →
    contents (.edge edge) = .live record ∨ wrote record
  nextId : ∀ kind, graph.store.info.nextId kind ≤ after.store.info.nextId kind

theorem sat_walSync_consistent (consistent : graph.Consistent contents) :
    Sat walSync graph
      (fun _ after => after.Consistent contents ∧ after.store.info.nextId = graph.store.info.nextId)
      (fun _ _ => False) := by
  unfold walSync
  rw [sat_bind, sat_get, if_pos consistent.legacy.unbatched]
  obtain ⟨use, linked⟩ := consistent.lists
  refine ⟨⟨?_, use, ?_⟩, rfl⟩
  · exact consistent.legacy.congr rfl rfl rfl ⟨rfl, rfl, rfl, rfl, rfl, rfl, rfl, rfl⟩ rfl
  · exact linked.congr rfl rfl rfl

theorem Legacy.placed (legacy : graph.Legacy contents nodes edges)
    {place : AdjDirection → Option Nat} (watched : linksOf contents edges edge = some place)
    (here : place direction = some node) : node ∈ nodes := by
  unfold linksOf at watched
  split at watched
  · next mem =>
      obtain ⟨_, record, live, source, target⟩ := legacy.edgesLive edge mem
      rw [live, Option.some.injEq] at watched
      rw [← watched] at here
      cases direction with
      | outgoing => exact Option.some.inj here ▸ source
      | incoming => exact Option.some.inj here ▸ target
  · cases watched

variable {kind : EntityKind}

theorem Legacy.unallotted (legacy : graph.Legacy contents nodes edges) {id : Nat}
    (beyond : graph.store.info.nextId kind ≤ id) : contents ⟨kind, id⟩ = .blank :=
  legacy.fresh ⟨kind, id⟩ beyond

def takeId (store : Store) (kind : EntityKind) : Store :=
  { store with info := { store.info with
      nextId := update store.info.nextId kind (store.info.nextId kind + 1) } }

/-- Writing a record under the id that was just taken. -/
theorem sat_writeFresh (legacy : graph.Legacy contents nodes edges)
    (isNext : record.id = graph.store.info.nextId kind) (names : record.Names ⟨kind, record.id⟩) :
    Sat (writeRecordSlot kind record) (takeId graph.store kind)
      (fun _ store => Legacy { graph with store := store }
          (update contents ⟨kind, record.id⟩ (.live record)) nodes edges ∧
        store.pages.adjacency = graph.store.pages.adjacency ∧
        store.info.nextId = update graph.store.info.nextId kind (graph.store.info.nextId kind + 1))
      (fun _ _ => True) := by
  have blank : contents ⟨kind, record.id⟩ = .blank := legacy.unallotted (le_of_eq isNext.symm)
  have holds : StoreIs (takeId graph.store kind) contents :=
    legacy.store.congr ⟨rfl, rfl, rfl, rfl, rfl, rfl, rfl, rfl⟩
  have pos : 0 < record.id := isNext ▸ legacy.firstId kind
  apply ((sat_writeRecordSlot kind record holds pos (by rw [blank]; exact nofun)).and
    (keeps_writeRecordSlot kind record (takeId graph.store kind))).loose _
  intro _ store done
  obtain ⟨stored, only⟩ := done
  have nextId : store.info.nextId =
      update graph.store.info.nextId kind (graph.store.info.nextId kind + 1) := only.nextId
  refine ⟨?_, only.adjacency, nextId⟩
  refine legacy.write rfl rfl rfl stored ?_ ?_ names ?_
  · intro other
    dsimp only
    rw [nextId]
    by_cases same : other = kind
    · subst same
      rw [update_self]
      exact Nat.le_succ _
    · rw [update_of_ne same]
  · dsimp only
    rw [nextId, isNext]
    simp
  · intro edge mem isEdge
    obtain ⟨_, held, live, _⟩ := legacy.edgesLive edge mem
    rw [isEdge, live] at blank
    cases blank

theorem linksOf_update_node (contents : Contents) (edges : Finset Nat) (node : Nat)
    (held : Content) :
    linksOf (update contents (.node node) held) edges = linksOf contents edges := by
  funext edge
  unfold linksOf
  rw [update_of_ne (by simp)]

theorem linksOf_update_edge {held : Content} (absent : edge ∉ edges) :
    linksOf (update contents (.edge edge) held) edges = linksOf contents edges := by
  funext other
  unfold linksOf
  by_cases same : other = edge
  · subst same
    rw [if_neg absent, if_neg absent]
  · rw [update_of_ne (by simpa using same)]

theorem slotPointer_update_edge (contents : Contents) (edge : Nat) (held : Content) :
    slotPointer (update contents (.edge edge) held) = slotPointer contents := by
  funext node
  unfold slotPointer
  rw [update_of_ne (by simp)]

theorem slotPointer_update_of_ne (contents : Contents) {other : Nat} (held : Content)
    (ne : other ≠ node) :
    slotPointer (update contents (.node node) held) other = slotPointer contents other := by
  unfold slotPointer
  rw [update_of_ne (by simpa using ne)]

/-- The graph after a new node's slot was written and the derived structures followed. -/
theorem Consistent.nodeInserted
    (legacy : graph.Legacy contents (graph.index.present .node) (graph.index.present .edge))
    (linked : graph.Linked use (slotPointer contents) (graph.index.present .node)
      (linksOf contents (graph.index.present .edge)))
    (isNext : record.id = graph.store.info.nextId .node) (headless : record.link.pointer = {})
    (written : after.Legacy (update contents (.node record.id) (.live record))
      (graph.index.present .node) (graph.index.present .edge))
    (file : after.store.pages.adjacency = graph.store.pages.adjacency)
    (nextId : after.store.info.nextId .edge = graph.store.info.nextId .edge)
    (adj : after.adj = graph.adj.insert record.id {})
    (nodes : after.index.present .node = insert record.id (graph.index.present .node))
    (edges : after.index.present .edge = graph.index.present .edge) :
    after.Consistent (update contents (.node record.id) (.live record)) := by
  have blank : contents (.node record.id) = .blank := legacy.unallotted (le_of_eq isNext.symm)
  have isNew : record.id ∉ graph.index.present .node := by
    intro mem
    obtain ⟨_, held, live⟩ := legacy.nodesLive _ mem
    rw [blank] at live
    cases live
  constructor
  · rw [nodes, edges]
    refine { written with nodesLive := ?_, edgesLive := ?_ }
    · intro node mem
      rcases Finset.mem_insert.mp mem with rfl | mem
      · exact ⟨isNext ▸ legacy.firstId .node, record, update_self _ _ _⟩
      · exact written.nodesLive node mem
    · intro edge mem
      obtain ⟨pos, held, live, source, target⟩ := written.edgesLive edge mem
      exact ⟨pos, held, live, Finset.mem_insert_of_mem source, Finset.mem_insert_of_mem target⟩
  · refine ⟨use, ?_⟩
    rw [nodes, edges, linksOf_update_node]
    have watched : graph.Linked use
        (slotPointer (update contents (.node record.id) (.live record)))
        (graph.index.present .node) (linksOf contents (graph.index.present .edge)) := by
      apply linked.watch rfl rfl _ fun _ _ lists => lists
      intro node mem
      exact slotPointer_update_of_ne contents _ fun same => isNew (same ▸ mem)
    have nowhere : ∀ edge place, linksOf contents (graph.index.present .edge) edge = some place →
        ∀ direction, place direction ≠ some record.id :=
      fun edge place found direction here => isNew (legacy.placed found here)
    have empty : slotPointer (update contents (.node record.id) (.live record))
        record.id = {} := by
      unfold slotPointer
      rw [update_self]
      exact headless
    have added := watched.addNode isNew nowhere empty
    apply added.watch file adj (fun _ _ => rfl)
    intro key ids lists
    rw [nextId]
    exact lists

theorem sat_addNode_legacy (consistent : graph.Consistent contents) :
    Sat (addNode label props) graph
      (fun _ after => ∃ contents', Stepped graph after contents contents' fun _ => False)
      (fun _ _ => True) := by
  obtain ⟨legacy, use, linked⟩ := consistent
  unfold addNode
  rw [sat_bind]
  apply (sat_checkQuota_same graph).loose _
  rintro _ _ rfl
  rw [sat_bind]
  apply (sat_chargeBatchOp_same _ legacy.unbatched).sure _
  rintro _ _ rfl
  rw [sat_bind]
  apply (sat_checkUnique_same label props none _).loose _
  rintro _ graph rfl
  simp only [allocateId, modifyMeta, sat_bind, sat_get, sat_onStore, sat_modify, sat_pure]
  apply (sat_writeFresh legacy rfl ⟨rfl, trivial⟩).loose _
  intro _ store written
  obtain ⟨legacy', file, nextId⟩ := written
  -- The label may be append-only: the set of such nodes is not part of the invariant.
  have finish : ∀ after : Graph, after.mvcc = graph.mvcc → after.batchDepth = graph.batchDepth →
      after.adj = graph.adj.insert (graph.store.info.nextId .node) {} →
      SameData store after.store → after.store.pages.adjacency = store.pages.adjacency →
      after.store.info.nextId = store.info.nextId →
      after.index.present = (graph.index.insertPresent
        (.node (graph.store.info.nextId .node))).present →
      Sat walSync after
        (fun _ after => ∃ contents', Stepped graph after contents contents' fun _ => False)
        (fun _ _ => True) := by
    intro after mode batch adj data pages ids present
    have consistent : after.Consistent
        (update contents (.node (graph.store.info.nextId .node))
          (.live ⟨graph.store.info.nextId .node, label, props, .heads {}⟩)) :=
      Consistent.nodeInserted legacy linked rfl rfl
      (legacy'.congr mode batch (by rw [adj]; rfl) data ids) (pages.trans file)
      (by rw [ids, nextId]; rfl) adj (by rw [present]; simp [insertPresent])
      (by rw [present]; simp [insertPresent])
    apply (sat_walSync_consistent consistent).sure _
    intro _ final synced
    refine ⟨_, synced.1, ?_, ?_⟩
    · intro edge record live
      rw [update_of_ne (by simp)] at live
      exact .inl live
    · intro kind
      rw [synced.2, ids, nextId]
      cases kind with
      | node => simp
      | edge => simp
  simp only [reconcileNodeInsert, modifyIndex, bumpCount, modifyMeta, modifyAdj, sat_bind,
    sat_modify, sat_onStore]
  split
  · exact finish _ rfl rfl rfl ⟨rfl, rfl, rfl, rfl, rfl, rfl, rfl, rfl⟩ rfl rfl rfl
  · exact finish _ rfl rfl rfl ⟨rfl, rfl, rfl, rfl, rfl, rfl, rfl, rfl⟩ rfl rfl rfl

def Links.add (links : Links) (edge : Nat) : Links :=
  update links edge (some fun _ => none)

theorem Exact.add {bound : Nat} {key : ListKey} (lists : Exact links bound key ids) :
    Exact (links.add bound) (bound + 1) key ids := by
  constructor
  · exact lists.nodup
  · intro id mem
    exact Nat.lt_succ_of_lt (lists.bounded id mem)
  · intro edge place watched
    by_cases isNew : edge = bound
    · subst isNew
      simp only [Links.add, update_self, Option.some.injEq] at watched
      have absent : edge ∉ ids := fun mem => lt_irrefl _ (lists.bounded edge mem)
      simp [absent, ← watched]
    · rw [Links.add, update_of_ne isNew] at watched
      exact lists.listed edge place watched

theorem linksOf_insert (live : contents (.edge record.id) = .live record) :
    (((linksOf contents edges).add record.id).place [record.id] .outgoing record.source).place
      [record.id] .incoming record.target = linksOf contents (insert record.id edges) := by
  funext edge
  by_cases same : edge = record.id
  · subst same
    have placed : update (update (fun _ => none) .outgoing (some record.source))
        .incoming (some record.target) = placeOf record := by
      funext direction
      cases direction with
      | outgoing => rfl
      | incoming => rfl
    simp [linksOf, Links.place, Links.add, live, placed]
  · simp [linksOf, Links.place, Links.add, same]

theorem Legacy.insertEdge (legacy : graph.Legacy contents nodes edges) (pos : 0 < record.id)
    (live : contents (.edge record.id) = .live record) (source : record.source ∈ nodes)
    (target : record.target ∈ nodes) : graph.Legacy contents nodes (insert record.id edges) := by
  refine { legacy with edgesLive := ?_ }
  intro edge mem
  rcases Finset.mem_insert.mp mem with rfl | mem
  · exact ⟨pos, record, live, source, target⟩
  · exact legacy.edgesLive edge mem

theorem unplaced_add (links : Links) (edge : Nat) (direction : AdjDirection) :
    (links.add edge).Unplaced [edge] direction := by
  intro other mem
  obtain rfl : other = edge := by simpa using mem
  exact ⟨fun _ => none, update_self _ _ _, rfl⟩

theorem unplaced_place (links : Links) (edge node : Nat) :
    ((links.add edge).place [edge] .outgoing node).Unplaced [edge] .incoming := by
  intro other mem
  obtain rfl : other = edge := by simpa using mem
  exact ⟨update (fun _ => none) .outgoing (some node), by simp [Links.place, Links.add], rfl⟩

/-- Linking a new edge at both its ends, once its slot was written and the existence set and the
other indexes hold it. -/
theorem sat_linkNewEdge (legacy : graph.Legacy contents nodes edges)
    (linked : graph.Linked use (slotPointer contents) nodes
      ((linksOf contents edges).add record.id)) (pos : 0 < record.id)
    (below : record.id < graph.store.info.nextId .edge)
    (live : contents (.edge record.id) = .live record) (source : record.source ∈ nodes)
    (target : record.target ∈ nodes) :
    Sat (do
        addEdgeToAdjacency record.source .outgoing record.id
        addEdgeToAdjacency record.target .incoming record.id) graph
      (fun _ after => ∃ contents', LinkedOnce graph after contents nodes (insert record.id edges)
        (linksOf contents' (insert record.id edges)) contents')
      (fun _ _ => True) := by
  rw [sat_bind]
  apply (sat_addEdgeToAdjacency_legacy legacy linked source below (unplaced_add _ _ _)).loose _
  intro _ linkedOut outcome
  obtain ⟨contents₁, once⟩ := outcome
  obtain ⟨use₁, linked₁⟩ := once.lists
  apply (sat_addEdgeToAdjacency_legacy once.legacy linked₁ target
    (by rw [once.relinks.nextId]; exact below) (unplaced_place _ _ _)).loose _
  intro _ after outcome
  obtain ⟨contents₂, twice⟩ := outcome
  obtain ⟨use₂, linked₂⟩ := twice.lists
  have relinked := once.relinked.trans twice.relinked
  rw [linksOf_insert live, ← relinked.linksOf] at linked₂
  refine ⟨contents₂, ?_, ⟨use₂, linked₂⟩, relinked, trans_of Relinks once.relinks twice.relinks⟩
  exact twice.legacy.insertEdge pos ((relinked.edges _).trans live) source target

theorem sat_addEdge_legacy (source target : Nat) (props : Properties)
    (consistent : graph.Consistent contents) :
    Sat (addEdge label source target props) graph
      (fun id after => id = graph.store.info.nextId .edge ∧ ∃ contents', Stepped graph after
        contents contents' fun record => record = ⟨id, label, props, .ends source target⟩)
      (fun _ _ => True) := by
  obtain ⟨legacy, use, linked⟩ := consistent
  unfold addEdge
  rw [sat_bind]
  apply (sat_checkQuota_same graph).loose _
  rintro _ _ rfl
  rw [sat_bind]
  apply (sat_chargeBatchOp_same _ legacy.unbatched).sure _
  rintro _ graph rfl
  rw [sat_bind, sat_get, sat_ite]
  refine ⟨fun _ => trivial, fun sourceExists => ?_⟩
  rw [sat_ite]
  refine ⟨fun _ => trivial, fun targetExists => ?_⟩
  have sourceMember : source ∈ graph.index.present .node := by simpa [exists?] using sourceExists
  have targetMember : target ∈ graph.index.present .node := by simpa [exists?] using targetExists
  have names : Record.Names ⟨graph.store.info.nextId .edge, label, props, .ends source target⟩
      (.edge (graph.store.info.nextId .edge)) :=
    ⟨rfl, (legacy.nodesLive source sourceMember).1, (legacy.nodesLive target targetMember).1⟩
  have isNew : graph.store.info.nextId .edge ∉ graph.index.present .edge := by
    intro mem
    obtain ⟨_, held, live, _⟩ := legacy.edgesLive _ mem
    rw [legacy.unallotted (le_refl (graph.store.info.nextId .edge))] at live
    cases live
  simp only [allocateId, modifyMeta, sat_bind, sat_get, sat_onStore, sat_modify, sat_pure]
  apply (sat_writeFresh legacy rfl names).loose _
  intro _ store written
  obtain ⟨legacy', file, nextId⟩ := written
  simp only [reconcileEdgeInsert, modifyIndex, bumpCount, modifyMeta, sat_bind, sat_modify,
    sat_onStore]
  rw [← sat_bind]
  have same : linksOf (update contents (.edge (graph.store.info.nextId .edge)) (.live
      ⟨graph.store.info.nextId .edge, label, props, .ends source target⟩))
      (graph.index.present .edge) = linksOf contents (graph.index.present .edge) :=
    linksOf_update_edge isNew
  have bound : store.info.nextId .edge = graph.store.info.nextId .edge + 1 := by
    rw [nextId, update_self]
  have watched : ∀ key ids, Exact (linksOf contents (graph.index.present .edge))
      (graph.store.info.nextId .edge) key ids →
      Exact ((linksOf (update contents (.edge (graph.store.info.nextId .edge)) (.live
        ⟨graph.store.info.nextId .edge, label, props, .ends source target⟩))
        (graph.index.present .edge)).add (graph.store.info.nextId .edge))
        (store.info.nextId .edge) key ids := by
    intro key ids lists
    rw [same, bound]
    exact lists.add
  apply (sat_linkNewEdge (legacy'.congr (by rfl) (by rfl) (by rfl)
    (by exact ⟨rfl, rfl, rfl, rfl, rfl, rfl, rfl, rfl⟩) (by rfl))
    (linked.watch (by exact file) (by rfl) (fun node _ => by rw [slotPointer_update_edge]) watched)
    (legacy.firstId .edge) (by dsimp only; rw [bound]; exact Nat.lt_succ_self _)
    (update_self _ _ _) sourceMember targetMember).loose _
  intro _ between outcome
  obtain ⟨contents', once⟩ := outcome
  have consistent : between.Consistent contents' := by
    have present : between.index.present = _ := congrArg (fun g => g.index.present)
      once.relinks.rest
    have nodes : between.index.present .node = graph.index.present .node := by
      rw [present]
      simp [insertPresent, insertLabel, insertPair]
    have edges : between.index.present .edge =
        insert (graph.store.info.nextId .edge) (graph.index.present .edge) := by
      rw [present]
      simp [insertPresent, insertLabel, insertPair]
    constructor
    · rw [nodes, edges]
      exact once.legacy
    · rw [nodes, edges]
      exact once.lists
  apply (sat_walSync_consistent consistent).sure _
  intro _ after synced
  refine ⟨trivial, contents', synced.1, ?_, ?_⟩
  · intro edge record live
    rw [once.relinked.edges] at live
    by_cases isNext : edge = graph.store.info.nextId .edge
    · subst isNext
      rw [update_self, Content.live.injEq] at live
      exact .inr live.symm
    · rw [update_of_ne (by simpa using isNext)] at live
      exact .inl live
  · intro kind
    have grown : after.store.info.nextId = store.info.nextId := synced.2.trans once.relinks.nextId
    rw [grown, nextId]
    cases kind with
    | node => simp
    | edge => simp

/-- An erased slot that still names an overflow page: storing to it releases that page again. -/
def staleOverflow (store : Store) (key : EntityKey) : Bool :=
  match store.readSlot key with
  | .ok slot => slot.flag ≠ .live && slot.propOverflow?.isSome
  | .error _ => false

theorem storeIs_blank (holds : StoreIs store contents) (pos : 0 < key.id)
    (erased : contents key = .erased) (clean : staleOverflow store key = false) :
    StoreIs store (update contents key .blank) := by
  obtain ⟨blobs, represents⟩ := holds
  refine ⟨blobs, represents.overflow, represents.heap, fun other otherPositive => ?_⟩
  by_cases same : other = key
  · subst same
    rw [update_self]
    intro slot found
    have dead := represents.slots other pos
    rw [erased] at dead
    have isDead := dead slot found
    simp only [staleOverflow, found, isDead, ne_eq, not_false_eq_true, decide_true,
      Bool.true_and, Option.isSome_eq_false_iff, Option.isNone_iff_eq_none] at clean
    exact ⟨isDead, clean⟩
  · rw [update_of_ne same]
    exact represents.slots other otherPositive

theorem sat_writeRecord (holds : StoreIs store contents) (pos : 0 < record.id)
    (clean : staleOverflow store ⟨kind, record.id⟩ = false) :
    Sat (writeRecordSlot kind record) store
      (fun _ after => StoreIs after (update contents ⟨kind, record.id⟩ (.live record)))
      (fun _ _ => True) := by
  by_cases erased : contents ⟨kind, record.id⟩ = .erased
  · have blank := storeIs_blank holds pos erased clean
    apply (sat_writeRecordSlot kind record blank pos
      (by rw [update_self]; exact nofun)).loose _
    intro _ after stored
    rwa [update_idem] at stored
  · exact (sat_writeRecordSlot kind record holds pos erased).loose (fun _ _ stored => stored)

theorem sat_currentRecord_same (key : EntityKey) (graph : Graph) :
    Sat (currentRecord key) graph
      (fun record after => after = graph ∧ graph.exists? key ∧
        graph.store.readRecord key = .ok record)
      (fun _ after => after = graph) := by
  unfold currentRecord
  rw [sat_bind, sat_get, sat_ite]
  constructor
  · intro present
    rw [sat_ofResult]
    exact ⟨fun _ read => ⟨rfl, present, read⟩, fun _ _ => rfl⟩
  · intro _
    exact rfl

/-- An edge record that keeps the endpoints of the edge it replaces, if that edge is in use. -/
def KeepsEnds (contents : Contents) (edges : Finset Nat) (record : Record) : Prop :=
  record.id ∈ edges → ∀ old, contents (.edge record.id) = .live old →
    record.source = old.source ∧ record.target = old.target

theorem linksOf_rewrite (ends : KeepsEnds contents edges record)
    (legacy : graph.Legacy contents nodes edges) :
    linksOf (update contents (.edge record.id) (.live record)) edges =
      linksOf contents edges := by
  funext edge
  by_cases same : edge = record.id
  · subst same
    unfold linksOf
    by_cases mem : record.id ∈ edges
    · obtain ⟨_, old, live, _⟩ := legacy.edgesLive _ mem
      obtain ⟨source, target⟩ := ends mem old live
      have place : placeOf record = placeOf old := by
        funext direction
        cases direction with
        | outgoing => exact congrArg some source
        | incoming => exact congrArg some target
      simp only [if_pos mem, update_self, live, place]
    · rw [if_neg mem, if_neg mem]
  · unfold linksOf
    rw [update_of_ne (by simpa using same)]

theorem sat_updateEdge_legacy {id : Nat} {edge : Edge} (consistent : graph.Consistent contents)
    (names : edge.toRecord.Names (.edge edge.id)) (pos : 0 < edge.id)
    (below : edge.id < graph.store.info.nextId .edge)
    (ends : KeepsEnds contents (graph.index.present .edge) edge.toRecord)
    (clean : staleOverflow graph.store (.edge edge.id) = false) :
    Sat (updateEdge id edge) graph
      (fun _ after => ∃ contents', Stepped graph after contents contents' fun record =>
        record = edge.toRecord)
      (fun _ _ => True) := by
  obtain ⟨legacy, use, linked⟩ := consistent
  unfold updateEdge
  rw [sat_bind]
  apply (sat_chargeBatchOp_same _ legacy.unbatched).sure _
  rintro _ _ rfl
  rw [sat_bind]
  apply (sat_currentRecord_same _ _).loose _
  rintro current graph ⟨rfl, _, _⟩
  simp only [reconcileEdgeUpdate, modifyIndex, sat_bind, sat_modify, sat_onStore]
  apply ((sat_writeRecord legacy.store pos clean).and
    (keeps_writeRecordSlot .edge edge.toRecord graph.store)).loose _
  intro _ store done
  obtain ⟨stored, only⟩ := done
  have grown : store.info.nextId = graph.store.info.nextId := only.nextId
  have finish : ∀ index : Indexes, index.present = graph.index.present →
      Sat walSync { graph with store := store, index := index }
        (fun _ after => ∃ contents', Stepped graph after contents contents' fun record =>
          record = edge.toRecord)
        (fun _ _ => True) := by
    intro index present
    have rewritten : Consistent { graph with store := store, index := index }
        (update contents (.edge edge.id) (.live edge.toRecord)) := by
      constructor
      · dsimp only
        rw [present]
        refine legacy.write rfl rfl rfl stored (fun kind => ?_) ?_ names ?_
        · dsimp only
          rw [grown]
        · dsimp only
          rw [grown]
          exact below
        · intro other mem same
          obtain rfl : edge.id = other := by simpa using same
          obtain ⟨_, old, live, source, target⟩ := legacy.edgesLive _ mem
          have kept := ends mem old live
          rw [kept.1, kept.2]
          exact ⟨source, target⟩
      · refine ⟨use, ?_⟩
        dsimp only
        have links : linksOf (update contents (.edge edge.id) (.live edge.toRecord))
            (graph.index.present .edge) = linksOf contents (graph.index.present .edge) :=
          linksOf_rewrite ends legacy
        rw [present, links, slotPointer_update_edge]
        exact linked.congr only.adjacency grown rfl
    apply (sat_walSync_consistent rewritten).sure _
    intro _ after synced
    refine ⟨_, synced.1, ?_, ?_⟩
    · intro other record live
      by_cases same : other = edge.id
      · subst same
        rw [update_self, Content.live.injEq] at live
        exact .inr live.symm
      · rw [update_of_ne (by simpa using same)] at live
        exact .inl live
    · intro kind
      rw [synced.2]
      exact le_of_eq (congrFun grown kind).symm
  apply finish
  split
  · rfl
  · rfl

theorem Legacy.erase {nodes' edges' : Finset Nat} (legacy : graph.Legacy contents nodes edges)
    (mode : after.mvcc = graph.mvcc) (batch : after.batchDepth = graph.batchDepth)
    (pending : after.adj.pending = graph.adj.pending)
    (store : StoreIs after.store (update contents key .erased))
    (nextId : after.store.info.nextId = graph.store.info.nextId)
    (below : key.id < graph.store.info.nextId key.kind)
    (fewerNodes : ∀ node ∈ nodes', node ∈ nodes ∧ ⟨.node, node⟩ ≠ key)
    (fewerEdges : ∀ edge ∈ edges', edge ∈ edges ∧ ⟨.edge, edge⟩ ≠ key ∧ ∀ record,
      contents (.edge edge) = .live record → record.source ∈ nodes ∧ record.target ∈ nodes →
        record.source ∈ nodes' ∧ record.target ∈ nodes') :
    after.Legacy (update contents key .erased) nodes' edges' where
  mode := mode.trans legacy.mode
  unbatched := batch.trans legacy.unbatched
  pending := pending.trans legacy.pending
  store := store
  fresh := by
    intro other beyond
    rw [nextId] at beyond
    have ne : other ≠ key := by
      rintro rfl
      exact absurd below (Nat.not_lt.mpr beyond)
    rw [update_of_ne ne]
    exact legacy.fresh other beyond
  firstId := by
    rw [nextId]
    exact legacy.firstId
  allotted := by
    intro other record live
    by_cases same : other = key
    · rw [same, update_self] at live
      cases live
    · rw [update_of_ne same] at live
      exact legacy.allotted other record live
  nodesLive := by
    intro node mem
    obtain ⟨present, ne⟩ := fewerNodes node mem
    obtain ⟨pos, record, live⟩ := legacy.nodesLive node present
    exact ⟨pos, record, (update_of_ne ne _ _).trans live⟩
  edgesLive := by
    intro edge mem
    obtain ⟨present, ne, kept⟩ := fewerEdges edge mem
    obtain ⟨pos, record, live, inUse⟩ := legacy.edgesLive edge present
    exact ⟨pos, record, (update_of_ne ne _ _).trans live, kept record live inUse⟩

theorem linksOf_erase (contents : Contents) (edges : Finset Nat) (edge : Nat) (held : Content) :
    linksOf (update contents (.edge edge) held) (edges.erase edge) =
      update (linksOf contents edges) edge none := by
  funext other
  by_cases same : other = edge
  · subst same
    simp [linksOf]
  · simp [linksOf, same]

theorem Exact.forget {bound : Nat} {key : ListKey} (lists : Exact links bound key ids)
    (edge : Nat) : Exact (update links edge none) bound key ids := by
  constructor
  · exact lists.nodup
  · exact lists.bounded
  · intro other place watched
    by_cases same : other = edge
    · subst same
      rw [update_self] at watched
      cases watched
    · rw [update_of_ne same] at watched
      exact lists.listed other place watched

/-- What removing an edge leads to. -/
structure EdgeRemoved (graph after : Graph) (contents : Contents) (nodes edges : Finset Nat)
    (edge : Nat) : Prop where
  legacy : after.Legacy (update contents (.edge edge) .erased) nodes (edges.erase edge)
  lists : ∃ use, after.Linked use (slotPointer contents) nodes
    (linksOf (update contents (.edge edge) .erased) (edges.erase edge))
  nodesSame : after.index.present .node = graph.index.present .node
  edgesErased : after.index.present .edge = (graph.index.present .edge).erase edge
  nextId : after.store.info.nextId = graph.store.info.nextId

theorem sat_removeEdgeInternal_legacy (legacy : graph.Legacy contents nodes edges)
    (linked : graph.Linked use (slotPointer contents) nodes (linksOf contents edges))
    (mem : edge ∈ edges) :
    Sat (removeEdgeInternal edge) graph
      (fun record after => contents (.edge edge) = .live record ∧
        EdgeRemoved graph after contents nodes edges edge)
      (fun _ _ => True) := by
  obtain ⟨pos, record, live, source, target⟩ := legacy.edgesLive edge mem
  have names := legacy.allotted _ record live
  have below : edge < graph.store.info.nextId .edge := by
    by_contra beyond
    have blank : contents (.edge edge) = .blank := legacy.unallotted (not_lt.mp beyond)
    rw [live] at blank
    cases blank
  unfold removeEdgeInternal
  rw [sat_bind, sat_get, legacy.read pos live, sat_bind, sat_ofResult_ok, sat_bind,
    sat_onStore]
  apply ((sat_tombstoneSlot true legacy.store pos (by simp [live])).and
    (keeps_tombstoneSlot (.edge edge) true graph.store)).mono _ (fun _ _ failed => failed.1.elim)
  intro _ store done
  obtain ⟨stored, only⟩ := done
  have erased : StoreIs store (update contents (.edge edge) .erased) := by
    rw [live] at stored
    exact stored
  have legacy₁ : Legacy { graph with store := store }
      (update contents (.edge edge) .erased) nodes (edges.erase edge) :=
    legacy.erase rfl rfl rfl erased only.nextId below (fun _ mem => ⟨mem, nofun⟩)
      fun other mem => ⟨Finset.mem_of_mem_erase mem,
        by simpa using Finset.ne_of_mem_erase mem, fun _ _ => id⟩
  have linked₁ : Linked { graph with store := store } use
      (slotPointer (update contents (.edge edge) .erased)) nodes
      (linksOf (update contents (.edge edge) .erased) (edges.erase edge)) := by
    rw [slotPointer_update_edge, linksOf_erase]
    refine linked.watch only.adjacency rfl (fun _ _ => rfl) ?_
    intro key ids lists
    dsimp only
    rw [only.nextId]
    exact lists.forget edge
  have unwatched : linksOf (update contents (.edge edge) .erased) (edges.erase edge)
      edge = none := by
    rw [linksOf_erase, update_self]
  have unpending : ∀ node direction, ∀ g : Graph, g.adj.pending = [] →
      edge ∉ g.pendingEdges node direction := by
    intro node direction g empty
    simp [pendingEdges, empty]
  have ownId : record.id = edge := names.1
  simp only [reconcileEdgeDelete, ownId, sat_bind, sat_pure]
  apply ((sat_removeEdgeFromAdjacency linked₁ source (legacy₁.storedHeads source)
    (unpending _ _ _ legacy₁.pending) unwatched).and
    (keeps_removeEdgeFromAdjacency record.source .outgoing edge _)).loose _
  intro _ unlinkedOut outcome
  obtain ⟨⟨use₂, linked₂⟩, only₂⟩ := outcome
  have legacy₂ := legacy₁.linksOnly only₂
  apply ((sat_removeEdgeFromAdjacency linked₂ target (legacy₂.storedHeads target)
    (unpending _ _ _ legacy₂.pending) unwatched).and
    (keeps_removeEdgeFromAdjacency record.target .incoming edge _)).loose _
  intro _ unlinked outcome
  obtain ⟨⟨use₃, linked₃⟩, only₃⟩ := outcome
  have legacy₃ := legacy₂.linksOnly only₃
  have both := trans_of LinksOnly only₂ only₃
  simp only [modifyIndex, bumpCount, modifyMeta, sat_modify, sat_onStore]
  have index : unlinked.index = graph.index := by rw [both.rest]
  have nextId : unlinked.store.info.nextId = graph.store.info.nextId := by
    rw [both.store.rest]
    exact only.nextId
  refine ⟨live, ?_, ⟨use₃, ?_⟩, ?_, ?_, nextId⟩
  · exact legacy₃.congr rfl rfl rfl ⟨rfl, rfl, rfl, rfl, rfl, rfl, rfl, rfl⟩ rfl
  · rw [slotPointer_update_edge] at linked₃
    exact linked₃.congr rfl rfl rfl
  · simp [removePresent, removeLabel, removePair, index]
  · simp [removePresent, removeLabel, removePair, index]

theorem EdgeRemoved.consistent
    (removed : EdgeRemoved graph after contents (graph.index.present .node)
      (graph.index.present .edge) edge) :
    after.Consistent (update contents (.edge edge) .erased) := by
  obtain ⟨use, linked⟩ := removed.lists
  constructor
  · rw [removed.nodesSame, removed.edgesErased]
    exact removed.legacy
  · refine ⟨use, ?_⟩
    rw [removed.nodesSame, removed.edgesErased, slotPointer_update_edge]
    exact linked

/-- Nothing but edges was removed, and those that were are gone. -/
structure EdgesGone (graph after : Graph) (contents contents' : Contents) (gone : Finset Nat) :
    Prop where
  consistent : after.Consistent contents'
  nodes : ∀ node, contents' (.node node) = contents (.node node)
  edges : ∀ edge record, contents' (.edge edge) = .live record →
    contents (.edge edge) = .live record
  nodesSame : after.index.present .node = graph.index.present .node
  edgesLeft : after.index.present .edge = graph.index.present .edge \ gone
  nextId : after.store.info.nextId = graph.store.info.nextId

theorem EdgesGone.stepped {gone : Finset Nat}
    (edgesGone : EdgesGone graph after contents contents' gone) :
    Stepped graph after contents contents' fun _ => False where
  consistent := edgesGone.consistent
  edges := fun edge record live => .inl (edgesGone.edges edge record live)
  nextId := fun kind => le_of_eq (congrFun edgesGone.nextId kind).symm

theorem sat_removeEdgeInternal_consistent (consistent : graph.Consistent contents)
    (mem : edge ∈ graph.index.present .edge) :
    Sat (removeEdgeInternal edge) graph
      (fun _ after => EdgesGone graph after contents (update contents (.edge edge) .erased) {edge})
      (fun _ _ => True) := by
  obtain ⟨use, linked⟩ := consistent.lists
  apply (sat_removeEdgeInternal_legacy consistent.legacy linked mem).loose _
  intro record after outcome
  obtain ⟨_, removed⟩ := outcome
  constructor
  · exact removed.consistent
  · intro node
    exact update_of_ne (by simp) _ _
  · intro other held live
    by_cases same : other = edge
    · rw [same, update_self] at live
      cases live
    · rwa [update_of_ne (by simpa using same)] at live
  · exact removed.nodesSame
  · rw [removed.edgesErased, Finset.sdiff_singleton_eq_erase]
  · exact removed.nextId

theorem sat_removeEdge_legacy (consistent : graph.Consistent contents) :
    Sat (removeEdge edge) graph
      (fun _ after => ∃ contents', Stepped graph after contents contents' fun _ => False)
      (fun _ _ => True) := by
  unfold removeEdge
  rw [sat_bind]
  apply (sat_chargeBatchOp_same _ consistent.legacy.unbatched).sure _
  rintro _ graph rfl
  rw [sat_bind, sat_get, sat_ite]
  refine ⟨fun _ => trivial, fun present => ?_⟩
  have mem : edge ∈ graph.index.present .edge := by simpa [exists?] using present
  rw [sat_bind]
  apply (sat_removeEdgeInternal_consistent consistent mem).loose _
  intro record between removed
  rw [sat_bind]
  apply (sat_walSync_consistent removed.consistent).sure _
  intro _ after synced
  refine ⟨_, synced.1, removed.stepped.edges, ?_⟩
  intro kind
  rw [synced.2]
  exact removed.stepped.nextId kind

/-- The loop that removes the edges of a node. -/
theorem sat_removeEdges_legacy (ids : List Nat) (consistent : graph.Consistent contents) :
    Sat (ids.forM fun edge => do
        let graph ← get
        if graph.exists? (.edge edge) then
          discard (removeEdgeInternal edge)) graph
      (fun _ after => ∃ contents', EdgesGone graph after contents contents' ids.toFinset)
      (fun _ _ => True) := by
  induction ids generalizing graph contents with
  | nil =>
    refine ⟨contents, consistent, fun _ => rfl, fun _ _ live => live, rfl, ?_, rfl⟩
    simp
  | cons edge rest ih =>
    have combine : ∀ (between : Graph) contents₁ (gone : Finset Nat),
        EdgesGone graph between contents contents₁ gone →
        graph.index.present .edge \ gone = graph.index.present .edge \ {edge} →
        Sat (rest.forM fun edge => do
            let graph ← get
            if graph.exists? (.edge edge) then
              discard (removeEdgeInternal edge)) between
          (fun _ after => ∃ contents',
            EdgesGone graph after contents contents' (edge :: rest).toFinset)
          (fun _ _ => True) := by
      intro between contents₁ gone first left
      apply (ih first.consistent).loose _
      intro _ after outcome
      obtain ⟨contents₂, second⟩ := outcome
      refine ⟨contents₂, second.consistent, ?_, ?_, ?_, ?_, ?_⟩
      · intro node
        rw [second.nodes, first.nodes]
      · intro other record live
        exact first.edges other record (second.edges other record live)
      · rw [second.nodesSame, first.nodesSame]
      · rw [second.edgesLeft, first.edgesLeft, left, sdiff_sdiff_left]
        simp
      · rw [second.nextId, first.nextId]
    simp only [forM_eq_forM, forM_cons, sat_bind, sat_get]
    by_cases present : graph.exists? (.edge edge)
    · have mem : edge ∈ graph.index.present .edge := by simpa [exists?] using present
      simp only [present, ↓reduceIte, sat_discard]
      apply (sat_removeEdgeInternal_consistent consistent mem).loose _
      intro _ between first
      exact combine between _ {edge} first rfl
    · have outside : edge ∉ graph.index.present .edge := by simpa [exists?] using present
      simp only [present, Bool.false_eq_true, ↓reduceIte, sat_pure]
      apply combine graph contents ∅
      · exact ⟨consistent, fun _ => rfl, fun _ _ live => live, rfl, by simp, rfl⟩
      · rw [Finset.sdiff_empty, Finset.sdiff_singleton_eq_erase, Finset.erase_eq_of_notMem outside]

theorem listedEdgeIds_of_headLists {ptr : AdjacencyPointer}
    (listed : HeadLists graph.store.pages.adjacency use (node, direction) (ptr.head direction) ids) :
    graph.listedEdgeIds node direction ptr = .ok ids := by
  unfold listedEdgeIds
  cases head : ptr.head direction with
  | none =>
    rw [head] at listed
    rw [show ids = [] from listed]
  | some page =>
    rw [head] at listed
    obtain ⟨tail, listed⟩ := listed
    exact listed.read

theorem Consistent.linksOnly (consistent : graph.Consistent contents) (only : LinksOnly graph after)
    (linked : after.Linked use (slotPointer contents) (graph.index.present .node)
      (linksOf contents (graph.index.present .edge))) : after.Consistent contents := by
  have index : after.index = graph.index := by rw [only.rest]
  constructor
  · rw [index]
    exact consistent.legacy.linksOnly only
  · rw [index]
    exact ⟨use, linked⟩

/-- The ids collected for a removal cover every edge of the node. -/
theorem sat_incidentEdgeIds_legacy (consistent : graph.Consistent contents)
    (mem : node ∈ graph.index.present .node) :
    Sat (incidentEdgeIds node) graph
      (fun ids after => after.Consistent contents ∧ LinksOnly graph after ∧
        ∀ edge record, edge ∈ graph.index.present .edge → contents (.edge edge) = .live record →
          record.source = node ∨ record.target = node → edge ∈ ids)
      (fun _ _ => True) := by
  obtain ⟨use, linked⟩ := consistent.lists
  have covers : ∀ direction ids, Exact (linksOf contents (graph.index.present .edge))
      (graph.store.info.nextId .edge) (node, direction) ids → ∀ edge record,
      edge ∈ graph.index.present .edge → contents (.edge edge) = .live record →
      placeOf record direction = some node → edge ∈ ids := by
    intro direction ids lists edge record inUse live here
    have watched : linksOf contents (graph.index.present .edge) edge = some (placeOf record) := by
      simp [linksOf, inUse, live]
    exact (lists.listed edge _ watched).mpr here
  unfold incidentEdgeIds
  rw [sat_bind]
  apply ((sat_resolveHeads linked (consistent.legacy.storedHeads mem)).and
    (keeps_resolveAdjPointer node graph)).mono _ (fun _ _ failed => failed.1.elim)
  intro answer resolved found
  obtain ⟨⟨ptr, found⟩, only⟩ := found
  have still := consistent.linksOnly only found.linked
  obtain ⟨out, outHeaded, outLists⟩ := found.linked.cached node mem ptr found.cached .outgoing
  obtain ⟨inc, incHeaded, incLists⟩ := found.linked.cached node mem ptr found.cached .incoming
  rw [found.store] at outLists incLists
  have cover : ∀ edge record, edge ∈ graph.index.present .edge →
      contents (.edge edge) = .live record → record.source = node ∨ record.target = node →
      edge ∈ out ++ inc := by
    intro edge record inUse live ends
    rw [mem_append]
    rcases ends with source | target
    · exact .inl (covers .outgoing out outLists edge record inUse live (congrArg some source))
    · exact .inr (covers .incoming inc incLists edge record inUse live (congrArg some target))
  cases answer with
  | none =>
    have absent : ptr = {} := found.getD.symm
    rw [absent] at outHeaded incHeaded
    obtain rfl : out = [] := outHeaded
    obtain rfl : inc = [] := incHeaded
    exact ⟨still, only, cover⟩
  | some held =>
    obtain rfl : held = ptr := found.getD
    dsimp only
    rw [sat_bind, sat_get, listedEdgeIds_of_headLists outHeaded, sat_bind, sat_ofResult_ok,
      listedEdgeIds_of_headLists incHeaded, sat_bind, sat_ofResult_ok]
    refine ⟨still, only, ?_⟩
    intro edge record inUse live ends
    rw [mem_dedup, mem_mergeSort]
    exact cover edge record inUse live ends

/-- A node without edges was erased. -/
theorem sat_reconcileNodeDelete_legacy
    (erased : graph.Legacy (update contents (.node record.id) .erased)
      ((graph.index.present .node).erase record.id) (graph.index.present .edge))
    (linked : graph.Linked use (slotPointer contents) (graph.index.present .node)
      (linksOf contents (graph.index.present .edge))) :
    Sat (reconcileNodeDelete record) graph
      (fun _ after => after.Consistent (update contents (.node record.id) .erased) ∧
        after.store.info.nextId = graph.store.info.nextId)
      (fun _ _ => False) := by
  have same : ∀ other ∈ (graph.index.present .node).erase record.id,
      slotPointer (update contents (.node record.id) .erased) other =
        slotPointer contents other := by
    intro other mem
    exact slotPointer_update_of_ne contents _ (Finset.ne_of_mem_erase mem)
  have removed := linked.removeNode same
  simp only [reconcileNodeDelete, modifyIndex, modifyAdj, bumpCount, modifyMeta, sat_bind,
    sat_modify, sat_onStore]
  refine ⟨⟨?_, use, ?_⟩, trivial⟩
  · exact erased.congr rfl rfl rfl ⟨rfl, rfl, rfl, rfl, rfl, rfl, rfl, rfl⟩ rfl
  · rw [linksOf_update_node]
    exact removed.congr rfl rfl rfl

theorem sat_removeNode_legacy (consistent : graph.Consistent contents) :
    Sat (removeNode node) graph
      (fun _ after => ∃ contents', Stepped graph after contents contents' fun _ => False)
      (fun _ _ => True) := by
  unfold removeNode
  rw [sat_bind]
  apply (sat_chargeBatchOp_same _ consistent.legacy.unbatched).sure _
  rintro _ _ rfl
  rw [sat_bind]
  apply (sat_currentRecord_same _ _).loose _
  rintro record graph ⟨rfl, present, read⟩
  have mem : node ∈ graph.index.present .node := by simpa [exists?] using present
  rw [sat_bind]
  apply (sat_incidentEdgeIds_legacy consistent mem).loose _
  intro ids resolved outcome
  obtain ⟨consistent₁, only, cover⟩ := outcome
  have index : resolved.index = graph.index := by rw [only.rest]
  rw [sat_bind]
  apply (sat_removeEdges_legacy ids consistent₁).loose _
  intro _ stripped outcome
  obtain ⟨contents₂, gone⟩ := outcome
  have nodesSame : stripped.index.present .node = graph.index.present .node :=
    gone.nodesSame.trans (by rw [index])
  have stillMember : node ∈ stripped.index.present .node := by
    rw [nodesSame]
    exact mem
  have legacy := gone.consistent.legacy
  obtain ⟨pos, held, live⟩ := legacy.nodesLive node stillMember
  have below : node < stripped.store.info.nextId .node := by
    by_contra beyond
    have blank : contents₂ (.node node) = .blank := legacy.unallotted (not_lt.mp beyond)
    rw [live] at blank
    cases blank
  have bare : ∀ edge record, edge ∈ stripped.index.present .edge →
      contents₂ (.edge edge) = .live record → record.source ≠ node ∧ record.target ≠ node := by
    intro edge other inUse live
    rw [gone.edgesLeft, Finset.mem_sdiff, mem_toFinset, index] at inUse
    have wasLive := gone.edges edge other live
    constructor
    · intro source
      exact inUse.2 (cover edge other inUse.1 wasLive (.inl source))
    · intro target
      exact inUse.2 (cover edge other inUse.1 wasLive (.inr target))
  have ownId : record.id = node := by
    have original : contents (.node node) = .live held := (gone.nodes node).symm.trans live
    have same := (consistent.legacy.read pos original).symm.trans read
    rw [← Except.ok.inj same]
    exact (consistent.legacy.allotted _ held original).1
  rw [sat_bind, sat_onStore]
  apply ((sat_tombstoneSlot true legacy.store pos (by simp [live])).and
    (keeps_tombstoneSlot (.node node) true stripped.store)).mono _
    (fun _ _ failed => failed.1.elim)
  intro _ store done
  obtain ⟨stored, tombstoned⟩ := done
  rw [live] at stored
  have erased : Legacy { stripped with store := store }
      (update contents₂ (.node node) .erased)
      ((stripped.index.present .node).erase node) (stripped.index.present .edge) :=
    legacy.erase rfl rfl rfl stored tombstoned.nextId below
      (fun other mem => ⟨Finset.mem_of_mem_erase mem,
        by simpa using Finset.ne_of_mem_erase mem⟩)
      fun edge mem => ⟨mem, by simp [EntityKey.node], fun record live inUse =>
        ⟨Finset.mem_erase.mpr ⟨(bare edge record mem live).1, inUse.1⟩,
          Finset.mem_erase.mpr ⟨(bare edge record mem live).2, inUse.2⟩⟩⟩
  rw [← ownId] at erased
  obtain ⟨use, linked⟩ := gone.consistent.lists
  have linked := linked.onStore tombstoned.adjacency tombstoned.nextId
  rw [sat_bind]
  apply (sat_reconcileNodeDelete_legacy erased linked).sure _
  intro _ after done
  rw [sat_bind]
  apply (sat_walSync_consistent done.1).sure _
  intro _ last synced
  refine ⟨_, synced.1, ?_, ?_⟩
  · intro edge other here
    rw [update_of_ne (by simp)] at here
    exact .inl (gone.edges edge other here)
  · intro kind
    rw [synced.2, done.2]
    have same := tombstoned.nextId.trans (gone.nextId.trans only.relinks.nextId)
    exact le_of_eq (congrFun same kind).symm

end Legacy

end ErmyaGraph.Graph
