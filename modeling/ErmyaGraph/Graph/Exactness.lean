import ErmyaGraph.Graph.Legacy
import ErmyaGraph.Lib.Runs
import ErmyaGraph.Lib.Joins

/-! # Exact edge lists over whole runs

Without version chains, every query for the edges of a node answers with the
live edges that have the node as that endpoint, each once. The invariant of the
auto-commit writes gives this at every state, and a run keeps the invariant as
long as no update overwrites an erased slot that still names an overflow page. -/

namespace ErmyaGraph

open Outcome Store Runs List Graph

def Edge.endpoint (edge : Edge) : AdjDirection → Nat
  | .outgoing => edge.source
  | .incoming => edge.target

namespace Graph

variable {id : Nat} {direction : AdjDirection} {ptr : Option AdjacencyPointer} {ids : List Nat}

/-- The query for the edges of a node in one direction. -/
def edgesOf : AdjDirection → Nat → GraphM (List Edge)
  | .outgoing => outgoingEdges
  | .incoming => incomingEdges

/-- The query for the edges of a node in one direction that carry a label. -/
def edgesOfByLabel : AdjDirection → Nat → String → GraphM (List Edge)
  | .outgoing => outgoingEdgesByLabel
  | .incoming => incomingEdgesByLabel

/-- Every live edge reads back and ends at live nodes, and the queries of every live node answer
with its live edges, each once. -/
structure EdgesExact (graph : Graph) : Prop where
  readable : ∀ id, graph.exists? (.edge id) → ∃ edge, graph.edge id = .ok edge ∧ edge.id = id ∧
    graph.exists? (.node edge.source) ∧ graph.exists? (.node edge.target)
  listed : ∀ node, graph.exists? (.node node) → ∀ direction, ∃ edges,
    answer (edgesOf direction node) graph = .ok edges ∧ (edges.map Edge.id).Nodup ∧
      (∀ edge, edge ∈ edges ↔ graph.edge edge.id = .ok edge ∧ edge.endpoint direction = node) ∧
      ∀ label, answer (edgesOfByLabel direction node label) graph =
        .ok (edges.filter fun edge => edge.label = label)

section Reads

variable {graph : Graph} {contents : Contents}

/-- The edge the contents hold under an id. -/
def edgeAt (contents : Contents) (id : Nat) : Edge :=
  match contents (.edge id) with
  | .live record => record.toEdge
  | _ => ⟨id, "", 0, 0, .empty⟩

/-- What is known of a live edge. -/
structure LiveEdge (graph : Graph) (id : Nat) (edge : Edge) : Prop where
  read : graph.edge id = .ok edge
  stored : graph.store.readRecord (.edge id) = .ok edge.toRecord
  hash : graph.readEdgeLabelHash id = .ok (labelHash edge.label)
  named : edge.id = id
  source : graph.exists? (.node edge.source)
  target : graph.exists? (.node edge.target)

theorem Consistent.liveEdge (consistent : graph.Consistent contents)
    (mem : id ∈ graph.index.present .edge) : LiveEdge graph id (edgeAt contents id) := by
  have legacy := consistent.legacy
  obtain ⟨pos, record, live, source, target⟩ := legacy.edgesLive id mem
  obtain ⟨named, linked⟩ := legacy.allotted _ record live
  have own : record.toEdge.toRecord = record := by
    obtain ⟨own, label, props, link⟩ := record
    cases link with
    | heads ptr => exact linked.elim
    | ends source target => rfl
  have stored := legacy.read pos live
  have at_ : edgeAt contents id = record.toEdge := by simp [edgeAt, live]
  have present : graph.exists? (.edge id) := by simpa [exists?] using mem
  rw [at_]
  constructor
  · simp [edge, read, skipsVersions, legacy.mode, present, stored]
    rfl
  · rw [own]
    exact stored
  · obtain ⟨blobs, represents⟩ := legacy.store
    have slot := represents.slots (.edge id) pos
    rw [live] at slot
    obtain ⟨slot, found, holds⟩ := slot
    simp only [readEdgeLabelHash, present, ↓reduceIte, found]
    exact congrArg Except.ok holds.hash
  · exact named
  · exact decide_eq_true source
  · exact decide_eq_true target

private theorem reduceOption_map_ite {α : Type} (p : α → Bool) (items : List α) :
    (items.map fun a => if p a then some a else none).reduceOption = items.filter p := by
  induction items with
  | nil => rfl
  | cons a rest ih =>
    cases held : p a with
    | true => simp [held, ih, reduceOption_cons_of_some]
    | false => simp [held, ih, reduceOption_cons_of_none]

/-- What looking up the list of a live node yields. -/
structure Found (graph after : Graph) (contents : Contents) (node : Nat) (direction : AdjDirection)
    (ptr : Option AdjacencyPointer) (ids : List Nat) : Prop where
  consistent : after.Consistent contents
  only : LinksOnly graph after
  stored : after.store = graph.store
  listed : after.listedEdgeIds node direction (ptr.getD {}) = .ok ids
  nodup : ids.Nodup
  exact_ : ∀ edge ∈ graph.index.present .edge,
    edge ∈ ids ↔ (edgeAt contents edge).endpoint direction = node

variable {node : Nat}

theorem sat_resolve_found (consistent : graph.Consistent contents)
    (mem : node ∈ graph.index.present .node) (direction : AdjDirection) :
    Sat (resolveAdjPointer node) graph
      (fun ptr after => ∃ ids, Found graph after contents node direction ptr ids)
      (fun _ _ => False) := by
  obtain ⟨use, linked⟩ := consistent.lists
  apply ((sat_resolveHeads linked (consistent.legacy.storedHeads mem)).and
    (keeps_resolveAdjPointer node graph)).mono _ (fun _ _ failed => failed.1.elim)
  intro ptr after found
  obtain ⟨⟨held, found⟩, only⟩ := found
  obtain ⟨ids, headed, lists⟩ := found.linked.cached node mem held found.cached direction
  refine ⟨ids, consistent.linksOnly only found.linked, only, found.store, ?_, lists.nodup, ?_⟩
  · rw [found.getD]
    exact listedEdgeIds_of_headLists headed
  · intro edge inUse
    obtain ⟨_, record, live, _, _⟩ := consistent.legacy.edgesLive edge inUse
    have watched : linksOf contents (graph.index.present .edge) edge = some (placeOf record) := by
      simp [linksOf, inUse, live]
    rw [lists.listed edge _ watched]
    cases direction with
    | outgoing => simp [placeOf, edgeAt, live, Edge.endpoint, Record.toEdge]
    | incoming => simp [placeOf, edgeAt, live, Edge.endpoint, Record.toEdge]

def Found.liveIds (graph : Graph) (ids : List Nat) : List Nat :=
  ids.filter fun id => graph.exists? (.edge id)

variable {after : Graph}

theorem Found.exists? (found : Found graph after contents node direction ptr ids)
    (key : EntityKey) : after.exists? key = graph.exists? key := by
  rw [found.only.rest]
  rfl

theorem Found.liveEdge (found : Found graph after contents node direction ptr ids)
    (listed : id ∈ Found.liveIds graph ids) : LiveEdge after id (edgeAt contents id) := by
  have here := (mem_filter.mp listed).2
  rw [← found.exists?] at here
  exact found.consistent.liveEdge (of_decide_eq_true here)

theorem Found.edgesForDirection (found : Found graph after contents node direction ptr ids)
    (ran : (resolveAdjPointer node).run graph = .ok ptr after) (startTs : Nat) :
    Sat (edgesForDirection node direction startTs none) graph
      (fun edges last => edges = (liveIds graph ids).map (edgeAt contents) ∧ last = after)
      (fun _ _ => False) := by
  have legacy := found.consistent.legacy
  have each : ∀ id ∈ liveIds graph ids, after.visibleEdge startTs none id =
      .ok (some (edgeAt contents id)) := by
    intro id listed
    simp only [visibleEdge, legacy.mode, Option.isNone_none, ↓reduceIte,
      (found.liveEdge listed).stored]
    rfl
  have reads : after.visibleEdges startTs none (liveIds graph ids) =
      .ok ((liveIds graph ids).map (edgeAt contents)) := by
    simp only [visibleEdges, Joins.mapM_of_ok each, bind, Except.bind, pure, Except.pure]
    simp [List.reduceOption, filterMap_map, filterMap_eq_map']
  have pending : after.pendingEdges node direction = [] := by simp [pendingEdges, legacy.pending]
  have own : after.pendingTxnEdgeIds node direction none = [] := rfl
  unfold Graph.edgesForDirection
  rw [sat_bind, sat_of_run ran, sat_bind, sat_get, found.listed, sat_bind, sat_ofResult_ok]
  simp only [pending, own, append_nil, found.exists?]
  change Sat (ofResult (after.visibleEdges startTs none (liveIds graph ids))) after _ _
  rw [reads, sat_ofResult_ok]
  exact ⟨rfl, rfl⟩

theorem Found.edgesForDirectionByLabel (found : Found graph after contents node direction ptr ids)
    (ran : (resolveAdjPointer node).run graph = .ok ptr after) (label : String) (startTs : Nat) :
    Sat (edgesForDirectionByLabel node direction label startTs none) graph
      (fun edges _ => edges = ((liveIds graph ids).map (edgeAt contents)).filter
        fun edge => edge.label = label)
      (fun _ _ => False) := by
  have legacy := found.consistent.legacy
  have each : ∀ id ∈ liveIds graph ids, after.matchingEdge label startTs none id =
      .ok (if (edgeAt contents id).label = label then some (edgeAt contents id) else none) := by
    intro id listed
    have live := found.liveEdge listed
    simp only [matchingEdge, legacy.mode, Option.isNone_none, ↓reduceIte, live.hash, live.stored,
      bind, Except.bind, pure, Except.pure, Edge.toEdge_toRecord]
    by_cases hash : labelHash (edgeAt contents id).label = labelHash label
    · rw [if_neg (not_not.mpr hash)]
      rfl
    · have ne : (edgeAt contents id).label ≠ label := fun same => hash (same ▸ rfl)
      rw [if_pos hash, if_neg ne]
  have pending : after.pendingEdges node direction = [] := by simp [pendingEdges, legacy.pending]
  have own : after.pendingTxnEdgeIds node direction none = [] := rfl
  unfold Graph.edgesForDirectionByLabel
  rw [sat_bind, sat_of_run ran, sat_bind, sat_get, found.listed, sat_bind, sat_ofResult_ok]
  simp only [pending, own, append_nil, found.exists?]
  change Sat (ofResult ((liveIds graph ids).mapM _) >>= _) after _ _
  rw [Joins.mapM_of_ok each, sat_bind, sat_ofResult_ok, sat_pure]
  have kept := reduceOption_map_ite (fun edge : Edge => edge.label = label)
    ((liveIds graph ids).map (edgeAt contents))
  rw [map_map] at kept
  simpa [Function.comp_def] using kept

variable {post : List Edge → Graph → Prop} {fail : Error → Graph → Prop}

theorem sat_edgesOf (here : graph.exists? (.node node)) (direction : AdjDirection) :
    Sat (edgesOf direction node) graph post fail ↔
      Sat (edgesForDirection node direction graph.autoCommitStartTs none) graph post
        fail := by
  cases direction with
  | outgoing => simp only [edgesOf, outgoingEdges, sat_bind, sat_get, here, ↓reduceIte]
  | incoming => simp only [edgesOf, incomingEdges, sat_bind, sat_get, here, ↓reduceIte]

theorem sat_edgesOfByLabel (here : graph.exists? (.node node)) (direction : AdjDirection)
    (label : String) :
    Sat (edgesOfByLabel direction node label) graph post fail ↔
      Sat (edgesForDirectionByLabel node direction label graph.autoCommitStartTs none) graph
        post fail := by
  cases direction with
  | outgoing =>
    simp only [edgesOfByLabel, outgoingEdgesByLabel, sat_bind, sat_get, here, ↓reduceIte]
  | incoming =>
    simp only [edgesOfByLabel, incomingEdgesByLabel, sat_bind, sat_get, here, ↓reduceIte]

theorem Legacy.present_of_read {nodes edges : Finset Nat}
    (legacy : graph.Legacy contents nodes edges) {edge : Edge} (read : graph.edge id = .ok edge) :
    id ∈ graph.index.present .edge := by
  by_contra absent
  have missing : graph.exists? (.edge id) = false := decide_eq_false absent
  simp [Graph.edge, Graph.read, skipsVersions, legacy.mode, missing, Except.map] at read

theorem Consistent.edgesExact (consistent : graph.Consistent contents) : EdgesExact graph := by
  constructor
  · intro id here
    have live := consistent.liveEdge (of_decide_eq_true here)
    exact ⟨_, live.read, live.named, live.source, live.target⟩
  · intro node here direction
    have mem : node ∈ graph.index.present .node := of_decide_eq_true here
    obtain ⟨ptr, after, ran, ids, found⟩ :=
      (sat_resolve_found consistent mem direction).exists_run
    have named : ∀ id ∈ Found.liveIds graph ids, (edgeAt contents id).id = id :=
      fun id listed => (found.liveEdge listed).named
    have inUse : ∀ id, id ∈ Found.liveIds graph ids ↔ id ∈ graph.index.present .edge ∧ id ∈ ids := by
      intro id
      rw [Found.liveIds, mem_filter, and_comm]
      exact and_congr_left' decide_eq_true_iff
    refine ⟨(Found.liveIds graph ids).map (edgeAt contents), ?_, ?_, ?_, ?_⟩
    · exact (((sat_edgesOf here direction).mpr (found.edgesForDirection ran _)).relax
        (fun _ _ done => done.1)).answer (fun _ _ => id)
    · have own : (Found.liveIds graph ids).map (Edge.id ∘ edgeAt contents) =
          Found.liveIds graph ids := (map_congr_left named).trans (map_id _)
      rw [map_map, own]
      exact found.nodup.filter _
    · intro edge
      rw [mem_map]
      constructor
      · rintro ⟨id, listed, rfl⟩
        have mem := (inUse id).mp listed
        rw [named id listed]
        exact ⟨(consistent.liveEdge mem.1).read, (found.exact_ id mem.1).mp mem.2⟩
      · rintro ⟨read, ends⟩
        have present := consistent.legacy.present_of_read read
        have same : edgeAt contents edge.id = edge :=
          Except.ok.inj ((consistent.liveEdge present).read.symm.trans read)
        refine ⟨edge.id, (inUse _).mpr ⟨present, ?_⟩, same⟩
        rw [found.exact_ _ present, same]
        exact ends
    · intro label
      exact ((sat_edgesOfByLabel here direction label).mpr
        (found.edgesForDirectionByLabel ran label _)).answer (fun _ _ => id)

end Reads

theorem storeIs_fresh (wal : Option Wal) :
    StoreIs { pages := Pages.fresh, info := {}, wal := wal } fun _ => .blank := by
  refine ⟨fun _ _ => none, ⟨fun _ => .lost, [], ⟨?_, fun _ _ _ none => nomatch none⟩⟩, ?_, ?_⟩
  · constructor
    · exact ⟨[], .nil, rfl⟩
    · exact nodup_nil
    · exact fun _ mem => nomatch mem
    · exact fun _ mem => nomatch mem
    · exact fun _ isOpen => nomatch isOpen
  · exact ⟨Nat.zero_le _, fun _ mem => nomatch mem⟩
  · intro key _ slot found
    have missing : ∃ e, ({ pages := Pages.fresh, info := {}, wal := wal } : Store).readSlot key =
        .error e := readSlot_of_le (Nat.zero_le _)
    obtain ⟨e, failed⟩ := missing
    rw [failed] at found
    cases found

theorem consistent_fresh (wal : Bool) (evicts : Nat → Nat → Bool) :
    (fresh wal evicts).Consistent fun _ => .blank := by
  constructor
  · constructor
    · rfl
    · rfl
    · rfl
    · exact storeIs_fresh _
    · exact fun _ _ => rfl
    · exact fun _ => Nat.one_pos
    · exact fun _ _ live => nomatch live
    · exact fun _ mem => absurd mem (Finset.notMem_empty _)
    · exact fun _ mem => absurd mem (Finset.notMem_empty _)
  · refine ⟨fun _ => .unused, ?_⟩
    constructor
    · exact ⟨fun _ _ => rfl, fun _ shared => nomatch shared⟩
    · exact fun _ _ isOpen => nomatch isOpen
    · exact fun _ mem => absurd mem (Finset.notMem_empty _)
    · exact fun _ mem => absurd mem (Finset.notMem_empty _)
    · exact fun _ _ _ remembered => nomatch remembered

/-- An edge that a caller can hold: read in an earlier state, with another label or other
properties. -/
def EdgeHeld (past : List Graph) (edge : Edge) : Prop :=
  ∃ graph ∈ past, ∃ id old, graph.edge id = .ok old ∧ edge.id = old.id ∧
    edge.source = old.source ∧ edge.target = old.target

/-- The calls of an auto-commit caller that only adds nodes, and adds, removes, rewrites and
queries edges. -/
def EdgeCall (past : List Graph) (graph : Graph) (op : Op) : Prop :=
  succeeds op.run graph ∧
    match op with
    | .addNode _ _ | .removeNode _ | .addEdge _ _ _ _ | .removeEdge _ | .edges none _ _ => True
    | .updateEdge _ edge => EdgeHeld past edge
    | _ => False

/-- An update does not overwrite an erased slot that still names an overflow page. -/
def SparesErased (graph : Graph) : Op → Prop
  | .updateEdge _ edge => staleOverflow graph.store (.edge edge.id) = false
  | _ => True

/-- The contents along a run: an edge id belongs to the same two nodes for ever, in its slot and in
every value a caller holds. -/
structure Tracked (ends : Nat → Nat × Nat) (past : List Graph) (graph : Graph)
    (contents : Contents) : Prop where
  consistent : graph.Consistent contents
  stored : ∀ edge record, contents (.edge edge) = .live record →
    (record.source, record.target) = ends edge
  held : ∀ edge, EdgeHeld past edge → 0 < edge.id ∧ edge.id < graph.store.info.nextId .edge ∧
    edge.toRecord.Names (.edge edge.id) ∧ (edge.source, edge.target) = ends edge.id

section Runs

variable {graph after : Graph} {contents contents' : Contents} {past : List Graph}
  {ends ends' : Nat → Nat × Nat}

theorem Consistent.live_of_read (consistent : graph.Consistent contents) {edge : Edge}
    (read : graph.edge id = .ok edge) :
    edge.id = id ∧ 0 < id ∧ id < graph.store.info.nextId .edge ∧
      contents (.edge id) = .live edge.toRecord := by
  have legacy := consistent.legacy
  have mem := legacy.present_of_read read
  have live := consistent.liveEdge mem
  obtain rfl : edgeAt contents id = edge := Except.ok.inj (live.read.symm.trans read)
  obtain ⟨pos, record, here, _, _⟩ := legacy.edgesLive id mem
  have same := (legacy.read pos here).symm.trans live.stored
  rw [Except.ok.inj same] at here
  refine ⟨live.named, pos, ?_, here⟩
  by_contra beyond
  have blank : contents (.edge id) = .blank := legacy.unallotted (not_lt.mp beyond)
  rw [here] at blank
  cases blank

theorem Tracked.step {wrote : Record → Prop} (tracked : Tracked ends past graph contents)
    (stepped : Stepped graph after contents contents' wrote)
    (kept : ∀ edge < graph.store.info.nextId .edge, ends' edge = ends edge)
    (written : ∀ record, wrote record → (record.source, record.target) = ends' record.id) :
    Tracked ends' (after :: past) after contents' := by
  have stored : ∀ edge record, contents' (.edge edge) = .live record →
      (record.source, record.target) = ends' edge := by
    intro edge record live
    rcases stepped.edges edge record live with old | new
    · have below : edge < graph.store.info.nextId .edge := by
        by_contra beyond
        have blank : contents (.edge edge) = .blank :=
          tracked.consistent.legacy.unallotted (not_lt.mp beyond)
        rw [old] at blank
        cases blank
      rw [kept edge below]
      exact tracked.stored edge record old
    · have named : record.id = edge := (stepped.consistent.legacy.allotted _ record live).1
      rw [written record new, named]
  refine ⟨stepped.consistent, stored, ?_⟩
  intro edge held
  obtain ⟨origin, mem, id, old, read, sameId, source, target⟩ := held
  rw [mem_cons] at mem
  rcases mem with rfl | mem
  · obtain ⟨named, pos, below, live⟩ := stepped.consistent.live_of_read read
    have names := stepped.consistent.legacy.allotted _ _ live
    have ends := stored _ _ live
    rw [sameId, named]
    refine ⟨pos, below, ⟨sameId.trans named, ?_⟩, ?_⟩
    · have pos := names.2
      simp only [Edge.toRecord] at pos ⊢
      rw [source, target]
      exact pos
    · rw [source, target]
      exact ends
  · obtain ⟨pos, below, names, same⟩ :=
      tracked.held edge ⟨origin, mem, id, old, read, sameId, source, target⟩
    exact ⟨pos, below.trans_le (stepped.nextId .edge), names, by rw [kept _ below, same]⟩

theorem sat_edgesOf_consistent {node : Nat} (consistent : graph.Consistent contents) :
    Sat (edgesOf direction node) graph
      (fun _ after => Stepped graph after contents contents fun _ => False)
      (fun _ _ => True) := by
  by_cases here : graph.exists? (.node node)
  · obtain ⟨ptr, after, ran, ids, found⟩ :=
      (sat_resolve_found consistent (of_decide_eq_true here) direction).exists_run
    apply ((sat_edgesOf here direction).mpr (found.edgesForDirection ran _)).sure _
    intro edges last done
    rw [done.2]
    exact ⟨found.consistent, fun _ _ live => .inl live, fun _ => le_of_eq (by rw [found.stored])⟩
  · cases direction with
    | outgoing => simp [edgesOf, outgoingEdges, here]
    | incoming => simp [edgesOf, incomingEdges, here]

theorem Tracked.next (op : Op) (tracked : Tracked ends past graph contents)
    (call : EdgeCall past graph op) (spares : SparesErased graph op) :
    ∃ ends' contents', Tracked ends' (graph.after op :: past) (graph.after op) contents' := by
  obtain ⟨ok, kind⟩ := call
  have consistent := tracked.consistent
  -- Every call but the creation of an edge leaves the table of endpoints alone.
  have quiet {x : GraphM Unit} (sat : Sat x graph
      (fun _ after => ∃ contents', Stepped graph after contents contents' fun _ => False)
      (fun _ _ => True)) (ok : succeeds x graph) :
      ∃ ends' contents', Tracked ends' (final x graph :: past) (final x graph) contents' := by
    obtain ⟨contents', stepped⟩ := sat.final_of_succeeds ok
    exact ⟨ends, contents', tracked.step stepped (fun _ _ => rfl) fun _ => False.elim⟩
  cases op with
  | addNode label props =>
    exact quiet (sat_discard.mpr (sat_addNode_legacy label props consistent)) ok
  | removeNode id => exact quiet (sat_discard.mpr (sat_removeNode_legacy consistent)) ok
  | removeEdge id => exact quiet (sat_discard.mpr (sat_removeEdge_legacy consistent)) ok
  | edges reader direction node =>
    cases reader with
    | some txn => exact kind.elim
    | none =>
      have query (direction : AdjDirection) : Sat (edgesOf direction node) graph
          (fun _ after => ∃ contents', Stepped graph after contents contents' fun _ => False)
          (fun _ _ => True) :=
        (sat_edgesOf_consistent consistent).loose (fun _ _ stepped => ⟨contents, stepped⟩)
      cases direction with
      | outgoing => exact quiet (sat_discard.mpr (query .outgoing)) ok
      | incoming => exact quiet (sat_discard.mpr (query .incoming)) ok
  | addEdge label source target props =>
    have created : Sat (Op.addEdge label source target props).run graph
        (fun _ after => ∃ contents', Stepped graph after contents contents' fun record =>
          record = ⟨graph.store.info.nextId .edge, label, props, .ends source target⟩)
        (fun _ _ => True) := by
      apply sat_discard.mpr
      apply (sat_addEdge_legacy label source target props consistent).relax _
      intro id after done
      rw [done.1] at done
      exact done.2
    obtain ⟨contents', stepped⟩ := created.final_of_succeeds ok
    refine ⟨Function.update ends (graph.store.info.nextId .edge) (source, target), contents',
      tracked.step stepped ?_ ?_⟩
    · intro edge below
      exact Function.update_of_ne below.ne _ _
    · intro record isNew
      rw [isNew]
      simp [Record.source, Record.target, Link.endpoints]
  | updateEdge id edge =>
    obtain ⟨pos, below, names, same⟩ := tracked.held edge kind
    have keeps : KeepsEnds contents (graph.index.present .edge) edge.toRecord := by
      intro mem old live
      have stored := tracked.stored edge.id old live
      rw [← same] at stored
      exact ⟨(congrArg Prod.fst stored).symm, (congrArg Prod.snd stored).symm⟩
    obtain ⟨contents', stepped⟩ :=
      (sat_updateEdge_legacy consistent names pos below keeps spares).final_of_succeeds ok
    refine ⟨ends, contents', tracked.step stepped (fun _ _ => rfl) ?_⟩
    intro record isEdge
    rw [isEdge]
    exact same
  | _ => exact kind.elim

end Runs

/-- Without version chains and outside a batch, the edge lists are exact after every run of
successful calls of which none overwrites an erased slot that names an overflow page. -/
theorem edges_exact_over_runs (wal : Bool) (evicts : Nat → Nat → Bool) (past : List Graph)
    (graph : Graph)
    (run : Run (fun past graph op => EdgeCall past graph op ∧ SparesErased graph op) after
      (fresh wal evicts) past graph) : EdgesExact graph := by
  have tracked := run.invariant
    (fun past graph => ∃ ends contents, Tracked ends past graph contents) ?_ ?_
  · obtain ⟨ends, contents, tracked⟩ := tracked
    exact tracked.consistent.edgesExact
  · refine ⟨fun _ => (0, 0), fun _ => .blank, consistent_fresh wal evicts, ?_, ?_⟩
    · exact fun _ _ live => nomatch live
    · intro edge held
      obtain ⟨origin, member, id, old, read, _⟩ := held
      rw [mem_singleton.mp member] at read
      have live := ((consistent_fresh wal evicts).live_of_read read).2.2.2
      cases live
  · intro past graph op tracked allowed
    obtain ⟨ends, contents, tracked⟩ := tracked
    exact tracked.next op allowed.1 allowed.2

def relabelling : List Op :=
  [.addNode "A" .empty, .addEdge "L" 1 1 .empty, .updateEdge 1 ⟨1, "M", 1, 1, .empty⟩]

theorem edges_exact_after_relabelling :
    EdgesExact ((fresh true fun _ _ => true).afterAll relabelling) := by
  have read : (((fresh true fun _ _ => true).after (.addNode "A" .empty)).after
      (.addEdge "L" 1 1 .empty)).edge 1 = .ok ⟨1, "L", 1, 1, .empty⟩ := by decide +kernel
  have clean : staleOverflow (((fresh true fun _ _ => true).after (.addNode "A" .empty)).after
      (.addEdge "L" 1 1 .empty)).store (.edge 1) = false := by decide +kernel
  have allows : Allows (fun past graph op => EdgeCall past graph op ∧ SparesErased graph op)
      after [fresh true fun _ _ => true] (fresh true fun _ _ => true)
      relabelling := by
    simp only [relabelling, Allows]
    refine ⟨⟨⟨?_, trivial⟩, trivial⟩, ⟨⟨?_, trivial⟩, trivial⟩, ⟨⟨?_, ?_⟩, clean⟩, trivial⟩
    · decide +kernel
    · decide +kernel
    · decide +kernel
    · exact ⟨_, .head _, 1, _, read, rfl, rfl, rfl⟩
  obtain ⟨past, run⟩ := Run.start.append allows
  exact edges_exact_over_runs true _ past _ run

def sized (size : Nat) : Properties := ⟨[("k", .bytes (List.replicate size 0))], by simp⟩

/-- The value of a removed edge is written back through another edge, over a slot that still
names an overflow page. That page holds the other edge's properties by then. -/
def overwriting : List Op :=
  [.addNode "A" .empty, .addEdge "L" 1 1 (sized 40), .removeEdge 1, .addEdge "L" 1 1 (sized 4060),
    .updateEdge 2 ⟨1, "L", 1, 1, .empty⟩, .addEdge "L" 1 1 (sized 40)]

def overwritten : Graph := overwriting.foldl after (fresh false fun _ _ => false)

theorem overwriting_allowed :
    ∃ past, Run EdgeCall after (fresh false fun _ _ => false) past overwritten := by
  have read : (((fresh false fun _ _ => false).after (.addNode "A" .empty)).after
      (.addEdge "L" 1 1 (sized 40))).edge 1 = .ok ⟨1, "L", 1, 1, sized 40⟩ := by decide +kernel
  refine Run.start.append ?_
  simp only [overwriting, Allows]
  refine ⟨⟨?_, trivial⟩, ⟨?_, trivial⟩, ⟨?_, trivial⟩, ⟨?_, trivial⟩, ⟨?_, ?_⟩, ⟨?_, trivial⟩,
      trivial⟩
  · decide +kernel
  · decide +kernel
  · decide +kernel
  · decide +kernel
  · decide +kernel
  · exact ⟨_, mem_cons_of_mem _ (mem_cons_of_mem _ mem_cons_self), 1, _, read, rfl, rfl, rfl⟩
  · decide +kernel

theorem overwritten_fails : overwritten.exists? (.node 1) ∧
    succeeds (edgesOf .outgoing 1) overwritten = false := by
  decide +kernel

theorem updateEdge_frees_foreign_page :
    ¬∀ wal evicts past graph, Run EdgeCall after (fresh wal evicts) past graph →
      EdgesExact graph := by
  intro claim
  obtain ⟨past, run⟩ := overwriting_allowed
  obtain ⟨edges, answered, _⟩ := (claim _ _ _ _ run).listed 1 overwritten_fails.1 .outgoing
  have ok := succeeds_of_answer answered
  rw [overwritten_fails.2] at ok
  cases ok

end Graph

end ErmyaGraph
