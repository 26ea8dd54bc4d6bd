import ErmyaGraph.Graph.Journal
import ErmyaGraph.Graph.Session

/-! # Operations and runs -/

namespace ErmyaGraph

open Outcome Store

/-- What a caller, or the buffer pool behind it, can do to an open graph. -/
inductive Op where
  | beginTxn
  | addNodeInTxn (txn : Nat) (label : String) (props : Properties)
  | updateNodeInTxn (txn id : Nat) (node : Node)
  | removeNodeInTxn (txn id : Nat)
  | addEdgeInTxn (txn : Nat) (label : String) (source target : Nat) (props : Properties)
  | updateEdgeInTxn (txn id : Nat) (edge : Edge)
  | removeEdgeInTxn (txn id : Nat)
  | commitTxn (txn : Nat)
  | rollbackTxn (txn : Nat)
  | vacuumOnce (order : List EntityKey)
  | addNode (label : String) (props : Properties)
  | updateNode (id : Nat) (node : Node)
  | removeNode (id : Nat)
  | addEdge (label : String) (source target : Nat) (props : Properties)
  | updateEdge (id : Nat) (edge : Edge)
  | removeEdge (id : Nat)
  | beginBatch
  | endBatch (checkpointDue : Bool)
  | flush
  | edges (reader : Option Nat) (direction : AdjDirection) (node : Nat)
  | evictPage (file : Graph.DataFile) (page : PageId)

namespace Op

/-- The call an operation stands for; its result is dropped. -/
def run : Op → GraphM Unit
  | beginTxn => discard Graph.beginTxn
  | addNodeInTxn txn label props => discard (Graph.addNodeInTxn txn label props)
  | updateNodeInTxn txn id node => Graph.updateNodeInTxn txn id node
  | removeNodeInTxn txn id => Graph.removeNodeInTxn txn id
  | addEdgeInTxn txn label source target props =>
    discard (Graph.addEdgeInTxn txn label source target props)
  | updateEdgeInTxn txn id edge => Graph.updateEdgeInTxn txn id edge
  | removeEdgeInTxn txn id => Graph.removeEdgeInTxn txn id
  | commitTxn txn => Graph.commitTxn txn
  | rollbackTxn txn => Graph.rollbackTxn txn
  | vacuumOnce order => discard (Graph.vacuumOnce order)
  | addNode label props => discard (Graph.addNode label props)
  | updateNode id node => Graph.updateNode id node
  | removeNode id => discard (Graph.removeNode id)
  | addEdge label source target props => discard (Graph.addEdge label source target props)
  | updateEdge id edge => Graph.updateEdge id edge
  | removeEdge id => discard (Graph.removeEdge id)
  | beginBatch => Graph.beginBatch
  | endBatch checkpointDue => Graph.endBatch checkpointDue
  | flush => Graph.flush
  | edges none .outgoing node => discard (Graph.outgoingEdges node)
  | edges none .incoming node => discard (Graph.incomingEdges node)
  | edges (some txn) direction node => discard (Graph.edgesInTxn direction txn node)
  | evictPage file page => Graph.evictPage file page

end Op

namespace Graph

/-- The graph after an operation, whether it returned normally or not. -/
def after (graph : Graph) (op : Op) : Graph := final op.run graph

def afterAll (graph : Graph) (ops : List Op) : Graph := ops.foldl after graph

theorem keeps_edgesForDirection (node : Nat) (direction : AdjDirection) (startTs : Nat)
    (reader : Option Nat) : Keeps LinksOnly (edgesForDirection node direction startTs reader) := by
  unfold edgesForDirection
  refine (keeps_resolveAdjPointer node).bind fun ptr => keeps_get.bind fun graph => ?_
  exact (keeps_ofResult _).bind fun stored => keeps_ofResult _

theorem keeps_edges (reader : Option Nat) (direction : AdjDirection) (node : Nat) :
    Keeps LinksOnly (Op.edges reader direction node).run := by
  have autoCommit (direction : AdjDirection) : Keeps LinksOnly (do
      let graph ← get
      if graph.exists? (.node node) then
        edgesForDirection node direction graph.autoCommitStartTs none
      else throw (.nodeNotFound node) : GraphM (List Edge)) := by
    refine keeps_get.bind fun graph => keeps_ite (fun _ => ?_) fun _ => keeps_throw _
    exact keeps_edgesForDirection node direction _ none
  cases reader with
  | none =>
    cases direction with
    | outgoing => exact (autoCommit .outgoing).map _
    | incoming => exact (autoCommit .incoming).map _
  | some txn =>
    refine Keeps.map _ (keeps_get.bind fun graph => ?_)
    refine keeps_ite (fun _ => (keeps_ofResult _).bind fun start => ?_) fun _ => keeps_throw _
    exact keeps_edgesForDirection node direction start (some txn)

theorem keeps_flushPendingEntry (latest : List (Nat × AdjacencyPointer))
    (entry : (Nat × AdjDirection) × List Nat) : Keeps LinksOnly (flushPendingEntry latest entry) := by
  unfold flushPendingEntry pendingPointer
  refine Keeps.bind ?_ fun ptr => ?_
  · refine keeps_get.bind fun graph => ?_
    split
    · exact keeps_pure _
    · exact keeps_pure _
    · exact (keeps_resolveAdjPointer _).bind fun resolved => keeps_pure _
  · exact (keeps_appendAndUpdateCaches _ _ ptr _).bind fun updated => keeps_pure _

theorem keeps_flushAdjPending : Keeps (Advances Plain) flushAdjPending := by
  unfold flushAdjPending
  refine keeps_get.bind fun graph => (keeps_modifyAdj _).bind fun _ => Keeps.bind ?_ fun latest => ?_
  · refine keeps_foldlM _ _ fun latest entry _ => ?_
    exact (keeps_flushPendingEntry latest entry).mono fun _ _ => LinksOnly.advances
  · exact keeps_forM latest fun entry _ => keeps_persistAdjPointerToSlot entry.1 entry.2

/-- The journal was emptied, after records of the allowed kinds were appended to it. -/
structure Truncates (before after : Graph) : Prop where
  emptied : after.store.wal = before.store.wal.map fun _ => {}
  registry : ∀ mvcc', after.mvcc = some mvcc' → ∃ mvcc, before.mvcc = some mvcc ∧ mvcc.Ages mvcc'

/-- An operation extends the journal by allowed records or empties it, and gives ids out in
order. -/
structure Proceeds (allowed : WalRecord → Prop) (before after : Graph) : Prop where
  journal : Logs allowed before after ∨ Truncates before after
  ids : ∀ kind, before.store.info.nextId kind ≤ after.store.info.nextId kind

theorem Advances.proceeds {allowed : WalRecord → Prop} {before after : Graph}
    (advances : Advances allowed before after) : Proceeds allowed before after :=
  ⟨.inl advances.toLogs, advances.ids⟩

theorem proceeds_flush {before between : Graph} (advances : Advances Plain before between) :
    Sat flush between (fun _ after => Proceeds Plain before after) (fun _ _ => False) :=
  ⟨.inr ⟨advances.journal.emptied, advances.registry⟩, advances.ids⟩

theorem sat_endBatch (graph : Graph) (checkpointDue : Bool) :
    Sat (endBatch checkpointDue) graph
      (fun _ after => Proceeds Plain graph after)
      (fun _ after => Proceeds Plain graph after) := by
  unfold endBatch
  rw [sat_bind, sat_get]
  by_cases outside : graph.batchDepth = 0
  · simp only [outside, ↓reduceIte]
    exact (refl_of (Advances Plain) graph).proceeds
  · simp only [outside, ↓reduceIte, sat_bind, sat_set]
    have closed : Advances Plain graph { graph with batchDepth := graph.batchDepth - 1 } :=
      Advances.of_same (Journals.refl _) rfl rfl
    by_cases outermost : graph.batchDepth = 1
    · simp only [outermost, ↓reduceIte, sat_bind, sat_modify]
      have reset : Advances Plain graph { graph with
          batchDepth := 1 - 1, batchOpCount := 0, batchByteCount := 0 } :=
        Advances.of_same (Journals.refl _) rfl rfl
      refine (keeps_flushAdjPending _).mono (fun _ linked moved => ?_) (fun _ failed moved => ?_)
      · have sync : Keeps (Advances Plain) walSync := keeps_walSync
        refine (sync linked).mono (fun _ synced moved' => ?_) (fun _ failed moved' => ?_)
        · have reached := trans_of (Advances Plain) reset (trans_of (Advances Plain) moved moved')
          cases checkpointDue with
          | false => exact reached.proceeds
          | true => exact (proceeds_flush reached).sure (fun _ _ => id)
        · exact (trans_of (Advances Plain) reset (trans_of (Advances Plain) moved moved')).proceeds
      · exact (trans_of (Advances Plain) reset moved).proceeds
    · simp only [outermost, ↓reduceIte]
      exact closed.proceeds

end Graph

/-- What an operation may append: only a commit writes about a transaction. -/
def Op.allowed : Op → WalRecord → Prop
  | .commitTxn txn => About txn
  | _ => Plain

namespace Graph

theorem after_proceeds (graph : Graph) (op : Op) : Proceeds op.allowed graph (graph.after op) := by
  have plain {x : GraphM Unit} (keeps : Keeps (Advances Plain) x) :
      Proceeds Plain graph (final x graph) := (keeps graph).final.proceeds
  cases op with
  | beginTxn => exact plain (keeps_beginTxn.map _)
  | addNodeInTxn txn label props => exact plain ((keeps_addNodeInTxn txn label props).map _)
  | updateNodeInTxn txn id node =>
    exact plain (keeps_checkQuota.bind fun _ => keeps_replaceInTxn txn _ _ _)
  | removeNodeInTxn txn id => exact plain (keeps_replaceInTxn txn _ _ _)
  | addEdgeInTxn txn label source target props =>
    exact plain ((keeps_addEdgeInTxn txn label source target props).map _)
  | updateEdgeInTxn txn id edge =>
    exact plain (keeps_checkQuota.bind fun _ => keeps_replaceInTxn txn _ _ _)
  | removeEdgeInTxn txn id => exact plain (keeps_replaceInTxn txn _ _ _)
  | commitTxn txn => exact (keeps_commitTxn txn graph).final.proceeds
  | rollbackTxn txn => exact plain (keeps_rollbackTxn txn)
  | vacuumOnce order => exact plain ((keeps_vacuumOnce order).map _)
  | addNode label props => exact plain ((keeps_addNode label props).map _)
  | updateNode id node => exact plain (keeps_updateNode id node)
  | removeNode id => exact plain ((keeps_removeNode id).map _)
  | addEdge label source target props =>
    exact plain ((keeps_addEdge label source target props).map _)
  | updateEdge id edge => exact plain (keeps_updateEdge id edge)
  | removeEdge id => exact plain ((keeps_removeEdge id).map _)
  | beginBatch =>
    exact plain (keeps_modify fun graph => Advances.of_same (Journals.refl _) rfl rfl)
  | endBatch checkpointDue => exact (sat_endBatch graph checkpointDue).final
  | flush =>
    exact ((proceeds_flush (refl_of (Advances Plain) graph)).sure (fun _ _ => id)).final
  | edges reader direction node =>
    exact plain ((keeps_edges reader direction node).mono fun _ _ => LinksOnly.advances)
  | evictPage file page =>
    exact plain (keeps_modify fun graph => Advances.of_same (Journals.refl _) rfl rfl)

theorem after_journal (graph : Graph) (op : Op) :
    Logs op.allowed graph (graph.after op) ∨ Truncates graph (graph.after op) :=
  (after_proceeds graph op).journal

end Graph

end ErmyaGraph
