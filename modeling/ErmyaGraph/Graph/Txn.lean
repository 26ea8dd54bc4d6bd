import ErmyaGraph.Graph.Write

/-! # Explicit transactions and the vacuum -/

namespace ErmyaGraph.Graph

open Outcome

/-- Turn on explicit transactions, with an empty table, registry and clock. -/
def enableMvcc : GraphM Unit := modify fun graph => { graph with mvcc := some {} }

def getMvcc : GraphM Mvcc := do
  let graph ← get
  match graph.mvcc with
  | some mvcc => return mvcc
  | none => throw .mvccNotEnabled

def requireActive (txn : Nat) : GraphM Unit := do
  let graph ← get
  if !graph.isActive txn then
    throw (.txnNotActive txn)

def beginTxn : GraphM Nat := do
  let mvcc ← getMvcc
  modifyMvcc Mvcc.begin
  onStore (Store.walAppend (.begin mvcc.nextTxnId))
  return mvcc.nextTxnId

/-- Discard a transaction's deltas and forget it. The journal marker is informational. -/
def rollbackTxn (txn : Nat) : GraphM Unit := do
  requireActive txn
  modifyMvcc fun mvcc => (mvcc.removeDeltas txn).endTxn txn
  onStore (Store.walAppend (.rollback txn))
  walSync

/-- Journal the redo of one committed key; nothing to do without a journal. -/
def walLogCommittedDelta (key : EntityKey) (state : Option EntitySnapshot) (txn : Nat) :
    GraphM Unit := do
  let graph ← get
  if graph.store.walEnabled then
    match state with
    | some (.live record) => onStore (Store.walLogRedo key.kind record txn)
    | _ => onStore (Store.walAppend (.tombstone key (some txn)))

def reconcileNodeUpdateAddOnly (prior new : Record) : GraphM Unit :=
  modifyIndex fun index =>
    let relabelled :=
      if prior.label ≠ new.label then index.insertLabel .node new.label new.id else index
    relabelled.insertNode new.label new.properties new.id

def reconcileEdgeUpdateAddOnly (prior new : Record) : GraphM Unit :=
  modifyIndex fun index =>
    if prior.label ≠ new.label then
      (index.insertLabel .edge new.label new.id).insertPair prior.source prior.target new.label
        new.id
    else index

/-- Apply the additions of one committed key. What the transaction first did to the key
decides between an insert and an update. -/
def reconcileCommittedDelta (key : EntityKey) (delta : Delta) : GraphM Unit := do
  let graph ← get
  let oldest := (graph.chain key).oldestOfTxn delta.txn
  let op := (oldest.map Delta.op).getD delta.op
  match key.kind, op, delta.new with
  | .node, .insert, some (.live record) => reconcileNodeInsert record
  | .edge, .insert, some (.live record) => reconcileEdgeInsert record
  | .node, .update, some (.live record) =>
    match oldest.bind Delta.prior with
    | some (.live prior) => reconcileNodeUpdateAddOnly prior record
    | _ => return
  | .edge, .update, some (.live record) =>
    match oldest.bind Delta.prior with
    | some (.live prior) => reconcileEdgeUpdateAddOnly prior record
    | _ => return
  | _, _, _ => return

/-- Make a commit durable: the redo records, the marker, then the flush. -/
def journalCommit (txn : Nat) (committed : List (EntityKey × Delta)) : GraphM Unit := do
  committed.forM fun entry => walLogCommittedDelta entry.1 entry.2.new txn
  onStore (Store.walAppend (.commit txn))
  walSync

/-- Make a commit visible: stamp the deltas, then let the derived structures follow. -/
def applyCommit (txn ts : Nat) (committed : List (EntityKey × Delta)) : GraphM Unit := do
  modifyMvcc fun mvcc => mvcc.stampKeys txn ts (committed.map Prod.fst)
  committed.forM fun entry => reconcileCommittedDelta entry.1 entry.2
  modifyMvcc fun mvcc => mvcc.endTxn txn

def commitTxn (txn : Nat) : GraphM Unit := do
  requireActive txn
  let mvcc ← getMvcc
  modifyMvcc fun mvcc => { mvcc with clock := mvcc.clock + 1 }
  journalCommit txn (mvcc.committed txn)
  applyCommit txn mvcc.clock (mvcc.committed txn)

def snapshotApproxSize : EntitySnapshot → Nat
  | .live record => estimateEntityBytes record.label record.properties
  | .deleted => 16

def deltaBytes (prior : Option EntitySnapshot) (new : EntitySnapshot) : Nat :=
  (prior.map snapshotApproxSize).getD 0 + snapshotApproxSize new

/-- Charge a delta against the transaction's memory cap; exceeding it aborts the
transaction. -/
def chargeTxnMemory (txn bytes : Nat) : GraphM Unit := do
  let mvcc ← getMvcc
  match mvcc.active txn with
  | none => throw (.txnNotActive txn)
  | some state =>
    let used := state.bytesUsed + bytes
    modifyMvcc fun mvcc => mvcc.modifyTxn txn fun state => { state with bytesUsed := used }
    let graph ← get
    match graph.txnMemoryCap.filter (· < used) with
    | some cap =>
      rollbackTxn txn
      throw (.txnMemoryCapExceeded txn used cap)
    | none => return

/-- Show an insert to the enumerations of its own transaction. -/
def seedOverlay (key : EntityKey) (delta : Delta) (overlay : TxnOverlay) : TxnOverlay :=
  match delta.op, key.kind, delta.new with
  | .insert, .node, some (.live record) =>
    { overlay with
      nodeIds := insert key.id overlay.nodeIds
      nodesByLabel := Function.update overlay.nodesByLabel record.label
        (insert key.id (overlay.nodesByLabel record.label)) }
  | .insert, .edge, some (.live record) =>
    { overlay with
      adjacency := fun node direction =>
        if node = record.source ∧ direction = .outgoing ∨
            node = record.target ∧ direction = .incoming then
          overlay.adjacency node direction ++ [key.id]
        else overlay.adjacency node direction }
  | _, _, _ => overlay

def pushTxnDelta (key : EntityKey) (delta : Delta) : GraphM Unit :=
  modifyMvcc fun mvcc =>
    (mvcc.modifyTxn delta.txn fun state =>
      { state with overlay := seedOverlay key delta state.overlay }).pushDelta key delta

/-- Record the write of a transaction, after charging it. -/
def recordDelta (txn : Nat) (key : EntityKey) (prior : Option EntitySnapshot)
    (new : EntitySnapshot) (op : DeltaOp) : GraphM Unit := do
  chargeTxnMemory txn (deltaBytes prior new)
  pushTxnDelta key { txn := txn, prior := prior, new := some new, op := op }

def addNodeInTxn (txn : Nat) (label : String) (props : Properties) : GraphM Nat := do
  checkQuota
  requireActive txn
  let graph ← get
  if graph.isLabelAppendOnly label then
    throw (.appendOnlyLabelInTxn label)
  let id ← allocateId .node
  recordDelta txn (.node id) none (.live ⟨id, label, props, .heads {}⟩) .insert
  return id

def rejectIfAppendOnly (key : EntityKey) : GraphM Unit := do
  let graph ← get
  if graph.skipsVersions key then
    match graph.store.readRecord key with
    | .ok record => throw (.appendOnlyLabelInTxn record.label)
    | .error _ => throw (.appendOnlyLabelInTxn "<unknown>")

/-- Replace the version of an entity that the transaction sees. -/
def replaceInTxn (txn : Nat) (key : EntityKey) (new : EntitySnapshot) (op : DeltaOp) :
    GraphM Unit := do
  requireActive txn
  rejectIfAppendOnly key
  let graph ← get
  let _ ← ofResult (graph.readInTxn txn key)
  recordDelta txn key (graph.chainBase txn key) new op

def updateNodeInTxn (txn id : Nat) (node : Node) : GraphM Unit := do
  checkQuota
  replaceInTxn txn (.node id) (.live node.toRecord) .update

def removeNodeInTxn (txn id : Nat) : GraphM Unit := replaceInTxn txn (.node id) .deleted .delete

def requireNodeInTxn (txn node : Nat) : GraphM Unit := do
  let graph ← get
  match graph.nodeInTxn txn node with
  | .ok _ => return
  | .error _ => throw (.nodeNotFound node)

def addEdgeInTxn (txn : Nat) (label : String) (source target : Nat) (props : Properties) :
    GraphM Nat := do
  checkQuota
  requireActive txn
  requireNodeInTxn txn source
  requireNodeInTxn txn target
  let id ← allocateId .edge
  recordDelta txn (.edge id) none (.live ⟨id, label, props, .ends source target⟩) .insert
  return id

def updateEdgeInTxn (txn id : Nat) (edge : Edge) : GraphM Unit := do
  checkQuota
  replaceInTxn txn (.edge id) (.live edge.toRecord) .update

def removeEdgeInTxn (txn id : Nat) : GraphM Unit := replaceInTxn txn (.edge id) .deleted .delete

/-- Move the newest version of a drained chain to its page. -/
def materializeToPage (key : EntityKey) (state : Option EntitySnapshot) : GraphM Unit :=
  match state with
  | some (.live record) => onStore (Store.materializeRecord key.kind record)
  | _ => onStore (Store.tombstoneSlot key false)

/-- Apply the removals of a drained chain: what its oldest prior version still has in the
derived structures. -/
def applyVacuumCategoryB (key : EntityKey) (new old : Option EntitySnapshot) : GraphM Unit :=
  match key.kind, new, old with
  | .node, some (.live record), some (.live prior) =>
    modifyIndex fun index =>
      let relabelled := if prior.label ≠ record.label then
          index.removeLabel .node prior.label record.id else index
      relabelled.removeNode prior.label prior.properties record.id
  | .edge, some (.live record), some (.live prior) =>
    modifyIndex fun index =>
      if prior.label ≠ record.label then
        (index.removeLabel .edge prior.label record.id).removePair prior.source prior.target
          prior.label record.id
      else index
  | .node, _, some (.live prior) => reconcileNodeDelete prior
  | .edge, _, some (.live prior) => reconcileEdgeDelete prior
  | _, _, _ => return

/-- The newest version of a drained chain and the oldest one it replaced. -/
def drainedEnds (chain : DeltaChain) : Option EntitySnapshot × Option EntitySnapshot :=
  (chain.head?.bind Delta.new, chain.getLast?.bind Delta.prior)

/-- Move every chain no snapshot needs to its page. The table hands the chains over in the
order of its hash buckets, so the order is a parameter. -/
def vacuumOnce (order : List EntityKey) : GraphM Nat := do
  let mvcc ← getMvcc
  let drained := (order.filter mvcc.vacuumable).map fun key => (key, drainedEnds (mvcc.chain key))
  modifyMvcc fun mvcc =>
    { mvcc with chain := fun key => if key ∈ order ∧ mvcc.vacuumable key then [] else mvcc.chain key }
  drained.forM fun entry => do
    materializeToPage entry.1 entry.2.1
    applyVacuumCategoryB entry.1 entry.2.1 entry.2.2
  return drained.length

/-- An order the vacuum may use: it names every chain that can be drained, once. -/
structure DrainOrder (graph : Graph) (order : List EntityKey) : Prop where
  nodup : order.Nodup
  complete : ∀ mvcc, graph.mvcc = some mvcc → ∀ key, mvcc.vacuumable key → key ∈ order

end ErmyaGraph.Graph
