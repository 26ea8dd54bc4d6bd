import ErmyaGraph.Graph.State

/-! # Derived structures and auto-commit writes

Linking edges into the adjacency lists, keeping the indexes in step with the
committed graph, and the writes that commit on their own. -/

namespace ErmyaGraph.Graph

open Outcome Store

/-- Append to a chain of its own, journalling the pages written. -/
def appendToDedicatedChain (node : Nat) (direction : AdjDirection) (existing : Option PageId)
    (edges : List Nat) : GraphM PageId := do
  let graph ← get
  let (first, written, state) ← onStore (appendAdjacencyWithState node direction existing
    (graph.adj.tails node direction) edges)
  written.forM fun page => onStore (walLogAdjPage page)
  modifyAdj fun adj => adj.insertTail node direction state
  return first

/-- The remembered shared page, if it can take one more sub-block. -/
def fittingSlabPage (graph : Graph) (direction : AdjDirection) (edgeCount : Nat) :
    Except Error (Option PageId) :=
  match graph.adj.openSlab direction with
  | none => .ok none
  | some page => do
      let entries ← graph.store.subblocks page
      let fits ← slabCanFitSubblock page entries edgeCount
      return if fits then some page else none

/-- The shared page that takes new sub-blocks, or a new one when it is full. -/
def openSlabPageFor (direction : AdjDirection) (edgeCount : Nat) : GraphM PageId := do
  let graph ← get
  match ← ofResult (graph.fittingSlabPage direction edgeCount) with
  | some page => return page
  | none =>
    let page ← onStore allocateSlabPage
    modifyAdj fun adj =>
      { adj with openSlab := Function.update adj.openSlab direction (some page) }
    return page

/-- Move a sub-block that cannot grow to a chain of its own. -/
def migrateSubblock (node : Nat) (direction : AdjDirection) (slab : PageId) (added : List Nat) :
    GraphM PageId := do
  let graph ← get
  let present ← ofResult (graph.store.readSubblock slab node direction)
  let first ← appendToDedicatedChain node direction none (present ++ added)
  onStore (freeSubblock slab node direction)
  onStore (walLogAdjPage slab)
  return first

/-- Append edges to the list a head page starts. -/
def appendToPage (node : Nat) (direction : AdjDirection) (page : PageId) (edges : List Nat) :
    GraphM PageId := do
  let graph ← get
  if ← ofResult (graph.store.isAdjSlabPage page) then
    if ← onStore (appendSubblockEdges page node direction edges) then
      onStore (walLogAdjPage page)
      return page
    else migrateSubblock node direction page edges
  else appendToDedicatedChain node direction (some page) edges

/-- Start the list of a node and direction. -/
def startList (node : Nat) (direction : AdjDirection) (edges : List Nat) : GraphM PageId := do
  if fitsInEmptySlab edges.length then
    let page ← openSlabPageFor direction edges.length
    onStore (writeSubblock page node direction edges)
    onStore (walLogAdjPage page)
    return page
  else appendToDedicatedChain node direction none edges

/-- Append edges to a node's list and return its new heads. -/
def appendAndUpdateCaches (node : Nat) (direction : AdjDirection) (ptr : AdjacencyPointer)
    (edges : List Nat) : GraphM AdjacencyPointer := do
  let first ← match ptr.head direction with
    | some page => appendToPage node direction page edges
    | none => startList node direction edges
  let entry := ptr.setHead direction first
  modifyAdj fun adj => adj.insert node entry
  return entry

/-- Write the slot of a committed node that is not on a page yet, heads included. -/
def materializeNodeSlotWithPointer (node : Nat) (ptr : AdjacencyPointer) : GraphM Unit := do
  let graph ← get
  if graph.mvcc.isNone then
    return
  match graph.resolveVisible (.node node) graph.autoCommitStartTs none with
  | .error _ => return
  | .ok record =>
    let encoded ← ofResult (encodeSlot .node record)
    let slot ← onStore (handleSlotOverflow (.node node) encoded
      (graph.store.existingPropOverflow (.node node)))
    onStore (writeSlotToPage (.node node) (slot.patchAdjPointer ptr) true)

/-- Make a node's heads durable in its slot. -/
def persistAdjPointerToSlot (node : Nat) (ptr : AdjacencyPointer) : GraphM Unit := do
  let graph ← get
  match graph.store.readSlot (.node node) with
  | .ok slot =>
    if slot.flag = .live then
      onStore (writeSlotToPage (.node node) (slot.patchAdjPointer ptr) true)
    else materializeNodeSlotWithPointer node ptr
  | .error _ => materializeNodeSlotWithPointer node ptr

def writeAdjImmediate (node : Nat) (direction : AdjDirection) (edge : Nat) : GraphM Unit := do
  let ptr ← resolveAdjPointer node
  let entry ← appendAndUpdateCaches node direction (ptr.getD {}) [edge]
  persistAdjPointerToSlot node entry

/-- Add an id to the list pending under a key. -/
def pushPending (pending : List ((Nat × AdjDirection) × List Nat)) (key : Nat × AdjDirection)
    (edge : Nat) : List ((Nat × AdjDirection) × List Nat) :=
  if key ∈ pending.map Prod.fst then
    pending.map fun entry => if entry.1 = key then (key, entry.2 ++ [edge]) else entry
  else pending ++ [(key, [edge])]

/-- Link an edge into a node's list; inside a batch the page write is deferred. -/
def addEdgeToAdjacency (node : Nat) (direction : AdjDirection) (edge : Nat) : GraphM Unit := do
  let graph ← get
  if 0 < graph.batchDepth then
    modifyAdj fun adj => { adj with pending := pushPending adj.pending (node, direction) edge }
  else writeAdjImmediate node direction edge

/-- Remove one occurrence, moving the last element into its place. -/
def swapRemove (ids : List Nat) (id : Nat) : List Nat :=
  match ids.idxOf? id with
  | none => ids
  | some i => (ids.set i (ids.getLast?.getD id)).dropLast

/-- Replace a list by a shorter one and return the page that heads it now. -/
def rewriteList (node : Nat) (direction : AdjDirection) (page : PageId) (edges : List Nat) :
    GraphM PageId := do
  let graph ← get
  if ← ofResult (graph.store.isAdjSlabPage page) then
    onStore (rewriteSubblockEdges page node direction edges)
    return page
  else onStore (writeAdjacency node direction edges)

/-- Unlink an edge from a node's list. The slot keeps its old heads. -/
def removeEdgeFromAdjacency (node : Nat) (direction : AdjDirection) (edge : Nat) :
    GraphM Unit := do
  let graph ← get
  if edge ∈ graph.pendingEdges node direction then
    modifyAdj fun adj => { adj with
      pending := adj.pending.map fun entry =>
        if entry.1 = (node, direction) then (entry.1, swapRemove entry.2 edge) else entry }
  else
    match ← resolveAdjPointer node with
    | none => return
    | some ptr =>
      match ptr.head direction with
      | none => return
      | some page =>
        let graph ← get
        let present ← ofResult (graph.store.readAdjEdgeIds page node direction)
        let newPage ← rewriteList node direction page (present.filter fun id => id ≠ edge)
        onStore (walLogAdjPage newPage)
        modifyAdj fun adj => (adj.insert node (ptr.setHead direction newPage)).removeTails node

def bumpCount (kind : EntityKind) (f : Nat → Nat) : GraphM Unit :=
  onStore (modifyMeta fun info =>
    { info with entityCount := Function.update info.entityCount kind (f (info.entityCount kind)) })

def reconcileNodeInsert (record : Record) : GraphM Unit := do
  modifyIndex fun index =>
    ((index.insertPresent (.node record.id)).insertLabel .node record.label record.id).insertNode
      record.label record.properties record.id
  bumpCount .node (· + 1)
  modifyAdj fun adj => adj.insert record.id {}

def reconcileNodeUpdate (prior new : Record) : GraphM Unit :=
  modifyIndex fun index =>
    let relabelled := if prior.label ≠ new.label then
        (index.removeLabel .node prior.label new.id).insertLabel .node new.label new.id
      else index
    (relabelled.removeNode prior.label prior.properties new.id).insertNode
      new.label new.properties new.id

def reconcileNodeDelete (record : Record) : GraphM Unit := do
  modifyIndex fun index =>
    ((index.removePresent (.node record.id)).removeLabel .node record.label record.id).removeNode
      record.label record.properties record.id
  modifyAdj fun adj => (adj.remove record.id).removeTails record.id
  bumpCount .node (· - 1)

def reconcileEdgeInsert (record : Record) : GraphM Unit := do
  modifyIndex fun index =>
    ((index.insertPresent (.edge record.id)).insertLabel .edge record.label record.id).insertPair
      record.source record.target record.label record.id
  bumpCount .edge (· + 1)
  addEdgeToAdjacency record.source .outgoing record.id
  addEdgeToAdjacency record.target .incoming record.id

def reconcileEdgeUpdate (prior new : Record) : GraphM Unit :=
  modifyIndex fun index =>
    if prior.label ≠ new.label then
      (((index.removeLabel .edge prior.label new.id).insertLabel .edge new.label new.id).removePair
        prior.source prior.target prior.label new.id).insertPair
        prior.source prior.target new.label new.id
    else index

def reconcileEdgeDelete (record : Record) : GraphM Unit := do
  removeEdgeFromAdjacency record.source .outgoing record.id
  removeEdgeFromAdjacency record.target .incoming record.id
  modifyIndex fun index =>
    ((index.removePresent (.edge record.id)).removeLabel .edge record.label record.id).removePair
      record.source record.target record.label record.id
  bumpCount .edge (· - 1)

def checkQuota : GraphM Unit := do
  let graph ← get
  if graph.quotaExceeded graph.store then
    throw .quotaExceeded

/-- Count an operation against the caps of the open batch. -/
def chargeBatchOp (bytes : Nat) : GraphM Unit := do
  let graph ← get
  if graph.batchDepth = 0 then
    return
  let ops := graph.batchOpCount + 1
  let total := graph.batchByteCount + bytes
  match graph.batchMaxOps.filter (· < ops), graph.batchMaxBytes.filter (· < total) with
  | some limit, _ => throw (.batchOpsLimitExceeded ops limit)
  | none, some limit => throw (.batchBytesLimitExceeded total limit)
  | none, none => set { graph with batchOpCount := ops, batchByteCount := total }

/-- Size in bytes of a node or edge value without what it owns on the heap. -/
def entityBaseSize : Nat := 96

def removedApproxSize : Nat := 16

def estimateEntityBytes (label : String) (props : Properties) : Nat :=
  entityBaseSize + label.utf8ByteSize +
    (props.entries.map fun entry => entry.1.utf8ByteSize + entry.2.approxHeapSize).sum

/-- Flush the journal, unless a batch is open. -/
def walSync : GraphM Unit := do
  let graph ← get
  if graph.batchDepth = 0 then
    onStore Store.walSync

/-- Whether a unique constraint finds the value at another node. -/
def violatesUnique (graph : Graph) (label : String) (exclude : Option Nat)
    (entry : String × Property) : Bool :=
  let ids := graph.index.property label entry.1 entry.2
  let others := match exclude with
    | none => ids
    | some own => ids.erase own
  (label, entry.1) ∈ graph.catalog.unique && others ≠ ∅

/-- Refuse properties that violate a unique constraint. -/
def checkUnique (label : String) (props : Properties) (exclude : Option Nat) : GraphM Unit := do
  let graph ← get
  match props.entries.find? (graph.violatesUnique label exclude) with
  | some entry => throw (.constraintViolation label entry.1)
  | none => return

/-- Take the next id of a kind. -/
def allocateId (kind : EntityKind) : GraphM Nat := do
  let graph ← get
  let id := graph.store.info.nextId kind
  onStore (modifyMeta fun info =>
    { info with nextId := Function.update info.nextId kind (id + 1) })
  return id

def isLabelAppendOnly (graph : Graph) (label : String) : Bool :=
  (graph.catalog.appendOnly.lookup label).isSome

def addNode (label : String) (props : Properties) : GraphM Nat := do
  checkQuota
  chargeBatchOp (estimateEntityBytes label props)
  checkUnique label props none
  let id ← allocateId .node
  let record : Record := ⟨id, label, props, .heads {}⟩
  onStore (writeRecordSlot .node record)
  reconcileNodeInsert record
  modify fun graph =>
    if graph.isLabelAppendOnly label then
      { graph with appendOnlyIds := insert id graph.appendOnlyIds }
    else graph
  walSync
  return id

/-- The record an auto-commit update or removal replaces. -/
def currentRecord (key : EntityKey) : GraphM Record := do
  let graph ← get
  if graph.exists? key then
    ofResult (graph.store.readRecord key)
  else throw key.notFound

def updateNode (id : Nat) (node : Node) : GraphM Unit := do
  checkQuota
  chargeBatchOp (estimateEntityBytes node.label node.properties)
  let current ← currentRecord (.node id)
  checkUnique node.label node.properties (some id)
  reconcileNodeUpdate current node.toRecord
  onStore (writeRecordSlot .node node.toRecord)
  walSync

def removeEdgeInternal (id : Nat) : GraphM Record := do
  let graph ← get
  let record ← ofResult (graph.store.readRecord (.edge id))
  onStore (tombstoneSlot (.edge id) true)
  reconcileEdgeDelete record
  return record

/-- The edge ids a node's stored lists name, in both directions. -/
def incidentEdgeIds (node : Nat) : GraphM (List Nat) := do
  match ← resolveAdjPointer node with
  | none => return []
  | some ptr =>
    let graph ← get
    let out ← ofResult (graph.listedEdgeIds node .outgoing ptr)
    let inc ← ofResult (graph.listedEdgeIds node .incoming ptr)
    return ((out ++ inc).mergeSort (· ≤ ·)).dedup

def removeNode (id : Nat) : GraphM Node := do
  chargeBatchOp removedApproxSize
  let record ← currentRecord (.node id)
  let edges ← incidentEdgeIds id
  edges.forM fun edge => do
    let graph ← get
    if graph.exists? (.edge edge) then
      discard (removeEdgeInternal edge)
  onStore (tombstoneSlot (.node id) true)
  reconcileNodeDelete record
  walSync
  return record.toNode

def addEdge (label : String) (source target : Nat) (props : Properties) : GraphM Nat := do
  checkQuota
  chargeBatchOp (estimateEntityBytes label props)
  let graph ← get
  if !graph.exists? (.node source) then
    throw (.nodeNotFound source)
  if !graph.exists? (.node target) then
    throw (.nodeNotFound target)
  let id ← allocateId .edge
  let record : Record := ⟨id, label, props, .ends source target⟩
  onStore (writeRecordSlot .edge record)
  reconcileEdgeInsert record
  walSync
  return id

def updateEdge (id : Nat) (edge : Edge) : GraphM Unit := do
  chargeBatchOp (estimateEntityBytes edge.label edge.properties)
  let current ← currentRecord (.edge id)
  reconcileEdgeUpdate current edge.toRecord
  onStore (writeRecordSlot .edge edge.toRecord)
  walSync

def removeEdge (id : Nat) : GraphM Edge := do
  chargeBatchOp removedApproxSize
  let graph ← get
  if !graph.exists? (.edge id) then
    throw (.edgeNotFound id)
  let record ← removeEdgeInternal id
  walSync
  return record.toEdge

end ErmyaGraph.Graph
