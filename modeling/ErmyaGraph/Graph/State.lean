import ErmyaGraph.Mvcc
import ErmyaGraph.Storage.Record
import ErmyaGraph.Storage.Adjacency

/-! # The graph and its point reads

The graph holds the storage engine, the adjacency caches, the derived indexes
and, once enabled, the version chains. -/

namespace ErmyaGraph

open Outcome Function

/-- The adjacency caches. An insertion may drop other entries: which ones is left to an
arbitrary policy, so that statements hold for every pattern of evictions. -/
structure AdjState where
  cache : Nat → Option AdjacencyPointer := fun _ => none
  tails : Nat → AdjDirection → Option Store.ChainState := fun _ _ => none
  openSlab : AdjDirection → Option PageId := fun _ => none
  pending : List ((Nat × AdjDirection) × List Nat) := []
  evicts : Nat → Nat → Bool := fun _ _ => false
  tick : Nat := 0

namespace AdjState

/-- Insert a pointer into the bounded cache. -/
def insert (adj : AdjState) (node : Nat) (ptr : AdjacencyPointer) : AdjState :=
  { adj with
    cache := fun n =>
      if n = node then some ptr else if adj.evicts adj.tick n then none else adj.cache n
    tick := adj.tick + 1 }

/-- Remember the tail of a chain. -/
def insertTail (adj : AdjState) (node : Nat) (direction : AdjDirection)
    (state : Store.ChainState) : AdjState :=
  { adj with
    tails := fun n d =>
      if n = node ∧ d = direction then some state
      else if adj.evicts adj.tick n then none else adj.tails n d
    tick := adj.tick + 1 }

def removeTails (adj : AdjState) (node : Nat) : AdjState :=
  { adj with tails := fun n d => if n = node then none else adj.tails n d }

def remove (adj : AdjState) (node : Nat) : AdjState :=
  { adj with cache := update adj.cache node none }

end AdjState

/-- The derived structures that reflect the committed graph. -/
structure Indexes where
  present : EntityKind → Finset Nat := fun _ => ∅
  label : EntityKind → String → Finset Nat := fun _ _ => ∅
  property : String → String → Property → Finset Nat := fun _ _ _ => ∅
  pair : Nat × Nat × UInt32 → List Nat := fun _ => []

namespace Indexes

def insertPresent (index : Indexes) (key : EntityKey) : Indexes :=
  { index with
    present := update index.present key.kind (insert key.id (index.present key.kind)) }

def removePresent (index : Indexes) (key : EntityKey) : Indexes :=
  { index with
    present := update index.present key.kind ((index.present key.kind).erase key.id) }

def insertLabel (index : Indexes) (kind : EntityKind) (label : String) (id : Nat) : Indexes :=
  { index with
    label := update index.label kind
      (update (index.label kind) label (insert id (index.label kind label))) }

def removeLabel (index : Indexes) (kind : EntityKind) (label : String) (id : Nat) : Indexes :=
  { index with
    label := update index.label kind
      (update (index.label kind) label ((index.label kind label).erase id)) }

/-- Enter a node under each of its properties. -/
def insertNode (index : Indexes) (label : String) (props : Properties) (id : Nat) : Indexes :=
  { index with
    property := fun l k v =>
      if l = label ∧ (k, v) ∈ props.entries then insert id (index.property l k v)
      else index.property l k v }

/-- Drop a node from each of its properties. -/
def removeNode (index : Indexes) (label : String) (props : Properties) (id : Nat) : Indexes :=
  { index with
    property := fun l k v =>
      if l = label ∧ (k, v) ∈ props.entries then (index.property l k v).erase id
      else index.property l k v }

def insertPair (index : Indexes) (source target : Nat) (label : String) (id : Nat) : Indexes :=
  { index with
    pair := update index.pair (source, target, labelHash label)
      (index.pair (source, target, labelHash label) ++ [id]) }

def removePair (index : Indexes) (source target : Nat) (label : String) (id : Nat) : Indexes :=
  { index with
    pair := update index.pair (source, target, labelHash label)
      ((index.pair (source, target, labelHash label)).filter fun other => other ≠ id) }

end Indexes

/-- Declared unique constraints and append-only labels. -/
structure Catalog where
  unique : List (String × String) := []
  appendOnly : List (String × Nat) := []
deriving DecidableEq

/-- The files of a database directory, apart from the journal. -/
structure Disk where
  pages : Pages
  info : Meta
  labels : Option (EntityKind → String → Finset Nat) := none
  catalog : Catalog := {}

def Disk.fresh : Disk := { pages := Pages.fresh, info := {} }

structure Graph where
  store : Store
  disk : Disk
  adj : AdjState := {}
  index : Indexes := {}
  catalog : Catalog := {}
  appendOnlyIds : Finset Nat := ∅
  mvcc : Option Mvcc := none
  txnMemoryCap : Option Nat := none
  quotaExceeded : Store → Bool := fun _ => false
  batchDepth : Nat := 0
  batchMaxOps : Option Nat := none
  batchMaxBytes : Option Nat := none
  batchOpCount : Nat := 0
  batchByteCount : Nat := 0

abbrev GraphM := EStateM Error Graph

namespace Graph

def onStore {α : Type} (x : StoreM α) : GraphM α :=
  zoom Graph.store (fun store graph => { graph with store := store }) x

def modifyAdj (f : AdjState → AdjState) : GraphM Unit :=
  modify fun graph => { graph with adj := f graph.adj }

def modifyIndex (f : Indexes → Indexes) : GraphM Unit :=
  modify fun graph => { graph with index := f graph.index }

def modifyMvcc (f : Mvcc → Mvcc) : GraphM Unit :=
  modify fun graph => { graph with mvcc := graph.mvcc.map f }

def exists? (graph : Graph) (key : EntityKey) : Bool := key.id ∈ graph.index.present key.kind

def chain (graph : Graph) (key : EntityKey) : DeltaChain :=
  (graph.mvcc.map fun mvcc => mvcc.chain key).getD []

def isActive (graph : Graph) (txn : Nat) : Bool :=
  (graph.mvcc.map fun mvcc => mvcc.isActive txn).getD false

def txnStartTs (graph : Graph) (txn : Nat) : Except Error Nat :=
  match graph.mvcc with
  | none => .error .mvccNotEnabled
  | some mvcc =>
    match mvcc.startTs? txn with
    | some start => .ok start
    | none => .error (.txnNotActive txn)

def autoCommitStartTs (graph : Graph) : Nat := (graph.mvcc.map Mvcc.clock).getD 0

/-- The committed version below the chain. With a chain the page may not hold the entity yet
and a failing read counts as absent; without one a failing read is reported. -/
def committedBase (graph : Graph) (key : EntityKey) : Except Error (Option EntitySnapshot) :=
  if graph.exists? key then
    match graph.store.readRecord key with
    | .ok record => .ok (some (.live record))
    | .error e => if (graph.chain key).isEmpty then .error e else .ok none
  else .ok none

/-- The version of an entity that a snapshot shows. -/
def resolveVisible (graph : Graph) (key : EntityKey) (startTs : Nat) (reader : Option Nat) :
    Except Error Record := do
  if graph.mvcc.isNone then
    throw .mvccNotEnabled
  let base ← graph.committedBase key
  match (graph.chain key).applyForRead base startTs reader with
  | some (.live record) => return record
  | _ => throw key.notFound

def resolveNodeVisible (graph : Graph) (id startTs : Nat) (reader : Option Nat) :
    Except Error Node :=
  (graph.resolveVisible (.node id) startTs reader).map Record.toNode

def resolveEdgeVisible (graph : Graph) (id startTs : Nat) (reader : Option Nat) :
    Except Error Edge :=
  (graph.resolveVisible (.edge id) startTs reader).map Record.toEdge

def readInTxn (graph : Graph) (txn : Nat) (key : EntityKey) : Except Error Record := do
  let start ← graph.txnStartTs txn
  graph.resolveVisible key start (some txn)

def nodeInTxn (graph : Graph) (txn id : Nat) : Except Error Node :=
  (graph.readInTxn txn (.node id)).map Record.toNode

def edgeInTxn (graph : Graph) (txn id : Nat) : Except Error Edge :=
  (graph.readInTxn txn (.edge id)).map Record.toEdge

/-- Nodes created under an append-only label are read from their page. -/
def skipsVersions (graph : Graph) (key : EntityKey) : Bool :=
  key.kind = .node && key.id ∈ graph.appendOnlyIds

/-- Read an entity outside any transaction. -/
def read (graph : Graph) (key : EntityKey) : Except Error Record :=
  if graph.skipsVersions key || graph.mvcc.isNone then
    if graph.exists? key then graph.store.readRecord key else .error key.notFound
  else graph.resolveVisible key graph.autoCommitStartTs none

def node (graph : Graph) (id : Nat) : Except Error Node :=
  (graph.read (.node id)).map Record.toNode

def edge (graph : Graph) (id : Nat) : Except Error Edge :=
  (graph.read (.edge id)).map Record.toEdge

/-- The version a new delta of a transaction replaces: its own pending one, else the page's. -/
def chainBase (graph : Graph) (txn : Nat) (key : EntityKey) : Option EntitySnapshot :=
  match (graph.chain key).find? fun delta => delta.txn = txn && delta.commitTs.isNone with
  | some own => own.new
  | none =>
    if graph.exists? key then
      match graph.store.readRecord key with
      | .ok record => some (.live record)
      | .error _ => none
    else none

/-- The heads of a node, from the cache or from its live slot. The answer is cached. -/
def resolveAdjPointer (node : Nat) : GraphM (Option AdjacencyPointer) := do
  let graph ← get
  match graph.adj.cache node with
  | some ptr => return if ptr.isAbsent then none else some ptr
  | none =>
    let ptr : AdjacencyPointer := match graph.store.readSlot (.node node) with
      | .ok slot => if slot.flag = .live then slot.link.pointer else {}
      | .error _ => {}
    modifyAdj fun adj => adj.insert node ptr
    return if ptr.isAbsent then none else some ptr

/-- The edge ids stored under a node's heads in one direction. -/
def listedEdgeIds (graph : Graph) (node : Nat) (direction : AdjDirection)
    (ptr : AdjacencyPointer) : Except Error (List Nat) :=
  match ptr.head direction with
  | some page => graph.store.readAdjEdgeIds page node direction
  | none => .ok []

/-- Keep an edge id of an adjacency list if its edge is visible. -/
def visibleEdge (graph : Graph) (startTs : Nat) (reader : Option Nat) (id : Nat) :
    Except Error (Option Edge) :=
  if graph.mvcc.isNone then (graph.store.readRecord (.edge id)).map fun r => some r.toEdge
  else
    match graph.resolveVisible (.edge id) startTs reader with
    | .ok record => .ok (some record.toEdge)
    | .error (.edgeNotFound _) => .ok none
    | .error e => .error e

/-- The visible edges among a list of ids. -/
def visibleEdges (graph : Graph) (startTs : Nat) (reader : Option Nat) (ids : List Nat) :
    Except Error (List Edge) := do
  let found ← ids.mapM (graph.visibleEdge startTs reader)
  return found.reduceOption

def pendingEdges (graph : Graph) (node : Nat) (direction : AdjDirection) : List Nat :=
  (graph.adj.pending.lookup (node, direction)).getD []

/-- Edges the reading transaction has inserted itself. -/
def pendingTxnEdgeIds (graph : Graph) (node : Nat) (direction : AdjDirection)
    (reader : Option Nat) : List Nat :=
  match reader, graph.mvcc with
  | some txn, some mvcc =>
    ((mvcc.active txn).map fun state => state.overlay.adjacency node direction).getD []
  | _, _ => []

/-- The edges of a node in one direction that a snapshot shows. -/
def edgesForDirection (node : Nat) (direction : AdjDirection) (startTs : Nat)
    (reader : Option Nat) : GraphM (List Edge) := do
  let ptr ← resolveAdjPointer node
  let graph ← get
  let stored ← ofResult (graph.listedEdgeIds node direction (ptr.getD {}))
  let linked := (stored ++ graph.pendingEdges node direction).filter fun id =>
    graph.exists? (.edge id)
  let own := graph.pendingTxnEdgeIds node direction reader
  ofResult (graph.visibleEdges startTs reader (linked ++ own))

def outgoingEdges (node : Nat) : GraphM (List Edge) := do
  let graph ← get
  if graph.exists? (.node node) then
    edgesForDirection node .outgoing graph.autoCommitStartTs none
  else throw (.nodeNotFound node)

def incomingEdges (node : Nat) : GraphM (List Edge) := do
  let graph ← get
  if graph.exists? (.node node) then
    edgesForDirection node .incoming graph.autoCommitStartTs none
  else throw (.nodeNotFound node)

def nodeVisibleInTxn (graph : Graph) (txn node : Nat) : Bool := (graph.nodeInTxn txn node).isOk

def edgesInTxn (direction : AdjDirection) (txn node : Nat) : GraphM (List Edge) := do
  let graph ← get
  if graph.nodeVisibleInTxn txn node then
    let start ← ofResult (graph.txnStartTs txn)
    edgesForDirection node direction start (some txn)
  else throw (.nodeNotFound node)

def outgoingEdgesInTxn (txn node : Nat) : GraphM (List Edge) := edgesInTxn .outgoing txn node

def incomingEdgesInTxn (txn node : Nat) : GraphM (List Edge) := edgesInTxn .incoming txn node

end Graph

end ErmyaGraph
