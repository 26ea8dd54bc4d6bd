import Mathlib.Algebra.Order.Ring.Int
import Mathlib.Data.List.Nodup

/-! # Nodes, edges and properties

The values a caller of the graph sees. A property map iterates in the order of
its entry list, and no key occurs twice in it. -/

namespace ErmyaGraph

/-- A dynamically typed property value; a float is kept as its bit pattern. -/
inductive Property where
  | string (value : String)
  | i64 (value : Int64)
  | f64 (bits : UInt64)
  | bool (value : Bool)
  | bytes (value : List UInt8)
deriving DecidableEq, Repr

/-- Bytes a value owns on the heap, as the memory caps estimate them. -/
def Property.approxHeapSize : Property → Nat
  | .string s => s.utf8ByteSize
  | .bytes b => b.length
  | .i64 _ | .f64 _ | .bool _ => 0

/-- A map of named properties. -/
structure Properties where
  entries : List (String × Property)
  keys_nodup : (entries.map Prod.fst).Nodup
deriving DecidableEq

namespace Properties

def empty : Properties := ⟨[], by simp⟩

def len (props : Properties) : Nat := props.entries.length

def get? (props : Properties) (key : String) : Option Property := props.entries.lookup key

def replaceEntry (key : String) (value : Property) (entry : String × Property) :
    String × Property :=
  if entry.1 = key then (key, value) else entry

theorem replaceEntry_fst (key : String) (value : Property) (entry : String × Property) :
    (replaceEntry key value entry).1 = entry.1 := by
  unfold replaceEntry
  split
  · next same => exact same.symm
  · rfl

/-- Insert or overwrite an entry; an overwritten key keeps its place. -/
def insert (props : Properties) (key : String) (value : Property) : Properties :=
  if present : key ∈ props.entries.map Prod.fst then
    ⟨props.entries.map (replaceEntry key value), by
      have keys : (props.entries.map (replaceEntry key value)).map Prod.fst =
          props.entries.map Prod.fst := by
        simp [Function.comp_def, replaceEntry_fst]
      rw [keys]
      exact props.keys_nodup⟩
  else
    ⟨props.entries ++ [(key, value)], by
      rw [List.map_append, List.nodup_append]
      refine ⟨props.keys_nodup, by simp, ?_⟩
      intro left member right single same
      obtain rfl : right = key := by simpa using single
      exact present (same ▸ member)⟩

theorem insert_entries_of_fresh {props : Properties} {key : String} {value : Property}
    (fresh : key ∉ props.entries.map Prod.fst) :
    (props.insert key value).entries = props.entries ++ [(key, value)] := by
  unfold insert
  rw [dif_neg fresh]

theorem ext_entries {left right : Properties} (same : left.entries = right.entries) :
    left = right := by
  cases left
  cases right
  cases same
  rfl

end Properties

abbrev PageId := Nat

/-- The first adjacency page of a node in each direction. -/
structure AdjacencyPointer where
  outgoingPage : Option PageId := none
  incomingPage : Option PageId := none
deriving DecidableEq, Repr

/-- The two directions in which a node lists its edges. -/
inductive AdjDirection where
  | outgoing
  | incoming
deriving DecidableEq, Repr

namespace AdjacencyPointer

def head (ptr : AdjacencyPointer) : AdjDirection → Option PageId
  | .outgoing => ptr.outgoingPage
  | .incoming => ptr.incomingPage

/-- Replace the head page of one direction. -/
def setHead (ptr : AdjacencyPointer) (direction : AdjDirection) (page : PageId) :
    AdjacencyPointer :=
  match direction with
  | .outgoing => { ptr with outgoingPage := some page }
  | .incoming => { ptr with incomingPage := some page }

/-- Both heads absent: the marker of a node without adjacency pages. -/
def isAbsent (ptr : AdjacencyPointer) : Bool :=
  ptr.outgoingPage.isNone && ptr.incomingPage.isNone

end AdjacencyPointer

/-- A node value. The adjacency heads travel with it, as read from its slot. -/
structure Node where
  id : Nat
  label : String
  properties : Properties
  adj : AdjacencyPointer := {}
deriving DecidableEq

/-- A directed edge value. -/
structure Edge where
  id : Nat
  label : String
  source : Nat
  target : Nat
  properties : Properties
deriving DecidableEq

/-- Nodes and edges are numbered independently, so an id alone names no entity. -/
inductive EntityKind where
  | node
  | edge
deriving DecidableEq, Repr

/-- The errors the modelled operations return. -/
inductive Error where
  | nodeNotFound (id : Nat)
  | edgeNotFound (id : Nat)
  | corruptPage (file : String) (page : PageId) (reason : String)
  | recordTooLarge (size : Nat)
  | invalidStringRef (offset : Nat)
  | quotaExceeded
  | constraintViolation (label prop : String)
  | mvccNotEnabled
  | txnNotActive (txn : Nat)
  | txnMemoryCapExceeded (txn used cap : Nat)
  | appendOnlyLabelInTxn (label : String)
  | batchOpsLimitExceeded (current limit : Nat)
  | batchBytesLimitExceeded (current limit : Nat)
deriving DecidableEq, Repr

/-- The fields in which a stored node and a stored edge differ. -/
inductive Link where
  | heads (ptr : AdjacencyPointer)
  | ends (source target : Nat)
deriving DecidableEq

namespace Link

/-- The adjacency heads of a node record; an edge record has none. -/
def pointer : Link → AdjacencyPointer
  | heads ptr => ptr
  | ends _ _ => {}

def endpoints : Link → Nat × Nat
  | heads _ => (0, 0)
  | ends source target => (source, target)

/-- Adjacency heads are bookkeeping: forget them, keep endpoints. -/
def observed : Link → Link
  | heads _ => heads {}
  | ends source target => ends source target

end Link

/-- A node or an edge, as the slot files store them. -/
structure Record where
  id : Nat
  label : String
  properties : Properties
  link : Link
deriving DecidableEq

namespace Record

def source (record : Record) : Nat := record.link.endpoints.1

def target (record : Record) : Nat := record.link.endpoints.2

/-- What a reader compares: id, label, properties and endpoints, not the adjacency heads. -/
def observed (record : Record) : Record := { record with link := record.link.observed }

def toNode (record : Record) : Node :=
  ⟨record.id, record.label, record.properties, record.link.pointer⟩

def toEdge (record : Record) : Edge :=
  ⟨record.id, record.label, record.source, record.target, record.properties⟩

end Record

def Node.toRecord (node : Node) : Record := ⟨node.id, node.label, node.properties, .heads node.adj⟩

def Edge.toRecord (edge : Edge) : Record :=
  ⟨edge.id, edge.label, edge.properties, .ends edge.source edge.target⟩

@[simp]
theorem Node.toNode_toRecord (node : Node) : node.toRecord.toNode = node := rfl

@[simp]
theorem Edge.toEdge_toRecord (edge : Edge) : edge.toRecord.toEdge = edge := rfl

/-- The name of a stored entity. -/
structure EntityKey where
  kind : EntityKind
  id : Nat
deriving DecidableEq, Repr

abbrev EntityKey.node (id : Nat) : EntityKey := ⟨.node, id⟩

abbrev EntityKey.edge (id : Nat) : EntityKey := ⟨.edge, id⟩

/-- The error a read of a missing entity returns. -/
def EntityKey.notFound (key : EntityKey) : Error :=
  match key.kind with
  | .node => .nodeNotFound key.id
  | .edge => .edgeNotFound key.id

end ErmyaGraph
