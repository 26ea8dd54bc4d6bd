import Mathlib.Data.List.Forall2
import ErmyaGraph.Bolt.PackStream

/-! # Results on the wire

A value of a result is sent as a PackStream value. The structure of a path holds its nodes, its
relationships without their ends, and a list of indices that says how the path runs through
them: the reader recovers the ends from the signs of the indices. -/

namespace ErmyaGraph.Bolt

namespace Wire

open PackStream (Value)

/-- A node. Its properties are in the order in which they are iterated. -/
structure GqlNode (α : Type) where
  id : Int64
  labels : List String
  props : List (String × α)

structure GqlRelationship (α : Type) where
  id : Int64
  startId : Int64
  endId : Int64
  relType : String
  props : List (String × α)

/-- Nodes and relationships in the order in which they are passed. -/
structure GqlPath (α : Type) where
  nodes : List (GqlNode α)
  rels : List (GqlRelationship α)

/-- A value of a result. -/
inductive GqlValue where
  | null
  | bool (value : Bool)
  | int (value : Int64)
  | float (bits : UInt64)
  | str (value : String)
  | list (items : List GqlValue)
  | map (entries : List (String × GqlValue))
  | node (node : GqlNode GqlValue)
  | relationship (rel : GqlRelationship GqlValue)
  | path (path : GqlPath GqlValue)

def tagNode : UInt8 := 0x4E
def tagRelationship : UInt8 := 0x52
def tagPath : UInt8 := 0x50
def tagUnboundRelationship : UInt8 := 0x72

def sortedDict (entries : List (String × Value)) : Value :=
  .dict (entries.mergeSort fun left right => decide (left.1 ≤ right.1))

/-- The relationship indices and the node indices of a path, in turns. -/
def pathIndices (rels : Nat) : List Value :=
  (List.range rels).flatMap fun i =>
    let idx := Int64.ofNat i + 1
    [.int idx, .int idx]

mutual

def gqlValueToPackstream : GqlValue → Value
  | .null => .null
  | .bool value => .bool value
  | .int value => .int value
  | .float bits => .float bits
  | .str value => .string value
  | .list items => .list (valuesToPackstream items)
  | .map entries => sortedDict (entriesToPackstream entries)
  | .node node => nodeToStruct node
  | .relationship rel => relToStruct rel
  | .path path => pathToStruct path

def valuesToPackstream : List GqlValue → List Value
  | [] => []
  | item :: rest => gqlValueToPackstream item :: valuesToPackstream rest

def entriesToPackstream : List (String × GqlValue) → List (String × Value)
  | [] => []
  | (key, value) :: rest => (key, gqlValueToPackstream value) :: entriesToPackstream rest

def nodeToStruct : GqlNode GqlValue → Value
  | ⟨id, labels, props⟩ =>
    .struct tagNode [.int id, .list (labels.map .string), sortedDict (entriesToPackstream props)]

def nodesToStructs : List (GqlNode GqlValue) → List Value
  | [] => []
  | node :: rest => nodeToStruct node :: nodesToStructs rest

def relToStruct : GqlRelationship GqlValue → Value
  | ⟨id, startId, endId, relType, props⟩ =>
    .struct tagRelationship
      [.int id, .int startId, .int endId, .string relType, sortedDict (entriesToPackstream props)]

/-- A relationship of a path. Its ends are not written. -/
def unboundToStruct : GqlRelationship GqlValue → Value
  | ⟨id, _, _, relType, props⟩ =>
    .struct tagUnboundRelationship
      [.int id, .string relType, sortedDict (entriesToPackstream props)]

def unboundToStructs : List (GqlRelationship GqlValue) → List Value
  | [] => []
  | rel :: rest => unboundToStruct rel :: unboundToStructs rest

def pathToStruct : GqlPath GqlValue → Value
  | ⟨nodes, rels⟩ =>
    .struct tagPath
      [.list (nodesToStructs nodes), .list (unboundToStructs rels), .list (pathIndices rels.length)]

end

/-! ## Reading

A reader starts at the first node. A pair of indices is one step: the sign of the first says
whether the relationship was passed from its start to its end, the second names the next node. -/

/-- A relationship as a path sends it. -/
structure UnboundRelationship (α : Type) where
  id : Int64
  relType : String
  props : List (String × α)

def UnboundRelationship.between {α : Type} (rel : UnboundRelationship α)
    (start finish : GqlNode α) : GqlRelationship α :=
  ⟨rel.id, start.id, finish.id, rel.relType, rel.props⟩

def readString : Value → Option String
  | .string text => some text
  | _ => none

def readNode : Value → Option (GqlNode Value)
  | .struct tag [.int id, .list labels, .dict props] =>
    if tag = tagNode then (labels.mapM readString).map fun labels => ⟨id, labels, props⟩ else none
  | _ => none

def readUnbound : Value → Option (UnboundRelationship Value)
  | .struct tag [.int id, .string relType, .dict props] =>
    if tag = tagUnboundRelationship then some ⟨id, relType, props⟩ else none
  | _ => none

def readIndices : List Value → Option (List (Int × Int))
  | [] => some []
  | .int relIndex :: .int nodeIndex :: rest =>
    (readIndices rest).map ((relIndex.toInt, nodeIndex.toInt) :: ·)
  | _ => none

/-- The relationships and the nodes that the indices pass from a node on. -/
def follow {α : Type} (nodes : List (GqlNode α)) (rels : List (UnboundRelationship α)) :
    GqlNode α → List (Int × Int) → Option (List (GqlRelationship α) × List (GqlNode α))
  | _, [] => some ([], [])
  | current, (relIndex, nodeIndex) :: rest =>
    if relIndex = 0 ∨ nodeIndex < 0 then none
    else do
      let rel ← rels[relIndex.natAbs - 1]?
      let next ← nodes[nodeIndex.toNat]?
      let (passedRels, passedNodes) ← follow nodes rels next rest
      let bound := if 0 < relIndex then rel.between current next else rel.between next current
      return (bound :: passedRels, next :: passedNodes)

def readPath : Value → Option (GqlPath Value)
  | .struct tag [.list nodes, .list rels, .list indices] =>
    if tag = tagPath then do
      let nodes ← nodes.mapM readNode
      let rels ← rels.mapM readUnbound
      let indices ← readIndices indices
      let first ← nodes[0]?
      let (passedRels, passedNodes) ← follow nodes rels first indices
      return ⟨first :: passedNodes, passedRels⟩
    else none
  | _ => none

/-- The properties of a value are read back: the same keys with their values, in some order. -/
def SameProps (props : List (String × GqlValue)) (read : List (String × Value)) : Prop :=
  read.Perm (entriesToPackstream props)

structure SameNode (node : GqlNode GqlValue) (read : GqlNode Value) : Prop where
  id : read.id = node.id
  labels : read.labels = node.labels
  props : SameProps node.props read.props

/-- All of a relationship but its ends. -/
structure SameBody (rel : GqlRelationship GqlValue) (read : GqlRelationship Value) : Prop where
  id : read.id = rel.id
  relType : read.relType = rel.relType
  props : SameProps rel.props read.props

structure SameRelationship (rel : GqlRelationship GqlValue) (read : GqlRelationship Value) : Prop
    extends SameBody rel read where
  startId : read.startId = rel.startId
  endId : read.endId = rel.endId

namespace GqlPath

variable {α : Type}

/-- The relationship runs from one node to the other. -/
def Runs (rel : GqlRelationship α) (start finish : GqlNode α) : Prop :=
  rel.startId = start.id ∧ rel.endId = finish.id

/-- Every relationship joins the nodes on its two sides, in either direction. There are no more
of them than a vector can hold. -/
structure Joined (path : GqlPath α) : Prop where
  length : path.nodes.length = path.rels.length + 1
  joins : ∀ i rel current next, path.rels[i]? = some rel → path.nodes[i]? = some current →
    path.nodes[i + 1]? = some next → Runs rel current next ∨ Runs rel next current
  held : path.rels.length < 2 ^ 63

/-- Every relationship is passed from its start to its end. -/
def Forward (path : GqlPath α) : Prop :=
  ∀ i rel current next, path.rels[i]? = some rel → path.nodes[i]? = some current →
    path.nodes[i + 1]? = some next → Runs rel current next

/-- The reader of the path's structure gets the path back. -/
def Survives (path : GqlPath GqlValue) : Prop :=
  ∃ read, readPath (pathToStruct path) = some read ∧ List.Forall₂ SameNode path.nodes read.nodes ∧
    List.Forall₂ SameRelationship path.rels read.rels

end GqlPath

def sentProps (props : List (String × GqlValue)) : List (String × Value) :=
  (entriesToPackstream props).mergeSort fun left right => decide (left.1 ≤ right.1)

def sentNode (node : GqlNode GqlValue) : GqlNode Value :=
  ⟨node.id, node.labels, sentProps node.props⟩

def sentRel (rel : GqlRelationship GqlValue) : UnboundRelationship Value :=
  ⟨rel.id, rel.relType, sentProps rel.props⟩

theorem sameProps_sent (props : List (String × GqlValue)) : SameProps props (sentProps props) :=
  List.mergeSort_perm _ _

variable (node : GqlNode GqlValue)

theorem sameNode_sent : SameNode node (sentNode node) :=
  ⟨rfl, rfl, sameProps_sent node.props⟩

variable (rel : GqlRelationship GqlValue)

theorem sameBody_sent (start finish : GqlNode Value) :
    SameBody rel ((sentRel rel).between start finish) :=
  ⟨rfl, rfl, sameProps_sent rel.props⟩

theorem readString_labels (labels : List String) :
    (labels.map Value.string).mapM readString = some labels := by
  induction labels with
  | nil => rfl
  | cons label rest ih => simp [readString, ih]

theorem readNode_sent : readNode (nodeToStruct node) = some (sentNode node) := by
  obtain ⟨id, labels, props⟩ := node
  simp only [nodeToStruct, sortedDict, readNode, if_true, readString_labels, Option.map_some,
    sentNode, sentProps]

variable (nodes : List (GqlNode GqlValue))

theorem readNodes_sent : (nodesToStructs nodes).mapM readNode = some (nodes.map sentNode) := by
  induction nodes with
  | nil => rfl
  | cons node rest ih => simp [nodesToStructs, readNode_sent, ih]

theorem readUnbound_sent : readUnbound (unboundToStruct rel) = some (sentRel rel) := by
  obtain ⟨id, startId, endId, relType, props⟩ := rel
  simp [unboundToStruct, sortedDict, readUnbound, sentRel, sentProps]

theorem readUnbounds_sent (rels : List (GqlRelationship GqlValue)) :
    (unboundToStructs rels).mapM readUnbound = some (rels.map sentRel) := by
  induction rels with
  | nil => rfl
  | cons rel rest ih => simp [unboundToStructs, readUnbound_sent, ih]

theorem readIndices_range (count start : Nat) (held : start + count < 2 ^ 63) :
    readIndices ((List.range' start count).flatMap fun i =>
        [Value.int (Int64.ofNat i + 1), Value.int (Int64.ofNat i + 1)]) =
      some ((List.range' start count).map fun i : Nat => ((i : Int) + 1, (i : Int) + 1)) := by
  induction count generalizing start with
  | zero => rfl
  | succ count ih =>
    have number : (Int64.ofNat start + 1).toInt = (start : Int) + 1 := by
      have sum : Int64.ofNat start + 1 = Int64.ofNat (start + 1) := by
        rw [Int64.ofNat_add]; rfl
      rw [sum, Int64.toInt_ofNat_of_lt (by omega)]
      push_cast
      rfl
    rw [List.range'_succ, List.flatMap_cons, List.map_cons]
    simp only [List.cons_append, List.nil_append, readIndices, number,
      ih (start + 1) (by omega), Option.map_some]

theorem readIndices_pathIndices {rels : Nat} (held : rels < 2 ^ 63) :
    readIndices (pathIndices rels) =
      some ((List.range rels).map fun i : Nat => ((i : Int) + 1, (i : Int) + 1)) := by
  rw [pathIndices, List.range_eq_range']
  exact readIndices_range rels 0 (by omega)

/-- Every relationship between the nodes on its two sides, from the earlier to the later. -/
def chained {α : Type} : List (GqlNode α) → List (UnboundRelationship α) → List (GqlRelationship α)
  | current :: next :: nodes, rel :: rels =>
    rel.between current next :: chained (next :: nodes) rels
  | _, _ => []

variable {α : Type}

theorem follow_indices {nodes : List (GqlNode α)} {rels : List (UnboundRelationship α)}
    (length : nodes.length = rels.length + 1) (count start : Nat)
    (reach : start + count = rels.length) (current : GqlNode α)
    (at_start : nodes[start]? = some current) :
    follow nodes rels current
        ((List.range' start count).map fun i : Nat => ((i : Int) + 1, (i : Int) + 1)) =
      some (chained (nodes.drop start) (rels.drop start), nodes.drop (start + 1)) := by
  induction count generalizing start current with
  | zero =>
    have noRels : rels.drop start = [] := List.drop_eq_nil_of_le (by omega)
    have noNodes : nodes.drop (start + 1) = [] := List.drop_eq_nil_of_le (by omega)
    rw [noRels, noNodes]
    simp [follow, chained]
  | succ count ih =>
    have relAt : start < rels.length := by omega
    have nextAt : start + 1 < nodes.length := by omega
    have ofNodes : nodes.drop start = current :: nodes.drop (start + 1) := by
      obtain ⟨bound, value⟩ := List.getElem?_eq_some_iff.mp at_start
      rw [List.drop_eq_getElem_cons bound, value]
    have ofRest : nodes.drop (start + 1) = nodes[start + 1] :: nodes.drop (start + 2) :=
      List.drop_eq_getElem_cons nextAt
    have ofRels : rels.drop start = rels[start] :: rels.drop (start + 1) :=
      List.drop_eq_getElem_cons relAt
    have later := ih (start + 1) (by omega) nodes[start + 1] (List.getElem?_eq_getElem nextAt)
    have pos : (0 : Int) < (start : Int) + 1 := by omega
    have inRange : ¬ ((start : Int) + 1 = 0 ∨ (start : Int) + 1 < 0) := by omega
    have relIndex : ((start : Int) + 1).natAbs - 1 = start := by omega
    have nodeIndex : ((start : Int) + 1).toNat = start + 1 := by omega
    rw [List.range'_succ, List.map_cons, follow, if_neg inRange, relIndex, nodeIndex,
      List.getElem?_eq_getElem relAt, List.getElem?_eq_getElem nextAt]
    simp only [Option.bind_eq_bind, Option.bind_some, later, if_pos pos, Option.pure_def]
    rw [ofNodes, ofRels, ofRest]
    rfl

variable {path : GqlPath GqlValue}

theorem readPath_sent (joined : path.Joined) :
    readPath (pathToStruct path) = some ⟨path.nodes.map sentNode,
        chained (path.nodes.map sentNode) (path.rels.map sentRel)⟩ := by
  obtain ⟨nodes, rels⟩ := path
  obtain ⟨length, -, held⟩ := joined
  obtain ⟨first, rest, rfl⟩ : ∃ first rest, nodes = first :: rest :=
    List.exists_cons_of_length_eq_add_one length
  have passed := @follow_indices _ ((first :: rest).map sentNode) (rels.map sentRel)
    (by simpa using length) rels.length 0 (by simp)
    (sentNode first) (by simp)
  rw [← List.range_eq_range'] at passed
  simp only [pathToStruct, readPath, if_true, readNodes_sent, readUnbounds_sent,
    readIndices_pathIndices held, Option.bind_eq_bind, Option.bind_some, List.map_cons,
    List.getElem?_cons_zero]
  rw [List.map_cons] at passed
  rw [passed]
  simp

theorem chained_getElem? :
    ∀ (nodes : List (GqlNode α)) (rels : List (UnboundRelationship α)) (i : Nat),
      (chained nodes rels)[i]? =
        match rels[i]?, nodes[i]?, nodes[i + 1]? with
        | some rel, some current, some next => some (rel.between current next)
        | _, _, _ => none
  | [], rels, i => by simp [chained]
  | [current], [], i => by simp [chained]
  | [current], rel :: rels, i => by cases i <;> simp [chained]
  | current :: next :: nodes, [], i => by simp [chained]
  | current :: next :: nodes, rel :: rels, 0 => by simp [chained]
  | current :: next :: nodes, rel :: rels, i + 1 => by
    simpa [chained] using chained_getElem? (next :: nodes) rels i

theorem length_chained :
    ∀ (nodes : List (GqlNode α)) (rels : List (UnboundRelationship α)),
      nodes.length = rels.length + 1 → (chained nodes rels).length = rels.length
  | [current], [], _ => rfl
  | current :: next :: nodes, rel :: rels, length => by
    have rest := length_chained (next :: nodes) rels (by simpa using length)
    simp [chained, rest]

variable {rel : GqlRelationship GqlValue}

/-- The relationship that is read back at a place runs from the node before it to the node behind
it. -/
theorem sent_between {i : Nat} {current next : GqlNode GqlValue} (relAt : path.rels[i]? = some rel)
    (currentAt : path.nodes[i]? = some current) (nextAt : path.nodes[i + 1]? = some next) :
    (chained (path.nodes.map sentNode) (path.rels.map sentRel))[i]? =
      some ((sentRel rel).between (sentNode current) (sentNode next)) := by
  rw [chained_getElem?]
  simp only [List.getElem?_map, relAt, currentAt, nextAt, Option.map_some]

theorem length_sent (joined : path.Joined) :
    (chained (path.nodes.map sentNode) (path.rels.map sentRel)).length = path.rels.length := by
  rw [length_chained _ _ (by simpa using joined.length), List.length_map]

theorem forall₂_sent (joined : path.Joined)
    {Same : GqlRelationship GqlValue → GqlRelationship Value → Prop} :
    List.Forall₂ Same path.rels (chained (path.nodes.map sentNode) (path.rels.map sentRel)) ↔
      ∀ i rel current next, path.rels[i]? = some rel → path.nodes[i]? = some current →
        path.nodes[i + 1]? = some next →
        Same rel ((sentRel rel).between (sentNode current) (sentNode next)) := by
  constructor
  · intro all i rel current next relAt currentAt nextAt
    obtain ⟨inPath, rfl⟩ := List.getElem?_eq_some_iff.mp relAt
    obtain ⟨inRead, between⟩ := List.getElem?_eq_some_iff.mp (sent_between relAt currentAt nextAt)
    have same := (List.forall₂_iff_get.mp all).2 i inPath inRead
    rwa [List.get_eq_getElem, List.get_eq_getElem, between] at same
  · intro each
    refine List.forall₂_iff_get.mpr ⟨(length_sent joined).symm, fun i inPath inRead => ?_⟩
    have length := joined.length
    have relAt := List.getElem?_eq_getElem inPath
    have currentAt : path.nodes[i]? = some path.nodes[i] := List.getElem?_eq_getElem (by omega)
    have nextAt : path.nodes[i + 1]? = some path.nodes[i + 1] := List.getElem?_eq_getElem (by omega)
    obtain ⟨_, between⟩ := List.getElem?_eq_some_iff.mp (sent_between relAt currentAt nextAt)
    rw [List.get_eq_getElem, List.get_eq_getElem, between]
    exact each i _ _ _ relAt currentAt nextAt

theorem sameNodes_sent : List.Forall₂ SameNode nodes (nodes.map sentNode) :=
  List.forall₂_map_right_iff.mpr (List.forall₂_same.mpr fun node _ => sameNode_sent node)

/-- **A path survives the wire exactly if it runs forward.** No index is negative, so that a
relationship that is passed against its direction comes back with its ends exchanged. -/
theorem path_survives_iff {path : GqlPath GqlValue} (joined : path.Joined) :
    path.Survives ↔ path.Forward := by
  constructor
  · rintro ⟨read, isRead, -, rels⟩
    obtain rfl := Option.some.inj ((readPath_sent joined).symm.trans isRead)
    intro i rel current next relAt currentAt nextAt
    have same := (forall₂_sent joined).mp rels i rel current next relAt currentAt nextAt
    exact ⟨same.startId.symm, same.endId.symm⟩
  · intro forward
    refine ⟨_, readPath_sent joined, sameNodes_sent path.nodes, (forall₂_sent joined).mpr ?_⟩
    intro i rel current next relAt currentAt nextAt
    obtain ⟨start, finish⟩ := forward i rel current next relAt currentAt nextAt
    exact ⟨sameBody_sent rel _ _, start.symm, finish.symm⟩

/-- The path of `(b)<-[r]-(a)`: the relationship runs from its second node to its first. -/
def incomingPath : GqlPath GqlValue :=
  ⟨[⟨2, ["B"], []⟩, ⟨1, ["A"], []⟩], [⟨7, 1, 2, "R", []⟩]⟩

/-- The same relationship passed from its start to its end. -/
def outgoingPath : GqlPath GqlValue :=
  ⟨[⟨1, ["A"], []⟩, ⟨2, ["B"], []⟩], [⟨7, 1, 2, "R", []⟩]⟩

theorem joined_single {current next : GqlNode GqlValue}
    (runs : GqlPath.Runs rel current next ∨ GqlPath.Runs rel next current) :
    (⟨[current, next], [rel]⟩ : GqlPath GqlValue).Joined where
  length := rfl
  joins := by
    intro i _ _ _ relAt currentAt nextAt
    obtain rfl : i = 0 := by
      have := (List.getElem?_eq_some_iff.mp relAt).1
      simpa using this
    obtain rfl := Option.some.inj relAt
    obtain rfl := Option.some.inj currentAt
    obtain rfl := Option.some.inj nextAt
    exact runs
  held := by simp

theorem incomingPath_joined : incomingPath.Joined := joined_single (.inr ⟨rfl, rfl⟩)

theorem outgoing_survives : outgoingPath.Survives :=
  (path_survives_iff (joined_single (.inl ⟨rfl, rfl⟩))).mpr (by
    intro i _ _ _ relAt currentAt nextAt
    obtain rfl : i = 0 := by
      have := (List.getElem?_eq_some_iff.mp relAt).1
      simpa [outgoingPath] using this
    obtain rfl := Option.some.inj relAt
    obtain rfl := Option.some.inj currentAt
    obtain rfl := Option.some.inj nextAt
    exact ⟨rfl, rfl⟩)

/-- The relationship of an incoming step is read back the other way around. -/
theorem incoming_turned :
    incomingPath.Joined ∧ ¬ incomingPath.Survives ∧
      (readPath (pathToStruct incomingPath)).map (fun read => read.rels.map fun rel =>
        (rel.id, rel.startId, rel.endId)) = some [(7, 2, 1)] := by
  refine ⟨incomingPath_joined, ?_, ?_⟩
  · rintro ⟨read, isRead, -, rels⟩
    obtain rfl := Option.some.inj ((readPath_sent incomingPath_joined).symm.trans isRead)
    have same := (forall₂_sent incomingPath_joined).mp rels 0 _ _ _ rfl rfl rfl
    exact absurd same.startId (by decide)
  · rw [readPath_sent incomingPath_joined]
    rfl

end Wire

end ErmyaGraph.Bolt
