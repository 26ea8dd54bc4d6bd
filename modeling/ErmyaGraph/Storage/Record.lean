import ErmyaGraph.Storage.Overflow
import ErmyaGraph.Codec.Property

/-! # Records in slots

Encoding a node or an edge into its slot, with a long label on the string heap
and large properties on overflow pages, and reading it back. -/

namespace ErmyaGraph

open Bytes

def crcStep (crc : UInt32) : UInt32 :=
  if crc &&& 1 = 1 then (crc >>> 1) ^^^ 0xEDB88320 else crc >>> 1

/-- The CRC-32 of a label, which the slots and the pair index use as its hash. -/
def labelHash (label : String) : UInt32 :=
  (ofString label).foldl
    (fun crc byte => (List.range 8).foldl (fun crc _ => crcStep crc) (crc ^^^ byte.toUInt32))
    0xFFFFFFFF ^^^ 0xFFFFFFFF

def labelInlineMax : EntityKind → Nat
  | .node => 47
  | .edge => 55

def propInlineMax : EntityKind → Nat
  | .node => 38
  | .edge => 30

/-- A slot together with what did not fit it. -/
structure EncodedSlot where
  slot : Slot
  labelOverflow : Option String
  propsOverflow : Option (List UInt8)

/-- Encode a record. The overflow references are filled in afterwards. -/
def encodeSlot (kind : EntityKind) (record : Record) : Except Error EncodedSlot := do
  let bytes ← PropertyCodec.encodeProperties record.properties
  if 2 ^ 16 ≤ record.properties.len then
    throw (.recordTooLarge record.properties.len)
  let fitsLabel := decide (record.label.utf8ByteSize ≤ labelInlineMax kind)
  let fitsProps := decide (bytes.length ≤ propInlineMax kind)
  return {
    slot := {
      flag := .live
      id := record.id
      labelHash := labelHash record.label
      label := if fitsLabel then .inline record.label else .overflow 0
      propCount := record.properties.len
      propInline := if fitsProps then bytes else []
      propOverflow := 0
      link := record.link }
    labelOverflow := if fitsLabel then none else some record.label
    propsOverflow := if fitsProps then none else some bytes }

def encodeNodeSlot (node : Node) : Except Error EncodedSlot := encodeSlot .node node.toRecord

def encodeEdgeSlot (edge : Edge) : Except Error EncodedSlot := encodeSlot .edge edge.toRecord

/-- Fill in the overflow references; an inline label has none to fill in. -/
def Slot.patchOverflow (slot : Slot) (labelRef : Nat) (propPage : PageId) : Slot :=
  { slot with
    label := match slot.label with
      | .overflow _ => .overflow labelRef
      | .inline text => .inline text
    propOverflow := propPage }

@[simp]
theorem Slot.patchOverflow_needsPropResolve (slot : Slot) (labelRef : Nat) (propPage : PageId) :
    (slot.patchOverflow labelRef propPage).needsPropResolve = slot.needsPropResolve := rfl

@[simp]
theorem Slot.patchOverflow_propOverflow (slot : Slot) (labelRef : Nat) (propPage : PageId) :
    (slot.patchOverflow labelRef propPage).propOverflow = propPage := rfl

/-- Replace both adjacency heads. -/

def Slot.patchAdjPointer (slot : Slot) (ptr : AdjacencyPointer) : Slot :=
  { slot with link := .heads ptr }

namespace Store

open Outcome

def allocateStringPage : StoreM Unit :=
  modify fun store =>
    let strings := store.pages.strings
    { store with pages := { store.pages with strings := {
        count := strings.count + 1
        byte := fun i => if i / pagePayloadSize = strings.count then 0 else strings.byte i
        used := Function.update strings.used strings.count 0 } } }

def heapBytes (strings : StringFile) (offset len : Nat) : List UInt8 :=
  (List.range len).map fun i => strings.byte (offset + i)

def setHeapBytes (byte : Nat → UInt8) (offset : Nat) (data : List UInt8) : Nat → UInt8 :=
  fun i => if offset ≤ i then data.getD (i - offset) (byte i) else byte i

/-- Write data across heap pages, journalling each page it touches. -/
def writeHeapChunks : (fuel : Nat) → Nat → List UInt8 → StoreM Unit
  | 0, _, _ => return
  | fuel + 1, offset, data => do
      if data.isEmpty then
        return
      let page := offset / pagePayloadSize
      let inPage := offset % pagePayloadSize
      let chunk := data.take (pagePayloadSize - inPage)
      let store ← get
      (List.range (page + 1 - store.pages.strings.count)).forM fun _ => allocateStringPage
      modify fun store =>
        let strings := store.pages.strings
        { store with pages := { store.pages with strings := { strings with
            byte := setHeapBytes strings.byte offset chunk
            used := Function.update strings.used page (inPage + chunk.length) } } }
      let store ← get
      walAppend (.writeStringPage page
        (heapBytes store.pages.strings (page * pagePayloadSize) pagePayloadSize)
        (inPage + chunk.length))
      writeHeapChunks fuel (offset + chunk.length) (data.drop (pagePayloadSize - inPage))

/-- Append a text to the heap, or reuse the copy this session already appended. -/
def heapAppend (text : String) : StoreM Nat := do
  let store ← get
  match store.heapDedup.lookup text with
  | some offset => return offset
  | none =>
    let bytes := ofString text
    if 2 ^ 32 ≤ bytes.length then
      throw (.recordTooLarge bytes.length)
    let stop := store.heapOffset + 4 + bytes.length
    if 2 ^ 32 ≤ stop then
      throw (.recordTooLarge stop)
    writeHeapChunks (4 + bytes.length) store.heapOffset (leBytes 4 bytes.length ++ bytes)
    modify fun after => { after with
      heapOffset := stop
      heapDedup := (text, store.heapOffset) :: after.heapDedup }
    return store.heapOffset

/-- Read a text from the heap. -/
def heapResolve (store : Store) (offset : Nat) : Except Error String := do
  let capacity := store.pages.strings.count * pagePayloadSize
  if capacity < offset + 4 then
    throw (.invalidStringRef offset)
  let len := leNat (heapBytes store.pages.strings offset 4)
  if capacity < offset + 4 + len then
    throw (.invalidStringRef offset)
  match toString? (heapBytes store.pages.strings (offset + 4) len) with
  | some text => return text
  | none => throw (.corruptPage "strings.db" (offset / pagePayloadSize)
      "string heap entry is not valid UTF-8")

def readSlot (store : Store) (key : EntityKey) : Except Error Slot := do
  let page ← store.readSlotPage key.kind (pageAndSlot key.id).1
  return page.slot (pageAndSlot key.id).2

/-- The overflow page an entity's slot names; unknown when the slot cannot be read. -/
def existingPropOverflow (store : Store) (key : EntityKey) : Option PageId :=
  match store.readSlot key with
  | .ok slot => slot.propOverflow?
  | .error _ => none

/-- The label a slot stores, from the slot or from the heap. -/
def slotLabel (store : Store) (slot : Slot) : Except Error String :=
  match slot.label with
  | .inline text => .ok text
  | .overflow offset => store.heapResolve offset

/-- The property bytes a slot stores, from the slot or from overflow pages. -/
def slotPropBytes (store : Store) (key : EntityKey) (slot : Slot) : Except Error (List UInt8) :=
  match slot.propOverflow? with
  | some page => store.readOverflowedProps key page
  | none => .ok slot.propInline

/-- Read an entity's record. Overflow data is resolved before the flag is looked at. -/
def readRecord (store : Store) (key : EntityKey) : Except Error Record := do
  let slot ← store.readSlot key
  let label ← store.slotLabel slot
  let bytes ← store.slotPropBytes key slot
  if slot.flag = .live then
    let properties ← PropertyCodec.decodeProperties bytes slot.propCount (pageAndSlot key.id).1
    return ⟨slot.id, label, properties, slot.link⟩
  else
    throw key.notFound

/-- Write a slot into its page, extending the file if needed. -/
def writeSlotToPage (key : EntityKey) (slot : Slot) (logWal : Bool) : StoreM Unit := do
  let (page, index) := pageAndSlot key.id
  ensureSlotPage key.kind page
  walAppendIf logWal (.writeSlot key.kind page index slot none)
  let store ← get
  let current ← ofResult (store.readSlotPage key.kind page)
  setSlotFile key.kind ((store.pages.slots key.kind).write page (current.write index slot))

def storeLabel : Option String → StoreM Nat
  | some label => heapAppend label
  | none => return 0

def storeProps (key : EntityKey) : Option (List UInt8) → StoreM (Option PageId)
  | some bytes => some <$> storeOverflowedProps key bytes
  | none => return none

/-- Release what a slot's previous content referenced, unless it was overwritten in place. -/
def releasePrevious (key : EntityKey) (previous stored : Option PageId) : StoreM Unit :=
  match previous with
  | some old => if stored = some old then return else releaseOverflowedProps key old
  | none => return

/-- Store what overflowed, release what the slot's previous content referenced, and fill in
the references. -/
def handleSlotOverflow (key : EntityKey) (encoded : EncodedSlot) (previous : Option PageId) :
    StoreM Slot := do
  let labelRef ← storeLabel encoded.labelOverflow
  let stored ← storeProps key encoded.propsOverflow
  releasePrevious key previous stored
  if encoded.labelOverflow.isSome || encoded.propsOverflow.isSome then
    return encoded.slot.patchOverflow labelRef (stored.getD 0)
  else
    return encoded.slot

/-- Write a record in place, as an auto-commit write does. -/
def writeRecordSlot (kind : EntityKind) (record : Record) : StoreM Unit := do
  let encoded ← ofResult (encodeSlot kind record)
  let store ← get
  let slot ← handleSlotOverflow ⟨kind, record.id⟩ encoded
    (store.existingPropOverflow ⟨kind, record.id⟩)
  writeSlotToPage ⟨kind, record.id⟩ slot true

/-- Erase an entity's slot. A missing page holds nothing to erase. -/
def tombstoneSlot (key : EntityKey) (logWal : Bool) : StoreM Unit := do
  walAppendIf logWal (.tombstone key none)
  let (page, index) := pageAndSlot key.id
  let store ← get
  match store.readSlotPage key.kind page with
  | .error _ => return
  | .ok current =>
    setSlotFile key.kind ((store.pages.slots key.kind).write page
      (current.write index { current.slot index with flag := .tombstone }))
    match store.existingPropOverflow key with
    | some old => releaseOverflowedProps key old
    | none => return

/-- Copy the adjacency heads a live node slot already holds onto a slot about to replace it. -/
def preserveOnDiskAdjHead (store : Store) (key : EntityKey) (slot : Slot) : Slot :=
  match key.kind, store.readSlot key with
  | .node, .ok current =>
    if current.flag = .live then slot.patchAdjPointer current.link.pointer else slot
  | _, _ => slot

/-- Move a committed version to its page without journalling the slot. -/
def materializeRecord (kind : EntityKind) (record : Record) : StoreM Unit := do
  let encoded ← ofResult (encodeSlot kind record)
  let slot ← handleSlotOverflow ⟨kind, record.id⟩ encoded none
  let store ← get
  writeSlotToPage ⟨kind, record.id⟩ (store.preserveOnDiskAdjHead ⟨kind, record.id⟩ slot) false

/-- Journal the redo of a committed version. Its overflow data is stored right away. -/
def walLogRedo (kind : EntityKind) (record : Record) (txn : Nat) : StoreM Unit := do
  let encoded ← ofResult (encodeSlot kind record)
  let slot ← handleSlotOverflow ⟨kind, record.id⟩ encoded none
  let (page, index) := pageAndSlot record.id
  walAppend (.writeSlot kind page index slot (some txn))

end Store

end ErmyaGraph
