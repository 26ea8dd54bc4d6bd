import ErmyaGraph.Codec.Projection
import ErmyaGraph.Lib.Checked

/-! # Entity slots

A node or an edge has a slot of 128 bytes. A long label and a large property map
lie elsewhere: the slot then holds a marker in place of the label length, or no
inline properties under a count that is not zero, and a reference. -/

namespace ErmyaGraph.SlotCodec

variable {i : Nat} {written tail : Memory} {overflowed : Option (List UInt8)}
  {labelRef propRef : UInt32}

open Bytes Checked Outcome PropertyCodec

def slotSize : Nat := 128

def slotEmpty : Nat := 0

def slotLive : Nat := 1

def slotTombstone : Nat := 2

def labelOverflowMarker : Nat := 255

/-- Where the fields that both kinds of slots have lie, and how errors name them. -/
structure SlotLayout where
  file : String
  labelHash : Nat
  labelLen : Nat
  labelInline : Nat
  labelInlineMax : Nat
  labelOverflow : Nat
  propCount : Nat
  propInlineLen : Nat
  propInline : Nat
  propInlineMax : Nat
  propOverflow : Nat
  labelTooLong : String
  labelNotText : String
  hash_len : labelHash + 4 = labelLen := by decide
  len_inline : labelLen + 1 = labelInline := by decide
  inline_overflow : labelInline + labelInlineMax = labelOverflow := by decide
  overflow_count : labelOverflow + 4 = propCount := by decide
  count_len : propCount + 2 = propInlineLen := by decide
  len_props : propInlineLen + 2 = propInline := by decide
  props_overflow : propInline + propInlineMax = propOverflow := by decide
  overflow_end : propOverflow + 4 < slotSize := by decide

def nodeLayout : SlotLayout where
  file := "nodes.db"
  labelHash := 9
  labelLen := 13
  labelInline := 14
  labelInlineMax := 47
  labelOverflow := 61
  propCount := 65
  propInlineLen := 67
  propInline := 69
  propInlineMax := 38
  propOverflow := 107
  labelTooLong := "node label length exceeds the inline capacity"
  labelNotText := "node label is not valid UTF-8"

def edgeLayout : SlotLayout where
  file := "edges.db"
  labelHash := 25
  labelLen := 29
  labelInline := 30
  labelInlineMax := 55
  labelOverflow := 85
  propCount := 89
  propInlineLen := 91
  propInline := 93
  propInlineMax := 30
  propOverflow := 123
  labelTooLong := "edge label length exceeds the inline capacity"
  labelNotText := "edge label is not valid UTF-8"

/-- A node with the chain heads of its slot. -/
structure StoredNode where
  id : UInt64
  label : String
  properties : Properties
  adjPageId : UInt32
  adjIncomingPageId : UInt32
  adjFlags : UInt8
deriving DecidableEq

structure StoredEdge where
  id : UInt64
  label : String
  source : UInt64
  target : UInt64
  properties : Properties
deriving DecidableEq

/-- What does not fit the slot and is stored elsewhere. -/
structure SlotOverflow where
  labelOverflowed : Bool
  labelBytes : Option (List UInt8)
  propsOverflowed : Bool
  propsBytes : Option (List UInt8)
deriving DecidableEq

def SlotOverflow.of (labelBytes propsBytes : Option (List UInt8)) : SlotOverflow :=
  ⟨labelBytes.isSome, labelBytes, propsBytes.isSome, propsBytes⟩

section Writing

variable (layout : SlotLayout) (crc : List UInt8 → UInt32)

/-- The hash and the label, or the marker in place of its length. -/
def encodeLabel (label : String) (slot : Memory) : Memory × Option (List UInt8) :=
  let bytes := ofString label
  let slot := writeLe slot layout.labelHash 4 (crc bytes).toNat
  if bytes.length ≤ layout.labelInlineMax then
    (splice (writeLe slot layout.labelLen 1 bytes.length) layout.labelInline bytes, none)
  else (writeLe slot layout.labelLen 1 labelOverflowMarker, some bytes)

/-- The count of properties and their bytes, or an inline length of zero. -/
def encodeProps (props : Properties) (slot : Memory) :
    Except Error (Memory × Option (List UInt8)) := do
  let encoded ← encodeProperties props
  if 2 ^ 16 ≤ props.len then
    throw (.recordTooLarge props.len)
  let slot := writeLe slot layout.propCount 2 props.len
  if encoded.length ≤ layout.propInlineMax then
    return (splice (writeLe slot layout.propInlineLen 2 encoded.length) layout.propInline encoded,
      none)
  else return (writeLe slot layout.propInlineLen 2 0, some encoded)

def patchOverflow (slot : Memory) (labelOverflow propOverflow : UInt32) : Memory :=
  writeLe (writeLe slot layout.labelOverflow 4 labelOverflow.toNat) layout.propOverflow 4
    propOverflow.toNat

def nodeFront (node : StoredNode) : Memory :=
  writeLe (writeLe (fun _ => 0) 0 1 slotLive) 1 8 node.id.toNat

/-- The heads of both chains and the reserved bytes behind them. -/
def nodeBack (node : StoredNode) (slot : Memory) : Memory :=
  let slot := writeLe slot 111 4 node.adjPageId.toNat
  let slot := writeLe slot 115 1 node.adjFlags.toNat
  let slot := writeLe slot 116 4 node.adjIncomingPageId.toNat
  writeLe slot 120 8 0

def encodeNodeSlot (node : StoredNode) : Except Error (Memory × SlotOverflow) := do
  let labelled := encodeLabel nodeLayout crc node.label (nodeFront node)
  let (slot, propsBytes) ← encodeProps nodeLayout node.properties labelled.1
  return (nodeBack node slot, .of labelled.2 propsBytes)

/-- The flags, the id and both ends of an edge. -/
def edgeFront (edge : StoredEdge) : Memory :=
  let slot := writeLe (fun _ => 0) 0 1 slotLive
  let slot := writeLe slot 1 8 edge.id.toNat
  let slot := writeLe slot 9 8 edge.source.toNat
  writeLe slot 17 8 edge.target.toNat

def encodeEdgeSlot (edge : StoredEdge) : Except Error (Memory × SlotOverflow) := do
  let labelled := encodeLabel edgeLayout crc edge.label (edgeFront edge)
  let (slot, propsBytes) ← encodeProps edgeLayout edge.properties labelled.1
  return (writeLe slot 127 1 0, .of labelled.2 propsBytes)

end Writing

section Reading

variable (layout : SlotLayout) (slot : Memory) (page : PageId)
  (resolveLabel : UInt32 → Except Error String)
  (resolveProps : UInt32 → Except Error (List UInt8))

def field (start width : Nat) : Attempt Error Nat := readWithin slotSize slot start width

def decodeLabel : Attempt Error String := do
  let len ← field slot layout.labelLen 1
  if len = labelOverflowMarker then
    let offset ← field slot layout.labelOverflow 4
    attempt (resolveLabel (.ofNat offset))
  else if layout.labelInlineMax < len then
    .error (.error (.corruptPage layout.file page layout.labelTooLong))
  else
    let bytes ← sliceWithin slotSize slot layout.labelInline len
    match toString? bytes with
    | some label => return label
    | none => .error (.error (.corruptPage layout.file page layout.labelNotText))

/-- How many properties there are, and how many bytes of them are inline. -/
def decodeCounts : Attempt Error (Nat × Nat) := do
  let propCount ← field slot layout.propCount 2
  let inlineLen ← field slot layout.propInlineLen 2
  if layout.propInlineMax < inlineLen then
    .error (.error (.corruptPage layout.file page
      "inline property length exceeds the inline capacity"))
  else return (propCount, inlineLen)

/-- The encoded properties, from the slot or from the pages they overflowed to. -/
def propertyBytes (propCount inlineLen : Nat) : Attempt Error (List UInt8) :=
  if 0 < propCount ∧ inlineLen = 0 then do
    let offset ← field slot layout.propOverflow 4
    attempt (resolveProps (.ofNat offset))
  else sliceWithin slotSize slot layout.propInline inlineLen

/-- All properties, or the requested ones. A request for none reads nothing. -/
def decodeProps (propCount inlineLen : Nat) : Option (List String) → Attempt Error Properties
  | some [] => return .empty
  | some keys => do
      let raw ← propertyBytes layout slot resolveProps propCount inlineLen
      let (props, _) ← attempt (decodePropertiesProjected raw propCount keys page)
      return props
  | none => do
      let raw ← propertyBytes layout slot resolveProps propCount inlineLen
      let (props, _) ← attempt (decodePropertiesCounted raw propCount page)
      return props

def decodeNodeSlotInner (keys : Option (List String)) : Attempt Error (Option StoredNode) := do
  let flags ← field slot 0 1
  if flags = slotEmpty ∨ flags = slotTombstone then
    return none
  let id ← field slot 1 8
  let label ← decodeLabel nodeLayout slot page resolveLabel
  let (propCount, inlineLen) ← decodeCounts nodeLayout slot page
  let properties ← decodeProps nodeLayout slot page resolveProps propCount inlineLen keys
  let adjPageId ← field slot 111 4
  let adjIncomingPageId ← field slot 116 4
  let adjFlags ← field slot 115 1
  return some {
    id := .ofNat id
    label
    properties
    adjPageId := .ofNat adjPageId
    adjIncomingPageId := .ofNat adjIncomingPageId
    adjFlags := .ofNat adjFlags }

def decodeNodeSlot : Attempt Error (Option StoredNode) :=
  decodeNodeSlotInner slot page resolveLabel resolveProps none

def decodeNodeSlotProjected (keys : List String) : Attempt Error (Option StoredNode) :=
  decodeNodeSlotInner slot page resolveLabel resolveProps (some keys)

def decodeEdgeSlot : Attempt Error (Option StoredEdge) := do
  let flags ← field slot 0 1
  if flags = slotEmpty ∨ flags = slotTombstone then
    return none
  let id ← field slot 1 8
  let source ← field slot 9 8
  let target ← field slot 17 8
  let label ← decodeLabel edgeLayout slot page resolveLabel
  let (propCount, inlineLen) ← decodeCounts edgeLayout slot page
  let properties ← decodeProps edgeLayout slot page resolveProps propCount inlineLen none
  return some {
    id := .ofNat id
    label
    source := .ofNat source
    target := .ofNat target
    properties }

end Reading

theorem SlotLayout.inside (layout : SlotLayout) :
    layout.labelHash + 4 = layout.labelLen ∧ layout.labelLen + 1 = layout.labelInline ∧
      layout.labelInline + layout.labelInlineMax = layout.labelOverflow ∧
      layout.labelOverflow + 4 = layout.propCount ∧
      layout.propCount + 2 = layout.propInlineLen ∧
      layout.propInlineLen + 2 = layout.propInline ∧
      layout.propInline + layout.propInlineMax = layout.propOverflow ∧
      layout.propOverflow + 4 < 128 :=
  ⟨layout.hash_len, layout.len_inline, layout.inline_overflow, layout.overflow_count,
    layout.count_len, layout.len_props, layout.props_overflow, layout.overflow_end⟩

section Calm

variable {layout : SlotLayout} {slot : Memory} {page : PageId}
  {resolveLabel : UInt32 → Except Error String}
  {resolveProps : UInt32 → Except Error (List UInt8)} {propCount inlineLen : Nat}

theorem calm_field {start width : Nat} (inside : start + width ≤ 128) :
    Calm (field slot start width) := calm_demand.mpr inside

theorem calm_decodeLabel : Calm (decodeLabel layout slot page resolveLabel) := by
  obtain ⟨_, _, _, _, _, _, _, _⟩ := layout.inside
  refine (calm_field (by omega)).bind fun len _ => ?_
  refine calm_ite (fun _ => ?_) fun _ => calm_ite (fun _ => calm_error _) fun short => ?_
  · exact (calm_field (by omega)).bind fun offset _ => calm_attempt _
  · -- The length was compared with the inline capacity before it is used.
    refine (calm_demand.mpr (by rw [slotSize]; omega)).bind fun bytes _ => ?_
    split
    · exact calm_ok _
    · exact calm_error _

theorem calm_decodeCounts : Calm (decodeCounts layout slot page) := by
  obtain ⟨_, _, _, _, _, _, _, _⟩ := layout.inside
  refine (calm_field (by omega)).bind fun propCount _ => ?_
  refine (calm_field (by omega)).bind fun inlineLen _ => ?_
  exact calm_ite (fun _ => calm_error _) fun _ => calm_ok _

theorem decodeCounts_le (counts : decodeCounts layout slot page = .ok (propCount, inlineLen)) :
    inlineLen ≤ layout.propInlineMax := by
  obtain ⟨count, _, counts⟩ := ok_of_bind counts
  obtain ⟨len, _, counts⟩ := ok_of_bind counts
  split at counts
  · cases counts
  · next fits =>
      cases counts
      exact Nat.le_of_not_lt fits

theorem calm_propertyBytes (fits : inlineLen ≤ layout.propInlineMax) :
    Calm (propertyBytes layout slot resolveProps propCount inlineLen) := by
  obtain ⟨_, _, _, _, _, _, _, _⟩ := layout.inside
  refine calm_ite (fun _ => ?_) fun _ => calm_demand.mpr (by rw [slotSize]; omega)
  exact (calm_field (by omega)).bind fun offset _ => calm_attempt _

theorem calm_decodeProps (fits : inlineLen ≤ layout.propInlineMax) (keys : Option (List String)) :
    Calm (decodeProps layout slot page resolveProps propCount inlineLen keys) := by
  unfold decodeProps
  split
  · exact calm_ok _
  · exact (calm_propertyBytes fits).bind fun raw _ =>
      (calm_attempt _).bind fun decoded _ => calm_ok _
  · exact (calm_propertyBytes fits).bind fun raw _ =>
      (calm_attempt _).bind fun decoded _ => calm_ok _

theorem calm_decodeNodeSlotInner (keys : Option (List String)) :
    Calm (decodeNodeSlotInner slot page resolveLabel resolveProps keys) := by
  refine (calm_field (by omega)).bind fun flags _ => ?_
  refine calm_ite (fun _ => calm_ok _) fun _ => ?_
  refine (calm_field (by omega)).bind fun id _ => ?_
  refine calm_decodeLabel.bind fun label _ => ?_
  refine calm_decodeCounts.bind fun counts counted => ?_
  refine (calm_decodeProps (decodeCounts_le counted) keys).bind fun properties _ => ?_
  refine (calm_field (by omega)).bind fun adjPageId _ => ?_
  refine (calm_field (by omega)).bind fun adjIncomingPageId _ => ?_
  exact (calm_field (by omega)).bind fun adjFlags _ => calm_ok _

theorem calm_decodeEdgeSlot : Calm (decodeEdgeSlot slot page resolveLabel resolveProps) := by
  refine (calm_field (by omega)).bind fun flags _ => ?_
  refine calm_ite (fun _ => calm_ok _) fun _ => ?_
  refine (calm_field (by omega)).bind fun id _ => ?_
  refine (calm_field (by omega)).bind fun source _ => ?_
  refine (calm_field (by omega)).bind fun target _ => ?_
  refine calm_decodeLabel.bind fun label _ => ?_
  refine calm_decodeCounts.bind fun counts counted => ?_
  exact (calm_decodeProps (decodeCounts_le counted) none).bind fun properties _ => calm_ok _

end Calm

section Projected

variable {layout : SlotLayout} {slot : Memory} {page : PageId}
  {resolveLabel : UInt32 → Except Error String}
  {resolveProps : UInt32 → Except Error (List UInt8)} {propCount inlineLen : Nat}

def StoredNode.restrict (keys : List String) (node : StoredNode) : StoredNode :=
  { node with properties := node.properties.restrict keys }

variable (keys : List String)

theorem decodeProps_projected {props : Properties}
    (decoded : decodeProps layout slot page resolveProps propCount inlineLen none = .ok props) :
    decodeProps layout slot page resolveProps propCount inlineLen (some keys) =
      .ok (props.restrict keys) := by
  obtain ⟨raw, read, decoded⟩ := ok_of_bind decoded
  obtain ⟨⟨props', taken⟩, whole, decoded⟩ := ok_of_bind decoded
  cases decoded
  cases keys with
  | nil =>
    rw [Properties.restrict_nil]
    rfl
  | cons key rest =>
    have projected := decodePropertiesProjected_eq (attempt_eq_ok.mp whole) (key :: rest)
    simp only [decodeProps, read, projected, attempt_ok, bind, Except.bind]
    rfl

theorem decodeNodeSlot_projected {read : Option StoredNode}
    (decoded : decodeNodeSlot slot page resolveLabel resolveProps = .ok read) :
    decodeNodeSlotProjected slot page resolveLabel resolveProps keys =
      .ok (read.map (StoredNode.restrict keys)) := by
  unfold decodeNodeSlot decodeNodeSlotInner at decoded
  unfold decodeNodeSlotProjected decodeNodeSlotInner
  obtain ⟨flags, first, decoded⟩ := ok_of_bind decoded
  rw [first]
  simp only [bind, Except.bind]
  split at decoded
  · next vacant =>
      cases decoded
      rw [if_pos vacant]
      rfl
  · next live =>
      obtain ⟨id, second, decoded⟩ := ok_of_bind decoded
      obtain ⟨label, third, decoded⟩ := ok_of_bind decoded
      obtain ⟨⟨count, len⟩, fourth, decoded⟩ := ok_of_bind decoded
      obtain ⟨properties, fifth, decoded⟩ := ok_of_bind decoded
      obtain ⟨adjPageId, sixth, decoded⟩ := ok_of_bind decoded
      obtain ⟨adjIncomingPageId, seventh, decoded⟩ := ok_of_bind decoded
      obtain ⟨adjFlags, eighth, decoded⟩ := ok_of_bind decoded
      cases decoded
      rw [if_neg live]
      simp only [second, third, fourth, decodeProps_projected keys fifth, sixth, seventh, eighth]
      rfl

end Projected

section RoundTrip

variable {layout : SlotLayout} {slot : Memory} {page : PageId} {crc : List UInt8 → UInt32}
  {label : String} {props : Properties} {bytes : List UInt8} {ref : UInt32}
  {resolveLabel : UInt32 → Except Error String}
  {resolveProps : UInt32 → Except Error (List UInt8)}
variable {start width : Nat}

theorem field_eq (inside : start + width ≤ 128) :
    field slot start width = .ok (readLe slot start width) := demand_of inside

/-- A slot holds a label, inline or as a marker and a reference. -/
structure LabelStored (layout : SlotLayout) (slot : Memory) (label : String) (ref : UInt32) :
    Prop where
  len : readLe slot layout.labelLen 1 =
    if (ofString label).length ≤ layout.labelInlineMax then (ofString label).length
    else labelOverflowMarker
  inline : (ofString label).length ≤ layout.labelInlineMax →
    slice slot layout.labelInline (ofString label).length = ofString label
  ref : readLe slot layout.labelOverflow 4 = ref.toNat

/-- A slot holds properties, inline or as a count without inline bytes and a reference. -/
structure PropsStored (layout : SlotLayout) (slot : Memory) (props : Properties)
    (bytes : List UInt8) (ref : UInt32) : Prop where
  encoded : encodeProperties props = .ok bytes
  count : readLe slot layout.propCount 2 = props.len
  len : readLe slot layout.propInlineLen 2 =
    if bytes.length ≤ layout.propInlineMax then bytes.length else 0
  inline : bytes.length ≤ layout.propInlineMax → slice slot layout.propInline bytes.length = bytes
  ref : readLe slot layout.propOverflow 4 = ref.toNat

theorem LabelStored.decodeLabel_eq (stored : LabelStored layout slot label ref)
    (resolved : layout.labelInlineMax < (ofString label).length → resolveLabel ref = .ok label) :
    decodeLabel layout slot page resolveLabel = .ok label := by
  obtain ⟨_, _, _, _, _, _, _, _⟩ := layout.inside
  rw [decodeLabel, field_eq (by omega), stored.len]
  simp only [bind, Except.bind]
  by_cases fits : (ofString label).length ≤ layout.labelInlineMax
  · -- The capacity is below the marker, so an inline length is never taken for it.
    have unmarked : (ofString label).length ≠ labelOverflowMarker := by
      rw [labelOverflowMarker]
      omega
    have within : (sliceWithin slotSize slot layout.labelInline (ofString label).length :
        Attempt Error _) = .ok (ofString label) :=
      (demand_of (by rw [slotSize]; omega)).trans (congrArg _ (stored.inline fits))
    rw [if_pos fits, if_neg unmarked, if_neg (Nat.not_lt.mpr fits), within]
    simp only [toString?_ofString]
    rfl
  · rw [if_neg fits, if_pos rfl, field_eq (by omega), stored.ref]
    simp only [UInt32.ofNat_toNat, resolved (Nat.lt_of_not_le fits), attempt_ok]

/-- Whether properties overflowed is told from the count and the inline length. -/
theorem PropsStored.decodeProps_eq (stored : PropsStored layout slot props bytes ref)
    (resolved : layout.propInlineMax < bytes.length → resolveProps ref = .ok bytes) :
    ∃ inlineLen, decodeCounts layout slot page = .ok (props.len, inlineLen) ∧
      decodeProps layout slot page resolveProps props.len inlineLen none = .ok props := by
  obtain ⟨_, _, _, _, _, _, _, _⟩ := layout.inside
  have counts : decodeCounts layout slot page =
      .ok (props.len, if bytes.length ≤ layout.propInlineMax then bytes.length else 0) := by
    have short : ¬layout.propInlineMax <
        (if bytes.length ≤ layout.propInlineMax then bytes.length else 0) := by
      split <;> omega
    rw [decodeCounts, field_eq (by omega), field_eq (by omega), stored.count, stored.len]
    simp only [bind, Except.bind]
    rw [if_neg short]
    rfl
  have raw : propertyBytes layout slot resolveProps props.len
      (if bytes.length ≤ layout.propInlineMax then bytes.length else 0) = .ok bytes := by
    have empty := encodeProperties_eq_nil_iff stored.encoded
    by_cases fits : bytes.length ≤ layout.propInlineMax
    · -- Inline bytes are missing only where there is nothing to store.
      have inline : ¬(0 < props.len ∧ bytes.length = 0) := by
        intro ⟨some_, none_⟩
        have gone := empty.mp (List.length_eq_zero_iff.mp none_)
        omega
      have within : (sliceWithin slotSize slot layout.propInline bytes.length :
          Attempt Error _) = .ok bytes :=
        (demand_of (by rw [slotSize]; omega)).trans (congrArg _ (stored.inline fits))
      rw [if_pos fits, propertyBytes, if_neg inline, within]
    · have some_ : 0 < props.len := by
        apply Nat.pos_of_ne_zero
        intro none_
        rw [empty.mpr none_] at fits
        exact fits (Nat.zero_le _)
      rw [if_neg fits, propertyBytes, if_pos ⟨some_, rfl⟩, field_eq (by omega), stored.ref]
      simp only [bind, Except.bind, UInt32.ofNat_toNat, resolved (Nat.lt_of_not_le fits),
        attempt_ok]
  refine ⟨_, counts, ?_⟩
  have read := decodePropertiesCounted_encodeProperties stored.encoded [] page
  rw [List.append_nil] at read
  simp only [decodeProps, raw, read, attempt_ok, bind, Except.bind]
  rfl

theorem encodeLabel_outside (outside : i < layout.labelHash ∨ layout.labelOverflow ≤ i) :
    (encodeLabel layout crc label slot).1 i = slot i := by
  obtain ⟨_, _, _, _, _, _, _, _⟩ := layout.inside
  simp only [encodeLabel]
  split
  · dsimp only
    rw [splice_outside (by omega), writeLe_outside (by omega), writeLe_outside (by omega)]
  · dsimp only
    rw [writeLe_outside (by omega), writeLe_outside (by omega)]

theorem encodeLabel_overflow :
    (encodeLabel layout crc label slot).2 =
      if (ofString label).length ≤ layout.labelInlineMax then none else some (ofString label) := by
  simp only [encodeLabel]
  split <;> rfl

theorem labelStored_of_encodeLabel {final : Memory}
    (kept : ∀ i, layout.labelLen ≤ i → i < layout.labelOverflow →
      final i = (encodeLabel layout crc label slot).1 i)
    (patched : readLe final layout.labelOverflow 4 = ref.toNat) :
    LabelStored layout final label ref := by
  obtain ⟨_, _, _, _, _, _, _, _⟩ := layout.inside
  have len : readLe final layout.labelLen 1 =
      readLe (encodeLabel layout crc label slot).1 layout.labelLen 1 :=
    readLe_congr fun i above below => kept i above (by omega)
  refine ⟨?_, fun fits => ?_, patched⟩
  · rw [len]
    simp only [encodeLabel]
    split
    · next fits =>
        dsimp only
        rw [readLe_splice_of_disjoint (by omega), readLe_writeLe _ _ (by omega)]
    · exact readLe_writeLe _ _ (by decide)
  · have same : slice final layout.labelInline (ofString label).length =
        slice (encodeLabel layout crc label slot).1 layout.labelInline (ofString label).length :=
      slice_congr fun i above below => kept i (by omega) (by omega)
    rw [same]
    simp only [encodeLabel, if_pos fits]
    exact slice_splice _ _ _

section

variable (ok : encodeProps layout props slot = .ok (written, overflowed))
include ok

theorem encodeProps_eq_ok : ∃ bytes, encodeProperties props = .ok bytes ∧ props.len < 2 ^ 16 ∧
      if bytes.length ≤ layout.propInlineMax then
        written = splice (writeLe (writeLe slot layout.propCount 2 props.len) layout.propInlineLen
          2 bytes.length) layout.propInline bytes ∧ overflowed = none else
        written = writeLe (writeLe slot layout.propCount 2 props.len) layout.propInlineLen 2 0 ∧
          overflowed = some bytes := by
  obtain ⟨bytes, encoded, ok⟩ := ok_of_bind ok
  obtain ⟨few, ok⟩ := ok_of_guard ok
  refine ⟨bytes, encoded, Nat.lt_of_not_le few, ?_⟩
  split at ok
  · next fits =>
      cases ok
      rw [if_pos fits]
      exact ⟨rfl, rfl⟩
  · next long =>
      cases ok
      rw [if_neg long]
      exact ⟨rfl, rfl⟩

theorem encodeProps_outside
    (outside : i < layout.propCount ∨ layout.propOverflow ≤ i) : written i = slot i := by
  obtain ⟨_, _, _, _, _, _, _, _⟩ := layout.inside
  obtain ⟨bytes, _, _, ends⟩ := encodeProps_eq_ok ok
  split at ends
  · rw [ends.1, splice_outside (by omega), writeLe_outside (by omega), writeLe_outside (by omega)]
  · rw [ends.1, writeLe_outside (by omega), writeLe_outside (by omega)]

theorem propsStored_of_encodeProps {final : Memory} 
    (kept : ∀ i, layout.propCount ≤ i → i < layout.propOverflow → final i = written i)
    (patched : readLe final layout.propOverflow 4 = ref.toNat) :
    ∃ bytes, PropsStored layout final props bytes ref ∧
      (layout.propInlineMax < bytes.length → overflowed = some bytes) := by
  obtain ⟨_, _, _, _, _, _, _, _⟩ := layout.inside
  obtain ⟨bytes, encoded, few, ends⟩ := encodeProps_eq_ok ok
  have count : readLe final layout.propCount 2 = readLe written layout.propCount 2 :=
    readLe_congr fun i above below => kept i above (by omega)
  have len : readLe final layout.propInlineLen 2 = readLe written layout.propInlineLen 2 :=
    readLe_congr fun i above below => kept i (by omega) (by omega)
  by_cases fits : bytes.length ≤ layout.propInlineMax
  · rw [if_pos fits] at ends
    obtain ⟨rfl, rfl⟩ := ends
    refine ⟨bytes, ⟨encoded, ?_, ?_, fun _ => ?_, patched⟩, fun long => by omega⟩
    · rw [count, readLe_splice_of_disjoint (by omega), readLe_writeLe_of_disjoint (by omega),
        readLe_writeLe _ _ few]
    · rw [len, if_pos fits, readLe_splice_of_disjoint (by omega), readLe_writeLe _ _ (by omega)]
    · have same : slice final layout.propInline bytes.length =
          slice _ layout.propInline bytes.length :=
        slice_congr fun i above below => kept i (by omega) (by omega)
      exact same.trans (slice_splice _ _ _)
  · rw [if_neg fits] at ends
    obtain ⟨rfl, rfl⟩ := ends
    refine ⟨bytes, ⟨encoded, ?_, ?_, fun short => absurd short fits, patched⟩, fun _ => rfl⟩
    · rw [count, readLe_writeLe_of_disjoint (by omega), readLe_writeLe _ _ few]
    · rw [len, if_neg fits, readLe_writeLe _ _ (by decide)]

end

theorem patchOverflow_outside (label : i < layout.labelOverflow ∨ layout.propCount ≤ i)
    (props : i < layout.propOverflow ∨ layout.propOverflow + 4 ≤ i) :
    patchOverflow layout slot labelRef propRef i = slot i := by
  obtain ⟨_, _, _, _, _, _, _, _⟩ := layout.inside
  rw [patchOverflow, writeLe_outside (by omega), writeLe_outside (by omega)]

/-- The resolvers return what was stored under the references. -/
structure Resolves (overflow : SlotOverflow) (labelRef propRef : UInt32)
    (resolveLabel : UInt32 → Except Error String)
    (resolveProps : UInt32 → Except Error (List UInt8)) : Prop where
  label : ∀ bytes, overflow.labelBytes = some bytes →
    ∃ text, resolveLabel labelRef = .ok text ∧ ofString text = bytes
  props : ∀ bytes, overflow.propsBytes = some bytes → resolveProps propRef = .ok bytes

section

variable (ok : encodeProps layout props (encodeLabel layout crc label slot).1 =
  .ok (written, overflowed))
include ok

/-- Label and properties are read back from a slot whatever else was written in front of them
and behind them. -/
theorem body_read (kept : ∀ i, i < layout.propOverflow → tail i = written i)
    (resolves : Resolves (.of (encodeLabel layout crc label slot).2 overflowed) labelRef propRef
      resolveLabel resolveProps) (page : PageId) :
    decodeLabel layout (patchOverflow layout tail labelRef propRef) page resolveLabel = .ok label ∧
      ∃ inlineLen, decodeCounts layout (patchOverflow layout tail labelRef propRef) page =
          .ok (props.len, inlineLen) ∧
        decodeProps layout (patchOverflow layout tail labelRef propRef) page resolveProps props.len
          inlineLen none = .ok props := by
  obtain ⟨_, _, _, _, _, _, _, _⟩ := layout.inside
  have labelPatched : readLe (patchOverflow layout tail labelRef propRef) layout.labelOverflow 4 =
      labelRef.toNat := by
    rw [patchOverflow, readLe_writeLe_of_disjoint (by omega), readLe_writeLe _ _ labelRef.toNat_lt]
  have propsPatched : readLe (patchOverflow layout tail labelRef propRef) layout.propOverflow 4 =
      propRef.toNat := readLe_writeLe _ _ propRef.toNat_lt
  have labelStored :
      LabelStored layout (patchOverflow layout tail labelRef propRef) label labelRef := by
    refine @labelStored_of_encodeLabel _ slot crc _ _ _ (fun i above below => ?_) labelPatched
    rw [patchOverflow_outside (.inl below) (.inl (by omega)), kept i (by omega),
      encodeProps_outside ok (.inl (by omega))]
  obtain ⟨bytes, propsStored, overflowedIs⟩ := propsStored_of_encodeProps ok
    (fun i above below => by
      rw [patchOverflow_outside (.inr above) (.inl below), kept i below]) propsPatched
  constructor
  · refine labelStored.decodeLabel_eq fun long => ?_
    have stored : (encodeLabel layout crc label slot).2 = some (ofString label) := by
      rw [encodeLabel_overflow, if_neg (Nat.not_le.mpr long)]
    obtain ⟨text, resolved, same⟩ := resolves.label _ stored
    rw [resolved, ofString_injective same]
  · exact propsStored.decodeProps_eq fun long => resolves.props bytes (overflowedIs long)

theorem front_read (kept : ∀ i, i < layout.propOverflow → tail i = written i)
    (inFront : start + width ≤ layout.labelHash) :
    field (patchOverflow layout tail labelRef propRef) start width =
      .ok (readLe slot start width) := by
  obtain ⟨_, _, _, _, _, _, _, _⟩ := layout.inside
  rw [field_eq (by omega)]
  congr 1
  refine readLe_congr fun i above below => ?_
  rw [patchOverflow_outside (.inl (by omega)) (.inl (by omega)), kept i (by omega),
    encodeProps_outside ok (.inl (by omega)), encodeLabel_outside (.inl (by omega))]

end

theorem back_read (behind : layout.propOverflow + 4 ≤ start) (inside : start + width ≤ 128) :
    field (patchOverflow layout tail labelRef propRef) start width =
      .ok (readLe tail start width) := by
  obtain ⟨_, _, _, _, _, _, _, _⟩ := layout.inside
  rw [field_eq inside]
  congr 1
  refine readLe_congr fun i above below => ?_
  rw [patchOverflow_outside (.inr (by omega)) (.inr (by omega))]

theorem live_not_vacant : ¬(slotLive = slotEmpty ∨ slotLive = slotTombstone) := by decide

variable {overflow : SlotOverflow}

theorem decodeNodeSlot_encodeNodeSlot {node : StoredNode}
    (ok : encodeNodeSlot crc node = .ok (written, overflow))
    (resolves : Resolves overflow labelRef propRef resolveLabel resolveProps) (page : PageId) :
    decodeNodeSlot (patchOverflow nodeLayout written labelRef propRef) page resolveLabel
      resolveProps = .ok (some node) := by
  obtain ⟨⟨body, overflowed⟩, props, ok⟩ := ok_of_bind ok
  cases ok
  have kept : ∀ i, i < nodeLayout.propOverflow → nodeBack node body i = body i := by
    intro i below
    have before : i < 107 := below
    rw [nodeBack, writeLe_outside (by omega), writeLe_outside (by omega),
      writeLe_outside (by omega), writeLe_outside (by omega)]
  obtain ⟨label, inlineLen, counts, properties⟩ := body_read props kept resolves page
  have flags : readLe (nodeFront node) 0 1 = slotLive := by
    rw [nodeFront, readLe_writeLe_of_disjoint (by omega), readLe_writeLe _ _ (by decide)]
  have id : readLe (nodeFront node) 1 8 = node.id.toNat := readLe_writeLe _ _ node.id.toNat_lt
  have adjPageId : readLe (nodeBack node body) 111 4 = node.adjPageId.toNat := by
    rw [nodeBack, readLe_writeLe_of_disjoint (by omega), readLe_writeLe_of_disjoint (by omega),
      readLe_writeLe_of_disjoint (by omega), readLe_writeLe _ _ node.adjPageId.toNat_lt]
  have adjFlags : readLe (nodeBack node body) 115 1 = node.adjFlags.toNat := by
    rw [nodeBack, readLe_writeLe_of_disjoint (by omega), readLe_writeLe_of_disjoint (by omega),
      readLe_writeLe _ _ node.adjFlags.toNat_lt]
  have adjIncomingPageId : readLe (nodeBack node body) 116 4 = node.adjIncomingPageId.toNat := by
    rw [nodeBack, readLe_writeLe_of_disjoint (by omega),
      readLe_writeLe _ _ node.adjIncomingPageId.toNat_lt]
  rw [decodeNodeSlot, decodeNodeSlotInner, front_read props kept (by decide), flags]
  simp only [bind, Except.bind]
  rw [if_neg live_not_vacant, front_read props kept (by decide), id]
  simp only [label, counts, properties]
  rw [back_read (by decide) (by decide), back_read (by decide) (by decide),
    back_read (by decide) (by decide), adjPageId, adjFlags, adjIncomingPageId]
  simp only [UInt64.ofNat_toNat, UInt32.ofNat_toNat, UInt8.ofNat_toNat]
  rfl

theorem decodeEdgeSlot_encodeEdgeSlot {edge : StoredEdge}
    (ok : encodeEdgeSlot crc edge = .ok (written, overflow))
    (resolves : Resolves overflow labelRef propRef resolveLabel resolveProps) (page : PageId) :
    decodeEdgeSlot (patchOverflow edgeLayout written labelRef propRef) page resolveLabel
      resolveProps = .ok (some edge) := by
  obtain ⟨⟨body, overflowed⟩, props, ok⟩ := ok_of_bind ok
  cases ok
  have kept : ∀ i, i < edgeLayout.propOverflow → writeLe body 127 1 0 i = body i := by
    intro i below
    have before : i < 123 := below
    rw [writeLe_outside (by omega)]
  obtain ⟨label, inlineLen, counts, properties⟩ := body_read props kept resolves page
  have flags : readLe (edgeFront edge) 0 1 = slotLive := by
    rw [edgeFront, readLe_writeLe_of_disjoint (by omega), readLe_writeLe_of_disjoint (by omega),
      readLe_writeLe_of_disjoint (by omega), readLe_writeLe _ _ (by decide)]
  have id : readLe (edgeFront edge) 1 8 = edge.id.toNat := by
    rw [edgeFront, readLe_writeLe_of_disjoint (by omega), readLe_writeLe_of_disjoint (by omega),
      readLe_writeLe _ _ edge.id.toNat_lt]
  have source : readLe (edgeFront edge) 9 8 = edge.source.toNat := by
    rw [edgeFront, readLe_writeLe_of_disjoint (by omega), readLe_writeLe _ _ edge.source.toNat_lt]
  have target : readLe (edgeFront edge) 17 8 = edge.target.toNat :=
    readLe_writeLe _ _ edge.target.toNat_lt
  rw [decodeEdgeSlot, front_read props kept (by decide), flags]
  simp only [bind, Except.bind]
  rw [if_neg live_not_vacant, front_read props kept (by decide), front_read props kept (by decide),
    front_read props kept (by decide), id, source, target]
  simp only [label, counts, properties, UInt64.ofNat_toNat]
  rfl

end RoundTrip

/-- The slots of nodes and edges are read back through their overflow references. Where a node
slot decodes, its projection is the restriction. No 128 bytes make a decoder panic. -/
theorem entity_slots (crc : List UInt8 → UInt32) :
    (∀ (node : StoredNode) (slot : Memory) (overflow : SlotOverflow) (labelRef propRef : UInt32)
      (page : PageId) (resolveLabel : UInt32 → Except Error String)
      (resolveProps : UInt32 → Except Error (List UInt8)),
      encodeNodeSlot crc node = .ok (slot, overflow) →
      Resolves overflow labelRef propRef resolveLabel resolveProps →
        decodeNodeSlot (patchOverflow nodeLayout slot labelRef propRef) page resolveLabel
            resolveProps = .ok (some node) ∧
          ∀ keys, decodeNodeSlotProjected (patchOverflow nodeLayout slot labelRef propRef) page
            resolveLabel resolveProps keys = .ok (some (node.restrict keys))) ∧
    (∀ (edge : StoredEdge) (slot : Memory) (overflow : SlotOverflow) (labelRef propRef : UInt32)
      (page : PageId) (resolveLabel : UInt32 → Except Error String)
      (resolveProps : UInt32 → Except Error (List UInt8)),
      encodeEdgeSlot crc edge = .ok (slot, overflow) →
      Resolves overflow labelRef propRef resolveLabel resolveProps →
        decodeEdgeSlot (patchOverflow edgeLayout slot labelRef propRef) page resolveLabel
          resolveProps = .ok (some edge)) ∧
    ∀ (slot : Memory) (page : PageId) (resolveLabel : UInt32 → Except Error String)
      (resolveProps : UInt32 → Except Error (List UInt8)),
      Calm (decodeNodeSlot slot page resolveLabel resolveProps) ∧
        (∀ keys, Calm (decodeNodeSlotProjected slot page resolveLabel resolveProps keys)) ∧
        Calm (decodeEdgeSlot slot page resolveLabel resolveProps) ∧
        ∀ keys read, decodeNodeSlot slot page resolveLabel resolveProps = .ok read →
          decodeNodeSlotProjected slot page resolveLabel resolveProps keys =
            .ok (read.map (StoredNode.restrict keys)) := by
  refine ⟨?_, ?_, ?_⟩
  · intro node slot overflow labelRef propRef page resolveLabel resolveProps ok resolves
    have read := decodeNodeSlot_encodeNodeSlot ok resolves page
    exact ⟨read, fun keys => decodeNodeSlot_projected keys read⟩
  · intro edge slot overflow labelRef propRef page resolveLabel resolveProps ok resolves
    exact decodeEdgeSlot_encodeEdgeSlot ok resolves page
  · intro slot page resolveLabel resolveProps
    exact ⟨calm_decodeNodeSlotInner none, fun keys => calm_decodeNodeSlotInner (some keys),
      calm_decodeEdgeSlot, fun keys read decoded => decodeNodeSlot_projected keys decoded⟩

/-- A label one byte past the inline room of a node slot. -/
def sampleNode : StoredNode :=
  ⟨7, "LabelOfFortyEightBytesLabelOfFortyEightBytesLabe", sample, 3, 4294967295, 1⟩

def sampleEdge : StoredEdge := ⟨9, "KNOWS", 7, 8, sample⟩

theorem sample_slots_read :
    (∃ slot overflow, encodeNodeSlot (fun _ => 0) sampleNode = .ok (slot, overflow) ∧
      decodeNodeSlotProjected (patchOverflow nodeLayout slot 5 6) 0
        (fun _ => .ok sampleNode.label) (fun _ => .ok []) ["tall"] =
          .ok (some (sampleNode.restrict ["tall"]))) ∧
      ∃ slot overflow, encodeEdgeSlot (fun _ => 0) sampleEdge = .ok (slot, overflow) ∧
        decodeEdgeSlot (patchOverflow edgeLayout slot 5 6) 0 (fun _ => .ok "") (fun _ => .ok []) =
          .ok (some sampleEdge) := by
  constructor
  · refine ⟨_, .of (some (ofString sampleNode.label)) none, rfl, ?_⟩
    refine ((entity_slots fun _ => 0).1 sampleNode _ _ 5 6 0 _ _ rfl ⟨?_, nofun⟩).2 ["tall"]
    intro bytes stored
    exact ⟨_, rfl, Option.some.inj stored⟩
  · refine ⟨_, .of none none, rfl, ?_⟩
    exact (entity_slots fun _ => 0).2.1 sampleEdge _ _ 5 6 0 _ _ rfl ⟨nofun, nofun⟩

end ErmyaGraph.SlotCodec
