import ErmyaGraph.Storage.Blobs
import ErmyaGraph.Storage.Strings

/-! # What the slot files hold

The storage engine as a map from entities to records. Each storage operation is
described by what it does to that map. -/

namespace ErmyaGraph

open Outcome Function

/-- What the slot of an entity holds: nothing yet, a record, or the remains of one. -/
inductive Content where
  | blank
  | live (record : Record)
  | erased

namespace Store

variable {store after before : Store} {blobs : Blobs} {key : EntityKey} {slot : Slot}
  {record : Record} {kind : EntityKind} {encoded : EncodedSlot}

/-- A slot that, with the heap and the overflow file, stores a record. -/
structure SlotHolds (store : Store) (blobs : Blobs) (key : EntityKey) (slot : Slot)
    (record : Record) : Prop where
  flag : slot.flag = .live
  id : slot.id = record.id
  hash : slot.labelHash = labelHash record.label
  label : slot.label = .inline record.label ∨
    ∃ offset, slot.label = .overflow offset ∧ TextAt store offset record.label
  count : slot.propCount = record.properties.len
  link : slot.link = record.link
  props : ∃ bytes, PropertyCodec.encodeProperties record.properties = .ok bytes ∧
    match slot.propOverflow? with
    | some page => blobs key page = some bytes
    | none => slot.propInline = bytes

theorem SlotHolds.congr {blobs' : Blobs} (holds : SlotHolds store blobs key slot record)
    (texts : KeepsTexts store after)
    (kept : ∀ page blob, slot.propOverflow? = some page → blobs key page = some blob →
      blobs' key page = some blob) : SlotHolds after blobs' key slot record := by
  refine ⟨holds.flag, holds.id, holds.hash, ?_, holds.count, holds.link, ?_⟩
  · rcases holds.label with inline | ⟨offset, overflow, here⟩
    · exact .inl inline
    · exact .inr ⟨offset, overflow, texts offset _ here⟩
  · obtain ⟨bytes, encoded, stored⟩ := holds.props
    refine ⟨bytes, encoded, ?_⟩
    cases reference : slot.propOverflow? with
    | none =>
      rw [reference] at stored
      exact stored
    | some page =>
      rw [reference] at stored
      exact kept page bytes reference stored

theorem SlotHolds.read (holds : SlotHolds store blobs key slot record)
    (known : HoldsBlobs store blobs) (heap : HeapWF store) (here : store.readSlot key = .ok slot) :
    store.readRecord key = .ok record := by
  have label : store.slotLabel slot = .ok record.label := by
    unfold slotLabel
    rcases holds.label with inline | ⟨offset, overflow, text⟩
    · rw [inline]
    · rw [overflow]
      exact text.resolve heap
  obtain ⟨bytes, encoded, stored⟩ := holds.props
  have props : store.slotPropBytes key slot = .ok bytes := by
    unfold slotPropBytes
    cases reference : slot.propOverflow? with
    | none =>
      rw [reference] at stored
      exact congrArg Except.ok stored
    | some page =>
      rw [reference] at stored
      obtain ⟨use, free, _, each⟩ := known
      exact (each key page bytes stored).read
  have decoded := PropertyCodec.decodeProperties_encodeProperties encoded []
    (pageAndSlot key.id).1
  rw [List.append_nil] at decoded
  unfold readRecord
  simp only [here, label, props, bind, Except.bind, holds.flag, ↓reduceIte, holds.count, decoded,
    pure, Except.pure, holds.id, holds.link]

/-- What the slot of an entity holds. A slot that never held a record references nothing. -/
def SlotIs (store : Store) (blobs : Blobs) (key : EntityKey) : Content → Prop
  | .blank => ∀ slot, store.readSlot key = .ok slot → slot.flag ≠ .live ∧ slot.propOverflow? = none
  | .live record => ∃ slot, store.readSlot key = .ok slot ∧ SlotHolds store blobs key slot record
  | .erased => ∀ slot, store.readSlot key = .ok slot → slot.flag ≠ .live

/-- The store holds the given contents. Entities are numbered from one. -/
structure Represents (store : Store) (blobs : Blobs) (content : EntityKey → Content) : Prop where
  overflow : HoldsBlobs store blobs
  heap : HeapWF store
  slots : ∀ key, 0 < key.id → SlotIs store blobs key (content key)

theorem Represents.read {content : EntityKey → Content}
    (represents : Represents store blobs content) (pos : 0 < key.id) :
    match content key with
    | .live record => store.readRecord key = .ok record
    | _ => ∃ e, store.readRecord key = .error e := by
  have dead (notLive : ∀ slot, store.readSlot key = .ok slot → slot.flag ≠ .live) :
      ∃ e, store.readRecord key = .error e := by
    unfold readRecord
    cases found : store.readSlot key with
    | error e => exact ⟨e, rfl⟩
    | ok slot =>
      simp only [bind, Except.bind]
      split
      · exact ⟨_, rfl⟩
      · split
        · exact ⟨_, rfl⟩
        · rw [if_neg (notLive slot found)]
          exact ⟨_, rfl⟩
  have here := represents.slots key pos
  cases held : content key with
  | blank =>
    rw [held] at here
    exact dead fun slot found => (here slot found).1
  | live record =>
    rw [held] at here
    obtain ⟨slot, found, holds⟩ := here
    exact holds.read represents.overflow represents.heap found
  | erased =>
    rw [held] at here
    exact dead here

theorem StringsOnly.holdsBlobs (only : StringsOnly before after) (holds : HoldsBlobs before blobs) :
    HoldsBlobs after blobs := by
  obtain ⟨use, free, layout, each⟩ := holds
  rw [only.rest]
  exact ⟨use, free, ⟨layout.listed, layout.nodup, layout.bounded, layout.unused, layout.openPage⟩, each⟩

theorem OverflowOnly.heap (only : OverflowOnly before after) (heap : HeapWF before) :
    HeapWF after ∧ KeepsTexts before after := by
  have texts : KeepsTexts before after := by
    intro offset text here
    rw [only.rest]
    exact ⟨here.short, here.inside, here.stored⟩
  refine ⟨⟨?_, fun entry mem => ?_⟩, texts⟩
  · rw [only.rest]
    exact heap.cursor
  · rw [only.rest] at mem
    exact texts _ _ (heap.dedup entry mem)

/-- The slot files are as before and every text is where it was. -/
structure DataKept (before after : Store) : Prop where
  slots : after.pages.slots = before.pages.slots
  texts : KeepsTexts before after

instance : IsPreorder Store DataKept where
  refl _ := ⟨rfl, fun _ _ => id⟩
  trans _ _ _ := by
    rintro ⟨slots, texts⟩ ⟨slots', texts'⟩
    exact ⟨slots'.trans slots, fun offset text here => texts' offset text (texts offset text here)⟩

theorem DataKept.readSlot (kept : DataKept before after) (key : EntityKey) :
    after.readSlot key = before.readSlot key := by
  simp only [Store.readSlot, Store.readSlotPage, kept.slots]

/-- What encoding a record yields. -/
structure Encodes (kind : EntityKind) (record : Record) (encoded : EncodedSlot)
    (data : List UInt8) : Prop where
  bytes : PropertyCodec.encodeProperties record.properties = .ok data
  flag : encoded.slot.flag = .live
  id : encoded.slot.id = record.id
  hash : encoded.slot.labelHash = labelHash record.label
  count : encoded.slot.propCount = record.properties.len
  link : encoded.slot.link = record.link
  label : encoded.labelOverflow = none ∧ encoded.slot.label = .inline record.label ∨
    encoded.labelOverflow = some record.label ∧ encoded.slot.label = .overflow 0
  props : encoded.propsOverflow = none ∧ encoded.slot.propInline = data ∧
      encoded.slot.needsPropResolve = false ∨
    encoded.propsOverflow = some data ∧ encoded.slot.needsPropResolve = true ∧
      propInlineMax kind < data.length

theorem encodes_of_encodeSlot (ok : encodeSlot kind record = .ok encoded) :
    ∃ bytes, Encodes kind record encoded bytes := by
  unfold encodeSlot at ok
  cases props : PropertyCodec.encodeProperties record.properties with
  | error e =>
    rw [props] at ok
    cases ok
  | ok bytes =>
    have empty := PropertyCodec.encodeProperties_eq_nil_iff props
    rw [props] at ok
    simp only [bind, Except.bind, pure, Except.pure] at ok
    split at ok
    · cases ok
    · cases ok
      refine ⟨bytes, props, rfl, rfl, rfl, rfl, rfl, ?_, ?_⟩
      · by_cases fits : record.label.utf8ByteSize ≤ labelInlineMax kind
        · exact .inl (by simp [fits])
        · exact .inr (by simp [fits])
      · by_cases fits : bytes.length ≤ propInlineMax kind
        · refine .inl ⟨by simp [fits], by simp [fits], ?_⟩
          simp only [Slot.needsPropResolve, fits, decide_true, ↓reduceIte]
          by_cases none : bytes = []
          · simp [empty.mp none]
          · simp [none]
        · refine .inr ⟨by simp [fits], ?_, not_le.mp fits⟩
          have some : bytes ≠ [] := by
            rintro rfl
            exact fits (Nat.zero_le _)
          have pos : 0 < record.properties.len :=
            Nat.pos_of_ne_zero fun zero => some (empty.mpr zero)
          simp [Slot.needsPropResolve, fits, pos]

/-- What the overflow part of a slot write achieves: other entities' blobs are all kept, and the
entity's own ones unless the new blob took their place or they were released. -/
structure Stored (store after : Store) (blobs : Blobs) (key : EntityKey)
    (previous : Option PageId) (record : Record) (slot : Slot) (blobs' : Blobs) : Prop where
  overflow : HoldsBlobs after blobs'
  heap : HeapWF after
  kept : DataKept store after
  holds : SlotHolds after blobs' key slot record
  others : ∀ k p, k ≠ key → blobs' k p = blobs k p
  own : ∀ p b, blobs key p = some b → some p ≠ previous →
    blobs' key p = some b ∨ ∃ bytes, PropertyCodec.encodeProperties record.properties = .ok bytes ∧
      propInlineMax key.kind < bytes.length ∧ StoredAt store blobs bytes p ∧
      blobs' key p = some bytes

theorem sat_storeLabel (label : Option String) (heap : HeapWF store) :
    Sat (storeLabel label) store
      (fun offset after => StringsOnly store after ∧ HeapWF after ∧ KeepsTexts store after ∧
        ∀ text, label = some text → TextAt after offset text)
      (fun _ after => StringsOnly store after ∧ HeapWF after ∧ KeepsTexts store after) := by
  cases label with
  | none =>
    refine ⟨refl_of StringsOnly store, heap, fun _ _ => id, nofun⟩
  | some text =>
    refine ((keeps_heapAppend text store).and (sat_heapAppend text heap)).mono
      (fun offset after done => ?_) (fun _ after done => ?_)
    · obtain ⟨only, heap', texts, here⟩ := done
      refine ⟨only, heap', texts, fun other same => ?_⟩
      cases same
      exact here
    · obtain ⟨only, rfl⟩ := done
      exact ⟨only, heap, fun _ _ => id⟩

/-- The blobs after storing properties that may or may not have overflowed. -/
def putStored (blobs : Blobs) (key : EntityKey) (bytes : List UInt8) : Option PageId → Blobs
  | none => blobs
  | some page => blobs.put key page bytes

variable {bytes : List UInt8}

theorem sat_storeProps (key : EntityKey) {props : Option (List UInt8)}
    (some : ∀ data, props = some data → data = bytes) (holds : HoldsBlobs store blobs) :
    Sat (storeProps key props) store
      (fun stored after => OverflowOnly store after ∧
        HoldsBlobs after (putStored blobs key bytes stored) ∧
        (props.isSome ↔ stored.isSome) ∧ ∀ page, stored = Option.some page →
          StoredAt store blobs bytes page)
      (fun _ after => after = store) := by
  cases props with
  | none => exact ⟨refl_of OverflowOnly store, holds, Iff.rfl, nofun⟩
  | some data =>
    obtain rfl : data = bytes := some data rfl
    unfold storeProps
    rw [sat_map]
    refine ((keeps_storeOverflowedProps key data store).and
      (sat_storeOverflowedProps key data holds)).mono (fun page after done => ?_)
      (fun _ after done => done.2)
    obtain ⟨only, stored, holds'⟩ := done
    refine ⟨only, holds', by simp, fun other same => ?_⟩
    cases same
    exact stored

variable {previous stored : Option PageId}

theorem sat_releasePrevious (holds : HoldsBlobs store blobs)
    (known : ∀ old, previous = some old → stored ≠ some old → ∃ blob, blobs key old = some blob) :
    Sat (releasePrevious key previous stored) store
      (fun _ after => OverflowOnly store after ∧ ∃ blobs', HoldsBlobs after blobs' ∧
        (∀ k p, k ≠ key → blobs' k p = blobs k p) ∧
        ∀ p, some p ≠ previous ∨ stored = some p → blobs' key p = blobs key p)
      (fun _ _ => False) := by
  cases previous with
  | none => exact ⟨refl_of OverflowOnly store, blobs, holds, fun _ _ _ => rfl, fun _ _ => rfl⟩
  | some old =>
    unfold releasePrevious
    dsimp only
    rw [sat_ite]
    refine ⟨fun _ => ?_, fun replaced => ?_⟩
    · exact ⟨refl_of OverflowOnly store, blobs, holds, fun _ _ _ => rfl, fun _ _ => rfl⟩
    · obtain ⟨blob, here⟩ := known old rfl replaced
      refine ((keeps_releaseOverflowedProps key old store).and
        (sat_releaseOverflowedProps holds here)).mono (fun _ after done => ?_)
        (fun _ _ done => done.2)
      refine ⟨done.1, _, done.2, fun k p ne => ?_, fun p outside => ?_⟩
      · exact if_neg fun same => ne same.1
      · refine if_neg fun same => ?_
        rcases outside with notOld | isStored
        · exact notOld (congrArg some same.2)
        · exact replaced (isStored.trans (congrArg some same.2))

theorem StringsOnly.storedAt {page : PageId} (only : StringsOnly before after)
    (stored : StoredAt after blobs bytes page) : StoredAt before blobs bytes page := by
  rw [only.rest] at stored
  exact stored

theorem StringsOnly.slots (only : StringsOnly before after) :
    after.pages.slots = before.pages.slots := by
  rw [only.rest]

theorem OverflowOnly.slots (only : OverflowOnly before after) :
    after.pages.slots = before.pages.slots := by
  rw [only.rest]

/-- The slot that is filled in once everything is stored. -/
theorem slotHolds_of_encodes {labelRef : Nat} (encodes : Encodes kind record encoded bytes)
    (text : ∀ label, encoded.labelOverflow = some label → TextAt store labelRef label)
    (both : encoded.propsOverflow.isSome ↔ stored.isSome)
    (held : ∀ page, stored = some page → blobs key page = some bytes) :
    SlotHolds store blobs key
      (if encoded.labelOverflow.isSome || encoded.propsOverflow.isSome then
        encoded.slot.patchOverflow labelRef (stored.getD 0) else encoded.slot) record := by
  by_cases patched : (encoded.labelOverflow.isSome || encoded.propsOverflow.isSome) = true
  · rw [if_pos patched]
    refine ⟨encodes.flag, encodes.id, encodes.hash, ?_, encodes.count, encodes.link, bytes,
      encodes.bytes, ?_⟩
    · rcases encodes.label with ⟨_, inline⟩ | ⟨overflowed, reference⟩
      · refine .inl ?_
        simp only [Slot.patchOverflow, inline]
      · refine .inr ⟨labelRef, ?_, text _ overflowed⟩
        simp only [Slot.patchOverflow, reference]
    · rcases encodes.props with ⟨_, inline, resolved⟩ | ⟨overflowed, unresolved⟩
      · have none : (encoded.slot.patchOverflow labelRef (stored.getD 0)).propOverflow? = none := by
          simp [Slot.propOverflow?, resolved]
        rw [none]
        exact inline
      · obtain ⟨page, here⟩ := Option.isSome_iff_exists.mp (both.mp (by simp [overflowed]))
        have reference : (encoded.slot.patchOverflow labelRef (stored.getD 0)).propOverflow? =
            some page := by
          simp [Slot.propOverflow?, unresolved, Slot.patchOverflow_propOverflow, here]
        rw [reference]
        exact held page here
  · rw [if_neg patched]
    have fits : encoded.labelOverflow = none ∧ encoded.propsOverflow = none := by
      simpa using patched
    refine ⟨encodes.flag, encodes.id, encodes.hash, ?_, encodes.count, encodes.link, bytes,
      encodes.bytes, ?_⟩
    · rcases encodes.label with ⟨_, inline⟩ | ⟨overflowed, _⟩
      · exact .inl inline
      · rw [fits.1] at overflowed
        cases overflowed
    · rcases encodes.props with ⟨_, inline, resolved⟩ | ⟨overflowed, _⟩
      · have absent : encoded.slot.propOverflow? = none := by
          simp [Slot.propOverflow?, resolved]
        rw [absent]
        exact inline
      · rw [fits.2] at overflowed
        cases overflowed


theorem sat_handleSlotOverflow (ok : encodeSlot key.kind record = .ok encoded)
    (overflow : HoldsBlobs store blobs) (heap : HeapWF store)
    (known : ∀ old, previous = some old → ∃ blob, blobs key old = some blob) :
    Sat (handleSlotOverflow key encoded previous) store
      (fun slot after => ∃ blobs', Stored store after blobs key previous record slot blobs')
      (fun _ after => StringsOnly store after ∧ HeapWF after ∧ KeepsTexts store after) := by
  obtain ⟨bytes, encodes⟩ := encodes_of_encodeSlot ok
  unfold handleSlotOverflow
  rw [sat_bind]
  refine (sat_storeLabel encoded.labelOverflow heap).mono (fun labelRef labelled done => ?_)
    (fun _ after done => ?_)
  · obtain ⟨strings, heap₁, texts₁, text⟩ := done
    have overflow₁ := strings.holdsBlobs overflow
    have kept₁ : DataKept store labelled := ⟨strings.slots, texts₁⟩
    have onlyBytes : ∀ data, encoded.propsOverflow = some data → data = bytes := by
      intro data overflowed
      rcases encodes.props with ⟨absent, _⟩ | ⟨present, _⟩
      · rw [absent] at overflowed
        cases overflowed
      · rw [present] at overflowed
        exact (Option.some.inj overflowed).symm
    rw [sat_bind]
    refine (sat_storeProps key onlyBytes overflow₁).mono (fun stored packed done => ?_)
      (fun _ after done => ?_)
    · obtain ⟨only₂, overflow₂, same, place⟩ := done
      obtain ⟨heap₂, texts₂⟩ := only₂.heap heap₁
      have kept₂ : DataKept labelled packed := ⟨only₂.slots, texts₂⟩
      have recalled : ∀ old, previous = some old → stored ≠ some old →
          ∃ blob, putStored blobs key bytes stored key old = some blob := by
        intro old isOld notStored
        obtain ⟨blob, here⟩ := known old isOld
        refine ⟨blob, ?_⟩
        cases stored with
        | none => exact here
        | some page =>
          have apart : old ≠ page := fun equal => notStored (congrArg some equal.symm)
          simp [putStored, Blobs.put, apart, here]
      rw [sat_bind]
      refine (sat_releasePrevious overflow₂ recalled).sure (fun _ final done => ?_)
      obtain ⟨only₃, blobs', overflow₃, others, own⟩ := done
      obtain ⟨heap₃, texts₃⟩ := only₃.heap heap₂
      have kept₃ : DataKept packed final := ⟨only₃.slots, texts₃⟩
      have kept : DataKept store final := trans_of DataKept kept₁ (trans_of DataKept kept₂ kept₃)
      have filled : SlotHolds final blobs' key
          (if encoded.labelOverflow.isSome || encoded.propsOverflow.isSome then
            encoded.slot.patchOverflow labelRef (stored.getD 0) else encoded.slot) record := by
        refine slotHolds_of_encodes encodes (fun label overflowed => ?_) same fun page here => ?_
        · exact texts₃ _ _ (texts₂ _ _ (text label overflowed))
        · rw [own page (.inr here), here]
          simp [putStored, Blobs.put]
      have result (slot : Slot) (holds : SlotHolds final blobs' key slot record) :
          ∃ blobs', Stored store final blobs key previous record slot blobs' := by
        refine ⟨blobs', overflow₃, heap₃, kept, holds, fun k p ne => ?_,
          fun p b here notOld => ?_⟩
        · rw [others k p ne]
          cases stored with
          | none => rfl
          | some page => exact if_neg fun equal => ne equal.1
        · rw [own p (.inl notOld)]
          cases stored with
          | none => exact .inl here
          | some page =>
            by_cases replaced : p = page
            · subst replaced
              have large : propInlineMax key.kind < bytes.length := by
                rcases encodes.props with ⟨absent, _⟩ | ⟨_, _, large⟩
                · rw [absent] at same
                  simp at same
                · exact large
              exact .inr ⟨bytes, encodes.bytes, large, strings.storedAt (place p rfl), by
                simp [putStored, Blobs.put]⟩

            · exact .inl (by simp [putStored, Blobs.put, replaced, here])
      rw [sat_ite]
      constructor
      · intro patched
        rw [if_pos patched] at filled
        exact result _ filled
      · intro plain
        rw [if_neg plain] at filled
        exact result _ filled
    · rw [done]
      exact ⟨strings, heap₁, texts₁⟩
  · exact done

theorem pageAndSlot_inj {left right : Nat} (leftPos : 0 < left) (rightPos : 0 < right)
    (same : pageAndSlot left = pageAndSlot right) : left = right := by
  obtain ⟨page, index⟩ := Prod.mk.inj same
  have left' := Nat.div_add_mod (left - 1) slotsPerPage
  have right' := Nat.div_add_mod (right - 1) slotsPerPage
  rw [page, index] at left'
  omega

def withSlotFile (store : Store) (kind : EntityKind) (file : PageFile SlotPage) : Store :=
  { store with pages := { store.pages with slots := update store.pages.slots kind file } }

/-- A slot file was extended by blank pages. -/
structure Extended (kind : EntityKind) (added : Nat) (before after : Store) : Prop where
  count : (after.pages.slots kind).count = (before.pages.slots kind).count + added
  old : ∀ i < (before.pages.slots kind).count,
    (after.pages.slots kind).page i = (before.pages.slots kind).page i
  new : ∀ i, (before.pages.slots kind).count ≤ i → i < (before.pages.slots kind).count + added →
    (after.pages.slots kind).page i = {}
  rest : after = before.withSlotFile kind (after.pages.slots kind)

theorem sat_allocateSlotPages (kind : EntityKind) (items : List Nat) (store : Store) :
    Sat (items.forM fun _ => allocateSlotPage kind) store
      (fun _ after => Extended kind items.length store after) (fun _ _ => False) := by
  induction items generalizing store with
  | nil =>
    refine ⟨rfl, fun _ _ => rfl, fun i low high => ?_, ?_⟩
    · exact absurd high (Nat.not_lt.mpr low)
    · simp only [withSlotFile, update_eq_self]
  | cons item rest ih =>
    simp only [List.forM_eq_forM, List.forM_cons, sat_bind]
    refine (ih (store.withSlotFile kind ((store.pages.slots kind).grow {}))).relax
      (fun _ after extended => ?_)
    have file : ((store.withSlotFile kind ((store.pages.slots kind).grow {})).pages.slots kind) =
        (store.pages.slots kind).grow {} := by
      simp [withSlotFile]
    obtain ⟨count, old, new, frame⟩ := extended
    rw [file] at count old new
    simp only [PageFile.grow_count] at count old new
    have grown (i : Nat) : ((store.pages.slots kind).grow {}).page i =
        if i = (store.pages.slots kind).count then {} else (store.pages.slots kind).page i := by
      simp [PageFile.grow, update_apply]
    refine ⟨?_, fun i inside => ?_, fun i low high => ?_, ?_⟩
    · rw [count, List.length_cons]
      omega
    · rw [old i (by omega), grown, if_neg (by omega)]
    · rw [List.length_cons] at high
      by_cases first : i = (store.pages.slots kind).count
      · rw [old i (by omega), grown, if_pos first]
      · exact new i (by omega) (by omega)
    · rw [frame]
      simp [withSlotFile]

/-- One slot was written; slots that come into being with its page are blank. -/
structure SlotWritten (before after : Store) (key : EntityKey) (slot : Slot) : Prop where
  self : after.readSlot key = .ok slot
  others : ∀ other, other ≠ key → 0 < other.id → after.readSlot other = before.readSlot other ∨
    (∃ e, before.readSlot other = .error e) ∧ after.readSlot other = .ok {}
  rest : ∃ wal, after = { before with
    pages := { before.pages with slots := after.pages.slots }, wal := wal }

theorem readSlot_of_lt (allocated : (pageAndSlot key.id).1 < (store.pages.slots key.kind).count) :
    store.readSlot key = .ok
      (((store.pages.slots key.kind).page (pageAndSlot key.id).1).slot (pageAndSlot key.id).2) := by
  simp [readSlot, readSlotPage, allocated, bind, Except.bind, pure, Except.pure]

theorem readSlot_of_le (missing : (store.pages.slots key.kind).count ≤ (pageAndSlot key.id).1) :
    ∃ e, store.readSlot key = .error e := by
  simp [readSlot, readSlotPage, Nat.not_lt.mpr missing, bind, Except.bind]

theorem Extended.readSlot {added : Nat} (extended : Extended kind added before after)
    (key : EntityKey) :
    after.readSlot key = before.readSlot key ∨
      (∃ e, before.readSlot key = .error e) ∧ after.readSlot key = .ok {} := by
  by_cases same : key.kind = kind
  · subst same
    by_cases old : (pageAndSlot key.id).1 < (before.pages.slots key.kind).count
    · refine .inl ?_
      have inside : (pageAndSlot key.id).1 < (after.pages.slots key.kind).count := by
        rw [extended.count]
        exact Nat.lt_add_right added old
      rw [readSlot_of_lt old, readSlot_of_lt inside, extended.old _ old]
    · by_cases new : (pageAndSlot key.id).1 < (before.pages.slots key.kind).count + added
      · refine .inr ⟨readSlot_of_le (not_lt.mp old), ?_⟩
        rw [readSlot_of_lt (by rw [extended.count]; exact new),
          extended.new _ (not_lt.mp old) new]
      · refine .inl ?_
        simp only [Store.readSlot, readSlotPage, extended.count, if_neg old, if_neg new]
  · refine .inl ?_
    rw [extended.rest]
    simp [withSlotFile, Store.readSlot, readSlotPage, update_of_ne same]

theorem slotWritten_setSlotFile (pos : 0 < key.id)
    (allocated : (pageAndSlot key.id).1 < (store.pages.slots key.kind).count) :
    SlotWritten store (store.withSlotFile key.kind ((store.pages.slots key.kind).write
      (pageAndSlot key.id).1 (((store.pages.slots key.kind).page (pageAndSlot key.id).1).write
        (pageAndSlot key.id).2 slot))) key slot := by
  refine ⟨?_, fun other ne otherPositive => .inl ?_, store.wal, rfl⟩
  · simp [withSlotFile, readSlot, readSlotPage, allocated, PageFile.write, SlotPage.write, bind,
      Except.bind, pure, Except.pure]
  · by_cases kind : other.kind = key.kind
    · have apart : pageAndSlot other.id ≠ pageAndSlot key.id := by
        intro equal
        have ids := pageAndSlot_inj otherPositive pos equal
        cases other
        cases key
        simp_all
      simp only [withSlotFile, readSlot, readSlotPage, kind, update_self, PageFile.write_count]
      by_cases inside : (pageAndSlot other.id).1 < (store.pages.slots key.kind).count
      · simp only [if_pos inside, bind, Except.bind, pure, Except.pure, Except.ok.injEq]
        by_cases page : (pageAndSlot other.id).1 = (pageAndSlot key.id).1
        · have index : (pageAndSlot other.id).2 ≠ (pageAndSlot key.id).2 :=
            fun equal => apart (Prod.ext page equal)
          simp [PageFile.write, SlotPage.write, page, update_of_ne index]
        · simp [PageFile.write, update_of_ne page]
      · simp only [if_neg inside]
    · simp [withSlotFile, readSlot, readSlotPage, update_of_ne kind]

theorem Extended.slotWritten {added : Nat} {grown : Store} {wal : Option Wal}
    (extended : Extended kind added before grown)
    (written : SlotWritten { grown with wal := wal } after key slot) :
    SlotWritten before after key slot := by
  refine ⟨written.self, fun other ne pos => ?_, ?_⟩
  · have same : ({ grown with wal := wal } : Store).readSlot other = grown.readSlot other := rfl
    rcases written.others other ne pos with kept | ⟨⟨e, missing⟩, blank⟩
    · rw [kept, same]
      exact extended.readSlot other
    · rw [same] at missing
      rcases extended.readSlot other with kept | ⟨_, found⟩
      · exact .inr ⟨⟨e, kept ▸ missing⟩, blank⟩
      · rw [found] at missing
        cases missing
  · obtain ⟨wal', frame⟩ := written.rest
    refine ⟨wal', ?_⟩
    rw [frame, extended.rest]
    rfl

theorem sat_writeSlotToPage (slot : Slot) (logWal : Bool) (pos : 0 < key.id) :
    Sat (writeSlotToPage key slot logWal) store (fun _ after => SlotWritten store after key slot)
      (fun _ _ => False) := by
  unfold writeSlotToPage ensureSlotPage
  simp only [sat_bind, sat_get]
  refine (sat_allocateSlotPages key.kind _ store).relax (fun _ grown extended => ?_)
  rw [List.length_range] at extended
  have logged : Sat (walAppendIf logWal (.writeSlot key.kind (pageAndSlot key.id).1
      (pageAndSlot key.id).2 slot none)) grown
      (fun _ after => ∃ wal, after = { grown with wal := wal }) (fun _ _ => False) := by
    cases logWal with
    | false => exact ⟨grown.wal, rfl⟩
    | true => exact ⟨_, rfl⟩
  refine logged.relax (fun _ after appended => ?_)
  obtain ⟨wal, rfl⟩ := appended
  have allocated : (pageAndSlot key.id).1 < (grown.pages.slots key.kind).count := by
    rw [extended.count]
    exact Nat.sub_le_iff_le_add'.mp (le_rfl)
  simp only [readSlotPage, allocated, ↓reduceIte, sat_ofResult_ok]
  exact extended.slotWritten (slotWritten_setSlotFile pos allocated)

end Store

end ErmyaGraph
