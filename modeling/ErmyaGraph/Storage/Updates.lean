import ErmyaGraph.Storage.Contents

/-! # Storage operations as updates of the contents

Every operation on slots, seen from the map of contents: a write sets one
entry, an erasure clears one, and a redo record changes nothing as long as it
does not overwrite a blob that a live slot still reads. -/

namespace ErmyaGraph

open Outcome Function

abbrev Contents := EntityKey → Content

def Record.withHeads (record : Record) (ptr : AdjacencyPointer) : Record :=
  { record with link := .heads ptr }

namespace Content

/-- A version that replaces a live node takes over the heads of its slot. -/
def relink (held : Content) (kind : EntityKind) (record : Record) : Record :=
  match kind, held with
  | .node, .live current => record.withHeads current.link.pointer
  | _, _ => record

/-- What is left after erasing; a slot that held nothing still holds nothing. -/
def erase : Content → Content
  | .blank => .blank
  | .live _ => .erased
  | .erased => .erased

end Content

namespace Store

variable {after before mid : Store} {blobs blobs' : Blobs} {key : EntityKey} {contents : Contents}
  {slot : Slot} {record : Record}

/-- The store holds the given contents, wherever their parts are stored. -/
def StoreIs (store : Store) (contents : Contents) : Prop := ∃ blobs, Represents store blobs contents

theorem StoreIs.read {store : Store} (holds : StoreIs store contents) (pos : 0 < key.id) :
    match contents key with
    | .live record => store.readRecord key = .ok record
    | _ => ∃ e, store.readRecord key = .error e := by
  obtain ⟨blobs, represents⟩ := holds
  exact represents.read pos

variable {held : Content}

theorem SlotIs.congr {store : Store} (here : SlotIs store blobs key held)
    (slots : after.readSlot key = store.readSlot key ∨
      (∃ e, store.readSlot key = .error e) ∧ after.readSlot key = .ok {})
    (texts : KeepsTexts store after)
    (kept : ∀ slot page blob, store.readSlot key = .ok slot → slot.flag = .live →
      slot.propOverflow? = some page → blobs key page = some blob →
      blobs' key page = some blob) : SlotIs after blobs' key held := by
  rcases slots with same | ⟨⟨e, missing⟩, blank⟩
  · cases held with
    | blank =>
      intro slot found
      exact here slot (same ▸ found)
    | live record =>
      obtain ⟨slot, found, holds⟩ := here
      refine ⟨slot, same.trans found, holds.congr texts fun page blob reference known => ?_⟩
      exact kept slot page blob found holds.flag reference known
    | erased =>
      intro slot found
      exact here slot (same ▸ found)
  · cases held with
    | blank =>
      intro slot found
      rw [blank] at found
      cases found
      exact ⟨by decide, rfl⟩
    | live record =>
      obtain ⟨slot, found, _⟩ := here
      rw [missing] at found
      cases found
    | erased =>
      intro slot found
      rw [blank] at found
      cases found
      exact fun live => nomatch live

/-- The parts of the store on which its contents depend are as before. -/
structure SameData (before after : Store) : Prop where
  slots : after.pages.slots = before.pages.slots
  overflow : after.pages.overflow = before.pages.overflow
  strings : after.pages.strings = before.pages.strings
  heapDedup : after.heapDedup = before.heapDedup
  heapOffset : after.heapOffset = before.heapOffset
  openPage : after.propSlabOpenPage = before.propSlabOpenPage
  directory : after.info.freeDirectoryHead = before.info.freeDirectoryHead
  spare : after.info.freeSparePage = before.info.freeSparePage

theorem HoldsBlobs.congr (holds : HoldsBlobs before blobs)
    (overflow : after.pages.overflow = before.pages.overflow)
    (openPage : after.propSlabOpenPage = before.propSlabOpenPage)
    (directory : after.info.freeDirectoryHead = before.info.freeDirectoryHead)
    (spare : after.info.freeSparePage = before.info.freeSparePage) : HoldsBlobs after blobs := by
  obtain ⟨use, free, layout, each⟩ := holds
  refine ⟨use, free, ⟨?_, layout.nodup, ?_, layout.unused, ?_⟩, ?_⟩
  · rw [overflow, directory, spare]
    exact layout.listed
  · rw [overflow]
    exact layout.bounded
  · rw [overflow, openPage]
    exact layout.openPage
  · rw [overflow]
    exact each

theorem keepsTexts_of_strings (strings : after.pages.strings = before.pages.strings)
    (heapOffset : after.heapOffset = before.heapOffset) : KeepsTexts before after := by
  intro offset text here
  refine ⟨here.short, ?_, ?_⟩
  · rw [heapOffset]
    exact here.inside
  · rw [strings]
    exact here.stored

theorem HeapWF.congr (heap : HeapWF before) (strings : after.pages.strings = before.pages.strings)
    (heapDedup : after.heapDedup = before.heapDedup)
    (heapOffset : after.heapOffset = before.heapOffset) : HeapWF after := by
  refine ⟨?_, fun entry mem => ?_⟩
  · rw [heapOffset, strings]
    exact heap.cursor
  · rw [heapDedup] at mem
    exact keepsTexts_of_strings strings heapOffset _ _ (heap.dedup entry mem)

theorem StoreIs.congr (holds : StoreIs before contents) (same : SameData before after) :
    StoreIs after contents := by
  obtain ⟨blobs, overflow, heap, slots⟩ := holds
  refine ⟨blobs, overflow.congr same.overflow same.openPage same.directory same.spare,
    heap.congr same.strings same.heapDedup same.heapOffset, fun key pos => ?_⟩
  refine (slots key pos).congr (.inl ?_) (keepsTexts_of_strings same.strings same.heapOffset)
    fun _ _ _ _ _ _ known => known
  simp only [readSlot, readSlotPage, same.slots]

theorem AdjacencyOnly.sameData (only : AdjacencyOnly before after) : SameData before after := by
  constructor <;> rw [only.rest]

theorem SlotWritten.sameHeap (written : SlotWritten before after key slot) :
    after.pages.overflow = before.pages.overflow ∧ after.pages.strings = before.pages.strings ∧
      after.heapDedup = before.heapDedup ∧ after.heapOffset = before.heapOffset ∧
      after.propSlabOpenPage = before.propSlabOpenPage ∧ after.info = before.info := by
  obtain ⟨wal, frame⟩ := written.rest
  rw [frame]
  exact ⟨rfl, rfl, rfl, rfl, rfl, rfl⟩

theorem Represents.writeSlot {store : Store} (represents : Represents store blobs contents)
    (kept : DataKept store mid) (overflow : HoldsBlobs mid blobs') (heap : HeapWF mid)
    (others : ∀ k p, k ≠ key → blobs' k p = blobs k p) (written : SlotWritten mid after key slot)
    (here : SlotIs after blobs' key held) : Represents after blobs' (update contents key held) := by
  obtain ⟨sameOverflow, sameStrings, sameDedup, sameOffset, sameOpen, sameInfo⟩ := written.sameHeap
  refine ⟨overflow.congr sameOverflow sameOpen (by rw [sameInfo]) (by rw [sameInfo]),
    heap.congr sameStrings sameDedup sameOffset, fun other pos => ?_⟩
  by_cases same : other = key
  · subst same
    rw [update_self]
    exact here
  · rw [update_of_ne same]
    refine (represents.slots other pos).congr ?_ ?_ fun _ page blob _ _ _ known => ?_
    · rw [← kept.readSlot other]
      exact written.others other same pos
    · exact fun offset text known =>
        keepsTexts_of_strings sameStrings sameOffset _ _ (kept.texts offset text known)
    · rw [others other page same]
      exact known

theorem SlotHolds.patchAdjPointer {store : Store} (holds : SlotHolds store blobs key slot record)
    (ptr : AdjacencyPointer) :
    SlotHolds store blobs key (slot.patchAdjPointer ptr) (record.withHeads ptr) :=
  ⟨holds.flag, holds.id, holds.hash, holds.label, holds.count, rfl, holds.props⟩

theorem SlotWritten.slotIs_live (written : SlotWritten before after key slot)
    (holds : SlotHolds before blobs key slot record) : SlotIs after blobs key (.live record) := by
  obtain ⟨_, sameStrings, _, sameOffset, _⟩ := written.sameHeap
  exact ⟨slot, written.self, holds.congr (keepsTexts_of_strings sameStrings sameOffset)
    fun _ _ _ known => known⟩

theorem slotIs_erased {store : Store} (found : store.readSlot key = .ok slot)
    (dead : slot.flag ≠ .live) : SlotIs store blobs key .erased := by
  intro other found'
  rw [found] at found'
  cases found'
  exact dead

theorem slotIs_blank {store : Store} (found : store.readSlot key = .ok slot)
    (dead : slot.flag ≠ .live) (unreferenced : slot.propOverflow? = none) :
    SlotIs store blobs key .blank := by
  intro other found'
  rw [found] at found'
  cases found'
  exact ⟨dead, unreferenced⟩

theorem Represents.store {store : Store} {previous : Option PageId} {stored : Record}
    {written : Slot} (represents : Represents store blobs contents)
    (overflowed : Stored store mid blobs key previous record slot blobs')
    (holds : SlotHolds mid blobs' key written stored) (placed : SlotWritten mid after key written) :
    StoreIs after (update contents key (.live stored)) :=
  ⟨blobs', represents.writeSlot overflowed.kept overflowed.overflow overflowed.heap
    overflowed.others placed (placed.slotIs_live holds)⟩

theorem Represents.kept {store : Store} (represents : Represents store blobs contents)
    (failed : StringsOnly store mid ∧ HeapWF mid ∧ KeepsTexts store mid) :
    StoreIs mid contents := by
  obtain ⟨only, heap, texts⟩ := failed
  have kept : DataKept store mid := ⟨only.slots, texts⟩
  refine ⟨blobs, only.holdsBlobs represents.overflow, heap, fun key pos => ?_⟩
  exact (represents.slots key pos).congr (.inl (kept.readSlot key)) kept.texts
    fun _ _ _ _ _ _ known => known

theorem Represents.existing {store : Store} (represents : Represents store blobs contents)
    (pos : 0 < key.id) (intact : contents key ≠ .erased) (old : PageId)
    (reference : store.existingPropOverflow key = some old) :
    ∃ blob, blobs key old = some blob := by
  have here := represents.slots key pos
  unfold existingPropOverflow at reference
  cases held : contents key with
  | blank =>
    rw [held] at here
    split at reference
    · next slot found =>
        rw [(here slot found).2] at reference
        cases reference
    · cases reference
  | live record =>
    rw [held] at here
    obtain ⟨slot, found, holds⟩ := here
    rw [found] at reference
    obtain ⟨bytes, _, stored⟩ := holds.props
    dsimp only at reference
    rw [reference] at stored
    exact ⟨bytes, stored⟩
  | erased => exact absurd held intact

variable (kind : EntityKind)

theorem sat_writeRecordSlot {store : Store} (record : Record) (holds : StoreIs store contents)
    (pos : 0 < record.id) (intact : contents ⟨kind, record.id⟩ ≠ .erased) :
    Sat (writeRecordSlot kind record) store
      (fun _ after => StoreIs after (update contents ⟨kind, record.id⟩ (.live record)))
      (fun _ after => StoreIs after contents) := by
  obtain ⟨blobs, represents⟩ := id holds
  unfold writeRecordSlot
  rw [sat_bind, sat_ofResult]
  refine ⟨fun encoded ok => ?_, fun _ _ => holds⟩
  rw [sat_bind, sat_get, sat_bind]
  have known := represents.existing pos intact
  refine (sat_handleSlotOverflow ok represents.overflow represents.heap known).mono
    (fun slot mid done => ?_) (fun _ mid failed => represents.kept failed)
  obtain ⟨blobs', stored⟩ := done
  refine (sat_writeSlotToPage slot true pos).sure (fun _ after written => ?_)
  exact represents.store stored stored.holds written

/-- The slot the vacuum writes, with the heads that are on the page. -/
theorem preserveOnDiskAdjHead_holds {store : Store} (represents : Represents store blobs contents)
    (pos : 0 < key.id) (kept : DataKept store mid)
    (holds : SlotHolds mid blobs' key slot record) :
    SlotHolds mid blobs' key (mid.preserveOnDiskAdjHead key slot)
      ((contents key).relink key.kind record) := by
  have here := represents.slots key pos
  obtain ⟨kind, id⟩ := key
  cases kind with
  | edge => cases contents ⟨.edge, id⟩ <;> exact holds
  | node =>
    have unpatched (dead : ∀ current, store.readSlot ⟨.node, id⟩ = .ok current →
        current.flag ≠ .live) : mid.preserveOnDiskAdjHead ⟨.node, id⟩ slot = slot := by
      unfold preserveOnDiskAdjHead
      rw [kept.readSlot]
      dsimp only
      split
      · next current _ found => rw [if_neg (dead current found)]
      · rfl
    cases held : contents ⟨.node, id⟩ with
    | blank =>
      rw [held] at here
      rw [unpatched fun current found => (here current found).1]
      exact holds
    | erased =>
      rw [held] at here
      rw [unpatched here]
      exact holds
    | live current =>
      rw [held] at here
      obtain ⟨old, found, old_holds⟩ := here
      have patched : mid.preserveOnDiskAdjHead ⟨.node, id⟩ slot =
          slot.patchAdjPointer current.link.pointer := by
        unfold preserveOnDiskAdjHead
        rw [kept.readSlot, found]
        simp only [old_holds.flag, ↓reduceIte, old_holds.link]
      rw [patched]
      exact holds.patchAdjPointer _

theorem sat_materializeRecord {store : Store} (record : Record) (holds : StoreIs store contents)
    (pos : 0 < record.id) :
    Sat (materializeRecord kind record) store
      (fun _ after => StoreIs after (update contents ⟨kind, record.id⟩
        (.live ((contents ⟨kind, record.id⟩).relink kind record))))
      (fun _ after => StoreIs after contents) := by
  obtain ⟨blobs, represents⟩ := id holds
  unfold materializeRecord
  rw [sat_bind, sat_ofResult]
  refine ⟨fun encoded ok => ?_, fun _ _ => holds⟩
  rw [sat_bind]
  have noPrevious (old : PageId) (impossible : none = some old) :
      ∃ blob, blobs ⟨kind, record.id⟩ old = some blob := nomatch impossible
  refine (sat_handleSlotOverflow ok represents.overflow represents.heap noPrevious).mono
    (fun slot mid done => ?_) (fun _ mid failed => represents.kept failed)
  obtain ⟨blobs', stored⟩ := done
  rw [sat_bind, sat_get]
  refine (sat_writeSlotToPage _ false pos).sure (fun _ after written => ?_)
  exact represents.store stored
    (preserveOnDiskAdjHead_holds represents pos stored.kept stored.holds) written

theorem sat_writeHeads {store : Store} (ptr : AdjacencyPointer) (logWal : Bool)
    (holds : StoreIs store contents) (pos : 0 < key.id) (live : contents key = .live record)
    (found : store.readSlot key = .ok slot) :
    Sat (writeSlotToPage key (slot.patchAdjPointer ptr) logWal) store
      (fun _ after => StoreIs after (update contents key (.live (record.withHeads ptr))))
      (fun _ _ => False) := by
  obtain ⟨blobs, represents⟩ := holds
  have here := represents.slots key pos
  rw [live] at here
  obtain ⟨current, found', holds⟩ := here
  rw [found] at found'
  cases found'
  refine (sat_writeSlotToPage _ logWal pos).relax (fun _ after written => ?_)
  exact ⟨blobs, represents.writeSlot (refl_of DataKept store) represents.overflow represents.heap
    (fun _ _ _ => rfl) written (written.slotIs_live (holds.patchAdjPointer ptr))⟩

/-- Erasing leaves the overflow reference in the slot and releases what it named. -/
theorem sat_tombstoneSlot {store : Store} (logWal : Bool) (holds : StoreIs store contents)
    (pos : 0 < key.id) (intact : contents key ≠ .erased) :
    Sat (tombstoneSlot key logWal) store
      (fun _ after => StoreIs after (update contents key (contents key).erase))
      (fun _ _ => False) := by
  have logged : Sat (walAppendIf logWal (.tombstone key none)) store
      (fun _ after => ∃ wal, after = { store with wal := wal }) (fun _ _ => False) := by
    cases logWal with
    | false => exact ⟨store.wal, rfl⟩
    | true => exact ⟨_, rfl⟩
  unfold tombstoneSlot
  rw [sat_bind]
  refine logged.relax (fun _ start appended => ?_)
  obtain ⟨wal, rfl⟩ := appended
  have same : SameData store { store with wal := wal } := ⟨rfl, rfl, rfl, rfl, rfl, rfl, rfl, rfl⟩
  have holds' := holds.congr same
  generalize ({ store with wal := wal } : Store) = start at holds'
  obtain ⟨blobs, represents⟩ := holds'
  have here := represents.slots key pos
  simp only [sat_bind, sat_get]
  by_cases allocated : (pageAndSlot key.id).1 < (start.pages.slots key.kind).count
  · simp only [readSlotPage, allocated, ↓reduceIte, sat_bind]
    have found := readSlot_of_lt allocated
    generalize current : ((start.pages.slots key.kind).page (pageAndSlot key.id).1).slot
      (pageAndSlot key.id).2 = slot at found
    have written : SlotWritten start _ key { slot with flag := .tombstone } :=
      slotWritten_setSlotFile pos allocated
    have existing : start.existingPropOverflow key = slot.propOverflow? := by
      simp only [existingPropOverflow, found]
    have known := represents.existing pos intact
    rw [existing] at known ⊢
    cases held : contents key with
    | erased => exact absurd held intact
    | blank =>
      rw [held] at here
      obtain ⟨_, unreferenced⟩ := here slot found
      rw [unreferenced]
      exact ⟨blobs, represents.writeSlot (refl_of DataKept start) represents.overflow
        represents.heap (fun _ _ _ => rfl) written
        (slotIs_blank written.self (by simp) unreferenced)⟩
    | live record =>
      have updated : Represents _ blobs (update contents key .erased) :=
        represents.writeSlot (refl_of DataKept start) represents.overflow represents.heap
          (fun _ _ _ => rfl) written (slotIs_erased written.self (by simp))
      cases reference : slot.propOverflow? with
      | none => exact ⟨blobs, updated⟩
      | some old =>
        obtain ⟨blob, stored⟩ := known old reference
        refine ((keeps_releaseOverflowedProps key old _).and
          (sat_releaseOverflowedProps updated.overflow stored)).mono (fun _ after done => ?_)
          (fun _ _ done => done.2)
        obtain ⟨only, overflow⟩ := done
        obtain ⟨heap, texts⟩ := only.heap updated.heap
        have kept : DataKept _ after := ⟨only.slots, texts⟩
        refine ⟨blobs.drop key old, overflow, heap, fun other otherPositive => ?_⟩
        by_cases self : other = key
        · subst self
          rw [update_self]
          exact slotIs_erased ((kept.readSlot other).trans written.self) (by simp)
        · rw [update_of_ne self]
          have there := updated.slots other otherPositive
          rw [update_of_ne self] at there
          refine there.congr (.inl (kept.readSlot other)) texts ?_
          intro _ page blob _ _ _ there
          rw [Blobs.drop, if_neg fun equal => self equal.1]
          exact there
  · simp only [readSlotPage, allocated, ↓reduceIte]
    have missing : ∃ e, start.readSlot key = .error e := readSlot_of_le (not_lt.mp allocated)
    obtain ⟨e, missing⟩ := missing
    cases held : contents key with
    | erased => exact absurd held intact
    | blank =>
      have unchanged : update contents key Content.blank.erase = contents := by
        rw [Content.erase, ← held, update_eq_self]
      rw [unchanged]
      exact ⟨blobs, represents⟩
    | live record =>
      rw [held] at here
      obtain ⟨slot, found, _⟩ := here
      rw [missing] at found
      cases found

/-- Storing the overflow data of a redo record would replace a blob that the live slot of the
entity still reads: the blob lies on the open packed page, which has room for the new one. -/
def rewritesInPlace (store : Store) (key : EntityKey) (record : Record) : Bool :=
  match PropertyCodec.encodeProperties record.properties, store.readSlot key with
  | .ok bytes, .ok slot =>
    slot.flag = .live && propInlineMax key.kind < bytes.length &&
      bytes.length ≤ maxPackedBlob && slot.propOverflow?.any fun page =>
        store.propSlabOpenPage = some page && store.slabPageHasRoom page bytes.length &&
          (store.readOverflowedProps key page).toOption ≠ some bytes
  | _, _ => false

theorem sat_walLogRedo {store : Store} (record : Record) (txn : Nat)
    (holds : StoreIs store contents)
    (apart : store.rewritesInPlace ⟨kind, record.id⟩ record = false) :
    Sat (walLogRedo kind record txn) store (fun _ after => StoreIs after contents)
      (fun _ after => StoreIs after contents) := by
  obtain ⟨blobs, represents⟩ := id holds
  unfold walLogRedo
  rw [sat_bind, sat_ofResult]
  refine ⟨fun encoded ok => ?_, fun _ _ => holds⟩
  have noPrevious (old : PageId) (impossible : none = some old) :
      ∃ blob, blobs ⟨kind, record.id⟩ old = some blob := nomatch impossible
  rw [sat_bind]
  refine (sat_handleSlotOverflow ok represents.overflow represents.heap noPrevious).mono
    (fun slot mid done => ?_) (fun _ mid failed => represents.kept failed)
  obtain ⟨blobs', stored⟩ := done
  suffices kept : StoreIs mid contents from
    kept.congr ⟨rfl, rfl, rfl, rfl, rfl, rfl, rfl, rfl⟩
  refine ⟨blobs', stored.overflow, stored.heap, fun key pos => ?_⟩
  refine (represents.slots key pos).congr (.inl (stored.kept.readSlot key)) stored.kept.texts ?_
  intro current page blob found live reference known
  by_cases same : key = ⟨kind, record.id⟩
  · subst same
    rcases stored.own page blob known (fun equal => nomatch equal) with
      kept | ⟨bytes, encoded, large, place, replaced⟩
    · exact kept
    · rcases place with untouched | ⟨small, isOpen, room⟩
      · rw [untouched] at known
        cases known
      · -- The blob went to the open page: then it equals the one it replaced.
        obtain ⟨use, free, _, each⟩ := represents.overflow
        have read := (each _ page blob known).read
        have equal : some blob = some bytes := by
          simpa [rewritesInPlace, encoded, found, live, large, small, reference, isOpen, room, read,
            Except.toOption] using apart
        rw [replaced, equal]
  · rw [stored.others key page same]
    exact known

end Store

end ErmyaGraph
