import ErmyaGraph.Storage.Recovery

/-! # Replaying one slot of a page

The journal holds one slot, the page many. The others survive where the page can
be read; recovery takes a page that fails its checksum for a new one. -/

namespace ErmyaGraph.Raw

open Outcome Bytes WalCodec PageHeader

variable {pageType : PageType} {slotIdx : Nat} {part : List UInt8} {lsnLow : UInt16}

def slotAt (page : PageBuf) (slotIdx : Nat) : List UInt8 :=
  ((payload page).drop (slotIdx * slotSize)).take slotSize

/-- A page has the same slots as another, but for one. -/
def SameOthers (slotIdx : Nat) (left right : PageBuf) : Prop :=
  ∀ other < slotsPerPage, other ≠ slotIdx → slotAt left other = slotAt right other

/-- After a step the store shows a page whose slots, but for one, are those of the last complete
write of the page. -/
def KeepsOthers (crc : List UInt8 → UInt32) (after : Recovering) (key : PageKey) (slotIdx : Nat)
    (lastWrite : PageBuf) : Prop :=
  ∃ page, after.getPage crc key = .ok page ∧ SameOthers slotIdx page lastWrite

section Slots

variable {crc : List UInt8 → UInt32} {committed : List UInt64}

theorem slotAt_patchPage {page : PageBuf} {file : DataFile} {other : Nat}
    (short : part.length ≤ slotSize) (elsewhere : other ≠ slotIdx) :
    slotAt (patchPage crc page file pageType slotIdx part lsnLow) other = slotAt page other := by
  apply List.ext_getElem?
  intro i
  rw [slotAt, slotAt, List.getElem?_take, List.getElem?_take]
  split
  · next inside =>
      rw [List.getElem?_drop, List.getElem?_drop, getElem?_payload_patchPage, if_neg ?_]
      unfold slotSize at *
      omega
  · rfl

theorem sameOthers_patchPage {page lastWrite : PageBuf} {file : DataFile}
    (short : part.length ≤ slotSize) :
    SameOthers slotIdx (patchPage crc page file pageType slotIdx part lsnLow) lastWrite ↔
      SameOthers slotIdx page lastWrite := by
  apply forall_congr'
  intro other
  refine imp_congr_right fun _ => imp_congr_right fun elsewhere => ?_
  rw [slotAt_patchPage short elsewhere]

theorem length_part {record : WalCodec.WalRecord} {key : PageKey}
    (patches : pageWrite committed record = some (key, .patch pageType slotIdx part lsnLow)) :
    part.length ≤ slotSize := by
  cases record with
  | writeNode lsn page idx slot txn | writeEdge lsn page idx slot txn =>
    rw [pageWrite, Option.ite_none_right_eq_some] at patches
    cases patches.2
    exact Nat.le_of_eq slot.property
  | tombstoneNode lsn id txn | tombstoneEdge lsn id txn =>
    rw [pageWrite, Option.ite_none_right_eq_some] at patches
    cases patches.2
    decide
  | writeAdjPage lsn page data txn | writeStringPage lsn page data txn
  | writeOverflowPage lsn page data txn =>
    rw [pageWrite, Option.ite_none_right_eq_some] at patches
    cases patches.2
  | freeListState | checkpoint | begin | commit | rollback => cases patches

/-- Replaying a slot keeps the others of the page exactly if the page can be read and has them, or
cannot be read and had nothing in them. -/
theorem replay_keepsOthers_iff {state : Recovering} {record : WalCodec.WalRecord} {key : PageKey}
    {pageType : PageType} {slotIdx : Nat} {part : List UInt8} {lsnLow : UInt16}
    (patches : pageWrite committed record = some (key, .patch pageType slotIdx part lsnLow))
    (lastWrite : PageBuf) :
    KeepsOthers crc (state.replayRecord crc committed record) key slotIdx lastWrite ↔
      match state.getPage crc key with
      | .ok page => SameOthers slotIdx page lastWrite
      | .error _ => SameOthers slotIdx newPageBuf lastWrite := by
  have shown : (state.replayRecord crc committed record).getPage crc key =
      .ok (patchPage crc (state.readPageOrNew crc key) key.file pageType slotIdx part lsnLow) := by
    rw [replayRecord_eq, patches, Recovering.getPage]
    simp only [AList.lookup_insert, PageWrite.apply]
  have short := length_part patches
  have patched : KeepsOthers crc (state.replayRecord crc committed record) key slotIdx lastWrite ↔
      SameOthers slotIdx (state.readPageOrNew crc key) lastWrite := by
    rw [KeepsOthers, shown]
    constructor
    · rintro ⟨page, found, same⟩
      rw [← Except.ok.inj found] at same
      exact (sameOthers_patchPage short).mp same
    · exact fun same => ⟨_, rfl, (sameOthers_patchPage short).mpr same⟩
  rw [patched, Recovering.readPageOrNew]
  cases state.getPage crc key <;> rfl

end Slots

def secondSlotUsed (crc : List UInt8 → UInt32) : PageBuf :=
  patchPage crc newPageBuf .nodes .node 1 [1] 1

/-- The page with a checksum that is not the one of its payload. -/
def tornPage (crc : List UInt8 → UInt32) : PageBuf :=
  writeTo
    { readFrom (secondSlotUsed crc) with
      crc32 := computeCrc32 crc (secondSlotUsed crc) + 1 }
    (secondSlotUsed crc)

def tornState (crc : List UInt8 → UInt32) : Recovering where
  files := fun _ => { size := pageSize, page := fun _ => tornPage crc }
  info := ⟨fun _ => 1, fun _ => 0, fun _ => 0, fun _ => 0⟩

def firstSlotRecord : WalCodec.WalRecord :=
  .writeNode 2 0 0 ⟨List.replicate slotSize 0, List.length_replicate⟩ none

def emptyState : Recovering where
  files := fun _ => {}
  info := ⟨fun _ => 0, fun _ => 0, fun _ => 0, fun _ => 0⟩

/-- The write of one slot is replayed on a fresh store. -/
theorem replay_keepsOthers_newPage :
    KeepsOthers (fun _ => 0) (emptyState.replayRecord (fun _ => 0) [] firstSlotRecord) ⟨.nodes, 0⟩ 0
      newPageBuf := by
  have absent : emptyState.getPage (fun _ => 0) ⟨.nodes, 0⟩ = .error .io := by
    change BufferPool.readFromDisk (fun _ => 0) {} .nodes 0 = _
    rw [BufferPool.readFromDisk, if_pos (by decide)]
    rfl
  refine (replay_keepsOthers_iff rfl newPageBuf).mpr ?_
  rw [absent]
  exact fun _ _ _ => rfl

theorem validate_tornPage (crc : List UInt8 → UInt32) :
    validatePageBuf crc (tornPage crc) (expectedMagic .nodes) "nodes.db" 0 =
      .error (.checksumMismatch "nodes.db" 0 (computeCrc32 crc (secondSlotUsed crc) + 1)
        (computeCrc32 crc (secondSlotUsed crc))) := by
  have header : readFrom (tornPage crc) = { readFrom (secondSlotUsed crc) with
        crc32 := computeCrc32 crc (secondSlotUsed crc) + 1 } := readFrom_writeTo ..
  have magic : (readFrom (secondSlotUsed crc)).magic = expectedMagic .nodes :=
    congrArg PageHeader.magic (readFrom_writeTo ..)
  have sum : computeCrc32 crc (tornPage crc) = computeCrc32 crc (secondSlotUsed crc) :=
    congrArg crc (payload_writeTo ..)
  have used : ¬(tornPage crc).val.all (· = 0) := by
    intro zeros
    have first : (tornPage crc).val[0]? = some 0x54 := by
      have start : (readFrom (tornPage crc)).magic.val[0]? = some 0x54 := by
        rw [header]
        dsimp only
        rw [magic]
        rfl
      exact start
    have zero := List.all_eq_true.mp zeros 0x54 (List.mem_of_getElem? first)
    exact absurd zero (by decide)
  have differs : computeCrc32 crc (secondSlotUsed crc) + 1 ≠ computeCrc32 crc (secondSlotUsed crc) := by
    simp
  rw [validatePageBuf, if_neg used]
  simp only [header, magic, sum, ne_eq, not_true_eq_false, ↓reduceIte, differs, not_false_eq_true]

/-- Recovery replays the first slot of the torn page, and the second slot is empty. -/
theorem torn_page_loses_slot : ¬∃ crc : List UInt8 → UInt32,
    KeepsOthers crc ((tornState crc).replayRecord crc [] firstSlotRecord) ⟨.nodes, 0⟩ 0
      (secondSlotUsed crc) := by
  rintro ⟨crc, keeps⟩
  have unreadable : (tornState crc).getPage crc ⟨.nodes, 0⟩ = .error (.checksumMismatch "nodes.db" 0
      (computeCrc32 crc (secondSlotUsed crc) + 1) (computeCrc32 crc (secondSlotUsed crc))) := by
    change BufferPool.readFromDisk crc { size := pageSize, page := fun _ => tornPage crc } .nodes 0 =
      _
    have whole : ¬pageSize < (UInt32.toNat 0 + 1) * pageSize := by decide
    rw [BufferPool.readFromDisk, if_neg whole]
    change (validatePageBuf crc (tornPage crc) (expectedMagic .nodes) "nodes.db" 0 >>= _) = _
    rw [validate_tornPage]
    rfl
  have same := (replay_keepsOthers_iff rfl (secondSlotUsed crc)).mp keeps
  rw [unreadable] at same
  have slots := same 1 (by decide) (by decide)
  have byte := congrArg (fun slot => slot[0]?) slots
  have written : (payload (secondSlotUsed crc))[slotSize]? = some 1 := by
    rw [secondSlotUsed, getElem?_payload_patchPage]
    rfl
  have blank : (payload newPageBuf)[slotSize]? = some 0 := by
    rw [payload, newPageBuf, List.drop_replicate, List.getElem?_replicate]
    rfl
  simp only [slotAt, List.getElem?_take, List.getElem?_drop, Nat.one_mul, Nat.add_zero, blank,
    written] at byte
  exact absurd byte (by decide)

end ErmyaGraph.Raw
