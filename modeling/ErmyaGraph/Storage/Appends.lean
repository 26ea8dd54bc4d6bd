import ErmyaGraph.Storage.Updates

/-! # What a slot write leaves in the journal

Data that a slot refers to is journalled first and the slot after it, so a
crash in between leaves the slot as it was. -/

namespace ErmyaGraph

open Outcome

/-- An image of a string page repeats given bytes below a cursor. -/
def WalRecord.RepeatsHeap (byte : Nat → UInt8) (cursor : Nat) : WalRecord → Prop
  | .writeStringPage page bytes _ => ∀ i, i < bytes.length →
      page * pagePayloadSize + i < cursor → bytes[i]? = some (byte (page * pagePayloadSize + i))
  | _ => True

theorem WalRecord.OnOverflow.repeatsHeap {byte : Nat → UInt8} {cursor : Nat} {record : WalRecord}
    (kind : record.OnOverflow) : record.RepeatsHeap byte cursor := by
  cases record with
  | writeStringPage page bytes used => exact kind.elim
  | _ => exact trivial

namespace Store

variable {byte : Nat → UInt8} {cursor : Nat} {store : Store}

theorem StringsOnly.aside {before after : Store} (only : StringsOnly before after) :
    Logs WalRecord.Aside before after := only.logs.mono fun _ => .inl

theorem OverflowOnly.aside {before after : Store} (only : OverflowOnly before after) :
    Logs WalRecord.Aside before after := only.logs.mono fun _ => .inr

variable (key : EntityKey) (encoded : EncodedSlot)

theorem aside_handleSlotOverflow (previous : Option PageId) :
    Keeps (Logs WalRecord.Aside) (handleSlotOverflow key encoded previous) :=
  keeps_handleSlotOverflow_of (fun _ _ => StringsOnly.aside) (fun _ _ => OverflowOnly.aside) key
    encoded previous

/-- A heap has the given bytes below a cursor. -/
structure HeapBelow (byte : Nat → UInt8) (cursor : Nat) (strings : StringFile) : Prop where
  inside : cursor ≤ strings.count * pagePayloadSize
  same : ∀ i < cursor, strings.byte i = byte i

theorem heapBelow_forM_allocateStringPage (missing : Nat)
    (below : HeapBelow byte cursor store.pages.strings) :
    Sat ((List.range missing).forM fun _ => allocateStringPage) store
      (fun _ after => HeapBelow byte cursor after.pages.strings ∧ after.wal = store.wal) (fun _ _ => False) := by
  have wal : Sat ((List.range missing).forM fun _ => allocateStringPage) store
      (fun _ after => after.wal = store.wal) (fun _ after => after.wal = store.wal) :=
    sat_forM_of_invariant (fun after : Store => after.wal = store.wal) rfl
      fun _ _ after (same : after.wal = store.wal) => same
  apply ((sat_forM_allocateStringPage missing store).and wal).mono _ (fun _ _ failed => failed.1)
  intro _ after done
  obtain ⟨⟨count, kept⟩, same⟩ := done
  refine ⟨⟨?_, fun i inside => ?_⟩, same⟩
  · rw [count]
    exact below.inside.trans (Nat.mul_le_mul_right _ (Nat.le_add_right _ _))
  · rw [kept i (lt_of_lt_of_le inside below.inside)]
    exact below.same i inside

theorem repeatsHeap_writeHeapChunks (fuel : Nat) {offset : Nat} (data : List UInt8)
    (below : HeapBelow byte cursor store.pages.strings) (beyond : cursor ≤ offset) :
    Sat (writeHeapChunks fuel offset data) store
      (fun _ after => Logs (WalRecord.RepeatsHeap byte cursor) store after)
      (fun _ after => Logs (WalRecord.RepeatsHeap byte cursor) store after) := by
  induction fuel generalizing store offset data with
  | zero => exact refl_of (Logs _) store
  | succ fuel ih =>
    unfold writeHeapChunks
    rw [sat_ite]
    refine ⟨fun _ => refl_of (Logs _) store, fun _ => ?_⟩
    rw [sat_bind, sat_get, sat_bind]
    apply (heapBelow_forM_allocateStringPage _ below).sure _
    intro _ grown done
    obtain ⟨below', wal⟩ := done
    rw [sat_bind, sat_modify, sat_bind, sat_get, sat_bind, walAppend, sat_modify]
    have pos : 0 < pagePayloadSize := by decide
    -- The chunk is set above the cursor, and the image of its page is what the page holds then.
    have set : ∀ i < cursor, setHeapBytes grown.pages.strings.byte offset
        (data.take (pagePayloadSize - offset % pagePayloadSize)) i = byte i := by
      intro i inside
      rw [setHeapBytes_below _ _ (inside.trans_le beyond)]
      exact below'.same i inside
    have repeats (used : Nat) (strings : StringFile)
        (same : ∀ i < cursor, strings.byte i = byte i) :
        (WalRecord.writeStringPage (offset / pagePayloadSize)
          (heapBytes strings (offset / pagePayloadSize * pagePayloadSize) pagePayloadSize)
          used).RepeatsHeap byte cursor := by
      intro i short inside
      have short : i < pagePayloadSize := by simpa [heapBytes] using short
      simp [heapBytes, short, same _ inside]
    refine (ih _ ?_ (beyond.trans (Nat.le_add_right _ _))).mono
      (fun _ after logs => ?_) (fun _ after logs => ?_)
    · exact ⟨below'.inside, set⟩
    · rw [Logs, ← wal]
      exact (Journals.append (by exact repeats _ _ set) grown.wal).trans logs
    · rw [Logs, ← wal]
      exact (Journals.append (by exact repeats _ _ set) grown.wal).trans logs

theorem repeatsHeap_storeLabel (label : Option String)
    (below : HeapBelow byte cursor store.pages.strings) (beyond : cursor ≤ store.heapOffset) :
    Sat (storeLabel label) store
      (fun _ after => Logs (WalRecord.RepeatsHeap byte cursor) store after)
      (fun _ after => Logs (WalRecord.RepeatsHeap byte cursor) store after) := by
  have same := refl_of (Logs (WalRecord.RepeatsHeap byte cursor)) store
  cases label with
  | none => exact same
  | some text =>
    unfold storeLabel heapAppend
    dsimp only
    rw [sat_bind, sat_get]
    cases store.heapDedup.lookup text with
    | some offset => exact same
    | none =>
      dsimp only
      rw [sat_ite]
      refine ⟨fun _ => same, fun _ => ?_⟩
      rw [sat_ite]
      refine ⟨fun _ => same, fun _ => ?_⟩
      rw [sat_bind]
      exact repeatsHeap_writeHeapChunks _ _ below beyond

theorem repeatsHeap_handleSlotOverflow (previous : Option PageId)
    (below : HeapBelow byte cursor store.pages.strings) (beyond : cursor ≤ store.heapOffset) :
    Sat (handleSlotOverflow key encoded previous) store
      (fun _ after => Logs (WalRecord.RepeatsHeap byte cursor) store after)
      (fun _ after => Logs (WalRecord.RepeatsHeap byte cursor) store after) := by
  have overflow {before after : Store} (only : OverflowOnly before after) :
      Logs (WalRecord.RepeatsHeap byte cursor) before after :=
    only.logs.mono fun _ => WalRecord.OnOverflow.repeatsHeap
  have rest (labelRef : Nat) : Keeps (Logs (WalRecord.RepeatsHeap byte cursor)) (do
      let stored ← storeProps key encoded.propsOverflow
      releasePrevious key previous stored
      if encoded.labelOverflow.isSome || encoded.propsOverflow.isSome then
        return encoded.slot.patchOverflow labelRef (stored.getD 0)
      else
        return encoded.slot) := by
    apply Keeps.bind
    · cases encoded.propsOverflow with
      | none => exact keeps_pure none
      | some bytes =>
        exact ((keeps_storeOverflowedProps key bytes).mono fun _ _ => overflow).map some
    · intro stored
      apply Keeps.bind
      · cases previous with
        | none => exact keeps_pure ()
        | some old =>
          exact keeps_ite (fun _ => keeps_pure ()) fun _ =>
            (keeps_releaseOverflowedProps key old).mono fun _ _ => overflow
      · intro _
        exact keeps_ite (fun _ => keeps_pure _) fun _ => keeps_pure _
  unfold handleSlotOverflow
  rw [sat_bind]
  apply (repeatsHeap_storeLabel encoded.labelOverflow below beyond).relax _
  intro labelRef labelled logs
  exact (rest labelRef labelled).mono (fun _ _ => trans_of (Logs _) logs)
    (fun _ _ => trans_of (Logs _) logs)

theorem appends_writeSlotToPage {key : EntityKey} (slot : Slot) (pos : 0 < key.id) :
    Sat (writeSlotToPage key slot true) store
      (fun _ after => after.wal = store.wal.map fun wal =>
        { wal with records := wal.records ++
          [.writeSlot key.kind (pageAndSlot key.id).1 (pageAndSlot key.id).2 slot none] })
      (fun _ _ => False) := by
  have total : Sat (writeSlotToPage key slot true) store (fun _ _ => True) (fun _ _ => False) :=
    (sat_writeSlotToPage slot true pos).relax (fun _ _ _ => trivial)
  have logged : Sat (writeSlotToPage key slot true) store
      (fun _ after => after.wal = store.wal.map fun wal =>
        { wal with records := wal.records ++
          [.writeSlot key.kind (pageAndSlot key.id).1 (pageAndSlot key.id).2 slot none] })
      (fun _ _ => True) := by
    unfold writeSlotToPage ensureSlotPage
    dsimp only
    simp only [sat_bind, sat_get]
    apply (sat_allocateSlotPages key.kind (List.range _) store).sure _
    intro _ grown extended
    have wal : grown.wal = store.wal := by rw [extended.rest]; rfl
    rw [walAppendIf, if_pos rfl, walAppend, sat_modify, sat_ofResult]
    refine ⟨fun current _ => ?_, fun _ _ => trivial⟩
    rw [setSlotFile, sat_modify, ← wal]
  exact (logged.and total).mono (fun _ _ done => done.1) (fun _ _ failed => failed.2)

def SlotRecord (kind : EntityKind) (record : Record) (appended : WalRecord) : Prop :=
  ∃ slot, slot.flag = .live ∧ slot.id = record.id ∧
    appended = .writeSlot kind (pageAndSlot record.id).1 (pageAndSlot record.id).2 slot none

/-- A write appends what its slot refers to and then the slot. A refused one has appended nothing
but texts, which leave the texts before them alone. -/
theorem appends_writeRecordSlot {contents : Contents} {wal : Wal} (kind : EntityKind)
    (record : Record) (holds : StoreIs store contents) (pos : 0 < record.id)
    (intact : contents ⟨kind, record.id⟩ ≠ .erased) (journal : store.wal = some wal)
    (below : HeapBelow byte cursor store.pages.strings) (beyond : cursor ≤ store.heapOffset) :
    Sat (writeRecordSlot kind record) store
      (fun _ after => ∃ wal' added last, after.wal = some wal' ∧
        wal'.records = wal.records ++ (added ++ [last]) ∧ (∀ r ∈ added, r.Aside) ∧
        SlotRecord kind record last)
      (fun _ after => Logs (fun r => r.OnStrings ∧ r.RepeatsHeap byte cursor) store after) := by
  obtain ⟨blobs, represents⟩ := holds
  unfold writeRecordSlot
  rw [sat_bind, sat_ofResult]
  refine ⟨fun encoded ok => ?_, fun _ _ => refl_of (Logs _) store⟩
  rw [sat_bind, sat_get, sat_bind]
  have known := represents.existing pos intact
  have stored := sat_handleSlotOverflow ok represents.overflow represents.heap known
  have texts := repeatsHeap_handleSlotOverflow ⟨kind, record.id⟩ encoded
    (store.existingPropOverflow ⟨kind, record.id⟩) below beyond
  have aside := aside_handleSlotOverflow ⟨kind, record.id⟩ encoded
    (store.existingPropOverflow ⟨kind, record.id⟩) store
  apply ((stored.and texts).and aside).mono
  · intro slot mid done
    obtain ⟨⟨⟨blobs', placed⟩, _⟩, logs⟩ := done
    rw [Logs, journal] at logs
    generalize between : mid.wal = wal' at logs
    cases logs with
    | on added grown kinds _ =>
      apply (appends_writeSlotToPage slot pos).sure _
      intro _ after appended
      rw [between] at appended
      refine ⟨_, added, _, appended, ?_, kinds, slot, placed.holds.flag, placed.holds.id, rfl⟩
      dsimp only
      rw [grown, List.append_assoc]
  · intro _ mid failed
    obtain ⟨⟨⟨only, _⟩, repeats⟩, _⟩ := failed
    exact only.logs.and repeats

end Store

end ErmyaGraph
