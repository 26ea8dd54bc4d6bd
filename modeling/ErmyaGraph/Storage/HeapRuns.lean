import ErmyaGraph.Graph.Session
import ErmyaGraph.Storage.Strings

/-! # The string heap between openings

The used length of the last page is all that a reopened heap has of the cursor. -/

namespace ErmyaGraph

open Outcome Bytes List

/-- The cursor that the pages record. It has to fit 32 bits, whatever the pages say. -/
def recalculatedWriteOffset (strings : StringFile) : Except Error Nat :=
  let offset := recalculateStringsWriteOffset strings
  if 2 ^ 32 ≤ offset then
    .error (.corruptPage "strings.db" (strings.count - 1)
      "string heap cursor exceeds u32 — page count and slot count disagree")
  else
    .ok offset

namespace Store

variable {offset : Nat} {store : Store}

def withOffset (store : Store) (offset : Nat) : Store :=
  { store with heapOffset := offset, heapDedup := [] }

/-- The heap has no page after the one the cursor is in, and that page records the cursor. -/
structure CursorRecorded (strings : StringFile) (offset : Nat) : Prop where
  covers : offset ≤ strings.count * pagePayloadSize
  reaches : strings.count * pagePayloadSize < offset + pagePayloadSize
  last : ∀ page, strings.count = page + 1 → page * pagePayloadSize + strings.used page = offset

variable {strings : StringFile}

theorem CursorRecorded.recalculate (recorded : CursorRecorded strings offset) :
    recalculateStringsWriteOffset strings = offset := by
  unfold recalculateStringsWriteOffset
  cases count : strings.count with
  | zero =>
    have covers := recorded.covers
    rw [count, Nat.zero_mul] at covers
    exact (Nat.le_zero.mp covers).symm
  | succ page =>
    rw [if_neg (Nat.succ_ne_zero page)]
    exact recorded.last page count

theorem CursorRecorded.recalculated (recorded : CursorRecorded strings offset)
    (fits : offset < 2 ^ 32) : recalculatedWriteOffset strings = .ok offset := by
  unfold recalculatedWriteOffset
  dsimp only
  rw [recorded.recalculate, if_neg (Nat.not_le.mpr fits)]

/-- Writing at the cursor leaves the cursor after the data recorded. -/
theorem recorded_writeHeapChunks (fuel : Nat) {data : List UInt8}
    (recorded : CursorRecorded store.pages.strings offset) (enough : data.length ≤ fuel) :
    Sat (writeHeapChunks fuel offset data) store
      (fun _ after => CursorRecorded after.pages.strings (offset + data.length))
      (fun _ _ => False) := by
  induction fuel generalizing store offset data with
  | zero =>
    obtain rfl : data = [] := length_eq_zero_iff.mp (Nat.le_zero.mp enough)
    exact recorded
  | succ fuel ih =>
    unfold writeHeapChunks
    rw [sat_ite]
    refine ⟨fun empty => ?_, fun nonempty => ?_⟩
    · obtain rfl : data = [] := by simpa using empty
      exact recorded
    · have pos : 0 < data.length := by
        apply length_pos_iff.mpr
        simpa using nonempty
      rw [sat_bind, sat_get, sat_bind]
      apply (sat_forM_allocateStringPage _ store).sure _
      intro _ grown done
      rw [sat_bind, sat_modify, sat_bind, sat_get, sat_bind, walAppend, sat_modify]
      have covers := recorded.covers
      have reaches := recorded.reaches
      have position := Nat.div_add_mod offset pagePayloadSize
      have inPage : offset % pagePayloadSize < pagePayloadSize := Nat.mod_lt _ (by decide)
      -- The file ends with the page that holds the cursor, or just before it.
      have count : grown.pages.strings.count = offset / pagePayloadSize + 1 := by
        rw [done.1]
        simp only [pagePayloadSize] at covers reaches position inPage ⊢
        omega
      have chunk : (data.take (pagePayloadSize - offset % pagePayloadSize)).length =
          min (pagePayloadSize - offset % pagePayloadSize) data.length := length_take
      have rest : offset + (data.take (pagePayloadSize - offset % pagePayloadSize)).length +
          (data.drop (pagePayloadSize - offset % pagePayloadSize)).length =
            offset + data.length := by
        rw [add_assoc, ← length_append, take_append_drop]
      rw [← rest]
      apply ih
      · refine ⟨?_, ?_, fun page last => ?_⟩
        · rw [count, chunk, Nat.add_mul, Nat.mul_comm]
          omega
        · rw [count, chunk, Nat.add_mul, Nat.mul_comm]
          omega
        · obtain rfl : page = offset / pagePayloadSize := Nat.succ.inj (last.symm.trans count)
          dsimp only
          rw [Function.update_self, mul_comm, ← add_assoc, position]
      · rw [length_drop]
        omega

/-- The heap is well formed, and its pages record a cursor of 32 bits. -/
structure HeapRecorded (store : Store) : Prop where
  heap : HeapWF store
  cursor : CursorRecorded store.pages.strings store.heapOffset
  fits : store.heapOffset < 2 ^ 32

theorem HeapRecorded.recalculated (recorded : HeapRecorded store) :
    recalculatedWriteOffset store.pages.strings = .ok store.heapOffset :=
  recorded.cursor.recalculated recorded.fits

theorem HeapRecorded.withOffset (recorded : HeapRecorded store) :
    HeapRecorded (store.withOffset store.heapOffset) :=
  ⟨⟨recorded.heap.cursor, fun _ mem => absurd mem not_mem_nil⟩, recorded.cursor,
    recorded.fits⟩

theorem TextAt.withOffset {text : String} (here : TextAt store offset text) :
    TextAt (store.withOffset store.heapOffset) offset text :=
  ⟨here.short, here.inside, here.stored⟩

theorem recorded_heapAppend (text : String) (recorded : HeapRecorded store) :
    Sat (heapAppend text) store
      (fun _ after => CursorRecorded after.pages.strings after.heapOffset ∧
        after.heapOffset < 2 ^ 32)
      (fun _ after => after = store) := by
  unfold heapAppend
  rw [sat_bind, sat_get]
  cases store.heapDedup.lookup text with
  | some offset => exact ⟨recorded.cursor, recorded.fits⟩
  | none =>
    dsimp only
    rw [sat_ite]
    refine ⟨fun _ => rfl, fun _ => ?_⟩
    rw [sat_ite]
    refine ⟨fun _ => rfl, fun fits => ?_⟩
    rw [sat_bind]
    have size : (leBytes 4 (ofString text).length ++ ofString text).length =
        4 + (ofString text).length := by simp
    apply (recorded_writeHeapChunks _ recorded.cursor (le_of_eq size)).sure _
    intro _ after cursor
    rw [sat_bind, sat_modify, sat_pure]
    rw [size, ← add_assoc] at cursor
    exact ⟨cursor, not_le.mp fits⟩

theorem sat_heapAppend_recorded (text : String) (recorded : HeapRecorded store) :
    Sat (heapAppend text) store
      (fun offset after => HeapRecorded after ∧ KeepsTexts store after ∧ TextAt after offset text)
      (fun _ after => after = store) := by
  apply ((sat_heapAppend text recorded.heap).and (recorded_heapAppend text recorded)).mono
  · intro offset after done
    obtain ⟨⟨heap, texts, new⟩, cursor, fits⟩ := done
    exact ⟨⟨heap, cursor, fits⟩, texts, new⟩
  · exact fun _ _ same => same.1

/-- What is done with a string heap: a text is appended, or the heap is opened anew, at the
offset the last session kept or at the one its pages record. -/
inductive HeapOp where
  | append (text : String)
  | resume
  | recover

/-- A heap and the references handed out for it so far. -/
structure HeapSession where
  store : Store
  references : List (String × Nat) := []

/-- One operation on a heap. A heap whose cursor cannot be recovered is not opened. -/
def HeapSession.step (session : HeapSession) : HeapOp → HeapSession
  | .append text =>
    match (heapAppend text).run session.store with
    | .ok offset after => ⟨after, (text, offset) :: session.references⟩
    | .error _ after => ⟨after, session.references⟩
  | .resume => { session with store := session.store.withOffset session.store.heapOffset }
  | .recover =>
    match recalculatedWriteOffset session.store.pages.strings with
    | .ok offset => { session with store := session.store.withOffset offset }
    | .error _ => session

def withEmptyHeap (store : Store) : Store :=
  { store with
    pages := { store.pages with strings := Pages.fresh.strings }, heapOffset := 0, heapDedup := [] }

/-- The heap is recorded and every reference handed out still leads to its text. -/
structure HeapSession.Holds (session : HeapSession) : Prop where
  recorded : HeapRecorded session.store
  texts : ∀ reference ∈ session.references, TextAt session.store reference.2 reference.1

theorem HeapSession.holds_empty (store : Store) : Holds ⟨store.withEmptyHeap, []⟩ := by
  have page : 0 < pagePayloadSize := by decide
  have cursor : CursorRecorded Pages.fresh.strings 0 :=
    ⟨Nat.zero_le _, by rw [Nat.zero_add]; exact page, fun page last => by cases last⟩
  exact ⟨⟨⟨Nat.zero_le _, fun _ mem => absurd mem not_mem_nil⟩, cursor,
    Nat.two_pow_pos 32⟩, fun _ mem => absurd mem not_mem_nil⟩

variable {session : HeapSession}

theorem HeapSession.Holds.step (holds : session.Holds) (op : HeapOp) : (session.step op).Holds := by
  cases op with
  | append text =>
    have sat := sat_heapAppend_recorded text holds.recorded
    unfold HeapSession.step
    dsimp only
    cases ran : (heapAppend text).run session.store with
    | ok offset after =>
      obtain ⟨recorded, kept, new⟩ := sat.of_ok ran
      refine ⟨recorded, fun reference mem => ?_⟩
      rcases mem_cons.mp mem with rfl | old
      · exact new
      · exact kept _ _ (holds.texts reference old)
    | error e after =>
      obtain rfl : after = session.store := sat.of_error ran
      exact holds
  | resume =>
    exact ⟨holds.recorded.withOffset,
      fun reference mem => (holds.texts reference mem).withOffset⟩
  | recover =>
    unfold HeapSession.step
    rw [holds.recorded.recalculated]
    exact ⟨holds.recorded.withOffset,
      fun reference mem => (holds.texts reference mem).withOffset⟩

theorem HeapSession.Holds.run (holds : session.Holds) (ops : List HeapOp) :
    (ops.foldl HeapSession.step session).Holds := by
  induction ops generalizing session with
  | nil => exact holds
  | cons op rest ih => exact ih (holds.step op)

/-- Whatever was done with the heap, every reference handed out leads to its text, the pages
record the cursor, and a text that is rejected changes nothing at all. -/
theorem heap_keeps_texts (store : Store) (ops : List HeapOp) :
    let session := ops.foldl HeapSession.step ⟨store.withEmptyHeap, []⟩
    (∀ reference ∈ session.references, session.store.heapResolve reference.2 = .ok reference.1) ∧
    recalculatedWriteOffset session.store.pages.strings = .ok session.store.heapOffset ∧
    ∀ text e after, (heapAppend text).run session.store = .error e after →
      after = session.store := by
  intro session
  have holds : session.Holds := (HeapSession.holds_empty store).run ops
  refine ⟨fun reference member => ?_, holds.recorded.recalculated, fun text e after rejected => ?_⟩
  · exact (holds.texts reference member).resolve holds.recorded.heap
  · exact (sat_heapAppend_recorded text holds.recorded).of_error rejected

end Store

end ErmyaGraph
