import ErmyaGraph.Storage.Journal

/-! # The texts the string heap holds

The heap only grows: a text below its cursor is never written again. -/

namespace ErmyaGraph.Store

open Outcome Bytes List

variable {offset : Nat} {byte : Nat → UInt8} {front back : List UInt8} {store : Store}

/-- The bytes of a text on the heap: its length, then its UTF-8 encoding. -/
def heapEntry (text : String) : List UInt8 := leBytes 4 (ofString text).length ++ ofString text

def BytesAt (byte : Nat → UInt8) (offset : Nat) (data : List UInt8) : Prop :=
  ∀ i, (below : i < data.length) → byte (offset + i) = data.get ⟨i, below⟩

/-- The heap holds a text, entirely below its cursor. -/
structure TextAt (store : Store) (offset : Nat) (text : String) : Prop where
  short : (ofString text).length < 2 ^ 32
  inside : offset + (heapEntry text).length ≤ store.heapOffset
  stored : BytesAt store.pages.strings.byte offset (heapEntry text)

/-- The cursor lies within the file, and remembered texts are where they are remembered. -/
structure HeapWF (store : Store) : Prop where
  cursor : store.heapOffset ≤ store.pages.strings.count * pagePayloadSize
  dedup : ∀ entry ∈ store.heapDedup, TextAt store entry.2 entry.1

variable {data : List UInt8}

theorem heapBytes_of_bytesAt {strings : StringFile} (stored : BytesAt strings.byte offset data) :
    heapBytes strings offset data.length = data := by
  refine ext_getElem (by simp [heapBytes]) fun i below below' => ?_
  simpa [heapBytes] using stored i below'

theorem BytesAt.left (stored : BytesAt byte offset (front ++ back)) :
    BytesAt byte offset front := by
  intro i below
  have whole := stored i (by rw [length_append]; omega)
  rw [whole]
  simp [getElem_append_left below]

theorem BytesAt.right (stored : BytesAt byte offset (front ++ back)) :
    BytesAt byte (offset + front.length) back := by
  intro i below
  have whole := stored (front.length + i) (by rw [length_append]; omega)
  rw [Nat.add_assoc, whole]
  simp [getElem_append_right]

theorem BytesAt.append (first : BytesAt byte offset front)
    (second : BytesAt byte (offset + front.length) back) : BytesAt byte offset (front ++ back) := by
  intro i below
  by_cases early : i < front.length
  · rw [first i early]
    simp [getElem_append_left early]
  · have late : front.length ≤ i := not_lt.mp early
    rw [length_append] at below
    have rest := second (i - front.length) (by omega)
    rw [Nat.add_assoc, Nat.add_sub_cancel' late] at rest
    rw [rest]
    simp [getElem_append_right late]

/-- A text on the heap is read back. -/

theorem TextAt.resolve {text : String} (heap : HeapWF store) (here : TextAt store offset text) :
    store.heapResolve offset = .ok text := by
  have size : (heapEntry text).length = 4 + (ofString text).length := by simp [heapEntry]
  have inside := here.inside.trans heap.cursor
  rw [size] at inside
  have prefixed : heapBytes store.pages.strings offset 4 = leBytes 4 (ofString text).length := by
    have read := heapBytes_of_bytesAt here.stored.left
    rwa [length_leBytes] at read
  have body : heapBytes store.pages.strings (offset + 4) (ofString text).length = ofString text := by
    have read := heapBytes_of_bytesAt here.stored.right
    rwa [length_leBytes] at read
  have length : leNat (leBytes 4 (ofString text).length) = (ofString text).length :=
    leNat_leBytes (lt_of_lt_of_eq here.short (by decide))
  unfold heapResolve
  have fits : ¬store.pages.strings.count * pagePayloadSize < offset + 4 := by omega
  have fits' : ¬store.pages.strings.count * pagePayloadSize < offset + 4 + (ofString text).length := by
    omega
  rw [prefixed, length]
  dsimp only
  rw [if_neg fits, if_neg fits', body, toString?_ofString]
  rfl

/-- Data was written at an offset: it is there, and nothing below the offset changed. -/
structure HeapWrote (before after : StringFile) (offset : Nat) (data : List UInt8) : Prop where
  below : ∀ i < offset, after.byte i = before.byte i
  stored : BytesAt after.byte offset data
  covers : offset + data.length ≤ after.count * pagePayloadSize

theorem sat_forM_allocateStringPage (missing : Nat) (store : Store) :
    Sat ((List.range missing).forM fun _ => allocateStringPage) store
      (fun _ after => after.pages.strings.count = store.pages.strings.count + missing ∧
        ∀ i < store.pages.strings.count * pagePayloadSize,
          after.pages.strings.byte i = store.pages.strings.byte i)
      (fun _ _ => False) := by
  have general (items : List Nat) (store : Store) :
      Sat (items.forM fun _ => allocateStringPage) store
        (fun _ after => after.pages.strings.count = store.pages.strings.count + items.length ∧
          ∀ i < store.pages.strings.count * pagePayloadSize,
            after.pages.strings.byte i = store.pages.strings.byte i)
        (fun _ _ => False) := by
    induction items generalizing store with
    | nil => exact ⟨rfl, fun _ _ => rfl⟩
    | cons item rest ih =>
      simp only [forM_eq_forM, forM_cons, sat_bind]
      rw [allocateStringPage, sat_modify]
      refine (ih _).relax (fun _ after done => ?_)
      obtain ⟨count, kept⟩ := done
      refine ⟨?_, fun i inside => ?_⟩
      · rw [count]
        simp only [length_cons]
        omega
      · have page : i / pagePayloadSize < store.pages.strings.count :=
          Nat.div_lt_of_lt_mul (by rwa [Nat.mul_comm])
        rw [kept i (lt_of_lt_of_le inside (Nat.mul_le_mul_right _ (Nat.le_succ _)))]
        exact if_neg (ne_of_lt page)
  simpa using general (List.range missing) store

theorem setHeapBytes_below (byte : Nat → UInt8) {i : Nat} (data : List UInt8) (below : i < offset) :
    setHeapBytes byte offset data i = byte i := by
  unfold setHeapBytes
  rw [if_neg (Nat.not_le.mpr below)]

theorem bytesAt_setHeapBytes (byte : Nat → UInt8) (offset : Nat) (data : List UInt8) :
    BytesAt (setHeapBytes byte offset data) offset data := by
  intro i below
  unfold setHeapBytes
  rw [if_pos (Nat.le_add_right _ _), Nat.add_sub_cancel_left]
  simp [getD_eq_getElem?_getD, below]

theorem sat_writeHeapChunks (fuel : Nat)
    (reached : offset ≤ store.pages.strings.count * pagePayloadSize) (enough : data.length ≤ fuel) :
    Sat (writeHeapChunks fuel offset data) store
      (fun _ after => HeapWrote store.pages.strings after.pages.strings offset data)
      (fun _ _ => False) := by
  induction fuel generalizing store offset data with
  | zero =>
    obtain rfl : data = [] := length_eq_zero_iff.mp (Nat.le_zero.mp enough)
    exact ⟨fun _ _ => rfl, fun _ below => absurd below (Nat.not_lt_zero _), by simpa using reached⟩
  | succ fuel ih =>
    unfold writeHeapChunks
    rw [sat_ite]
    refine ⟨fun empty => ?_, fun nonempty => ?_⟩
    · obtain rfl : data = [] := by simpa using empty
      exact ⟨fun _ _ => rfl, fun _ below => absurd below (Nat.not_lt_zero _), by simpa using reached⟩
    · have some : data ≠ [] := by simpa using nonempty
      have pos : 0 < data.length := length_pos_iff.mpr some
      have inPage : offset % pagePayloadSize < pagePayloadSize := Nat.mod_lt _ (by decide)
      have position := Nat.div_add_mod offset pagePayloadSize
      rw [sat_bind, sat_get, sat_bind]
      refine (sat_forM_allocateStringPage _ store).sure (fun _ grown done => ?_)
      obtain ⟨count, kept⟩ := done
      rw [sat_bind, sat_modify, sat_bind, sat_get, sat_bind, walAppend, sat_modify]
      have chunkLength : (data.take (pagePayloadSize - offset % pagePayloadSize)).length =
          min (pagePayloadSize - offset % pagePayloadSize) data.length := length_take
      have pageEnd : (offset / pagePayloadSize + 1) * pagePayloadSize =
          pagePayloadSize * (offset / pagePayloadSize) + pagePayloadSize := by
        rw [Nat.add_mul, Nat.one_mul, Nat.mul_comm]
      have covered : offset / pagePayloadSize + 1 ≤ grown.pages.strings.count := by
        rw [count]
        omega
      have room := Nat.mul_le_mul_right pagePayloadSize covered
      refine (ih ?_ ?_).relax (fun _ after wrote => ?_)
      · refine le_trans ?_ room
        rw [chunkLength, pageEnd]
        omega
      · rw [length_drop]
        omega
      · have split := take_append_drop (pagePayloadSize - offset % pagePayloadSize) data
        refine ⟨fun i below => ?_, ?_, ?_⟩
        · rw [wrote.below i (lt_of_lt_of_le below (Nat.le_add_right _ _))]
          exact (setHeapBytes_below _ _ below).trans (kept i (lt_of_lt_of_le below reached))
        · rw [← split]
          refine BytesAt.append (fun i below => ?_) wrote.stored
          rw [wrote.below (offset + i) (Nat.add_lt_add_left below offset)]
          exact bytesAt_setHeapBytes _ _ _ i below
        · have covers := wrote.covers
          rw [Nat.add_assoc, ← length_append, split] at covers
          exact covers

/-- The cursor and the table of remembered texts are the caller's business. -/
def CursorKept (before after : Store) : Prop :=
  after.heapOffset = before.heapOffset ∧ after.heapDedup = before.heapDedup

instance : IsPreorder Store CursorKept where
  refl _ := ⟨rfl, rfl⟩
  trans _ _ _ := fun ⟨offset, dedup⟩ ⟨offset', dedup'⟩ =>
    ⟨offset'.trans offset, dedup'.trans dedup⟩

theorem cursorKept_writeHeapChunks (fuel offset : Nat) (data : List UInt8) :
    Keeps CursorKept (writeHeapChunks fuel offset data) := by
  induction fuel generalizing offset data with
  | zero => exact keeps_pure _
  | succ fuel ih =>
    unfold writeHeapChunks
    refine keeps_ite (fun _ => keeps_pure _) fun _ => keeps_get.bind fun store => ?_
    refine Keeps.bind ?_ fun _ => ?_
    · exact keeps_forM _ fun _ _ => keeps_modify fun _ => ⟨rfl, rfl⟩
    · refine Keeps.bind (keeps_modify fun _ => ⟨rfl, rfl⟩) fun _ => keeps_get.bind fun store => ?_
      exact Keeps.bind (keeps_modify fun _ => ⟨rfl, rfl⟩) fun _ => ih _ _

/-- Texts stay where they are. -/

def KeepsTexts (before after : Store) : Prop :=
  ∀ offset text, TextAt before offset text → TextAt after offset text

/-- Appending a text, also when it fails, keeps every text; a new one is where the answer says. -/
theorem sat_heapAppend (text : String) (heap : HeapWF store) :
    Sat (heapAppend text) store
      (fun offset after => HeapWF after ∧ KeepsTexts store after ∧ TextAt after offset text)
      (fun _ after => after = store) := by
  unfold heapAppend
  rw [sat_bind, sat_get]
  cases known : store.heapDedup.lookup text with
  | some offset =>
    obtain ⟨front, back, split, _⟩ := lookup_eq_some_iff.mp known
    have mem : (text, offset) ∈ store.heapDedup := by simp [split]
    exact ⟨heap, fun _ _ => id, heap.dedup _ mem⟩
  | none =>
    dsimp only
    rw [sat_ite]
    refine ⟨fun _ => rfl, fun short => ?_⟩
    rw [sat_ite]
    refine ⟨fun _ => rfl, fun _ => ?_⟩
    rw [sat_bind]
    have whole : leBytes 4 (ofString text).length ++ ofString text = heapEntry text := rfl
    have size : (heapEntry text).length = 4 + (ofString text).length := by simp [heapEntry]
    rw [whole]
    have cursor := cursorKept_writeHeapChunks (4 + (ofString text).length) store.heapOffset
      (heapEntry text) store
    refine ((sat_writeHeapChunks _ heap.cursor (le_of_eq size)).and cursor).mono
      (fun _ after done => ?_) (fun _ _ done => done.1.elim)
    obtain ⟨wrote, offset, dedup⟩ := done
    rw [sat_bind, sat_modify, sat_pure]
    have stop : store.heapOffset + 4 + (ofString text).length =
        store.heapOffset + (heapEntry text).length := by
      rw [size]
      omega
    -- Old texts end below the old cursor, where nothing was written.
    have kept : ∀ old entry, TextAt store old entry →
        BytesAt after.pages.strings.byte old (heapEntry entry) := by
      intro old entry here i below
      rw [wrote.below (old + i) (lt_of_lt_of_le (Nat.add_lt_add_left below old) here.inside)]
      exact here.stored i below
    have texts : ∀ old entry, TextAt store old entry → TextAt { after with
        heapOffset := store.heapOffset + 4 + (ofString text).length
        heapDedup := (text, store.heapOffset) :: after.heapDedup } old entry := by
      intro old entry here
      refine ⟨here.short, ?_, kept old entry here⟩
      exact here.inside.trans (by rw [stop]; exact Nat.le_add_right _ _)
    have new : TextAt { after with
        heapOffset := store.heapOffset + 4 + (ofString text).length
        heapDedup := (text, store.heapOffset) :: after.heapDedup } store.heapOffset text :=
      ⟨not_le.mp short, le_of_eq stop.symm, wrote.stored⟩
    refine ⟨⟨?_, ?_⟩, texts, new⟩
    · rw [stop]
      exact wrote.covers
    · intro entry mem
      rcases mem_cons.mp mem with rfl | old
      · exact new
      · rw [dedup] at old
        exact texts entry.2 entry.1 (heap.dedup entry old)

end ErmyaGraph.Store
