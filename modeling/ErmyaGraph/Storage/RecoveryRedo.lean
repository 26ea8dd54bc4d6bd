import ErmyaGraph.Lib.Redo
import ErmyaGraph.Storage.Recovery

/-! # Recovery that was interrupted

A crash during recovery leaves some of the pages it touched on disk, each as some
prefix of the journal left it. Recovering from there ends where the first recovery
would have ended. -/

namespace ErmyaGraph.Raw

open Outcome Bytes WalCodec Redo List Function Recovering GraphMeta

variable {state : Recovering} {record : WalCodec.WalRecord} {file : DataFile}

/-- A file whose pages pass their checks; it ends with a whole page. -/
structure DiskFile.Valid (crc : List UInt8 → UInt32) (file : DataFile) (disk : DiskFile) : Prop where
  blank : ∀ page, disk.size < (page.toNat + 1) * pageSize → disk.page page = newPageBuf
  valid : ∀ page, validatePageBuf crc (disk.page page) (expectedMagic file) file.fileName page = .ok ()

/-- Nodes and edges have their slots on the pages of these files. -/
def DataFile.HasSlots : DataFile → Prop
  | .nodes | .edges => True
  | .adjacency | .strings | .overflow => False

/-- What a crash during recovery leaves on disk: some pages, each as it was after one of the first
`n` records. -/
def Interrupted (crc : List UInt8 → UInt32) (files : DataFile → DiskFile) (info : GraphMeta)
    (records : List WalCodec.WalRecord) (n : Nat) (saved : DataFile → DiskFile) : Prop :=
  ∃ writes, saved = writePages files writes ∧ ∀ write ∈ writes, ∃ k ≤ n,
    (Recovering.replayRecords crc (committedTxnIds records) { files, info }
      (records.take k)).pool.lookup write.1 = some write.2

section Redo

variable {crc : List UInt8 → UInt32} {committed : List UInt64}

def Recovering.shown (state : Recovering) (key : PageKey) : PageBuf :=
  (state.pool.lookup key).getD ((state.files key.file).page key.page)

/-- What a record does to the pages that the store shows. -/
def pagesStep (crc : List UInt8 → UInt32) (committed : List UInt64) (pages : PageKey → PageBuf)
    (record : WalCodec.WalRecord) : PageKey → PageBuf :=
  match pageWrite committed record with
  | some (key, write) => update pages key (write.apply crc key.file (pages key))
  | none => pages

theorem pageWrite_file {record : WalCodec.WalRecord} {key : PageKey} {write : PageWrite}
    (writes : pageWrite committed record = some (key, write)) :
    match write with
    | .patch _ _ _ _ => key.file.HasSlots
    | .whole _ => ¬key.file.HasSlots := by
  cases record with
  | writeNode lsn page idx slot txn | writeEdge lsn page idx slot txn =>
    rw [pageWrite, Option.ite_none_right_eq_some] at writes
    cases writes.2
    trivial
  | tombstoneNode lsn id txn | tombstoneEdge lsn id txn =>
    rw [pageWrite, Option.ite_none_right_eq_some] at writes
    cases writes.2
    trivial
  | writeAdjPage lsn page data txn | writeStringPage lsn page data txn
  | writeOverflowPage lsn page data txn =>
    rw [pageWrite, Option.ite_none_right_eq_some] at writes
    cases writes.2
    exact id
  | freeListState | checkpoint | begin | commit | rollback => cases writes

theorem readPageOrNew_eq_shown {key : PageKey} (valid : (state.files key.file).Valid crc key.file) :
    state.readPageOrNew crc key = state.shown key := by
  unfold readPageOrNew getPage shown
  cases state.pool.lookup key with
  | some page => rfl
  | none =>
    dsimp only
    rw [BufferPool.readFromDisk, Option.getD_none]
    by_cases short : (state.files key.file).size < (key.page.toNat + 1) * pageSize
    · rw [if_pos short, valid.blank key.page short]
      rfl
    · rw [if_neg short]
      dsimp only
      rw [valid.valid key.page]
      rfl

/-- Pages of slots can be read, whatever the other files hold. -/
def Recovering.Readable (crc : List UInt8 → UInt32) (state : Recovering) : Prop :=
  ∀ file : DataFile, file.HasSlots → (state.files file).Valid crc file

theorem shown_replayRecord {state : Recovering} (readable : state.Readable crc)
    (record : WalCodec.WalRecord) :
    (state.replayRecord crc committed record).shown = pagesStep crc committed state.shown record := by
  rw [replayRecord_eq]
  unfold pagesStep
  cases writes : pageWrite committed record with
  | none => rfl
  | some entry =>
    obtain ⟨key, write⟩ := entry
    have read : write.apply crc key.file (state.readPageOrNew crc key) =
        write.apply crc key.file (state.shown key) := by
      have file := pageWrite_file writes
      cases write with
      | patch => rw [readPageOrNew_eq_shown (readable key.file file)]
      | whole => rfl
    funext other
    by_cases here : other = key
    · subst here
      simp only [shown, AList.lookup_insert, Option.getD_some, update_self, read]
    · simp only [shown, AList.lookup_insert_ne here, update_of_ne here]

theorem files_replayRecords (state : Recovering) (records : List WalCodec.WalRecord) :
    (state.replayRecords crc committed records).files = state.files := by
  induction records generalizing state with
  | nil => rfl
  | cons record rest ih =>
    refine (ih (state.replayRecord crc committed record)).trans ?_
    rw [replayRecord_eq]

theorem shown_replayRecords (readable : state.Readable crc) (records : List WalCodec.WalRecord) :
    (state.replayRecords crc committed records).shown =
      records.foldl (pagesStep crc committed) state.shown := by
  induction records generalizing state with
  | nil => rfl
  | cons record rest ih =>
    have readable' : (state.replayRecord crc committed record).Readable crc := by
      rw [replayRecord_eq]
      exact readable
    rw [foldl_cons, ← shown_replayRecord readable]
    exact ih readable'

theorem pagesStep_self {key : PageKey} {write : PageWrite}
    (writes : pageWrite committed record = some (key, write)) (pages : PageKey → PageBuf) :
    pagesStep crc committed pages record key = write.apply crc key.file (pages key) := by
  rw [pagesStep, writes]
  exact update_self key _ pages

theorem pagesStep_of_ne {key : PageKey}
    (elsewhere : (pageWrite committed record).map Prod.fst ≠ some key) (pages : PageKey → PageBuf) :
    pagesStep crc committed pages record key = pages key := by
  unfold pagesStep
  cases writes : pageWrite committed record with
  | none => rfl
  | some entry =>
    have ne : key ≠ entry.1 := by
      rintro rfl
      exact elsewhere (by rw [writes]; rfl)
    exact update_of_ne ne _ pages

/-- The byte of a page's payload that a record overwrites. -/
def byteEffect (committed : List UInt64) (key : PageKey) (i : Nat) (record : WalCodec.WalRecord) :
    Option (Option UInt8) :=
  match pageWrite committed record with
  | some (key', .patch _ slotIdx part _) =>
    if key' = key ∧ slotIdx * slotSize + part.length ≤ pagePayloadSize ∧
        slotIdx * slotSize ≤ i ∧ i < slotIdx * slotSize + part.length then
      some part[i - slotIdx * slotSize]?
    else none
  | _ => none

/-- The slot count that a record raises a page to. -/
def countBound (committed : List UInt64) (key : PageKey) (record : WalCodec.WalRecord) : Nat :=
  match pageWrite committed record with
  | some (key', .patch _ slotIdx _ _) =>
    if key' = key then (UInt16.ofNat slotIdx + 1).toNat else 0
  | _ => 0

/-- The page that a record replaces as a whole. -/
def wholeEffect (committed : List UInt64) (key : PageKey) (record : WalCodec.WalRecord) :
    Option PageBuf :=
  match pageWrite committed record with
  | some (key', .whole data) => if key' = key then some data else none
  | _ => none

section Key

variable {key : PageKey}

theorem byte_pagesStep (slots : key.file.HasSlots) (i : Nat) (pages : PageKey → PageBuf)
    (record : WalCodec.WalRecord) :
    (payload (pagesStep crc committed pages record key))[i]? =
      (byteEffect committed key i record).getD (payload (pages key))[i]? := by
  by_cases here : (pageWrite committed record).map Prod.fst = some key
  · obtain ⟨⟨key', write⟩, writes, rfl⟩ := Option.map_eq_some_iff.mp here
    have file := pageWrite_file writes
    rw [pagesStep_self writes, byteEffect, writes]
    cases write with
    | patch pageType slotIdx part lsnLow =>
      simp only [PageWrite.apply, getElem?_payload_patchPage, true_and]
      split <;> rfl
    | whole data => exact absurd slots file
  · rw [pagesStep_of_ne here, byteEffect]
    split
    · next key' pageType slotIdx part lsnLow writes =>
        have ne : key' ≠ key := by
          rintro rfl
          exact here (by rw [writes]; rfl)
        rw [if_neg fun inside => ne inside.1]
        rfl
    · rfl

theorem toNat_max_uint16 (left right : UInt16) :
    (max left right).toNat = max left.toNat right.toNat := by
  by_cases le : left ≤ right
  · exact (congrArg UInt16.toNat (if_pos le)).trans
      (Nat.max_eq_right (UInt16.le_iff_toNat_le.mp le)).symm
  · have lt : right.toNat ≤ left.toNat := by
      rw [UInt16.le_iff_toNat_le] at le
      omega
    exact (congrArg UInt16.toNat (if_neg le)).trans (Nat.max_eq_left lt).symm

theorem count_pagesStep (slots : key.file.HasSlots) (pages : PageKey → PageBuf)
    (record : WalCodec.WalRecord) :
    (PageHeader.readFrom (pagesStep crc committed pages record key)).slotCount.toNat =
      (PageHeader.readFrom (pages key)).slotCount.toNat ⊔ countBound committed key record := by
  by_cases here : (pageWrite committed record).map Prod.fst = some key
  · obtain ⟨⟨key', write⟩, writes, rfl⟩ := Option.map_eq_some_iff.mp here
    have file := pageWrite_file writes
    rw [pagesStep_self writes, countBound, writes]
    cases write with
    | patch pageType slotIdx part lsnLow =>
      simp only [PageWrite.apply, slotCount_patchPage, if_true, toNat_max_uint16]
    | whole data => exact absurd slots file
  · rw [pagesStep_of_ne here, countBound]
    split
    · next key' pageType slotIdx part lsnLow writes =>
        have ne : key' ≠ key := by
          rintro rfl
          exact here (by rw [writes]; rfl)
        rw [if_neg ne]
        exact (Nat.max_zero _).symm
    · exact (Nat.max_zero _).symm

theorem whole_pagesStep (others : ¬key.file.HasSlots) (pages : PageKey → PageBuf)
    (record : WalCodec.WalRecord) :
    pagesStep crc committed pages record key =
      (wholeEffect committed key record).getD (pages key) := by
  by_cases here : (pageWrite committed record).map Prod.fst = some key
  · obtain ⟨⟨key', write⟩, writes, rfl⟩ := Option.map_eq_some_iff.mp here
    have file := pageWrite_file writes
    rw [pagesStep_self writes, wholeEffect, writes]
    cases write with
    | patch => exact absurd file others
    | whole data => simp only [PageWrite.apply, if_true, Option.getD_some]
  · rw [pagesStep_of_ne here, wholeEffect]
    split
    · next key' data writes =>
        have ne : key' ≠ key := by
          rintro rfl
          exact here (by rw [writes]; rfl)
        rw [if_neg ne]
        rfl
    · rfl

theorem patchPage_congr {page page' : PageBuf} {file : DataFile} {pageType : PageType}
    {slotIdx : Nat} {part : List UInt8} {lsnLow : UInt16}
    (bytes : payload (patchPage crc page file pageType slotIdx part lsnLow) =
      payload (patchPage crc page' file pageType slotIdx part lsnLow))
    (counts : (PageHeader.readFrom (patchPage crc page file pageType slotIdx part lsnLow)).slotCount =
      (PageHeader.readFrom (patchPage crc page' file pageType slotIdx part lsnLow)).slotCount) :
    patchPage crc page file pageType slotIdx part lsnLow =
      patchPage crc page' file pageType slotIdx part lsnLow := by
  rw [payload_patchPage, payload_patchPage] at bytes
  rw [slotCount_patchPage, slotCount_patchPage] at counts
  apply Subtype.ext
  simp only [patchPage, finalizePageWithLsn, PageHeader.writeTo, computeCrc32, slotCount_overwrite]
  rw [bytes, counts]
  exact congrArg _ bytes

/-- Replaying the records on a page that some of them left. -/
theorem foldl_pagesStep_redo {records : List WalCodec.WalRecord} {k : Nat}
    {pages pages' : PageKey → PageBuf}
    (saved : pages' key = (records.take k).foldl (pagesStep crc committed) pages key) :
    records.foldl (pagesStep crc committed) pages' key =
      records.foldl (pagesStep crc committed) pages key := by
  by_cases slots : key.file.HasSlots
  swap
  · exact observe_redo (fun pages : PageKey → PageBuf => pages key)
      (whole_pagesStep slots) saved
  induction records using List.reverseRecOn generalizing k with
  | nil =>
    rw [take_nil] at saved
    exact saved
  | append_singleton init record ih =>
    by_cases here : (pageWrite committed record).map Prod.fst = some key
    · -- The last record seals the page, so its payload and its slot count decide it.
      have bytes (i : Nat) := observe_redo
        (fun pages : PageKey → PageBuf => (payload (pages key))[i]?)
        (byte_pagesStep slots i) (congrArg (fun page => (payload page)[i]?) saved)
      have counts := observe_redo_sup
        (fun pages : PageKey → PageBuf =>
          (PageHeader.readFrom (pages key)).slotCount.toNat)
        (count_pagesStep slots)
        (congrArg (fun page => (PageHeader.readFrom page).slotCount.toNat) saved)
      obtain ⟨⟨key', write⟩, writes, rfl⟩ := Option.map_eq_some_iff.mp here
      have file := pageWrite_file writes
      simp only [foldl_append, foldl_cons, foldl_nil, pagesStep_self writes]
        at bytes counts ⊢
      cases write with
      | patch => exact patchPage_congr (ext_getElem? bytes) (UInt16.toNat_inj.mp counts)
      | whole => exact absurd slots file
    · have skips (pages : PageKey → PageBuf) :
          (init ++ [record]).foldl (pagesStep crc committed) pages key =
            init.foldl (pagesStep crc committed) pages key := by
        rw [foldl_append]
        exact pagesStep_of_ne here _
      rw [skips, skips]
      by_cases within : k ≤ init.length
      · rw [take_append_of_le_length within] at saved
        exact ih saved
      · have all : (init ++ [record]).take k = init ++ [record] := by
          apply take_of_length_le
          rw [length_append, length_singleton]
          omega
        rw [all, skips, ← take_length (l := init)] at saved
        exact ih saved

end Key

/-- The page count that a record raises a file to. -/
def pagesBound (committed : List UInt64) (file : DataFile) (record : WalCodec.WalRecord) : Nat :=
  match pageWrite committed record with
  | some (key, _) => if key.file = file then (key.page + 1).toNat else 0
  | none => 0

/-- The free list of a file, as the metadata has it. -/
def GraphMeta.freeList (info : GraphMeta) (file : DataFile) : UInt32 × UInt32 × UInt32 :=
  (info.freeDirectoryHead file, info.freeSparePage file, info.freePageCount file)

/-- The free list of a file that a record is a snapshot of. -/
def freeListEffect (file : DataFile) : WalCodec.WalRecord → Option (UInt32 × UInt32 × UInt32)
  | .freeListState _ fileIndex directoryHead sparePage freeCount =>
    if allDataFiles[fileIndex.toNat]? = some file then some (directoryHead, sparePage, freeCount)
    else none
  | _ => none

variable (info : GraphMeta)

theorem pageCount_ensurePageCount (file other : DataFile) (minCount : UInt32) :
    ((info.ensurePageCount file minCount).pageCount other).toNat =
      (info.pageCount other).toNat ⊔ if file = other then minCount.toNat else 0 := by
  unfold GraphMeta.ensurePageCount
  by_cases here : file = other
  · subst here
    rw [if_pos rfl]
    split
    · next lt =>
        dsimp only
        rw [update_self]
        exact (Nat.max_eq_right (Nat.le_of_lt (UInt32.lt_iff_toNat_lt.mp lt))).symm
    · next ge =>
        rw [UInt32.lt_iff_toNat_lt] at ge
        exact (Nat.max_eq_left (by omega)).symm
  · rw [if_neg here, Nat.max_zero]
    split
    · dsimp only
      rw [update_of_ne (Ne.symm here)]
    · rfl

theorem freeList_ensurePageCount (file other : DataFile) (minCount : UInt32) :
    (info.ensurePageCount file minCount).freeList other = info.freeList other := by
  unfold GraphMeta.ensurePageCount
  split <;> rfl

theorem pageCount_infoWrite (file : DataFile) (info : GraphMeta) (record : WalCodec.WalRecord) :
    ((infoWrite committed info record).pageCount file).toNat =
      (info.pageCount file).toNat ⊔ pagesBound committed file record := by
  unfold infoWrite
  split
  · next lsn fileIndex directoryHead sparePage freeCount =>
      rw [replayFreeListState, pagesBound, pageWrite]
      cases allDataFiles[fileIndex.toNat]? <;> exact (Nat.max_zero _).symm
  · rw [pagesBound]
    cases pageWrite committed record with
    | none => exact (Nat.max_zero _).symm
    | some entry => exact pageCount_ensurePageCount info entry.1.file file (entry.1.page + 1)

theorem freeList_infoWrite (file : DataFile) (info : GraphMeta) (record : WalCodec.WalRecord) :
    (infoWrite committed info record).freeList file =
      (freeListEffect file record).getD (info.freeList file) := by
  unfold infoWrite
  split
  · next lsn fileIndex directoryHead sparePage freeCount =>
      rw [replayFreeListState, freeListEffect]
      cases allDataFiles[fileIndex.toNat]? with
      | none => rfl
      | some listed =>
        by_cases here : listed = file
        · subst here
          simp [freeList]
        · simp [freeList, here, update_of_ne (Ne.symm here)]
  · next others =>
      have idle : freeListEffect file record = none := by
        cases record with
        | freeListState lsn fileIndex head spare count =>
          exact absurd rfl (others lsn fileIndex head spare count)
        | _ => rfl
      rw [idle, Option.getD_none]
      cases pageWrite committed record with
      | none => rfl
      | some entry => exact freeList_ensurePageCount info entry.1.file file (entry.1.page + 1)

theorem GraphMeta.ext_of {left right : GraphMeta}
    (counts : ∀ file, (left.pageCount file).toNat = (right.pageCount file).toNat)
    (lists : ∀ file, left.freeList file = right.freeList file) : left = right := by
  have pages : left.pageCount = right.pageCount := by
    funext file
    exact UInt32.toNat_inj.mp (counts file)
  have heads : left.freeDirectoryHead = right.freeDirectoryHead := by
    funext file
    exact congrArg Prod.fst (lists file)
  have spares : left.freeSparePage = right.freeSparePage := by
    funext file
    exact congrArg (fun list => list.2.1) (lists file)
  have free : left.freePageCount = right.freePageCount := by
    funext file
    exact congrArg (fun list => list.2.2) (lists file)
  cases left
  cases right
  simp only at pages heads spares free
  rw [pages, heads, spares, free]

theorem foldl_infoWrite_redo (records : List WalCodec.WalRecord) (k : Nat) :
    records.foldl (infoWrite committed) ((records.take k).foldl (infoWrite committed) info) =
      records.foldl (infoWrite committed) info := by
  apply ext_of
  · intro file
    exact observe_redo_sup (fun info : GraphMeta => (info.pageCount file).toNat)
      (pageCount_infoWrite file) rfl
  · intro file
    exact observe_redo (fun info : GraphMeta => info.freeList file) (freeList_infoWrite file) rfl

attribute [ext] DiskFile

def diskEffect (file : DataFile) (page : UInt32) (write : PageKey × PageBuf) : Option PageBuf :=
  if write.1 = ⟨file, page⟩ then some write.2 else none

def sizeBound (file : DataFile) (write : PageKey × PageBuf) : Nat :=
  if write.1.file = file then (write.1.page.toNat + 1) * pageSize else 0

variable (files : DataFile → DiskFile)

theorem page_writePages (writes : List (PageKey × PageBuf)) (file : DataFile) (page : UInt32) :
    (writePages files writes file).page page =
      (writes.reverse.findSome? (diskEffect file page)).getD ((files file).page page) := by
  apply observe_foldl (fun files : DataFile → DiskFile => (files file).page page)
  intro files write
  obtain ⟨⟨file', page'⟩, data⟩ := write
  by_cases sameFile : file' = file
  · subst sameFile
    by_cases samePage : page' = page
    · subst samePage
      simp [diskEffect, BufferPool.writeToDisk]
    · simp [diskEffect, BufferPool.writeToDisk, samePage, update_of_ne (Ne.symm samePage)]
  · simp [diskEffect, sameFile, update_of_ne (Ne.symm sameFile)]

theorem size_writePages (writes : List (PageKey × PageBuf)) (file : DataFile) :
    (writePages files writes file).size = (files file).size ⊔ level (sizeBound file) writes := by
  apply observe_foldl_sup (fun files : DataFile → DiskFile => (files file).size)
  intro files write
  obtain ⟨⟨file', page'⟩, data⟩ := write
  by_cases sameFile : file' = file
  · subst sameFile
    simp [sizeBound, BufferPool.writeToDisk]
  · simp [sizeBound, sameFile, update_of_ne (Ne.symm sameFile)]

theorem page_writePages_cases (writes : List (PageKey × PageBuf)) (file : DataFile)
    (page : UInt32) :
    (⟨file, page⟩, (writePages files writes file).page page) ∈ writes ∨
      (∀ data, (⟨file, page⟩, data) ∉ writes) ∧
        (writePages files writes file).page page = (files file).page page := by
  rw [page_writePages]
  cases last : writes.reverse.findSome? (diskEffect file page) with
  | some data =>
    obtain ⟨write, mem, effect⟩ := exists_of_findSome?_eq_some last
    rw [diskEffect, Option.ite_none_right_eq_some] at effect
    obtain ⟨here, found⟩ := effect
    rw [← here, ← Option.some.inj found]
    exact .inl (mem_reverse.mp mem)
  | none =>
    rw [List.findSome?_eq_none_iff] at last
    refine .inr ⟨fun data mem => ?_, rfl⟩
    have idle := last _ (mem_reverse.mpr mem)
    rw [diskEffect, if_pos rfl] at idle
    cases idle

theorem size_ge_of_write {files : DataFile → DiskFile} {writes : List (PageKey × PageBuf)}
    {page : UInt32} {data : PageBuf} (mem : (⟨file, page⟩, data) ∈ writes) :
    (page.toNat + 1) * pageSize ≤ (writePages files writes file).size := by
  rw [size_writePages]
  have bound : sizeBound file (⟨file, page⟩, data) = (page.toNat + 1) * pageSize := if_pos rfl
  exact bound.symm.le.trans ((level_le_iff.mp le_rfl _ mem).trans le_sup_right)

theorem info_replayRecords (state : Recovering) (records : List WalCodec.WalRecord) :
    (state.replayRecords crc committed records).info =
      records.foldl (infoWrite committed) state.info := by
  induction records generalizing state with
  | nil => rfl
  | cons record rest ih =>
    rw [foldl_cons]
    refine (ih (state.replayRecord crc committed record)).trans ?_
    rw [replayRecord_eq]

theorem replayed_replayRecords (state : Recovering) (records : List WalCodec.WalRecord) :
    (state.replayRecords crc committed records).replayed =
      state.replayed + records.countP (isCounted committed) := by
  induction records generalizing state with
  | nil => rfl
  | cons record rest ih =>
    refine (ih (state.replayRecord crc committed record)).trans ?_
    rw [replayRecord_eq, countP_cons]
    dsimp only
    split <;> omega

theorem mem_pool_replayRecords {state : Recovering} {records : List WalCodec.WalRecord}
    {key : PageKey} :
    key ∈ (state.replayRecords crc committed records).pool ↔
      key ∈ state.pool ∨ ∃ record ∈ records, (pageWrite committed record).map Prod.fst = some key := by
  induction records generalizing state with
  | nil => simp [Recovering.replayRecords]
  | cons record rest ih =>
    have step : key ∈ (state.replayRecord crc committed record).pool ↔
        (pageWrite committed record).map Prod.fst = some key ∨ key ∈ state.pool := by
      rw [replayRecord_eq]
      cases pageWrite committed record with
      | none => simp
      | some entry =>
        dsimp only
        rw [AList.mem_insert, Option.map_some, Option.some_inj, eq_comm]
    refine ih.trans ?_
    rw [step, exists_mem_cons_iff, or_assoc, or_left_comm]

theorem mem_pool_iff {files : DataFile → DiskFile} {info : GraphMeta}
    {records : List WalCodec.WalRecord} {key : PageKey} :
    key ∈ (Recovering.replayRecords crc committed { files, info } records).pool ↔
      ∃ record ∈ records, (pageWrite committed record).map Prod.fst = some key := by
  rw [mem_pool_replayRecords]
  exact or_iff_right (AList.notMem_empty key)

theorem isCounted_of_pageWrite (writes : (pageWrite committed record).isSome) :
    isCounted committed record := by
  cases record with
  | freeListState => cases writes
  | _ => exact writes

/-- The pages put so far pass the checks of the files with slots. -/
def Recovering.PoolValid (crc : List UInt8 → UInt32) (state : Recovering) : Prop :=
  ∀ key page, state.pool.lookup key = some page → key.file.HasSlots →
    validatePageBuf crc page (expectedMagic key.file) key.file.fileName key.page = .ok ()

theorem poolValid_replayRecords (valid : state.PoolValid crc) (records : List WalCodec.WalRecord) :
    (state.replayRecords crc committed records).PoolValid crc := by
  induction records generalizing state with
  | nil => exact valid
  | cons record rest ih =>
    apply ih
    rw [replayRecord_eq]
    intro key page found slots
    cases writes : pageWrite committed record with
    | none =>
      rw [writes] at found
      exact valid key page found slots
    | some entry =>
      obtain ⟨key', write⟩ := entry
      rw [writes] at found
      dsimp only at found
      by_cases here : key = key'
      · subst here
        have file := pageWrite_file writes
        rw [AList.lookup_insert, Option.some_inj] at found
        cases write with
        | patch =>
          rw [← found]
          exact validatePageBuf_finalize ..
        | whole => exact absurd slots file
      · rw [AList.lookup_insert_ne here] at found
        exact valid key page found slots

/-- The pages that recovery writes to disk at its end. -/
def Recovering.touched (state : Recovering) : List (PageKey × PageBuf) :=
  state.pool.entries.map fun entry => (entry.1, entry.2)

theorem mem_touched {key : PageKey} {page : PageBuf} :
    (key, page) ∈ state.touched ↔ state.pool.lookup key = some page := by
  rw [touched, ← Option.mem_def, AList.mem_lookup_iff, mem_map]
  constructor
  · rintro ⟨⟨key', page'⟩, mem, same⟩
    cases same
    exact mem
  · exact fun mem => ⟨⟨key, page⟩, mem, rfl⟩

theorem page_writePages_touched (state : Recovering) (file : DataFile) (page : UInt32) :
    (writePages state.files state.touched file).page page = state.shown ⟨file, page⟩ := by
  rw [shown]
  rcases page_writePages_cases state.files state.touched file page with written | ⟨absent, kept⟩
  · rw [mem_touched.mp written]
    rfl
  · have missing : state.pool.lookup ⟨file, page⟩ = none := by
      rw [Option.eq_none_iff_forall_ne_some]
      exact fun data found => absent data (mem_touched.mpr found)
    rw [kept, missing]
    rfl

theorem level_le_touched {writes : List (PageKey × PageBuf)}
    (put : ∀ write ∈ writes, write.1 ∈ state.pool) (file : DataFile) :
    level (sizeBound file) writes ≤ level (sizeBound file) state.touched := by
  rw [level_le_iff]
  intro write mem
  obtain ⟨page, found⟩ := Option.isSome_iff_exists.mp (AList.lookup_isSome.mpr (put write mem))
  have bound : sizeBound file write = sizeBound file (write.1, page) := rfl
  rw [bound]
  exact level_le_iff.mp le_rfl _ (mem_touched.mpr found)

theorem mem_pool_of_touched {write : PageKey × PageBuf} (mem : write ∈ state.touched) :
    write.1 ∈ state.pool :=
  AList.lookup_isSome.mp (by rw [mem_touched.mp mem]; rfl)

theorem recoverFromWal_eq (files : DataFile → DiskFile) (info : GraphMeta)
    (records : List WalCodec.WalRecord) :
    let state := Recovering.replayRecords crc (committedTxnIds records) { files, info } records
    recoverFromWal crc files info records =
      (writePages files state.touched, records.foldl (infoWrite (committedTxnIds records)) info,
        records.countP (isCounted (committedTxnIds records))) := by
  intro state
  have onDisk : state.files = files := files_replayRecords _ records
  have restored : state.info = _ := info_replayRecords _ records
  have count : state.replayed = 0 + _ := replayed_replayRecords _ records
  rw [Nat.zero_add] at count
  change (if 0 < state.replayed then (writePages state.files state.touched, state.info, state.replayed)
    else (state.files, state.info, state.replayed)) = _
  rw [← restored, ← count]
  split
  · rw [onDisk]
  · next none =>
      -- Nothing was counted, so no record wrote a page.
      have untouched : state.touched = [] := by
        rw [eq_nil_iff_forall_not_mem]
        rintro ⟨key, page⟩ mem
        obtain ⟨record, inside, writes⟩ := mem_pool_iff.mp (mem_pool_of_touched mem)
        obtain ⟨entry, found, _⟩ := Option.map_eq_some_iff.mp writes
        have counted := isCounted_of_pageWrite (Option.isSome_of_eq_some found)
        have pos := countP_pos_iff.mpr ⟨record, inside, counted⟩
        omega
      rw [untouched, onDisk]
      rfl

end Redo

section Interrupted

variable {crc : List UInt8 → UInt32} {files saved : DataFile → DiskFile} {info : GraphMeta}
  {records : List WalCodec.WalRecord} {n : Nat}

theorem Interrupted.page_eq (interrupted : Interrupted crc files info records n saved)
    (valid : ∀ file, (files file).Valid crc file) (key : PageKey) :
    ∃ k ≤ n, (saved key.file).page key.page =
      (records.take k).foldl (pagesStep crc (committedTxnIds records))
        (shown { files, info }) key := by
  obtain ⟨writes, rfl, prefixes⟩ := interrupted
  obtain ⟨file, page⟩ := key
  rcases page_writePages_cases files writes file page with written | ⟨_, kept⟩
  · obtain ⟨k, within, found⟩ := prefixes _ written
    refine ⟨k, within, ?_⟩
    rw [← shown_replayRecords (fun file _ => valid file), shown, found]
    rfl
  · exact ⟨0, Nat.zero_le n, kept⟩

theorem Interrupted.valid (interrupted : Interrupted crc files info records n saved)
    (valid : ∀ file, (files file).Valid crc file) (slots : file.HasSlots) :
    (saved file).Valid crc file := by
  obtain ⟨writes, rfl, prefixes⟩ := interrupted
  constructor
  · intro page short
    rcases page_writePages_cases files writes file page with written | ⟨_, kept⟩
    · have reached : _ ≤ (writePages files writes file).size := size_ge_of_write written
      omega
    · rw [kept]
      apply (valid file).blank
      rw [size_writePages] at short
      exact lt_of_le_of_lt le_sup_left short
  · intro page
    rcases page_writePages_cases files writes file page with written | ⟨_, kept⟩
    · obtain ⟨k, within, found⟩ := prefixes _ written
      have start : Recovering.PoolValid crc { files, info } := by
        intro key page found
        cases found
      exact poolValid_replayRecords start (records.take k) _ _ found slots
    · rw [kept]
      exact (valid file).valid page

theorem Interrupted.size_eq (interrupted : Interrupted crc files info records n saved)
    (info' : GraphMeta) (file : DataFile) :
    let committed := committedTxnIds records
    (writePages saved
      (Recovering.replayRecords crc committed { files := saved, info := info' } records).touched
        file).size =
      (writePages files
        (Recovering.replayRecords crc committed { files, info } records).touched file).size := by
  intro committed
  rw [size_writePages, size_writePages]
  have again : level (sizeBound file)
        (Recovering.replayRecords crc committed { files := saved, info := info' } records).touched =
      level (sizeBound file)
        (Recovering.replayRecords crc committed { files, info } records).touched := by
    apply le_antisymm <;> refine level_le_touched (fun write mem => ?_) file
    · exact mem_pool_iff.mpr (mem_pool_iff.mp (mem_pool_of_touched mem))
    · exact mem_pool_iff.mpr (mem_pool_iff.mp (mem_pool_of_touched mem))
  obtain ⟨writes, rfl, prefixes⟩ := interrupted
  have before : level (sizeBound file) writes ≤ level (sizeBound file)
      (Recovering.replayRecords crc committed { files, info } records).touched := by
    refine level_le_touched (fun write mem => ?_) file
    obtain ⟨k, _, found⟩ := prefixes write mem
    have put : write.1 ∈ _ := AList.lookup_isSome.mp (Option.isSome_of_eq_some found)
    obtain ⟨record, inside, there⟩ := mem_pool_iff.mp put
    exact mem_pool_iff.mpr ⟨record, mem_of_mem_take inside, there⟩
  rw [size_writePages, again, sup_assoc, sup_eq_right.mpr before]

/-- Recovery from an interrupted recovery ends as the whole one. -/
theorem recovery_repeats (valid : ∀ file, (files file).Valid crc file)
    (interrupted : Interrupted crc files info records n saved) (m : Nat) :
    recoverFromWal crc saved
        (Recovering.replayRecords crc (committedTxnIds records) { files, info }
          (records.take m)).info records =
      recoverFromWal crc files info records := by
  rw [recoverFromWal_eq, recoverFromWal_eq, info_replayRecords, foldl_infoWrite_redo]
  congr 1
  funext file
  apply DiskFile.ext
  · exact interrupted.size_eq _ file
  · funext page
    generalize start : List.foldl _ info (records.take m) = info'
    have first := page_writePages_touched
      (Recovering.replayRecords crc (committedTxnIds records) { files, info } records) file page
    have second := page_writePages_touched
      (Recovering.replayRecords crc (committedTxnIds records) { files := saved, info := info' }
        records) file page
    rw [files_replayRecords, shown_replayRecords fun file _ => valid file] at first
    rw [files_replayRecords, shown_replayRecords fun file slots => interrupted.valid valid slots]
      at second
    obtain ⟨k, _, left⟩ := interrupted.page_eq valid ⟨file, page⟩
    refine second.trans (Eq.trans ?_ first.symm)
    exact foldl_pagesStep_redo left

end Interrupted

def firstSlotPage : PageBuf :=
  patchPage (fun _ => 0) newPageBuf .nodes .node 0 (List.replicate slotSize 0) 2

/-- One slot was replayed on a fresh store, and its page saved before the crash. -/
theorem recovery_repeats_newPage :
    let records : List WalCodec.WalRecord :=
      [.writeNode 2 0 0 ⟨List.replicate slotSize 0, length_replicate⟩ none]
    let info : GraphMeta := ⟨fun _ => 0, fun _ => 0, fun _ => 0, fun _ => 0⟩
    recoverFromWal (fun _ => 0) (writePages (fun _ => {}) [(⟨.nodes, 0⟩, firstSlotPage)])
        (Recovering.replayRecords (fun _ => 0) [] { files := fun _ => {}, info } records).info
        records =
      recoverFromWal (fun _ => 0) (fun _ => {}) info records := by
  intro records info
  refine recovery_repeats (n := 1) ?_ ?_ 1
  · intro file
    refine ⟨fun _ _ => rfl, fun page => ?_⟩
    have zeros : newPageBuf.val.all (· = 0) := by simp [newPageBuf]
    exact if_pos zeros
  · refine ⟨_, rfl, fun write member => ⟨1, Nat.le_refl 1, ?_⟩⟩
    cases mem_singleton.mp member
    rfl

end ErmyaGraph.Raw
