import Mathlib.Order.Nat
import ErmyaGraph.Storage.Record
import ErmyaGraph.Storage.Adjacency

/-! # What storage operations append to the journal

Below the transactions every record is untagged and none is a commit marker. -/

namespace ErmyaGraph

variable {record : WalRecord}

open Outcome

/-- The transaction on whose outcome a record depends, or which it declares committed. -/
def WalRecord.subject? (record : WalRecord) : Option Nat := record.txn? <|> record.committed?

/-- One journal is another with records of the allowed kinds appended; what was flushed stays
flushed. -/
inductive Journals (allowed : WalRecord → Prop) : Option Wal → Option Wal → Prop
  | off : Journals allowed none none
  | on {before after : Wal} (added : List WalRecord)
      (grown : after.records = before.records ++ added)
      (kinds : ∀ record ∈ added, allowed record)
      (synced : before.synced ≤ before.records.length →
        before.synced ≤ after.synced ∧ after.synced ≤ after.records.length) :
      Journals allowed (some before) (some after)

abbrev Plain (record : WalRecord) : Prop := record.subject? = none

def WalRecord.OnAdjacency : WalRecord → Prop
  | .writeAdjPage _ _ => True
  | _ => False

/-- Images of overflow pages and the free list's bookkeeping. -/
def WalRecord.OnOverflow : WalRecord → Prop
  | .writeOverflowPage _ _ | .freeListState _ _ _ => True
  | _ => False

def WalRecord.OnStrings : WalRecord → Prop
  | .writeStringPage _ _ _ => True
  | _ => False

def WalRecord.Aside (record : WalRecord) : Prop := record.OnStrings ∨ record.OnOverflow

theorem WalRecord.OnAdjacency.plain (kind : record.OnAdjacency) : Plain record := by
  cases record with
  | writeAdjPage page data => rfl
  | _ => exact kind.elim

theorem WalRecord.OnOverflow.plain (kind : record.OnOverflow) : Plain record := by
  cases record with
  | writeOverflowPage page data => rfl
  | freeListState head spare count => rfl
  | _ => exact kind.elim

theorem WalRecord.OnStrings.plain (kind : record.OnStrings) : Plain record := by
  cases record with
  | writeStringPage page bytes used => rfl
  | _ => exact kind.elim

theorem WalRecord.Aside.plain (aside : record.Aside) : Plain record :=
  aside.elim WalRecord.OnStrings.plain WalRecord.OnOverflow.plain

namespace Journals

variable {allowed : WalRecord → Prop} {first second third : Option Wal} (wal : Option Wal)

theorem refl : Journals allowed wal wal := by
  cases wal with
  | none => exact .off
  | some wal => exact .on [] (by simp) (by simp) fun bounded => ⟨le_rfl, bounded⟩

theorem trans (earlier : Journals allowed first second) (later : Journals allowed second third) :
    Journals allowed first third := by
  cases earlier with
  | off => exact later
  | on added grown kinds synced =>
    cases later with
    | on more grown' kinds' synced' =>
      refine .on (added ++ more) (by rw [grown', grown, List.append_assoc]) ?_ ?_
      · intro record mem
        rcases List.mem_append.mp mem with old | new
        · exact kinds record old
        · exact kinds' record new
      · intro bounded
        obtain ⟨kept, bounded'⟩ := synced bounded
        obtain ⟨kept', bounded''⟩ := synced' bounded'
        exact ⟨kept.trans kept', bounded''⟩

theorem mono {wider : WalRecord → Prop} (journals : Journals allowed first second)
    (widen : ∀ record, allowed record → wider record) : Journals wider first second := by
  cases journals with
  | off => exact .off
  | on added grown kinds synced =>
    exact .on added grown (fun record mem => widen record (kinds record mem)) synced

theorem and {other : WalRecord → Prop} (left : Journals allowed first second)
    (right : Journals other first second) :
    Journals (fun record => allowed record ∧ other record) first second := by
  cases left with
  | off => exact .off
  | on added grown kinds synced =>
    cases right with
    | on added' grown' kinds' synced' =>
      have same : added' = added := List.append_cancel_left (grown'.symm.trans grown)
      rw [same] at kinds'
      exact .on added grown (fun record mem => ⟨kinds record mem, kinds' record mem⟩)
        synced

theorem append (kind : allowed record) (wal : Option Wal) :
    Journals allowed wal (wal.map fun wal => { wal with records := wal.records ++ [record] }) := by
  cases wal with
  | none => exact .off
  | some wal =>
    refine .on [record] rfl ?_ fun bounded => ⟨le_rfl, ?_⟩
    · intro other mem
      rw [List.mem_singleton.mp mem]
      exact kind
    · exact bounded.trans (by simp)

theorem sync :
    Journals allowed wal (wal.map fun wal => { wal with synced := wal.records.length }) := by
  cases wal with
  | none => exact .off
  | some wal => exact .on [] (by simp) (by simp) fun bounded => ⟨bounded, le_rfl⟩

theorem emptied (journals : Journals allowed first second) :
    (second.map fun _ => ({} : Wal)) = first.map fun _ => {} := by
  cases journals with
  | off => rfl
  | on => rfl

end Journals

namespace Store

variable {before after : Store}

/-- The journal grew by records of the allowed kinds. -/
def Logs (allowed : WalRecord → Prop) (before after : Store) : Prop :=
  Journals allowed before.wal after.wal

instance (allowed : WalRecord → Prop) : IsPreorder Store (Logs allowed) where
  refl store := Journals.refl store.wal
  trans _ _ _ := Journals.trans

/-- Only the adjacency file and the journal changed. -/
structure AdjacencyOnly (before after : Store) : Prop where
  logs : Logs WalRecord.OnAdjacency before after
  rest : after = { before with
    pages := { before.pages with adjacency := after.pages.adjacency }, wal := after.wal }

instance : IsPreorder Store AdjacencyOnly where
  refl store := ⟨refl_of (Logs WalRecord.OnAdjacency) store, rfl⟩
  trans first second third := by
    rintro ⟨logs, rest⟩ ⟨logs', rest'⟩
    refine ⟨trans_of (Logs WalRecord.OnAdjacency) logs logs', ?_⟩
    rw [rest', rest]

theorem adjacencyOnly_write {store : Store} (file : PageFile AdjPage) :
    AdjacencyOnly store { store with pages := { store.pages with adjacency := file } } :=
  ⟨Journals.refl store.wal, rfl⟩

theorem keeps_walAppend_adjacency (kind : record.OnAdjacency) :
    Keeps AdjacencyOnly (walAppend record) :=
  keeps_modify fun store => ⟨Journals.append kind store.wal, rfl⟩

variable (page : PageId)

theorem keeps_writeAdjPage (data : AdjPage) : Keeps AdjacencyOnly (writeAdjPage page data) := by
  refine keeps_get_bind fun store => ?_
  by_cases missing : store.pages.adjacency.count ≤ page
  · simp only [missing, ↓reduceIte]
    exact refl_of AdjacencyOnly store
  · simp only [missing, ↓reduceIte]
    exact adjacencyOnly_write _

theorem keeps_allocateAdjPage : Keeps AdjacencyOnly allocateAdjPage :=
  keeps_get_bind fun store => adjacencyOnly_write (store.pages.adjacency.grow .blank)

theorem keeps_allocateSlabPage : Keeps AdjacencyOnly allocateSlabPage := by
  refine keeps_allocateAdjPage.bind fun page => ?_
  exact (keeps_writeAdjPage page _).bind fun _ => keeps_pure page

variable (node : Nat)

theorem keeps_writeSubblock (direction : AdjDirection) (edges : List Nat) :
    Keeps AdjacencyOnly (writeSubblock page node direction edges) := by
  unfold writeSubblock
  refine keeps_get.bind fun store => (keeps_ofResult _).bind fun entries => ?_
  refine keeps_ite (fun _ => keeps_throw _) fun _ => (keeps_ofResult _).bind fun free => ?_
  refine keeps_ite (fun _ => keeps_throw _) fun _ => ?_
  exact keeps_ite (fun _ => keeps_throw _) fun _ => keeps_writeAdjPage page _

theorem keeps_appendSubblockEdges (direction : AdjDirection) (added : List Nat) :
    Keeps AdjacencyOnly (appendSubblockEdges page node direction added) := by
  unfold appendSubblockEdges
  refine keeps_get.bind fun store => (keeps_ofResult _).bind fun entries => ?_
  split
  · exact keeps_throw _
  · refine keeps_ite (fun _ => keeps_pure _) fun _ => (keeps_ofResult _).bind fun free => ?_
    refine keeps_ite (fun _ => keeps_pure _) fun _ => ?_
    refine keeps_ite (fun _ => keeps_throw _) fun _ => ?_
    refine keeps_ite (fun _ => keeps_pure _) fun _ => ?_
    exact (keeps_writeAdjPage page _).bind fun _ => keeps_pure true

theorem keeps_freeSubblock (direction : AdjDirection) :
    Keeps AdjacencyOnly (freeSubblock page node direction) := by
  unfold freeSubblock
  refine keeps_get.bind fun store => (keeps_ofResult _).bind fun entries => ?_
  split
  · exact keeps_throw _
  · exact keeps_writeAdjPage page _

theorem keeps_rewriteSubblockEdges (direction : AdjDirection) (edges : List Nat) :
    Keeps AdjacencyOnly (rewriteSubblockEdges page node direction edges) := by
  unfold rewriteSubblockEdges
  refine keeps_get.bind fun store => (keeps_ofResult _).bind fun entries => ?_
  split
  · exact keeps_throw _
  · exact keeps_ite (fun _ => keeps_throw _) fun _ => keeps_writeAdjPage page _

variable (fuel : Nat)

theorem keeps_writeContinuationPages (page : PageId) (edges : List Nat) :
    Keeps AdjacencyOnly (writeContinuationPages fuel page edges) := by
  induction fuel generalizing page edges with
  | zero => exact keeps_pure []
  | succ fuel ih =>
    unfold writeContinuationPages
    refine keeps_ite (fun _ => ?_) fun _ => ?_
    · exact (keeps_writeAdjPage page _).bind fun _ => keeps_pure _
    · refine keeps_allocateAdjPage.bind fun next => (keeps_writeAdjPage page _).bind fun _ => ?_
      exact (ih next _).bind fun others => keeps_pure _

theorem keeps_backpatchLastPage (first last : PageId) :
    Keeps AdjacencyOnly (backpatchLastPage first last) := by
  unfold backpatchLastPage
  refine keeps_get.bind fun store => (keeps_ofResult _).bind fun data => ?_
  split
  · exact keeps_writeAdjPage first _
  · exact keeps_throw _

theorem keeps_writeAdjacency (direction : AdjDirection) (edges : List Nat) :
    Keeps AdjacencyOnly (writeAdjacency node direction edges) := by
  unfold writeAdjacency
  refine keeps_ite (fun _ => ?_) fun _ => ?_
  · refine keeps_allocateAdjPage.bind fun page => ?_
    exact (keeps_writeAdjPage page _).bind fun _ => keeps_pure page
  · refine keeps_allocateAdjPage.bind fun first => keeps_allocateAdjPage.bind fun next => ?_
    refine (keeps_writeAdjPage first _).bind fun _ => ?_
    refine (keeps_writeContinuationPages _ next _).bind fun written => ?_
    exact (keeps_backpatchLastPage first _).bind fun _ => keeps_pure first

theorem keeps_extendLastPage (last : PageId) (filled rest : List Nat) :
    Keeps AdjacencyOnly (extendLastPage last filled rest) := by
  unfold extendLastPage
  refine keeps_ite (fun _ => ?_) fun _ => ?_
  · exact (keeps_writeAdjPage last _).bind fun _ => keeps_pure _
  · refine keeps_allocateAdjPage.bind fun fresh => (keeps_writeAdjPage last _).bind fun _ => ?_
    exact (keeps_writeContinuationPages _ fresh _).bind fun others => keeps_pure _

theorem keeps_appendAdjacencyWithState (direction : AdjDirection) (existing : Option PageId)
    (cached : Option ChainState) (added : List Nat) :
    Keeps AdjacencyOnly (appendAdjacencyWithState node direction existing cached added) := by
  unfold appendAdjacencyWithState
  split
  · refine (keeps_writeAdjacency node direction added).bind fun page => ?_
    exact keeps_get.bind fun store => (keeps_ofResult _).bind fun state => keeps_pure _
  · next first =>
      refine keeps_get.bind fun store => (keeps_ofResult _).bind fun state => ?_
      refine (keeps_ofResult _).bind fun data => ?_
      split
      · refine keeps_ite (fun _ => ?_) fun _ => ?_
        · refine keeps_ite (fun _ => ?_) fun _ => ?_
          · exact (keeps_writeAdjPage first _).bind fun _ => keeps_pure _
          · refine (keeps_ofResult _).bind fun present => keeps_allocateAdjPage.bind fun head => ?_
            refine (keeps_writeAdjPage first _).bind fun _ => ?_
            refine (keeps_writeContinuationPages _ head _).bind fun written => ?_
            exact (keeps_backpatchLastPage first _).bind fun _ => keeps_pure _
        · refine (keeps_ofResult _).bind fun last => ?_
          split
          · refine (keeps_extendLastPage _ _ _).bind fun written => ?_
            exact (keeps_writeAdjPage first _).bind fun _ => keeps_pure _
          · exact keeps_throw _
      · exact keeps_throw _

theorem keeps_walLogAdjPage : Keeps AdjacencyOnly (walLogAdjPage page) := by
  unfold walLogAdjPage
  refine keeps_get.bind fun store => keeps_ite (fun _ => ?_) fun _ => keeps_pure _
  exact (keeps_ofResult _).bind fun data => keeps_walAppend_adjacency trivial

/-- Only the overflow file, its free list, the journal and the choice of the open packed page
changed. -/
structure OverflowOnly (before after : Store) : Prop where
  logs : Logs WalRecord.OnOverflow before after
  rest : after = { before with
    pages := { before.pages with overflow := after.pages.overflow }
    info := { before.info with
      freeDirectoryHead := after.info.freeDirectoryHead
      freeSparePage := after.info.freeSparePage
      freePageCount := after.info.freePageCount }
    wal := after.wal
    propSlabOpenPage := after.propSlabOpenPage }

instance : IsPreorder Store OverflowOnly where
  refl store := ⟨refl_of (Logs WalRecord.OnOverflow) store, rfl⟩
  trans first second third := by
    rintro ⟨logs, rest⟩ ⟨logs', rest'⟩
    refine ⟨trans_of (Logs WalRecord.OnOverflow) logs logs', ?_⟩
    rw [rest', rest]

theorem keeps_walAppend_overflow (kind : record.OnOverflow) :
    Keeps OverflowOnly (walAppend record) :=
  keeps_modify fun store => ⟨Journals.append kind store.wal, rfl⟩

variable (data : OverflowPage)

theorem keeps_setOverflowPage : Keeps OverflowOnly (setOverflowPage page data) :=
  keeps_modify fun store => ⟨Journals.refl store.wal, rfl⟩

theorem keeps_writeOverflowPageRaw : Keeps OverflowOnly (writeOverflowPageRaw page data) := by
  have image : (WalRecord.writeOverflowPage page data).OnOverflow := trivial
  exact (keeps_walAppend_overflow image).bind fun _ => keeps_setOverflowPage page data

theorem keeps_writeOverflowPage : Keeps OverflowOnly (writeOverflowPage page data) := by
  unfold writeOverflowPage
  refine keeps_get.bind fun store => keeps_ite (fun _ => keeps_throw _) fun _ => ?_
  have image : (WalRecord.writeOverflowPage page data).OnOverflow := trivial
  exact (keeps_walAppend_overflow image).bind fun _ => keeps_setOverflowPage page data

theorem keeps_journalFreeListState : Keeps OverflowOnly journalFreeListState :=
  keeps_get.bind fun _ => keeps_walAppend_overflow trivial

theorem keeps_modifyMeta {f : Meta → Meta}
    (freeOnly : ∀ info, f info = { info with
      freeDirectoryHead := (f info).freeDirectoryHead
      freeSparePage := (f info).freeSparePage
      freePageCount := (f info).freePageCount }) :
    Keeps OverflowOnly (modifyMeta f) := by
  refine keeps_modify fun store => ⟨Journals.refl store.wal, ?_⟩
  dsimp only
  rw [← freeOnly store.info]

theorem keeps_takeFreePage : Keeps OverflowOnly takeFreePage := by
  unfold takeFreePage
  refine keeps_get.bind fun store => ?_
  split
  · refine (keeps_modifyMeta fun _ => rfl).bind fun _ => ?_
    exact keeps_journalFreeListState.bind fun _ => keeps_pure _
  · split
    · exact keeps_pure _
    · refine (keeps_ofResult _).bind fun (next, entries) => ?_
      dsimp only
      split
      · refine (keeps_writeOverflowPageRaw _ _).bind fun _ => ?_
        refine (keeps_modifyMeta fun _ => rfl).bind fun _ => ?_
        exact keeps_journalFreeListState.bind fun _ => keeps_pure _
      · refine (keeps_modifyMeta fun _ => rfl).bind fun _ => ?_
        exact keeps_journalFreeListState.bind fun _ => keeps_pure _

theorem keeps_releasePage : Keeps OverflowOnly (releasePage page) := by
  unfold releasePage
  refine keeps_get.bind fun store => ?_
  split
  · exact (keeps_modifyMeta fun _ => rfl).bind fun _ => keeps_journalFreeListState
  · split
    · refine (keeps_writeOverflowPageRaw _ _).bind fun _ => ?_
      exact (keeps_modifyMeta fun _ => rfl).bind fun _ => keeps_journalFreeListState
    · refine (keeps_ofResult _).bind fun directory => keeps_ite (fun _ => ?_) fun _ => ?_
      · refine (keeps_writeOverflowPageRaw _ _).bind fun _ => ?_
        exact (keeps_modifyMeta fun _ => rfl).bind fun _ => keeps_journalFreeListState
      · refine (keeps_writeOverflowPageRaw _ _).bind fun _ => ?_
        exact (keeps_modifyMeta fun _ => rfl).bind fun _ => keeps_journalFreeListState

theorem keeps_allocateOverflowPage : Keeps OverflowOnly allocateOverflowPage := by
  unfold allocateOverflowPage
  refine keeps_takeFreePage.bind fun taken => ?_
  split
  · exact (keeps_setOverflowPage _ _).bind fun _ => keeps_pure _
  · exact keeps_get_bind fun store => ⟨Journals.refl store.wal, rfl⟩

variable (key : EntityKey)

theorem keeps_writeBlob (blob : List UInt8) : Keeps OverflowOnly (writeBlob page key blob) := by
  unfold writeBlob
  refine keeps_get.bind fun store => (keeps_ofResult _).bind fun entries => ?_
  exact (keeps_ofResult _).bind fun written => keeps_writeOverflowPage page _

theorem keeps_freeBlob : Keeps OverflowOnly (freeBlob page key) := by
  unfold freeBlob
  refine keeps_get.bind fun store => (keeps_ofResult _).bind fun entries => ?_
  refine keeps_ite (fun _ => ?_) fun _ => ?_
  · exact (keeps_writeOverflowPage page _).bind fun _ => keeps_pure _
  · exact keeps_pure _

theorem keeps_writeContPages (page : PageId) (data : List UInt8) :
    Keeps OverflowOnly (writeContPages fuel page data) := by
  induction fuel generalizing page data with
  | zero => exact keeps_pure _
  | succ fuel ih =>
    unfold writeContPages
    refine keeps_ite (fun _ => keeps_writeOverflowPage page _) fun _ => ?_
    refine keeps_allocateOverflowPage.bind fun next => ?_
    exact (keeps_writeOverflowPage page _).bind fun _ => ih next _

theorem keeps_writeOverflow (data : List UInt8) : Keeps OverflowOnly (writeOverflow data) := by
  unfold writeOverflow
  refine keeps_ite (fun _ => keeps_throw _) fun _ => ?_
  refine keeps_allocateOverflowPage.bind fun page => ?_
  refine keeps_ite (fun _ => ?_) fun _ => ?_
  · exact (keeps_writeOverflowPage page _).bind fun _ => keeps_pure page
  · refine keeps_allocateOverflowPage.bind fun next => ?_
    refine (keeps_writeOverflowPage page _).bind fun _ => ?_
    exact (keeps_writeContPages _ next _).bind fun _ => keeps_pure page

theorem keeps_freeOverflowChain : Keeps OverflowOnly (freeOverflowChain page) :=
  keeps_get.bind fun _ => keeps_forM _ fun page _ => keeps_releasePage page

variable (key : EntityKey)

theorem keeps_storeOverflowedProps (bytes : List UInt8) :
    Keeps OverflowOnly (storeOverflowedProps key bytes) := by
  unfold storeOverflowedProps
  refine keeps_get.bind fun store => keeps_ite (fun _ => keeps_writeOverflow bytes) fun _ => ?_
  split
  · exact (keeps_writeBlob _ key bytes).bind fun _ => keeps_pure _
  · refine keeps_allocateOverflowPage.bind fun page => ?_
    refine (keeps_writeOverflowPage page _).bind fun _ => ?_
    refine (keeps_writeBlob page key bytes).bind fun _ => ?_
    refine Keeps.bind ?_ fun _ => keeps_pure page
    exact keeps_modify fun store => ⟨Journals.refl store.wal, rfl⟩

theorem keeps_releaseOverflowedProps (page : PageId) :
    Keeps OverflowOnly (releaseOverflowedProps key page) := by
  unfold releaseOverflowedProps
  refine keeps_get.bind fun store => keeps_ite (fun _ => ?_) fun _ => keeps_freeOverflowChain page
  refine (keeps_freeBlob page key).bind fun stillLive => keeps_ite (fun _ => ?_) fun _ => ?_
  · exact keeps_pure _
  · refine Keeps.bind ?_ fun _ => keeps_releasePage page
    refine keeps_modify fun store => ?_
    by_cases isOpen : store.propSlabOpenPage = some page
    · simp only [isOpen, ↓reduceIte]
      exact ⟨Journals.refl store.wal, rfl⟩
    · simp only [isOpen, ↓reduceIte]
      exact refl_of OverflowOnly store

/-- Only the string file, the heap's own state and the journal changed. -/
structure StringsOnly (before after : Store) : Prop where
  logs : Logs WalRecord.OnStrings before after
  rest : after = { before with
    pages := { before.pages with strings := after.pages.strings }
    wal := after.wal
    heapDedup := after.heapDedup
    heapOffset := after.heapOffset }

instance : IsPreorder Store StringsOnly where
  refl store := ⟨refl_of (Logs WalRecord.OnStrings) store, rfl⟩
  trans first second third := by
    rintro ⟨logs, rest⟩ ⟨logs', rest'⟩
    refine ⟨trans_of (Logs WalRecord.OnStrings) logs logs', ?_⟩
    rw [rest', rest]

theorem keeps_allocateStringPage : Keeps StringsOnly allocateStringPage :=
  keeps_modify fun store => ⟨Journals.refl store.wal, rfl⟩

theorem keeps_writeHeapChunks (offset : Nat) (data : List UInt8) :
    Keeps StringsOnly (writeHeapChunks fuel offset data) := by
  induction fuel generalizing offset data with
  | zero => exact keeps_pure _
  | succ fuel ih =>
    unfold writeHeapChunks
    refine keeps_ite (fun _ => keeps_pure _) fun _ => keeps_get.bind fun store => ?_
    refine (keeps_forM _ fun _ _ => keeps_allocateStringPage).bind fun _ => ?_
    refine Keeps.bind ?_ fun _ => keeps_get.bind fun store => ?_
    · exact keeps_modify fun store => ⟨Journals.refl store.wal, rfl⟩
    · refine Keeps.bind ?_ fun _ => ih _ _
      refine keeps_modify fun store => ⟨?_, rfl⟩
      exact Journals.append (by exact trivial) store.wal

theorem keeps_heapAppend (text : String) : Keeps StringsOnly (heapAppend text) := by
  unfold heapAppend
  refine keeps_get.bind fun store => ?_
  split
  · exact keeps_pure _
  · refine keeps_ite (fun _ => keeps_throw _) fun _ => keeps_ite (fun _ => keeps_throw _) fun _ => ?_
    refine (keeps_writeHeapChunks _ _ _).bind fun _ => Keeps.bind ?_ fun _ => keeps_pure _
    exact keeps_modify fun store => ⟨Journals.refl store.wal, rfl⟩

/-- Records may have moved or changed, but neither adjacency pages nor counters did. -/
structure RecordsOnly (allowed : WalRecord → Prop) (before after : Store) : Prop where
  logs : Logs allowed before after
  adjacency : after.pages.adjacency = before.pages.adjacency
  entityCount : after.info.entityCount = before.info.entityCount
  nextId : after.info.nextId = before.info.nextId

instance (allowed : WalRecord → Prop) : IsPreorder Store (RecordsOnly allowed) where
  refl store := ⟨refl_of (Logs allowed) store, rfl, rfl, rfl⟩
  trans first second third := by
    rintro ⟨logs, adjacency, entityCount, nextId⟩ ⟨logs', adjacency', entityCount', nextId'⟩
    exact ⟨trans_of (Logs allowed) logs logs', adjacency'.trans adjacency,
      entityCount'.trans entityCount, nextId'.trans nextId⟩

variable {allowed : WalRecord → Prop}

theorem RecordsOnly.mono {wider : WalRecord → Prop} (only : RecordsOnly allowed before after)
    (widen : ∀ record, allowed record → wider record) : RecordsOnly wider before after :=
  ⟨only.logs.mono widen, only.adjacency, only.entityCount, only.nextId⟩

theorem OverflowOnly.recordsOnly (only : OverflowOnly before after) :
    RecordsOnly Plain before after := by
  refine ⟨only.logs.mono fun _ => WalRecord.OnOverflow.plain, ?_, ?_, ?_⟩
  · rw [only.rest]
  · rw [only.rest]
  · rw [only.rest]

theorem StringsOnly.recordsOnly (only : StringsOnly before after) :
    RecordsOnly Plain before after := by
  refine ⟨only.logs.mono fun _ => WalRecord.OnStrings.plain, ?_, ?_, ?_⟩
  · rw [only.rest]
  · rw [only.rest]
  · rw [only.rest]

theorem keeps_handleSlotOverflow_of {R : Store → Store → Prop} [IsPreorder Store R]
    (strings : ∀ before after, StringsOnly before after → R before after)
    (overflow : ∀ before after, OverflowOnly before after → R before after) (key : EntityKey)
    (encoded : EncodedSlot) (previous : Option PageId) :
    Keeps R (handleSlotOverflow key encoded previous) := by
  have label : Keeps R (storeLabel encoded.labelOverflow) := by
    cases encoded.labelOverflow with
    | none => exact keeps_pure 0
    | some text => exact (keeps_heapAppend text).mono strings
  have props : Keeps R (storeProps key encoded.propsOverflow) := by
    cases encoded.propsOverflow with
    | none => exact keeps_pure none
    | some bytes => exact ((keeps_storeOverflowedProps key bytes).mono overflow).map some
  have release (stored : Option PageId) : Keeps R (releasePrevious key previous stored) := by
    cases previous with
    | none => exact keeps_pure ()
    | some old =>
      exact keeps_ite (fun _ => keeps_pure ()) fun _ =>
        (keeps_releaseOverflowedProps key old).mono overflow
  unfold handleSlotOverflow
  apply label.bind
  intro labelRef
  apply props.bind
  intro stored
  apply (release stored).bind
  intro _
  exact keeps_ite (fun _ => keeps_pure _) fun _ => keeps_pure _

theorem keeps_handleSlotOverflow (encoded : EncodedSlot) (previous : Option PageId) :
    Keeps (RecordsOnly Plain) (handleSlotOverflow key encoded previous) :=
  keeps_handleSlotOverflow_of (fun _ _ => StringsOnly.recordsOnly)
    (fun _ _ => OverflowOnly.recordsOnly) key encoded previous

variable (kind : EntityKind)

theorem keeps_setSlotFile (file : PageFile SlotPage) :
    Keeps (RecordsOnly allowed) (setSlotFile kind file) :=
  keeps_modify fun store => ⟨Journals.refl store.wal, rfl, rfl, rfl⟩

theorem keeps_ensureSlotPage (page : PageId) :
    Keeps (RecordsOnly allowed) (ensureSlotPage kind page) := by
  refine keeps_get.bind fun store => keeps_forM _ fun _ _ => ?_
  exact keeps_get.bind fun store => keeps_setSlotFile kind _

theorem keeps_walAppend_records (kind : allowed record) :
    Keeps (RecordsOnly allowed) (walAppend record) :=
  keeps_modify fun store => ⟨Journals.append kind store.wal, rfl, rfl, rfl⟩

theorem keeps_walSync : Keeps (RecordsOnly allowed) walSync :=
  keeps_modify fun store => ⟨Journals.sync store.wal, rfl, rfl, rfl⟩

theorem keeps_walAppendIf (logWal : Bool) (kind : Plain record) :
    Keeps (RecordsOnly Plain) (walAppendIf logWal record) :=
  keeps_ite (fun _ => keeps_walAppend_records kind) fun _ => keeps_pure ()

theorem keeps_writeSlotToPage (slot : Slot) (logWal : Bool) :
    Keeps (RecordsOnly Plain) (writeSlotToPage key slot logWal) := by
  unfold writeSlotToPage
  refine (keeps_ensureSlotPage key.kind _).bind fun _ => ?_
  refine (keeps_walAppendIf logWal rfl).bind fun _ => keeps_get.bind fun store => ?_
  exact (keeps_ofResult _).bind fun current => keeps_setSlotFile key.kind _

theorem keeps_writeRecordSlot (record : Record) :
    Keeps (RecordsOnly Plain) (writeRecordSlot kind record) := by
  unfold writeRecordSlot
  refine (keeps_ofResult _).bind fun encoded => keeps_get.bind fun store => ?_
  exact (keeps_handleSlotOverflow _ encoded _).bind fun slot => keeps_writeSlotToPage _ slot true

theorem keeps_tombstoneSlot (logWal : Bool) :
    Keeps (RecordsOnly Plain) (tombstoneSlot key logWal) := by
  unfold tombstoneSlot
  refine (keeps_walAppendIf logWal rfl).bind fun _ => keeps_get.bind fun store => ?_
  split
  · exact keeps_pure ()
  · refine (keeps_setSlotFile key.kind _).bind fun _ => ?_
    split
    · exact (keeps_releaseOverflowedProps key _).mono fun _ _ => OverflowOnly.recordsOnly
    · exact keeps_pure ()

theorem keeps_materializeRecord (record : Record) :
    Keeps (RecordsOnly Plain) (materializeRecord kind record) := by
  unfold materializeRecord
  refine (keeps_ofResult _).bind fun encoded => ?_
  refine (keeps_handleSlotOverflow _ encoded none).bind fun slot => keeps_get.bind fun store => ?_
  exact keeps_writeSlotToPage _ _ false

/-- Records that bear on no transaction but the given one. -/
def About (txn : Nat) (record : WalRecord) : Prop := ∀ other, record.subject? = some other → other = txn

theorem About.of_plain {txn : Nat} (plain : Plain record) : About txn record := by
  intro other named
  rw [plain] at named
  cases named

theorem keeps_walLogRedo (record : Record) (txn : Nat) :
    Keeps (RecordsOnly (About txn)) (walLogRedo kind record txn) := by
  unfold walLogRedo
  refine (keeps_ofResult _).bind fun encoded => ?_
  refine ((keeps_handleSlotOverflow _ encoded none).mono fun _ _ only => ?_).bind fun slot => ?_
  · exact only.mono fun _ => About.of_plain
  · refine keeps_walAppend_records ?_
    intro other named
    exact (Option.some.inj named).symm

end Store

end ErmyaGraph
