import ErmyaGraph.Lib.Faults
import ErmyaGraph.Storage.Record
import ErmyaGraph.Storage.Adjacency

/-! # Failures of the storage

Reading, writing and releasing pages fail at the storage alone. Only what encodes a record or
stores its overflow can refuse it as too large. -/

namespace ErmyaGraph

open Outcome

/-- A failure of the storage, as opposed to a refusal. -/
def Error.AtStorage : Error → Prop
  | .corruptPage _ _ _ | .invalidStringRef _ => True
  | _ => False

namespace Store

variable (store : Store)

theorem fails_readSlotPage (kind : EntityKind) (page : PageId) :
    Fails Error.AtStorage (store.readSlotPage kind page) :=
  fails_ite (fun _ => fails_ok _) fun _ => fails_error trivial

variable (key : EntityKey)

theorem errs_writeSlotToPage (slot : Slot) (logWal : Bool) :
    Errs Error.AtStorage (writeSlotToPage key slot logWal) := by
  unfold writeSlotToPage ensureSlotPage
  refine .bind (errs_get.bind fun _ => errs_forM (fun _ => ?_) _) fun _ => .bind ?_ fun _ => ?_
  · exact errs_get.bind fun _ => errs_modify _
  · cases logWal with
    | false => exact errs_pure _
    | true => exact errs_modify _
  · exact errs_get.bind fun store =>
      (errs_ofResult (fails_readSlotPage store _ _)).bind fun _ => errs_modify _

theorem fails_slabEntries (page : PageId) : Fails Error.AtStorage (store.slabEntries page) := by
  unfold slabEntries
  refine .bind (fails_ite (fun _ => fails_ok _) fun _ => fails_error trivial) fun data => ?_
  split
  · exact fails_ok _
  · exact fails_ok _

variable (page : PageId) (data : OverflowPage)

theorem errs_writeOverflowPage : Errs Error.AtStorage (writeOverflowPage page data) := by
  unfold writeOverflowPage
  refine errs_get.bind fun store => errs_ite (fun _ => errs_throw trivial) fun _ => ?_
  exact (errs_modify _).bind fun _ => errs_modify _

theorem fails_readFreeDirectory (page : PageId) :
    Fails Error.AtStorage (store.readFreeDirectory page) := by
  unfold readFreeDirectory
  split
  · exact fails_ok _
  · exact fails_error trivial

theorem errs_journalFreeListState : Errs Error.AtStorage journalFreeListState :=
  errs_get.bind fun _ => errs_modify _

theorem errs_writeOverflowPageRaw : Errs Error.AtStorage (writeOverflowPageRaw page data) :=
  (errs_modify _).bind fun _ => errs_modify _

theorem errs_releasePage : Errs Error.AtStorage (releasePage page) := by
  unfold releasePage
  refine errs_get.bind fun store => ?_
  split
  · exact (errs_modify _).bind fun _ => errs_journalFreeListState
  · split
    · exact (errs_writeOverflowPageRaw _ _).bind fun _ =>
        (errs_modify _).bind fun _ => errs_journalFreeListState
    · refine (errs_ofResult (fails_readFreeDirectory store _)).bind fun _ => errs_ite ?_ ?_
      · exact fun _ => (errs_writeOverflowPageRaw _ _).bind fun _ =>
          (errs_modify _).bind fun _ => errs_journalFreeListState
      · exact fun _ => (errs_writeOverflowPageRaw _ _).bind fun _ =>
          (errs_modify _).bind fun _ => errs_journalFreeListState

theorem errs_freeBlob (key : EntityKey) : Errs Error.AtStorage (freeBlob page key) := by
  unfold freeBlob
  refine errs_get.bind fun store => (errs_ofResult (fails_slabEntries store page)).bind fun _ => ?_
  exact errs_ite (fun _ => (errs_writeOverflowPage _ _).bind fun _ => errs_pure _)
    fun _ => errs_pure _

theorem errs_releasePrevious (previous stored : Option PageId) :
    Errs Error.AtStorage (releasePrevious key previous stored) := by
  unfold releasePrevious
  split
  · refine errs_ite (fun _ => errs_pure _) fun _ => ?_
    unfold releaseOverflowedProps
    refine errs_get.bind fun store => errs_ite (fun _ => ?_) fun _ => ?_
    · refine (errs_freeBlob _ _).bind fun _ => errs_ite (fun _ => errs_pure _) fun _ => ?_
      exact (errs_modify _).bind fun _ => errs_releasePage _
    · exact errs_get.bind fun _ => errs_forM errs_releasePage _
  · exact errs_pure _

theorem fails_readAdjPage (page : PageId) : Fails Error.AtStorage (store.readAdjPage page) :=
  fails_ite (fun _ => fails_ok _) fun _ => fails_error trivial

theorem errs_writeAdjPage (data : AdjPage) : Errs Error.AtStorage (writeAdjPage page data) :=
  errs_get.bind fun _ => errs_ite (fun _ => errs_throw trivial) fun _ => errs_set _

theorem errs_allocateAdjPage : Errs Error.AtStorage allocateAdjPage :=
  errs_get.bind fun _ => (errs_set _).bind fun _ => errs_pure _

theorem fails_subblocks (page : PageId) : Fails Error.AtStorage (store.subblocks page) := by
  unfold subblocks
  refine (fails_readAdjPage store page).bind fun data => ?_
  split
  · exact fails_ok _
  · exact fails_ok _

theorem fails_isAdjSlabPage (page : PageId) : Fails Error.AtStorage (store.isAdjSlabPage page) := by
  unfold isAdjSlabPage
  refine (fails_readAdjPage store page).bind fun data => ?_
  split
  · exact fails_ok _
  · exact fails_ok _

variable (entries : List Subblock)

theorem fails_adjSlabFreeSpace : Fails Error.AtStorage (adjSlabFreeSpace page entries) :=
  fails_ite (fun _ => fails_ok _) fun _ => fails_error trivial

theorem fails_slabCanFitSubblock (edgeCount : Nat) :
    Fails Error.AtStorage (slabCanFitSubblock page entries edgeCount) :=
  (fails_adjSlabFreeSpace page entries).bind fun _ => fails_ok _

theorem errs_allocateSlabPage : Errs Error.AtStorage allocateSlabPage :=
  errs_allocateAdjPage.bind fun _ => (errs_writeAdjPage _ _).bind fun _ => errs_pure _

variable (node : Nat)

theorem errs_writeSubblock (direction : AdjDirection) (edges : List Nat) :
    Errs Error.AtStorage (writeSubblock page node direction edges) := by
  unfold writeSubblock
  refine errs_get.bind fun store => (errs_ofResult (fails_subblocks store page)).bind fun entries =>
    errs_ite (fun _ => errs_throw trivial) fun _ => ?_
  refine (errs_ofResult (fails_adjSlabFreeSpace page entries)).bind fun _ =>
    errs_ite (fun _ => errs_throw trivial) fun _ => ?_
  exact errs_ite (fun _ => errs_throw trivial) fun _ => errs_writeAdjPage _ _

theorem fails_readSubblock (page : PageId) (node : Nat) (direction : AdjDirection) :
    Fails Error.AtStorage (store.readSubblock page node direction) := by
  unfold readSubblock
  refine (fails_subblocks store page).bind fun entries => ?_
  split
  · exact fails_ok _
  · exact fails_error trivial

theorem errs_appendSubblockEdges (direction : AdjDirection) (added : List Nat) :
    Errs Error.AtStorage (appendSubblockEdges page node direction added) := by
  unfold appendSubblockEdges
  refine errs_get.bind fun store =>
    (errs_ofResult (fails_subblocks store page)).bind fun entries => ?_
  split
  · exact errs_throw trivial
  · refine errs_ite (fun _ => errs_pure _) fun _ =>
      (errs_ofResult (fails_adjSlabFreeSpace page entries)).bind fun _ => ?_
    refine errs_ite (fun _ => errs_pure _) fun _ =>
      errs_ite (fun _ => errs_throw trivial) fun _ => ?_
    exact errs_ite (fun _ => errs_pure _) fun _ =>
      (errs_writeAdjPage _ _).bind fun _ => errs_pure _

theorem errs_freeSubblock (direction : AdjDirection) :
    Errs Error.AtStorage (freeSubblock page node direction) := by
  unfold freeSubblock
  refine errs_get.bind fun store =>
    (errs_ofResult (fails_subblocks store page)).bind fun entries => ?_
  split
  · exact errs_throw trivial
  · exact errs_writeAdjPage _ _

theorem errs_writeContinuationPages (fuel : Nat) (page : PageId) (edges : List Nat) :
    Errs Error.AtStorage (writeContinuationPages fuel page edges) := by
  induction fuel generalizing page edges with
  | zero => exact errs_pure _
  | succ fuel ih =>
    refine errs_ite (fun _ => (errs_writeAdjPage _ _).bind fun _ => errs_pure _) fun _ => ?_
    exact errs_allocateAdjPage.bind fun _ => (errs_writeAdjPage _ _).bind fun _ =>
      (ih _ _).bind fun _ => errs_pure _

theorem errs_backpatchLastPage (first last : PageId) :
    Errs Error.AtStorage (backpatchLastPage first last) := by
  unfold backpatchLastPage
  refine errs_get.bind fun store =>
    (errs_ofResult (fails_readAdjPage store first)).bind fun data => ?_
  split
  · exact errs_writeAdjPage _ _
  · exact errs_throw trivial

theorem errs_writeAdjacency (direction : AdjDirection) (edges : List Nat) :
    Errs Error.AtStorage (writeAdjacency node direction edges) := by
  unfold writeAdjacency
  refine errs_ite (fun _ => ?_) fun _ => ?_
  · exact errs_allocateAdjPage.bind fun _ => (errs_writeAdjPage _ _).bind fun _ => errs_pure _
  · exact errs_allocateAdjPage.bind fun _ => errs_allocateAdjPage.bind fun _ =>
      (errs_writeAdjPage _ _).bind fun _ => (errs_writeContinuationPages _ _ _).bind fun _ =>
      (errs_backpatchLastPage _ _).bind fun _ => errs_pure _

theorem fails_readContinuation (total fuel : Nat) (next : Option PageId) (edges : List Nat) :
    Fails Error.AtStorage (store.readContinuation total fuel next edges) := by
  induction fuel generalizing next edges with
  | zero => exact fails_ok _
  | succ fuel ih =>
    cases next with
    | none => exact fails_ok _
    | some page =>
      refine fails_ite (fun _ => ?_) fun _ => fails_ok _
      refine (fails_readAdjPage store page).bind fun data => ?_
      split
      · exact ih _ _
      · exact fails_error trivial

theorem fails_readAdjacency (page : PageId) : Fails Error.AtStorage (store.readAdjacency page) := by
  unfold readAdjacency
  refine (fails_readAdjPage store page).bind fun data => ?_
  split
  · exact fails_ite (fun _ => fails_ok _) fun _ => fails_readContinuation _ _ _ _ _
  · exact fails_error trivial

theorem fails_readAdjChainState (page : PageId) :
    Fails Error.AtStorage (store.readAdjChainState page) := by
  unfold readAdjChainState
  refine (fails_readAdjPage store page).bind fun data => ?_
  split
  · exact fails_ok _
  · exact fails_error trivial

theorem errs_extendLastPage (last : PageId) (filled rest : List Nat) :
    Errs Error.AtStorage (extendLastPage last filled rest) := by
  unfold extendLastPage
  refine errs_ite (fun _ => (errs_writeAdjPage _ _).bind fun _ => errs_pure _) fun _ => ?_
  exact errs_allocateAdjPage.bind fun _ => (errs_writeAdjPage _ _).bind fun _ =>
    (errs_writeContinuationPages _ _ _).bind fun _ => errs_pure _

theorem errs_appendAdjacencyWithState (direction : AdjDirection) (existing : Option PageId)
    (cached : Option ChainState) (added : List Nat) :
    Errs Error.AtStorage (appendAdjacencyWithState node direction existing cached added) := by
  unfold appendAdjacencyWithState
  split
  · refine (errs_writeAdjacency _ _ _).bind fun page => errs_get.bind fun store => ?_
    refine (errs_ofResult (fails_ite (fun _ => fails_ok _) fun _ => ?_)).bind fun _ => errs_pure _
    exact fails_readAdjChainState store page
  · next first =>
    refine errs_get.bind fun store => ?_
    refine (errs_ofResult ?_).bind fun state => ?_
    · split
      · exact fails_ok _
      · exact fails_readAdjChainState store first
    · refine (errs_ofResult (fails_readAdjPage store first)).bind fun data => ?_
      split
      · refine errs_ite (fun _ => errs_ite (fun _ => ?_) fun _ => ?_) fun _ => ?_
        · exact (errs_writeAdjPage _ _).bind fun _ => errs_pure _
        · exact (errs_ofResult (fails_readAdjacency store first)).bind fun _ =>
            errs_allocateAdjPage.bind fun _ => (errs_writeAdjPage _ _).bind fun _ =>
            (errs_writeContinuationPages _ _ _).bind fun _ =>
            (errs_backpatchLastPage _ _).bind fun _ => errs_pure _
        · refine (errs_ofResult (fails_readAdjPage store _)).bind fun data => ?_
          split
          · exact (errs_extendLastPage _ _ _).bind fun _ =>
              (errs_writeAdjPage _ _).bind fun _ => errs_pure _
          · exact errs_throw trivial
      · exact errs_throw trivial

theorem errs_walLogAdjPage : Errs Error.AtStorage (walLogAdjPage page) := by
  unfold walLogAdjPage
  refine errs_get.bind fun store => errs_ite (fun _ => ?_) fun _ => errs_pure _
  exact (errs_ofResult (fails_readAdjPage store page)).bind fun _ => errs_modify _

end Store

end ErmyaGraph
