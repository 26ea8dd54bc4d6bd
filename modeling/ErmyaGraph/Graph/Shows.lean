import ErmyaGraph.Graph.Run
import ErmyaGraph.Versions.Moves

/-! # The view a graph shows

The storage engine, the existence sets and the chains of a graph, read as a
view; point reads are lookups in it. -/

namespace ErmyaGraph.Graph

open Outcome Store

structure Shows (graph : Graph) (view : View) : Prop where
  store : StoreIs graph.store view.contents
  present : ∀ key, graph.exists? key = view.present key
  pinned : ∀ key, graph.skipsVersions key = view.pinned key
  mvcc : graph.mvcc = some view.mvcc
  nextId : graph.store.info.nextId = view.nextId
  pending : ∀ link ∈ graph.adj.pending.map Prod.fst, 0 < link.1

/-- The result of a point read that finds the given version. -/
def found (key : EntityKey) : Option Record → Except Error Record
  | some record => .ok record
  | none => .error key.notFound

section Reads

variable {graph : Graph} {view : View} (shows_ : graph.Shows view)

include shows_

theorem Shows.chain (key : EntityKey) : graph.chain key = view.chain key := by
  simp [Graph.chain, shows_.mvcc, View.chain]

theorem Shows.isActive (txn : Nat) : graph.isActive txn = view.mvcc.isActive txn := by
  simp [Graph.isActive, shows_.mvcc]

theorem Shows.autoCommitStartTs : graph.autoCommitStartTs = view.mvcc.clock := by
  simp [Graph.autoCommitStartTs, shows_.mvcc]

variable {state : TxnState}

theorem Shows.txnStartTs {txn : Nat} (active : view.mvcc.active txn = some state) :
    graph.txnStartTs txn = .ok state.startTs := by
  simp [Graph.txnStartTs, shows_.mvcc, Mvcc.startTs?, active]

variable {key : EntityKey}

theorem Shows.readRecord (pos : 0 < key.id) :
    match view.contents key with
    | .live record => graph.store.readRecord key = .ok record
    | _ => ∃ e, graph.store.readRecord key = .error e :=
  shows_.store.read pos

theorem Shows.committedBase (readable : view.Readable key) :
    graph.committedBase key = .ok (view.base key) := by
  unfold Graph.committedBase View.base
  rw [shows_.present]
  by_cases present : view.present key
  · have read := shows_.readRecord (readable.positive present)
    simp only [present, ↓reduceIte]
    cases held : view.contents key with
    | live record =>
      rw [held] at read
      rw [read]
    | blank | erased =>
      rw [held] at read
      obtain ⟨e, failed⟩ := read
      rw [failed, shows_.chain]
      cases chain : view.chain key with
      | nil =>
        obtain ⟨record, live⟩ := readable.live present chain
        rw [held] at live
        cases live
      | cons delta rest => rfl
  · simp only [Bool.not_eq_true] at present
    simp [present]

theorem Shows.resolveVisible (readable : view.Readable key) (startTs : Nat) (reader : Option Nat) :
    graph.resolveVisible key startTs reader = found key (view.version key startTs reader) := by
  unfold Graph.resolveVisible View.version
  have enabled : graph.mvcc.isNone = false := by simp [shows_.mvcc]
  rw [shows_.committedBase readable, shows_.chain]
  simp only [enabled, Bool.false_eq_true, ↓reduceIte, bind, Except.bind, pure, Except.pure]
  cases (view.chain key).applyForRead (view.base key) startTs reader with
  | none => rfl
  | some snapshot =>
    cases snapshot with
    | live record => rfl
    | deleted => rfl

theorem Shows.readInTxn (coherent : view.Coherent) {txn : Nat}
    (active : view.mvcc.active txn = some state) (key : EntityKey) :
    graph.readInTxn txn key = found key (view.version key state.startTs (some txn)) := by
  unfold Graph.readInTxn
  rw [shows_.txnStartTs active]
  exact shows_.resolveVisible (coherent.readable key) state.startTs (some txn)

theorem Shows.read_of_readable (readable : view.Readable key) :
    graph.read key = found key (view.version key view.mvcc.clock none) := by
  unfold Graph.read
  have enabled : graph.mvcc.isNone = false := by simp [shows_.mvcc]
  rw [shows_.pinned, enabled, Bool.or_false, shows_.autoCommitStartTs]
  by_cases pinned : view.pinned key
  · have settled := readable.pinned pinned
    simp only [pinned, ↓reduceIte, shows_.present]
    by_cases present : view.present key
    · obtain ⟨record, live⟩ := readable.live present settled
      have read := shows_.readRecord (readable.positive present)
      rw [live] at read
      simp [present, read, View.version, settled, View.base, live, DeltaChain.applyForRead,
        EntitySnapshot.record?, found]
    · simp only [Bool.not_eq_true] at present
      simp [present, View.version, settled, View.base, DeltaChain.applyForRead, found]
  · simp only [Bool.not_eq_true] at pinned
    simp only [pinned, Bool.false_eq_true, ↓reduceIte]
    exact shows_.resolveVisible readable view.mvcc.clock none

theorem Shows.read (coherent : view.Coherent) (key : EntityKey) :
    graph.read key = found key (view.version key view.mvcc.clock none) :=
  shows_.read_of_readable (coherent.readable key)

theorem Shows.chainBase (coherent : view.Coherent) (txn : Nat) (key : EntityKey) :
    graph.chainBase txn key = view.chainBase txn key := by
  unfold Graph.chainBase View.chainBase
  rw [shows_.chain]
  cases (view.chain key).find? fun delta => delta.txn = txn && delta.commitTs.isNone with
  | some own => rfl
  | none =>
    simp only [shows_.present, View.base]
    by_cases present : view.present key
    · have read := shows_.readRecord (coherent.allotted_of_present present).1
      simp only [present, ↓reduceIte]
      cases held : view.contents key with
      | live record =>
        rw [held] at read
        rw [read]
      | blank =>
        rw [held] at read
        obtain ⟨e, failed⟩ := read
        rw [failed]
      | erased =>
        rw [held] at read
        obtain ⟨e, failed⟩ := read
        rw [failed]
    · simp only [Bool.not_eq_true] at present
      simp [present]

end Reads

instance : IsPreorder Store SameData where
  refl _ := ⟨rfl, rfl, rfl, rfl, rfl, rfl, rfl, rfl⟩
  trans _ _ _ := fun here there =>
    ⟨there.slots.trans here.slots, there.overflow.trans here.overflow,
      there.strings.trans here.strings, there.heapDedup.trans here.heapDedup,
      there.heapOffset.trans here.heapOffset, there.openPage.trans here.openPage,
      there.directory.trans here.directory, there.spare.trans here.spare⟩

/-- Nothing that the view is made of changed. -/
structure SameView (before after : Graph) : Prop where
  store : SameData before.store after.store
  nextId : after.store.info.nextId = before.store.info.nextId
  present : after.index.present = before.index.present
  appendOnlyIds : after.appendOnlyIds = before.appendOnlyIds
  mvcc : after.mvcc = before.mvcc
  pending : after.adj.pending.map Prod.fst = before.adj.pending.map Prod.fst

instance : IsPreorder Graph SameView where
  refl graph := ⟨refl_of SameData graph.store, rfl, rfl, rfl, rfl, rfl⟩
  trans _ _ _ := fun here there =>
    ⟨trans_of SameData here.store there.store, there.nextId.trans here.nextId,
      there.present.trans here.present, there.appendOnlyIds.trans here.appendOnlyIds,
      there.mvcc.trans here.mvcc, there.pending.trans here.pending⟩

theorem Shows.congr {before after : Graph} {view : View} (shows_ : before.Shows view)
    (same : SameView before after) : after.Shows view where
  store := shows_.store.congr same.store
  present key := by
    simp only [exists?, same.present]
    exact shows_.present key
  pinned key := by
    simp only [skipsVersions, same.appendOnlyIds]
    exact shows_.pinned key
  mvcc := same.mvcc.trans shows_.mvcc
  nextId := same.nextId.trans shows_.nextId
  pending := by
    rw [same.pending]
    exact shows_.pending

theorem Shows.sat {α : Type} {x : GraphM α} {graph : Graph} {view : View}
    (shows_ : graph.Shows view) (keeps : Keeps SameView x) :
    Sat x graph (fun _ after => after.Shows view) (fun _ after => after.Shows view) :=
  (keeps graph).mono (fun _ _ same => shows_.congr same) (fun _ _ same => shows_.congr same)

theorem LinksOnly.sameView {before after : Graph} (only : LinksOnly before after) :
    SameView before after := by
  refine ⟨only.store.sameData, ?_, ?_, ?_, ?_, only.pending⟩
  · rw [only.store.rest]
  · rw [only.rest]
  · rw [only.rest]
  · rw [only.rest]

theorem sameView_walAppend (record : WalRecord) : Keeps SameView (onStore (Store.walAppend record)) :=
  fun _ => ⟨⟨rfl, rfl, rfl, rfl, rfl, rfl, rfl, rfl⟩, rfl, rfl, rfl, rfl, rfl⟩

theorem sameView_walSync : Keeps SameView walSync := by
  refine keeps_get.bind fun graph => keeps_ite (fun _ => ?_) fun _ => keeps_pure _
  exact fun _ => ⟨⟨rfl, rfl, rfl, rfl, rfl, rfl, rfl, rfl⟩, rfl, rfl, rfl, rfl, rfl⟩

theorem sameView_bumpCount (kind : EntityKind) (f : Nat → Nat) : Keeps SameView (bumpCount kind f) :=
  fun _ => ⟨⟨rfl, rfl, rfl, rfl, rfl, rfl, rfl, rfl⟩, rfl, rfl, rfl, rfl, rfl⟩

theorem sameView_modifyIndex {f : Indexes → Indexes}
    (present : ∀ index, (f index).present = index.present) : Keeps SameView (modifyIndex f) :=
  keeps_modify fun graph => ⟨refl_of SameData graph.store, rfl, present graph.index, rfl, rfl, rfl⟩

theorem sameView_checkQuota : Keeps SameView checkQuota :=
  keeps_get.bind fun _ => keeps_ite (fun _ => keeps_throw _) fun _ => keeps_pure _

theorem sameView_chargeBatchOp (bytes : Nat) : Keeps SameView (chargeBatchOp bytes) := by
  unfold chargeBatchOp
  refine keeps_get_bind fun graph => ?_
  split
  · exact refl_of SameView graph
  · dsimp only
    split
    · exact refl_of SameView graph
    · exact refl_of SameView graph
    · exact ⟨refl_of SameData graph.store, rfl, rfl, rfl, rfl, rfl⟩

theorem sameView_checkUnique (label : String) (props : Properties) (exclude : Option Nat) :
    Keeps SameView (checkUnique label props exclude) := by
  refine keeps_get.bind fun graph => ?_
  split
  · exact keeps_throw _
  · exact keeps_pure _

end ErmyaGraph.Graph
