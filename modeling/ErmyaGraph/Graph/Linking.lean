import ErmyaGraph.Graph.Shows

/-! # Linking edges, seen from the records

Writing an adjacency list touches the slots only to store the new heads. A node
that is committed but not on a page yet is written there with them. -/

namespace ErmyaGraph

open Outcome Store List

namespace View

def Buried (view : View) : Prop :=
  ∀ key, view.contents key = .erased → view.chain key = [] ∧ view.present key = false

theorem Linked.buried {view : View} {targets : Nat → Prop} {contents : Contents}
    (linked : view.Linked targets contents) (buried : view.Buried) :
    Buried { view with contents := contents } := by
  intro key erased
  have erased' : contents key = .erased := erased
  rcases linked key with same | ⟨_, relinks⟩
  · exact buried key (same ▸ erased')
  · rw [erased'] at relinks
    generalize held : view.contents key = before at relinks
    cases relinks with
    | same => exact buried key held

end View

namespace Graph

variable {graph : Graph} {view : View} {allowed : WalRecord → Prop}

theorem Shows.onStore {α : Type} {x : StoreM α} {after : α → Contents → Prop}
    {failed : Contents → Prop} (shows_ : graph.Shows view) (only : Keeps (RecordsOnly allowed) x)
    (spec : Sat x graph.store (fun a store => ∃ contents, after a contents ∧ StoreIs store contents)
      (fun _ store => ∃ contents, failed contents ∧ StoreIs store contents)) :
    Sat (onStore x) graph
      (fun a g => ∃ contents, after a contents ∧ g.Shows { view with contents := contents })
      (fun _ g => ∃ contents, failed contents ∧ g.Shows { view with contents := contents }) := by
  have lift (store : Store) (contents : Contents) (holds : StoreIs store contents)
      (records : RecordsOnly allowed graph.store store) :
      Shows { graph with store := store } { view with contents := contents } :=
    ⟨holds, shows_.present, shows_.pinned, shows_.mvcc, records.nextId.trans shows_.nextId,
      shows_.pending⟩
  unfold Graph.onStore
  rw [sat_zoom]
  refine ((only graph.store).and spec).mono (fun a store done => ?_) (fun e store done => ?_)
  · obtain ⟨records, contents, held, holds⟩ := done
    exact ⟨contents, held, lift store contents holds records⟩
  · obtain ⟨records, contents, held, holds⟩ := done
    exact ⟨contents, held, lift store contents holds records⟩

theorem Shows.onStore_kept {α : Type} {x : StoreM α} (shows_ : graph.Shows view)
    (only : Keeps (RecordsOnly allowed) x)
    (spec : Sat x graph.store (fun _ store => StoreIs store view.contents)
      (fun _ store => StoreIs store view.contents)) :
    Sat (Graph.onStore x) graph (fun _ after => after.Shows view)
      (fun _ after => after.Shows view) := by
  have shaped : Sat x graph.store
      (fun _ store => ∃ contents, contents = view.contents ∧ StoreIs store contents)
      (fun _ store => ∃ contents, contents = view.contents ∧ StoreIs store contents) :=
    spec.mono (fun _ _ holds => ⟨_, rfl, holds⟩) (fun _ _ holds => ⟨_, rfl, holds⟩)
  apply (shows_.onStore only shaped).mono
  · rintro _ after ⟨contents, rfl, shown⟩
    exact shown
  · rintro _ after ⟨contents, rfl, shown⟩
    exact shown

/-- A committed node whose slot is blank is found by its chain alone. -/
theorem Shows.newest_of_resolveVisible {key : EntityKey} {record : Record}
    (shows_ : graph.Shows view) (buried : view.Buried)
    (dead : ∀ record, view.contents key ≠ .live record) (pos : 0 < key.id)
    (visible : graph.resolveVisible key graph.autoCommitStartTs none = .ok record) :
    view.newest key = some record ∧ view.contents key = .blank := by
  have failing : ∃ e, graph.store.readRecord key = .error e := by
    have read := shows_.readRecord pos
    cases held : view.contents key with
    | live record => exact absurd held (dead record)
    | blank =>
      rw [held] at read
      exact read
    | erased =>
      rw [held] at read
      exact read
  obtain ⟨e, failed⟩ := failing
  have enabled : graph.mvcc.isNone = false := by simp [shows_.mvcc]
  unfold Graph.resolveVisible at visible
  simp only [enabled, Bool.false_eq_true, ↓reduceIte, bind, Except.bind, pure, Except.pure,
    shows_.chain, shows_.autoCommitStartTs] at visible
  have noBase : ∀ base, graph.committedBase key = .ok base → base = none := by
    intro base found
    unfold Graph.committedBase at found
    rw [failed] at found
    split at found
    · split at found
      · next impossible => cases impossible
      · split at found
        · cases found
        · cases found
          rfl
    · cases found
      rfl
  cases found : graph.committedBase key with
  | error e =>
    rw [found] at visible
    cases visible
  | ok base =>
    obtain rfl := noBase base found
    rw [found] at visible
    dsimp only at visible
    have newest : view.newest key = some record := by
      unfold View.newest
      split at visible
      · next found =>
          cases visible
          rw [found]
          rfl
      · cases visible
    refine ⟨newest, ?_⟩
    cases held : view.contents key with
    | blank => rfl
    | live record => exact absurd held (dead record)
    | erased =>
      have empty := (buried key held).1
      simp [View.newest, empty, DeltaChain.applyForRead] at newest

/-- What linking at a node leaves: links at that node only, whichever way it ends. -/
def LinkedAt (view : View) (targets : Nat → Prop) (after : Graph) : Prop :=
  ∃ contents, view.Linked targets contents ∧ after.Shows { view with contents := contents }

variable {node : Nat} (ptr : AdjacencyPointer)

theorem sat_materializeNodeSlotWithPointer (shows_ : graph.Shows view) (buried : view.Buried)
    (pos : 0 < node) (dead : ∀ record, view.contents (.node node) ≠ .live record) :
    Sat (materializeNodeSlotWithPointer node ptr) graph
      (fun _ after => LinkedAt view (· = node) after)
      (fun _ after => LinkedAt view (· = node) after) := by
  have unchanged : LinkedAt view (· = node) graph := ⟨view.contents, .refl view _, shows_⟩
  unfold materializeNodeSlotWithPointer
  rw [sat_bind, sat_get]
  have enabled : graph.mvcc.isNone = false := by simp [shows_.mvcc]
  simp only [enabled, Bool.false_eq_true, ↓reduceIte]
  cases visible : graph.resolveVisible (.node node) graph.autoCommitStartTs none with
  | error e => exact unchanged
  | ok record =>
    dsimp only
    obtain ⟨newest, blank⟩ := shows_.newest_of_resolveVisible buried dead pos visible
    rw [sat_bind, sat_ofResult]
    refine ⟨fun encoded ok => ?_, fun _ _ => unchanged⟩
    -- The two storage steps together write one slot.
    have stored : Sat (do
        let slot ← handleSlotOverflow (.node node) encoded
          (graph.store.existingPropOverflow (.node node))
        writeSlotToPage (.node node) (slot.patchAdjPointer ptr) true) graph.store
        (fun _ store => ∃ contents, view.Linked (· = node) contents ∧ StoreIs store contents)
        (fun _ store => ∃ contents, view.Linked (· = node) contents ∧ StoreIs store contents) := by
      obtain ⟨blobs, represents⟩ := shows_.store
      have intact : view.contents (.node node) ≠ .erased := by simp [blank]
      have known : ∀ old, graph.store.existingPropOverflow (.node node) = some old →
          ∃ blob, blobs (.node node) old = some blob := represents.existing pos intact
      rw [sat_bind]
      refine (sat_handleSlotOverflow ok represents.overflow represents.heap known).mono
        (fun slot mid done => ?_) (fun _ mid failed => ?_)
      · obtain ⟨blobs', stored⟩ := done
        refine (sat_writeSlotToPage _ true pos).sure (fun _ after written => ?_)
        refine ⟨_, fun key => ?_,
          represents.store stored (stored.holds.patchAdjPointer ptr) written⟩
        by_cases same : key = .node node
        · subst same
          refine .inr ⟨⟨node, rfl, rfl⟩, ?_⟩
          rw [Function.update_self, blank]
          exact .placed record ptr newest
        · exact .inl (Function.update_of_ne same _ _)
      · exact ⟨view.contents, .refl view _, represents.kept failed⟩
    have only : Keeps (RecordsOnly Plain) (do
        let slot ← handleSlotOverflow (.node node) encoded
          (graph.store.existingPropOverflow (.node node))
        writeSlotToPage (.node node) (slot.patchAdjPointer ptr) true) :=
      (keeps_handleSlotOverflow _ _ _).bind fun slot => keeps_writeSlotToPage _ _ _
    have lifted := shows_.onStore only stored
    unfold Graph.onStore at lifted ⊢
    rw [sat_zoom, sat_bind] at lifted
    rw [sat_bind, sat_zoom]
    refine lifted.mono (fun slot mid done => ?_) (fun _ mid done => done)
    rw [sat_zoom]
    exact done

theorem sat_persistAdjPointerToSlot (shows_ : graph.Shows view) (buried : view.Buried)
    (pos : 0 < node) :
    Sat (persistAdjPointerToSlot node ptr) graph
      (fun _ after => LinkedAt view (· = node) after)
      (fun _ after => LinkedAt view (· = node) after) := by
  obtain ⟨blobs, represents⟩ := id shows_.store
  have here := represents.slots (.node node) pos
  unfold persistAdjPointerToSlot
  rw [sat_bind, sat_get]
  cases held : view.contents (.node node) with
  | live record =>
    rw [held] at here
    obtain ⟨slot, found, holds⟩ := here
    rw [found]
    simp only [holds.flag, ↓reduceIte]
    refine shows_.onStore (keeps_writeSlotToPage _ _ _) ?_
    refine (sat_writeHeads ptr true shows_.store pos held found).sure
      (fun _ store done => ?_)
    refine ⟨_, fun key => ?_, done⟩
    by_cases same : key = .node node
    · subst same
      refine .inr ⟨⟨node, rfl, rfl⟩, ?_⟩
      rw [Function.update_self, held]
      exact .heads record ptr
    · exact .inl (Function.update_of_ne same _ _)
  | blank =>
    rw [held] at here
    have dead : ∀ record, view.contents (.node node) ≠ .live record := by simp [held]
    have materialized := sat_materializeNodeSlotWithPointer ptr shows_ buried pos dead
    cases found : graph.store.readSlot (.node node) with
    | error e => exact materialized
    | ok slot =>
      simp only [(here slot found).1, ↓reduceIte]
      exact materialized
  | erased =>
    rw [held] at here
    have dead : ∀ record, view.contents (.node node) ≠ .live record := by simp [held]
    have materialized := sat_materializeNodeSlotWithPointer ptr shows_ buried pos dead
    cases found : graph.store.readSlot (.node node) with
    | error e => exact materialized
    | ok slot =>
      simp only [here slot found, ↓reduceIte]
      exact materialized

theorem mem_pushPending {pending : List ((Nat × AdjDirection) × List Nat)}
    {key link : Nat × AdjDirection} {edge : Nat}
    (mem : link ∈ (pushPending pending key edge).map Prod.fst) :
    link = key ∨ link ∈ pending.map Prod.fst := by
  unfold pushPending at mem
  split at mem
  · refine .inr ?_
    rw [map_map] at mem
    obtain ⟨entry, here, rfl⟩ := mem_map.mp mem
    simp only [Function.comp]
    split
    · next same =>
        rw [← same]
        exact mem_map.mpr ⟨entry, here, rfl⟩
    · exact mem_map.mpr ⟨entry, here, rfl⟩
  · simp only [map_append, map_cons, map_nil, mem_append, mem_singleton] at mem
    exact mem.symm

theorem sat_addEdgeToAdjacency (direction : AdjDirection) (edge : Nat) (shows_ : graph.Shows view)
    (buried : view.Buried) (pos : 0 < node) :
    Sat (addEdgeToAdjacency node direction edge) graph
      (fun _ after => LinkedAt view (· = node) after)
      (fun _ after => LinkedAt view (· = node) after) := by
  have unchanged {after : Graph} (same : after.Shows view) : LinkedAt view (· = node) after :=
    ⟨view.contents, .refl view _, same⟩
  unfold addEdgeToAdjacency
  rw [sat_bind, sat_get, sat_ite]
  refine ⟨fun _ => ?_, fun _ => ?_⟩
  · refine unchanged ⟨shows_.store, shows_.present, shows_.pinned, shows_.mvcc, shows_.nextId,
      fun link mem => ?_⟩
    rcases mem_pushPending mem with rfl | old
    · exact pos
    · exact shows_.pending link old
  · unfold writeAdjImmediate
    rw [sat_bind]
    refine (shows_.sat ((keeps_resolveAdjPointer node).mono fun _ _ => LinksOnly.sameView)).mono
      (fun ptr between shows₁ => ?_) (fun _ _ => unchanged)
    rw [sat_bind]
    refine (shows₁.sat ((keeps_appendAndUpdateCaches node direction _ _).mono
      fun _ _ => LinksOnly.sameView)).mono (fun entry linked shows₂ => ?_) (fun _ _ => unchanged)
    exact sat_persistAdjPointerToSlot entry shows₂ buried pos

end Graph

end ErmyaGraph
