import ErmyaGraph.Graph.CommitMoves
import ErmyaGraph.Versions.Rests

/-! # The vacuum as a move -/

namespace ErmyaGraph.Graph

open Outcome Store Function

variable {graph : Graph} {view : View}

theorem Shows.removePresent {f : Indexes → Indexes} (key : EntityKey) (shows_ : graph.Shows view)
    (same : ∀ index, (f index).present = (index.removePresent key).present) :
    Sat (modifyIndex f) graph
      (fun _ after => after.Shows { view with present := update view.present key false })
      (fun _ _ => False) := by
  refine ⟨shows_.store, fun other => ?_, shows_.pinned, shows_.mvcc, shows_.nextId, shows_.pending⟩
  have before := shows_.present other
  simp only [exists?] at before
  simp only [exists?, same, Indexes.removePresent]
  obtain ⟨kind, id⟩ := other
  by_cases sameKind : kind = key.kind
  · subst sameKind
    by_cases sameId : id = key.id
    · subst sameId
      simp
    · have ne : (⟨key.kind, id⟩ : EntityKey) ≠ key := fun equal => sameId (by rw [← equal])
      simp [← before, sameId, update_of_ne ne]
  · have ne : (⟨kind, id⟩ : EntityKey) ≠ key := fun equal => sameKind (by rw [← equal])
    simp [← before, update_of_ne sameKind, update_of_ne ne]

variable (record : Record)

theorem sat_reconcileNodeDelete (shows_ : graph.Shows view) :
    Sat (reconcileNodeDelete record) graph
      (fun _ after => after.Shows
        { view with present := update view.present (.node record.id) false })
      (fun _ _ => False) := by
  unfold reconcileNodeDelete
  rw [sat_bind]
  apply Sat.mono (shows_.removePresent (.node record.id) ?_)
  · exact fun _ after left =>
      left.congr ⟨⟨rfl, rfl, rfl, rfl, rfl, rfl, rfl, rfl⟩, rfl, rfl, rfl, rfl, rfl⟩
  · exact fun _ _ => id
  · exact fun _ => rfl

theorem sat_reconcileEdgeDelete (shows_ : graph.Shows view) :
    Sat (reconcileEdgeDelete record) graph
      (fun _ after => after.Shows
        { view with present := update view.present (.edge record.id) false })
      (fun _ after => after.Shows view) := by
  have unlink (node : Nat) (direction : AdjDirection) :
      Keeps SameView (removeEdgeFromAdjacency node direction record.id) :=
    (keeps_removeEdgeFromAdjacency node direction record.id).mono fun _ _ => LinksOnly.sameView
  unfold reconcileEdgeDelete
  refine shows_.then (unlink _ _) (fun _ _ => id) fun _ g₁ shows₁ => ?_
  refine shows₁.then (unlink _ _) (fun _ _ => id) fun _ g₂ shows₂ => ?_
  rw [sat_bind]
  apply Sat.mono (shows₂.removePresent (.edge record.id) ?_)
  · intro _ after left
    exact left.congr ⟨⟨rfl, rfl, rfl, rfl, rfl, rfl, rfl, rfl⟩, rfl, rfl, rfl, rfl, rfl⟩
  · exact fun _ _ => False.elim
  · exact fun _ => rfl

variable {key : EntityKey} {new : Option EntitySnapshot}

theorem sat_materializeToPage (shows_ : graph.Shows view) (pos : 0 < key.id)
    (names : ∀ record, new = some (.live record) → record.Names key)
    (intact : view.contents key ≠ .erased) :
    Sat (materializeToPage key new) graph
      (fun _ after => after.Shows { view with
        contents := update view.contents key ((view.contents key).settle key.kind new) })
      (fun _ _ => True) := by
  have written {contents : Contents} {x : StoreM Unit} (only : Keeps (RecordsOnly Plain) x)
      (spec : Sat x graph.store (fun _ store => StoreIs store contents) (fun _ _ => True)) :
      Sat (onStore x) graph (fun _ after => after.Shows { view with contents := contents })
        (fun _ _ => True) := by
    unfold Graph.onStore
    rw [sat_zoom]
    refine ((only graph.store).and spec).loose (fun _ store done => ?_)
    exact ⟨done.2, shows_.present, shows_.pinned, shows_.mvcc, done.1.nextId.trans shows_.nextId,
      shows_.pending⟩
  have erased := written (keeps_tombstoneSlot key false)
    ((sat_tombstoneSlot false shows_.store pos intact).sure (fun _ _ => id))
  unfold materializeToPage
  cases new with
  | none => exact erased
  | some snapshot =>
    cases snapshot with
    | deleted => exact erased
    | live record =>
      have same : (⟨key.kind, record.id⟩ : EntityKey) = key := by
        rw [(names record rfl).1]
      have spec := sat_materializeRecord key.kind record shows_.store
        ((names record rfl).1 ▸ pos)
      rw [same] at spec
      exact written (keeps_materializeRecord key.kind record)
        (spec.loose (fun _ _ => id))

theorem sat_applyVacuumCategoryB {old : Option EntitySnapshot} (shows_ : graph.Shows view)
    (names : ∀ record, old = some (.live record) → record.Names key) :
    Sat (applyVacuumCategoryB key new old) graph
      (fun _ after => after.Shows { view with
        present := update view.present key (View.remains (view.present key) new old) })
      (fun _ _ => True) := by
  -- The existence sets change only for a deletion of a live version.
  have unchanged {x : GraphM Unit} (same : View.remains (view.present key) new old = view.present key)
      (keeps : Keeps SameView x) : Sat x graph (fun _ after => after.Shows { view with
        present := update view.present key (View.remains (view.present key) new old) })
        (fun _ _ => True) := by
    rw [same, update_eq_self]
    exact (shows_.sat keeps).loose (fun _ _ => id)
  have deleted (prior : Record) (dead : ∀ record, new ≠ some (.live record))
      (isOld : old = some (.live prior)) : View.remains (view.present key) new old = false := by
    rw [isOld]
    cases new with
    | none => rfl
    | some snapshot =>
      cases snapshot with
      | live record => exact absurd rfl (dead record)
      | deleted => rfl
  have removed (prior : Record) (dead : ∀ record, new ≠ some (.live record))
      (isOld : old = some (.live prior)) :
      Sat (key.kind.casesOn (reconcileNodeDelete prior) (reconcileEdgeDelete prior)) graph
        (fun _ after => after.Shows { view with
        present := update view.present key (View.remains (view.present key) new old) })
        (fun _ _ => True) := by
    rw [deleted prior dead isOld]
    have sameId := (names prior isOld).1
    obtain ⟨kind, id⟩ := key
    subst sameId
    cases kind with
    | node => exact (sat_reconcileNodeDelete prior shows_).loose (fun _ _ => id)
    | edge => exact (sat_reconcileEdgeDelete prior shows_).loose (fun _ _ => id)
  unfold applyVacuumCategoryB
  obtain ⟨kind, id⟩ := key
  cases old with
  | none =>
    refine unchanged ?_ ?_
    · cases new with
      | none => rfl
      | some snapshot => cases snapshot <;> rfl
    · cases kind <;> cases new with
      | none => exact keeps_pure _
      | some snapshot => cases snapshot <;> exact keeps_pure _
  | some oldSnapshot =>
    cases oldSnapshot with
    | deleted =>
      refine unchanged ?_ ?_
      · cases new with
        | none => rfl
        | some snapshot => cases snapshot <;> rfl
      · cases kind <;> cases new with
        | none => exact keeps_pure _
        | some snapshot => cases snapshot <;> exact keeps_pure _
    | live prior =>
      cases new with
      | none =>
        have done := removed prior (by simp) rfl
        cases kind <;> exact done
      | some snapshot =>
        cases snapshot with
        | deleted =>
          have done := removed prior (by simp) rfl
          cases kind <;> exact done
        | live record =>
          refine unchanged rfl ?_
          cases kind with
          | node =>
            refine sameView_modifyIndex fun index => ?_
            dsimp only
            split <;> rfl
          | edge =>
            refine sameView_modifyIndex fun index => ?_
            split <;> rfl

/-- The view while chains are being drained: pages and existence sets of the given keys are done. -/
def settledView (view : View) (keys : List EntityKey) (new old : EntityKey → Option EntitySnapshot) :
    View :=
  { view with
    contents := fun key => if key ∈ keys then
      (view.contents key).settle key.kind (new key) else view.contents key
    present := fun key => if key ∈ keys then
      View.remains (view.present key) (new key) (old key) else view.present key }

theorem sat_drainAll (new old : EntityKey → Option EntitySnapshot) (keys : List EntityKey)
    (distinct : keys.Nodup) (shows_ : graph.Shows view) (pos : ∀ key ∈ keys, 0 < key.id)
    (intact : ∀ key ∈ keys, view.contents key ≠ .erased)
    (newNames : ∀ key ∈ keys, ∀ record, new key = some (.live record) → record.Names key)
    (oldNames : ∀ key ∈ keys, ∀ record, old key = some (.live record) → record.Names key) :
    Sat ((keys.map fun key => (key, (new key, old key))).forM fun entry => do
        materializeToPage entry.1 entry.2.1
        applyVacuumCategoryB entry.1 entry.2.1 entry.2.2) graph
      (fun _ after => after.Shows (settledView view keys new old)) (fun _ _ => True) := by
  induction keys generalizing graph view with
  | nil =>
    have idle : settledView view [] new old = view := by simp [settledView]
    rw [idle]
    exact shows_
  | cons key rest ih =>
    obtain ⟨absent, distinct'⟩ := List.nodup_cons.mp distinct
    simp only [List.map_cons, List.forM_eq_forM, List.forM_cons, sat_bind]
    refine (sat_materializeToPage shows_ (pos key (by simp)) (newNames key (by simp))
      (intact key (by simp))).relax (fun _ between shows₁ => ?_)
    refine (sat_applyVacuumCategoryB shows₁ (oldNames key (by simp))).relax
      (fun _ settled shows₂ => ?_)
    have later := ih distinct' shows₂ (fun other mem => pos other (by simp [mem]))
      (fun other mem => by
        have ne : other ≠ key := fun same => absent (same ▸ mem)
        simp only [update_of_ne ne]
        exact intact other (by simp [mem]))
      (fun other mem => newNames other (by simp [mem]))
      (fun other mem => oldNames other (by simp [mem]))
    refine later.relax (fun _ after shown => ?_)
    have sum : settledView { view with
        contents := update view.contents key
          ((view.contents key).settle key.kind (new key)),
        present := update view.present key
          (View.remains (view.present key) (new key) (old key)) } rest new old =
        settledView view (key :: rest) new old := by
      unfold settledView
      congr 1
      · funext other
        by_cases same : other = key
        · subst same
          simp [absent]
        · simp [same]
      · funext other
        by_cases same : other = key
        · subst same
          simp [absent]
        · simp [same]
    rw [← sum]
    exact shown

variable {order : List EntityKey}

/-- A drain that returns does what the move does. -/
theorem sat_vacuumOnce_shows (shows_ : graph.Shows view) (tidy : view.Tidy)
    (distinct : order.Nodup) :
    Sat (vacuumOnce order) graph
      (fun _ after => after.Shows ((Move.vacuum order).apply view)) (fun _ _ => True) := by
  unfold vacuumOnce
  rw [sat_bind]
  refine (sat_getMvcc shows_).relax ?_
  rintro mvcc g ⟨rfl, rfl⟩
  have clears : (fun mvcc : Mvcc => { mvcc with
      chain := fun key =>
        if key ∈ order ∧ mvcc.vacuumable key then [] else mvcc.chain key }) =
      fun mvcc => mvcc.drain order := by
    funext mvcc
    simp [Mvcc.drain, Mvcc.drains]
  rw [sat_bind, clears, sat_modifyMvcc, sat_bind]
  have cleared := shows_.modifyMvcc fun mvcc => mvcc.drain order
  have drains (key : EntityKey) : key ∈ order.filter view.mvcc.vacuumable ↔
      view.mvcc.drains order key := by
    simp [Mvcc.drains]
  have written {key : EntityKey} (mem : key ∈ order.filter view.mvcc.vacuumable) :
      view.chain key ≠ [] := by
    obtain ⟨newest, older, chain, _⟩ := tidy.registry.drained ((drains key).mp mem)
    simp [View.chain, chain]
  have ends (key : EntityKey) : drainedEnds (view.mvcc.chain key) =
      (view.newestNew key, view.oldestPrior key) := rfl
  simp only [ends]
  refine (sat_drainAll view.newestNew view.oldestPrior _ (distinct.filter _) cleared
    (fun key mem => ?_) (fun key mem => ?_) (fun key mem record live => ?_)
    (fun key mem record live => ?_)).relax (fun _ after shown => ?_)
  · exact tidy.positive key (written mem)
  · intro erased
    exact written mem (tidy.erased key erased)
  · obtain ⟨delta, here, new⟩ := Option.bind_eq_some_iff.mp live
    exact (tidy.fits key delta (List.mem_of_mem_head? here)).named record new
  · obtain ⟨delta, here, prior⟩ := Option.bind_eq_some_iff.mp live
    exact (tidy.fits key delta (List.mem_of_getLast? here)).prior record prior
  · have same : (Move.vacuum order).apply view = settledView { view with
        mvcc := view.mvcc.drain order } (order.filter view.mvcc.vacuumable) view.newestNew
        view.oldestPrior := by
      simp only [Move.apply, settledView, drains]
    rw [same]
    exact shown

/-- Every drained deletion of an existing entity replaced a version that a page held. -/
def drainRemoves (graph : Graph) (order : List EntityKey) : Prop :=
  ∀ mvcc, graph.mvcc = some mvcc → ∀ key, mvcc.drains order key → graph.exists? key →
    (drainedEnds (mvcc.chain key)).1 = some .deleted →
      ∃ record, (drainedEnds (mvcc.chain key)).2 = some (.live record)

theorem sat_vacuumOnce (shows_ : graph.Shows view) (coherent : view.Coherent)
    (distinct : order.Nodup) (removes : graph.drainRemoves order) :
    Sat (vacuumOnce order) graph
      (fun _ after => MovedBy (· = [.vacuum order]) view after) (fun _ _ => True) := by
  have valid : (Move.vacuum order).Valid view := by
    intro key drained present deleted
    rw [← shows_.present] at present
    exact removes view.mvcc shows_.mvcc key drained present deleted
  exact (sat_vacuumOnce_shows shows_ coherent.tidy distinct).relax
    (fun _ after shown => ⟨_, _, .cons valid (.nil _), rfl, shown⟩)

end ErmyaGraph.Graph
