import ErmyaGraph.Versions.Latest

/-! # Entities at rest

An entity whose deltas are all committed keeps its current version until it is
written again. -/

namespace ErmyaGraph

open Move

namespace Move

/-- The entities that the move writes are among the given ones. -/
def Within (keys : EntityKey → Prop) : Move → Prop
  | push key _ | write key _ | pin key | erase key => keys key
  | _ => True

end Move

namespace View

/-- The record is the current version of the entity, and nothing above it is pending. -/
structure Rests (view : View) (key : EntityKey) (record : Record) : Prop where
  current : view.current key = some record
  committed : ∀ delta ∈ view.chain key, delta.commitTs ≠ none

section Rests

variable {view : View} (coherent : view.Coherent) {keys : EntityKey → Prop} {key : EntityKey}
  {record : Record}

theorem Rests.write {other : EntityKey} {new : Record} (rests : view.Rests key record)
    (ne : key ≠ other) : ((Move.write other new).apply view).Rests key record := by
  refine ⟨?_, rests.committed⟩
  rw [← rests.current]
  apply shown_congr
  · exact fun _ => rfl
  · intro _
    simp [baseShown, base, apply, ne]

include coherent

theorem Coherent.rests_apply {move : Move} (valid : move.Valid view) (within : move.Within keys)
    (untouched : ¬keys key) (rests : view.Rests key record) :
    (move.apply view).Rests key record := by
  have steady (versioned : move.Versioned)
      (fewer : (move.apply view).chain key ⊆ view.chain key) :
      (move.apply view).Rests key record :=
    ⟨((coherent.steady valid versioned).current key).trans rests.current,
      fun delta mem => rests.committed delta (fewer mem)⟩
  have elsewhere {other : EntityKey} (written : keys other) : key ≠ other := by
    rintro rfl
    exact untouched written
  cases move with
  | tick | begin | skipId | note => exact steady trivial (List.Subset.refl _)
  | push other delta =>
    refine steady trivial ?_
    rw [chain_push, if_neg (elsewhere within)]
    exact List.Subset.refl _
  | forget txn =>
    refine steady trivial ?_
    obtain ⟨state, active⟩ := valid
    rw [coherent.chain_forget active]
    exact List.filter_subset_self _
  | vacuum order =>
    refine steady trivial ?_
    simp only [Move.apply, View.chain, Mvcc.drain]
    split
    · exact List.nil_subset _
    · exact List.Subset.refl _
  | commit txn =>
    obtain ⟨state, active⟩ := valid
    have absent : ∀ delta ∈ view.chain key, delta.txn ≠ txn := by
      rintro delta mem rfl
      exact rests.committed delta mem (coherent.registry.pending_of_active mem active)
    refine ⟨(coherent.current_commit_of_absent active absent).trans rests.current, ?_⟩
    rw [coherent.chain_commit active, ← DeltaChain.stampTxn_eq_map,
      DeltaChain.stampTxn_of_absent absent]
    exact rests.committed
  | link targets contents =>
    exact ⟨((coherent.steady_link valid).current key).trans rests.current, rests.committed⟩
  | write other new => exact rests.write (elsewhere within)
  | pin other => exact ⟨rests.current, rests.committed⟩
  | erase other =>
    refine ⟨?_, rests.committed⟩
    rw [← rests.current]
    apply shown_congr
    · exact fun _ => rfl
    · intro _
      simp [baseShown, base, Move.apply, elsewhere within]

theorem Path.rests {after : View} {moves : List Move} (path : Path view moves after)
    (within : ∀ move ∈ moves, move.Within keys) (untouched : ¬keys key)
    (rests : view.Rests key record) : after.Rests key record := by
  induction path with
  | nil => exact rests
  | cons valid later ih =>
    have first := coherent.rests_apply valid (within _ List.mem_cons_self) untouched rests
    exact ih (coherent.apply valid) (fun other mem => within other (List.mem_cons_of_mem _ mem))
      first

theorem Coherent.current_of_cons {delta : Delta} {older : DeltaChain}
    (chain : view.chain key = delta :: older) (committed : delta.commitTs ≠ none) :
    view.current key = (delta.new.bind EntitySnapshot.record?).map Record.observed := by
  obtain ⟨ts, stamped⟩ := Option.ne_none_iff_exists'.mp committed
  have mem : delta ∈ view.chain key := by simp [chain]
  have seen : delta.visibleTo view.mvcc.clock none := by
    simp [Delta.visibleTo, stamped, (coherent.registry.stamped mem stamped).1]
  rw [current, shown, version, chain, DeltaChain.applyForRead_cons_visible seen]

omit coherent in
theorem current_of_settled (settled : view.chain key = []) : view.current key = view.baseShown key := by
  rw [current, shown, version, settled]
  rfl

end Rests

/-- What draining a chain needs of a view. Unlike `Coherent` it survives every drain, whatever the
drained deletions replaced. -/
structure Tidy (view : View) : Prop where
  registry : view.mvcc.Sound
  positive : ∀ key, view.chain key ≠ [] → 0 < key.id
  fits : ∀ key, ∀ delta ∈ view.chain key, Fits key delta
  erased : ∀ key, view.contents key = .erased → view.chain key = []
  pinned : ∀ key, view.pinned key → view.chain key = []

/-- The record is the current version of an entity that exists. -/
structure Stays (view : View) (key : EntityKey) (record : Record) : Prop where
  current : view.current key = some record
  present : view.present key
  positive : 0 < key.id

theorem Coherent.tidy {view : View} (coherent : view.Coherent) : view.Tidy where
  registry := coherent.registry
  positive _ nonempty := (coherent.allotted_of_chain nonempty).1
  fits := coherent.fits
  erased key erased := (coherent.erased key erased).1
  pinned := coherent.pinned

theorem Coherent.stays {view : View} {key : EntityKey} {record : Record} (coherent : view.Coherent)
    (current : view.current key = some record) : view.Stays key record := by
  obtain ⟨found, visible, _⟩ := Option.map_eq_some_iff.mp current
  have present := coherent.present_of_stamped visible nofun
  exact ⟨current, present, (coherent.allotted_of_present present).1⟩

section Tidy

variable {view : View} (tidy : view.Tidy) {order : List EntityKey}

include tidy

theorem Tidy.vacuum : ((Move.vacuum order).apply view).Tidy := by
  have chains (key : EntityKey) : ((Move.vacuum order).apply view).chain key =
      if view.mvcc.drains order key then [] else view.chain key := rfl
  refine ⟨tidy.registry.drain order, fun key nonempty => ?_, fun key delta mem => ?_,
    fun key erased => ?_, fun key pinned => ?_⟩
  · rw [chains] at nonempty
    split at nonempty
    · exact absurd rfl nonempty
    · exact tidy.positive key nonempty
  · rw [chains] at mem
    split at mem
    · cases mem
    · exact tidy.fits key delta mem
  · rw [chains]
    split
    · rfl
    · next untouched =>
        simp only [apply, untouched, Bool.false_eq_true, ↓reduceIte] at erased
        exact tidy.erased key erased
  · rw [chains, tidy.pinned key pinned, ite_self]

theorem Tidy.stays_vacuum {key : EntityKey} {record : Record} (stays : view.Stays key record) :
    ((Move.vacuum order).apply view).Stays key record := by
  by_cases drained : view.mvcc.drains order key
  · have before : view.current key =
        ((view.newestNew key).bind EntitySnapshot.record?).map Record.observed := by
      rw [current, shown, version, chain, tidy.registry.applyForRead_drained drained (.inl rfl)]
      rfl
    rw [stays.current] at before
    obtain ⟨newest, here, observed⟩ := Option.map_eq_some_iff.mp before.symm
    obtain ⟨snapshot, new, isLive⟩ := Option.bind_eq_some_iff.mp here
    cases snapshot with
    | deleted => cases isLive
    | live found =>
      obtain rfl := Option.some.inj isLive
      obtain ⟨delta, mem, head⟩ := Option.bind_eq_some_iff.mp new
      have names := (tidy.fits key delta (List.mem_of_mem_head? mem)).named found head
      have present : ((Move.vacuum order).apply view).present key := by
        simp [apply, drained, new, remains, stays.present]
      have contents : ((Move.vacuum order).apply view).contents key =
          .live ((view.contents key).relink key.kind found) := by
        simp [apply, drained, new, Content.settle]
      have settled : ((Move.vacuum order).apply view).chain key = [] := by
        simp [apply, View.chain, Mvcc.drain, drained]
      refine ⟨?_, present, stays.positive⟩
      rw [current_of_settled settled, baseShown_of_live present contents, ← observed]
      exact congrArg some (Record.alike_relink names _)
  · refine ⟨?_, by simp [apply, drained, stays.present], stays.positive⟩
    rw [← stays.current]
    apply shown_congr
    · intro base
      simp [apply, View.chain, Mvcc.drain, drained]
    · intro _
      simp [baseShown, base, apply, drained]

end Tidy

end View

end ErmyaGraph
