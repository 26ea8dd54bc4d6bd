import ErmyaGraph.Versions.Moves

/-! # Snapshots across moves

What a transaction reads of an entity it has not written is the same before and
after every move of the others. The one exception is a link: it may put the
newest version of a node on a page, below the chain of a snapshot that sees
nothing of it. -/

namespace ErmyaGraph

namespace Mvcc

open Function

/-- Transactions that are still active kept their snapshot and only wrote more. -/
structure Continues (before after : Mvcc) : Prop where
  nextTxnId : before.nextTxnId ≤ after.nextTxnId
  states : ∀ txn < before.nextTxnId, ∀ state', after.active txn = some state' →
    ∃ state, before.active txn = some state ∧ state'.startTs = state.startTs ∧
      state.written ⊆ state'.written

instance : IsPreorder Mvcc Continues where
  refl _ := ⟨le_rfl, fun _ _ state active => ⟨state, active, rfl, List.Subset.refl _⟩⟩
  trans first second third := by
    intro earlier later
    refine ⟨earlier.nextTxnId.trans later.nextTxnId, fun txn known state'' active'' => ?_⟩
    obtain ⟨state', active', start', written'⟩ :=
      later.states txn (known.trans_le earlier.nextTxnId) state'' active''
    obtain ⟨state, active, start, written⟩ := earlier.states txn known state' active'
    exact ⟨state, active, start'.trans start, List.Subset.trans written written'⟩

theorem continues_of_ended {before after : Mvcc} {txn : Nat}
    (nextTxnId : after.nextTxnId = before.nextTxnId)
    (active : after.active = update before.active txn none) : before.Continues after := by
  refine ⟨nextTxnId.ge, fun other _ state running => ?_⟩
  rw [active] at running
  by_cases same : other = txn
  · subst same
    simp at running
  · rw [update_of_ne same] at running
    exact ⟨state, running, rfl, List.Subset.refl _⟩

theorem continues_of_active {before after : Mvcc} (nextTxnId : after.nextTxnId = before.nextTxnId)
    (active : after.active = before.active) : before.Continues after :=
  ⟨nextTxnId.ge, fun _ _ state running => ⟨state, active ▸ running, rfl, List.Subset.refl _⟩⟩

theorem continues_modifyTxn {mvcc : Mvcc} {txn : Nat} {f : TxnState → TxnState}
    (kept : ∀ state, (f state).startTs = state.startTs ∧ state.written ⊆ (f state).written) :
    mvcc.Continues (mvcc.modifyTxn txn f) := by
  refine ⟨le_rfl, fun other _ state' running => ?_⟩
  by_cases same : other = txn
  · subst same
    simp only [modifyTxn, update_self, Option.map_eq_some_iff] at running
    obtain ⟨state, active, rfl⟩ := running
    exact ⟨state, active, (kept state).1, (kept state).2⟩
  · simp only [modifyTxn, update_of_ne same] at running
    exact ⟨state', running, rfl, List.Subset.refl _⟩

theorem continues_begin (mvcc : Mvcc) : mvcc.Continues mvcc.begin := by
  refine ⟨Nat.le_succ _, fun other known state running => ⟨state, ?_, rfl, List.Subset.refl _⟩⟩
  simpa only [begin, update_of_ne (known.ne)] using running

end Mvcc

namespace View

/-- What a snapshot shows of an entity, apart from adjacency heads. -/
def shown (view : View) (key : EntityKey) (startTs : Nat) (reader : Option Nat) : Option Record :=
  (view.version key startTs reader).map Record.observed

def baseShown (view : View) (key : EntityKey) : Option Record :=
  ((view.base key).bind EntitySnapshot.record?).map Record.observed

section Shown

variable {view after : View} {key : EntityKey} {startTs : Nat} {reader : Option Nat}

theorem shown_congr
    (deltas : ∀ base, (after.chain key).applyForRead base startTs reader =
      (view.chain key).applyForRead base startTs reader)
    (bases : (view.chain key).sees startTs reader = false → after.baseShown key = view.baseShown key) :
    after.shown key startTs reader = view.shown key startTs reader := by
  unfold shown version
  rw [deltas]
  by_cases seen : (view.chain key).sees startTs reader
  · obtain ⟨delta, _, _, same⟩ := DeltaChain.applyForRead_of_sees seen
    rw [same, same]
  · simp only [Bool.not_eq_true] at seen
    rw [DeltaChain.applyForRead_of_not_sees seen, DeltaChain.applyForRead_of_not_sees seen]
    exact bases seen

theorem baseShown_of_live {record : Record} (present : view.present key)
    (live : view.contents key = .live record) : view.baseShown key = some record.observed := by
  simp [baseShown, base, present, live, EntitySnapshot.record?]

theorem baseShown_of_dead (dead : ∀ record, view.contents key ≠ .live record) :
    view.baseShown key = none := by
  unfold baseShown base
  split
  · split
    · next record live => exact absurd live (dead record)
    · rfl
  · rfl

theorem baseShown_of_absent (absent : view.present key = false) : view.baseShown key = none := by
  simp [baseShown, base, absent]

end Shown

section Moves

variable {view : View} (coherent : view.Coherent) {key : EntityKey} {startTs : Nat}
  {reader : Option Nat}

theorem shown_push {pushed : EntityKey} {delta : Delta} (pending : delta.commitTs = none)
    (foreign : pushed = key → reader ≠ some delta.txn) :
    ((Move.push pushed delta).apply view).shown key startTs reader =
      view.shown key startTs reader := by
  apply shown_congr
  · intro base
    rw [chain_push]
    by_cases same : key = pushed
    · subst same
      have hidden : delta.visibleTo startTs reader = false := by
        simp [Delta.visibleTo, pending, foreign rfl]
      rw [if_pos rfl, DeltaChain.applyForRead_cons_hidden hidden]
    · rw [if_neg same]
  · exact fun _ => rfl

include coherent

variable {state : TxnState}

theorem Coherent.shown_forget {owner : Nat} (active : view.mvcc.active owner = some state)
    (other : reader ≠ some owner) :
    ((Move.forget owner).apply view).shown key startTs reader = view.shown key startTs reader := by
  apply shown_congr
  · intro base
    rw [coherent.chain_forget active, DeltaChain.removeTxn]
    apply DeltaChain.applyForRead_filter
    intro delta mem dropped
    have own : delta.txn = owner := by simpa using dropped
    have pending := coherent.registry.pending_of_active mem (own ▸ active)
    simp [Delta.visibleTo, pending, own, other]
  · exact fun _ => rfl

/-- A commit stamps its deltas no earlier than any snapshot taken so far, and what it brings into
existence is not on a page. -/
theorem Coherent.shown_commit {owner : Nat} (active : view.mvcc.active owner = some state)
    (other : reader ≠ some owner) (started : startTs ≤ view.mvcc.clock) :
    ((Move.commit owner).apply view).shown key startTs reader = view.shown key startTs reader := by
  apply shown_congr
  · intro base
    rw [coherent.chain_commit active, ← DeltaChain.stampTxn_eq_map]
    exact DeltaChain.applyForRead_stampTxn started other
  · intro _
    by_cases present : view.present key
    · simp [baseShown, base, Move.apply, present]
    · simp only [Bool.not_eq_true] at present
      rw [baseShown_of_absent present]
      apply baseShown_of_dead
      intro record live
      rw [coherent.living key record live] at present
      cases present

theorem Coherent.shown_link {targets : Nat → Prop} {contents : Contents}
    (linked : view.Linked targets contents)
    (covered : ∀ id, targets id → key = .node id → view.contents key = .blank →
      (view.newest key).isSome → (view.chain key).sees startTs reader) :
    ((Move.link targets contents).apply view).shown key startTs reader =
      view.shown key startTs reader := by
  apply shown_congr
  · exact fun _ => rfl
  · intro blind
    rcases linked key with same | ⟨⟨id, target, isNode⟩, relinks⟩
    · simp only [baseShown, base, Move.apply, same]
    · generalize heldNow : contents key = now at relinks
      generalize heldBefore : view.contents key = held at relinks
      cases relinks with
      | same => simp only [baseShown, base, Move.apply, heldNow, heldBefore]
      | heads record ptr =>
        have present := coherent.living key record heldBefore
        have alike := Record.alike_withHeads (coherent.named key record heldBefore)
          (by rw [isNode]) ptr
        rw [baseShown_of_live present heldBefore, ← alike]
        exact baseShown_of_live present heldNow
      | placed record ptr visible =>
        have seen := covered id target isNode heldBefore (by rw [visible]; rfl)
        rw [blind] at seen
        cases seen

theorem Coherent.shown_vacuum {order : List EntityKey}
    (live : startTs = view.mvcc.clock ∨
      ∃ other state, view.mvcc.active other = some state ∧ startTs = state.startTs) :
    ((Move.vacuum order).apply view).shown key startTs reader = view.shown key startTs reader := by
  by_cases drained : view.mvcc.drains order key
  · have before : view.version key startTs reader =
        (view.newestNew key).bind EntitySnapshot.record? := by
      rw [version, chain, coherent.registry.applyForRead_drained drained live]
      rfl
    have empty : ((Move.vacuum order).apply view).chain key = [] := by
      simp [Move.apply, View.chain, Mvcc.drain, drained]
    have after : ((Move.vacuum order).apply view).shown key startTs reader =
        ((Move.vacuum order).apply view).baseShown key := by
      rw [shown, version, empty]
      rfl
    rw [after, shown, before]
    rcases coherent.drained_cases drained with deleted | ⟨present, record, newest, names⟩
    · rw [deleted]
      apply baseShown_of_dead
      simp only [Move.apply, drained, ↓reduceIte, deleted, Content.settle]
      intro record
      cases view.contents key <;> rintro ⟨⟩
    · have settled : ((Move.vacuum order).apply view).contents key =
          .live ((view.contents key).relink key.kind record) := by
        simp [Move.apply, drained, newest, Content.settle]
      have remains : ((Move.vacuum order).apply view).present key := by
        simp [Move.apply, drained, newest, View.remains, present]
      rw [baseShown_of_live remains settled, newest]
      exact congrArg some (Record.alike_relink names _)
  · apply shown_congr
    · intro base
      simp [Move.apply, View.chain, Mvcc.drain, drained]
    · intro _
      simp [baseShown, base, Move.apply, drained]

end Moves

/-- Whatever the transaction has not written, it reads as before, as long as it is active. -/
structure Repeats (txn : Nat) (before after : View) : Prop where
  continues : before.mvcc.Continues after.mvcc
  shown : txn < before.mvcc.nextTxnId → ∀ state, after.mvcc.active txn = some state →
    ∀ key ∉ state.written, after.shown key state.startTs (some txn) =
      before.shown key state.startTs (some txn)

instance (txn : Nat) : IsPreorder View (Repeats txn) where
  refl view := ⟨refl_of Mvcc.Continues view.mvcc, fun _ _ _ _ _ => rfl⟩
  trans first second third := by
    intro earlier later
    refine ⟨trans_of Mvcc.Continues earlier.continues later.continues, ?_⟩
    intro known state'' active'' key unwritten
    have known' := known.trans_le earlier.continues.nextTxnId
    obtain ⟨state', active', start', written'⟩ := later.continues.states txn known' state'' active''
    rw [later.shown known' state'' active'' key unwritten, start']
    exact earlier.shown known state' active' key fun member => unwritten (written' member)

end View

namespace Move

/-- The move commits nothing and leaves the pages to the vacuum. -/
def Versioned : Move → Prop
  | tick | begin | skipId _ | note _ _ | push _ _ | forget _ | vacuum _ => True
  | _ => False

/-- The move changes what is known of transactions and their pending versions, and nothing else. -/
def Transactional : Move → Prop
  | tick | begin | skipId _ | note _ _ | push _ _ | forget _ => True
  | _ => False

theorem Transactional.versioned {move : Move} (transactional : move.Transactional) :
    move.Versioned := by
  cases move with
  | tick | begin | skipId | note | push | forget => trivial
  | _ => exact transactional.elim

theorem continues {view : View} {move : Move} (valid : move.Valid view) :
    view.mvcc.Continues (move.apply view).mvcc := by
  cases move with
  | begin => exact Mvcc.continues_begin view.mvcc
  | note txn f =>
    refine Mvcc.continues_modifyTxn fun state => ⟨(valid state).1, ?_⟩
    rw [(valid state).2]
    exact List.Subset.refl _
  | push key delta =>
    have pushed : Mvcc.Continues view.mvcc (view.mvcc.setChain key (delta :: view.mvcc.chain key)) :=
      Mvcc.continues_of_active rfl rfl
    apply trans_of Mvcc.Continues pushed
    exact Mvcc.continues_modifyTxn fun state => ⟨rfl, List.subset_append_left _ _⟩
  | forget txn =>
    exact Mvcc.continues_of_ended (Mvcc.forget_nextTxnId view.mvcc txn)
      (Mvcc.forget_active view.mvcc txn)
  | commit txn =>
    exact Mvcc.continues_of_ended (Mvcc.commit_nextTxnId view.mvcc txn)
      (Mvcc.commit_active view.mvcc txn)
  | _ => exact Mvcc.continues_of_active rfl rfl

end Move

namespace View

section Repeats

variable {view after : View} (coherent : view.Coherent) {txn : Nat}

include coherent

theorem Coherent.repeats {move : Move} (valid : move.Valid view) (versioned : move.Versioned) :
    view.Repeats txn (move.apply view) := by
  refine ⟨Move.continues valid, fun known state' active' key unwritten => ?_⟩
  obtain ⟨state, active, start, _⟩ := (Move.continues valid).states txn known state' active'
  cases move with
  | push pushed delta =>
    apply shown_push valid.pending
    rintro rfl own
    obtain rfl := Option.some.inj own
    apply unwritten
    have recorded : ((Move.push pushed delta).apply view).mvcc.active delta.txn =
        some { state with written := state.written ++ [pushed] } := by
      simp [Move.apply, Mvcc.pushDelta, Mvcc.modifyTxn, Mvcc.setChain, active]
    obtain rfl := Option.some.inj (recorded.symm.trans active')
    simp
  | forget owner =>
    obtain ⟨_, running⟩ := valid
    refine coherent.shown_forget running ?_
    intro own
    obtain rfl := Option.some.inj own
    simp [Move.apply, Mvcc.forget_active] at active'
  | vacuum order => exact coherent.shown_vacuum (.inr ⟨txn, state, active, start⟩)
  | tick | begin | skipId | note => exact shown_congr (fun _ => rfl) fun _ => rfl
  | commit | link | write | pin | erase => exact versioned.elim

theorem Coherent.repeats_commit {owner : Nat} (valid : (Move.commit owner).Valid view) :
    view.Repeats txn ((Move.commit owner).apply view) := by
  refine ⟨Move.continues valid, fun known state' active' key _ => ?_⟩
  obtain ⟨state, active, start, _⟩ := (Move.continues valid).states txn known state' active'
  have started : state'.startTs ≤ view.mvcc.clock := by
    rw [start]
    exact (coherent.registry.started active).le
  obtain ⟨_, running⟩ := valid
  refine coherent.shown_commit running ?_ started
  intro own
  obtain rfl := Option.some.inj own
  simp [Move.apply, Mvcc.commit_active] at active'

theorem Path.repeats {moves : List Move} (path : Path view moves after)
    (versioned : ∀ move ∈ moves, move.Versioned) : view.Repeats txn after := by
  induction path with
  | nil => exact refl_of (Repeats txn) _
  | @cons view _ move _ valid later ih =>
    have first : view.Repeats txn (move.apply view) :=
      coherent.repeats valid (versioned _ List.mem_cons_self)
    apply trans_of (Repeats txn) first
    exact ih (coherent.apply valid) fun other mem =>
      versioned other (.tail _ mem)

theorem Coherent.repeats_link {targets : Nat → Prop} {contents : Contents}
    (linked : view.Linked targets contents)
    (covered : ∀ id, targets id → view.contents (.node id) = .blank →
      (view.newest (.node id)).isSome → ∀ state, view.mvcc.active txn = some state →
        (view.chain (.node id)).sees state.startTs (some txn)) :
    view.Repeats txn ((Move.link targets contents).apply view) := by
  refine ⟨refl_of Mvcc.Continues view.mvcc, fun _ state active key _ => ?_⟩
  apply coherent.shown_link linked
  rintro id target rfl blank visible
  exact covered id target blank visible state active

end Repeats

end View

end ErmyaGraph
