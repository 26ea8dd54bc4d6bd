import ErmyaGraph.Versions.Snapshots

/-! # The latest commit

A ledger notes what each commit left of each entity. As long as no commit is
overtaken by one that pushed its delta later, a reader that started after all
commits to an entity sees the last entry. -/

namespace ErmyaGraph

open List DeltaChain

/-- What a commit left of one entity. -/
structure CommitEntry where
  ts : Nat
  key : EntityKey
  version : Option EntitySnapshot
deriving DecidableEq

namespace DeltaChain

variable {chain : DeltaChain} {base : Option EntitySnapshot} {startTs startTs' txn ts : Nat}
  {reader reader' : Option Nat}

/-- No delta pushed after the transaction's newest one has been committed. -/
def inOrder (chain : DeltaChain) (txn : Nat) : Bool :=
  (chain.takeWhile fun delta => delta.txn ≠ txn).all fun delta => delta.commitTs.isNone

theorem applyForRead_congr (same : ∀ delta ∈ chain,
    delta.visibleTo startTs reader = delta.visibleTo startTs' reader') :
    applyForRead base chain startTs reader = applyForRead base chain startTs' reader' := by
  induction chain with
  | nil => rfl
  | cons delta rest ih =>
    have later := ih fun other mem => same other (mem_cons_of_mem delta mem)
    by_cases seen : delta.visibleTo startTs reader
    · rw [applyForRead_cons_visible seen,
        applyForRead_cons_visible ((same delta mem_cons_self).symm.trans seen)]
    · simp only [Bool.not_eq_true] at seen
      rw [applyForRead_cons_hidden seen,
        applyForRead_cons_hidden ((same delta mem_cons_self).symm.trans seen), later]

theorem applyForRead_stamped {newest : Delta} (found : chain.newestOfTxn txn = some newest)
    (ordered : chain.inOrder txn)
    (pending : ∀ delta ∈ chain, delta.txn = txn → delta.commitTs = none) (late : ts < startTs) :
    applyForRead base (chain.stampTxn txn ts) startTs none = newest.new := by
  induction chain with
  | nil => cases found
  | cons delta rest ih =>
    rw [stampTxn_eq_map, map_cons]
    by_cases own : delta.txn = txn
    · subst own
      obtain rfl : delta = newest := by simpa [newestOfTxn] using found
      have stamped : (stampOne delta.txn ts delta).commitTs = some ts :=
        stampOne_pending (pending delta mem_cons_self rfl)
      have seen : (stampOne delta.txn ts delta).visibleTo startTs none := by
        simp [Delta.visibleTo, stamped, late]
      rw [applyForRead_cons_visible seen, stampOne_new]
    · have split : delta.commitTs.isNone ∧ inOrder rest txn := by
        simpa [inOrder, own] using ordered
      have hidden : delta.visibleTo startTs none = false := by
        simp [Delta.visibleTo, Option.isNone_iff_eq_none.mp split.1]
      rw [stampOne_of_ne own, applyForRead_cons_hidden hidden, ← stampTxn_eq_map]
      apply ih _ split.2 fun other mem => pending other (mem_cons_of_mem delta mem)
      simpa [newestOfTxn, own] using found

end DeltaChain

namespace Mvcc

/-- What a commit of the transaction adds to the ledger. -/
def commitEntries (mvcc : Mvcc) (txn : Nat) : List CommitEntry :=
  (mvcc.committed txn).map fun entry => ⟨mvcc.clock, entry.1, entry.2.new⟩

/-- Committed deltas are not overtaken: see `DeltaChain.inOrder`. -/
def commitsInOrder (mvcc : Mvcc) (txn : Nat) : Prop :=
  ∀ entry ∈ mvcc.committed txn, (mvcc.chain entry.1).inOrder txn

end Mvcc

namespace View

variable {after : View} {key : EntityKey} {state : TxnState}

/-- What a reader outside any transaction sees of an entity. -/
def current (view : View) (key : EntityKey) : Option Record :=
  view.shown key view.mvcc.clock none

/-- The ledger accounts for what readers see: every stamp is that of an entry, and the last entry
of an entity is its current version. -/
structure Tallies (view : View) (ledger : List CommitEntry) : Prop where
  past : ∀ entry ∈ ledger, entry.ts < view.mvcc.clock
  noted : ∀ key, ∀ delta ∈ view.chain key, ∀ ts, delta.commitTs = some ts →
    ∃ entry ∈ ledger, entry.key = key ∧ entry.ts = ts
  last : ∀ entry ∈ ledger, (∀ other ∈ ledger, other.key = entry.key → other.ts ≤ entry.ts) →
      view.current entry.key = (entry.version.bind EntitySnapshot.record?).map Record.observed

/-- Nothing was committed. -/
structure Steady (before after : View) : Prop where
  clock : before.mvcc.clock ≤ after.mvcc.clock
  stamped : ∀ key, ∀ delta ∈ after.chain key, ∀ ts, delta.commitTs = some ts →
    ∃ old ∈ before.chain key, old.commitTs = some ts
  current : ∀ key, after.current key = before.current key

instance : IsPreorder View Steady where
  refl view := ⟨le_rfl, fun _ delta member _ stamped => ⟨delta, member, stamped⟩, fun _ => rfl⟩
  trans first second third := by
    intro earlier later
    refine ⟨earlier.clock.trans later.clock, ?_,
      fun key => (later.current key).trans (earlier.current key)⟩
    intro key delta member ts stamped
    obtain ⟨old, here, stamped'⟩ := later.stamped key delta member ts stamped
    exact earlier.stamped key old here ts stamped'

theorem Tallies.steady {view : View} {ledger : List CommitEntry} (tallies : view.Tallies ledger)
    (steady : view.Steady after) : after.Tallies ledger := by
  refine ⟨fun entry mem => (tallies.past entry mem).trans_le steady.clock, ?_, ?_⟩
  · intro key delta mem ts stamped
    obtain ⟨old, here, stamped'⟩ := steady.stamped key delta mem ts stamped
    exact tallies.noted key old here ts stamped'
  · intro entry mem greatest
    rw [steady.current]
    exact tallies.last entry mem greatest

section Steady

variable {view : View} (coherent : view.Coherent)

include coherent

theorem Coherent.shown_of_late {startTs : Nat} {reader : Option Nat}
    (late : ∀ delta ∈ view.chain key, ∀ ts, delta.commitTs = some ts → ts < startTs)
    (foreign : ∀ delta ∈ view.chain key, reader ≠ some delta.txn) :
    view.shown key startTs reader = view.current key := by
  unfold current shown version
  rw [applyForRead_congr]
  intro delta mem
  cases committed : delta.commitTs with
  | none => simp [Delta.visibleTo, committed, foreign delta mem]
  | some ts =>
    simp [Delta.visibleTo, committed, late delta mem ts committed,
      (coherent.registry.stamped mem committed).1]

theorem Coherent.steady_of_chains (coherent' : after.Coherent)
    (chains : ∀ key, after.chain key = view.chain key)
    (bases : ∀ key, after.baseShown key = view.baseShown key)
    (clock : view.mvcc.clock ≤ after.mvcc.clock) : view.Steady after := by
  refine ⟨clock, fun key delta mem ts stamped => ⟨delta, chains key ▸ mem, stamped⟩, ?_⟩
  intro key
  have early : ∀ delta ∈ after.chain key, ∀ ts, delta.commitTs = some ts →
      ts < view.mvcc.clock := by
    intro delta mem ts stamped
    rw [chains] at mem
    exact (coherent.registry.stamped mem stamped).1
  have foreign : ∀ delta ∈ after.chain key, (none : Option Nat) ≠ some delta.txn :=
    fun _ _ same => nomatch same
  rw [← coherent'.shown_of_late early foreign]
  exact shown_congr (fun base => by rw [chains]) fun _ => bases key

/-- Apart from commits, moves of the versions change no current version. -/
theorem Coherent.steady {move : Move} (valid : move.Valid view) (versioned : move.Versioned) :
    view.Steady (move.apply view) := by
  have coherent' := coherent.apply valid
  cases move with
  | tick =>
    exact coherent.steady_of_chains coherent' (fun _ => rfl) (fun _ => rfl) (Nat.le_succ _)
  | begin =>
    exact coherent.steady_of_chains coherent' (fun _ => rfl) (fun _ => rfl) (Nat.le_succ _)
  | skipId | note =>
    exact coherent.steady_of_chains coherent' (fun _ => rfl) (fun _ => rfl) le_rfl
  | push pushed delta =>
    refine ⟨le_rfl, fun key other mem ts stamped => ?_, fun key => ?_⟩
    · rw [chain_push] at mem
      split at mem
      · next same =>
          subst same
          rcases mem_cons.mp mem with rfl | old
          · rw [valid.pending] at stamped
            cases stamped
          · exact ⟨other, old, stamped⟩
      · exact ⟨other, mem, stamped⟩
    · exact shown_push valid.pending fun _ => nofun
  | forget txn =>
    obtain ⟨state, active⟩ := valid
    have clock : ((Move.forget txn).apply view).mvcc.clock = view.mvcc.clock :=
      Mvcc.forget_clock view.mvcc txn
    refine ⟨clock.ge, fun key delta mem ts stamped => ?_, fun key => ?_⟩
    · rw [coherent.chain_forget active] at mem
      exact ⟨delta, (mem_filter.mp mem).1, stamped⟩
    · rw [current, clock]
      exact coherent.shown_forget active nofun
  | vacuum order =>
    refine ⟨le_rfl, fun key delta mem ts stamped => ?_, fun key => ?_⟩
    · simp only [Move.apply, View.chain, Mvcc.drain] at mem
      split at mem
      · cases mem
      · exact ⟨delta, mem, stamped⟩
    · exact coherent.shown_vacuum (.inl rfl)
  | commit | link | write | pin | erase => exact versioned.elim

theorem Coherent.steady_link {targets : Nat → Prop} {contents : Contents}
    (linked : view.Linked targets contents) :
    view.Steady ((Move.link targets contents).apply view) := by
  refine ⟨le_rfl, fun key delta mem ts stamped => ⟨delta, mem, stamped⟩, fun key => ?_⟩
  apply coherent.shown_link linked
  rintro id _ rfl _ visible
  -- What is put on a page is a version that a delta shows.
  by_contra hidden
  have blind : (view.chain (.node id)).sees view.mvcc.clock none = false :=
    Bool.eq_false_iff.mpr hidden
  rw [newest, applyForRead_of_not_sees blind] at visible
  cases visible

theorem Path.steady {moves : List Move} (path : Path view moves after)
    (versioned : ∀ move ∈ moves, move.Versioned) : view.Steady after := by
  induction path with
  | nil => exact refl_of Steady _
  | cons valid later ih =>
    have first := coherent.steady valid (versioned _ mem_cons_self)
    apply trans_of Steady first
    exact ih (coherent.apply valid) fun other mem =>
      versioned other (.tail _ mem)

variable {txn : Nat}

theorem Coherent.current_commit_of_absent (active : view.mvcc.active txn = some state)
    (absent : ∀ delta ∈ view.chain key, delta.txn ≠ txn) :
    ((Move.commit txn).apply view).current key = view.current key := by
  have chain : ((Move.commit txn).apply view).chain key = view.chain key := by
    rw [coherent.chain_commit active, ← stampTxn_eq_map]
    exact stampTxn_of_absent absent
  have early : ∀ delta ∈ ((Move.commit txn).apply view).chain key, ∀ ts,
      delta.commitTs = some ts → ts < view.mvcc.clock := by
    intro delta mem ts stamped
    rw [chain] at mem
    exact (coherent.registry.stamped mem stamped).1
  have foreign : ∀ delta ∈ ((Move.commit txn).apply view).chain key,
      (none : Option Nat) ≠ some delta.txn := fun _ _ same => nomatch same
  have coherent' := coherent.commit ⟨state, active⟩
  rw [← coherent'.shown_of_late early foreign]
  exact coherent.shown_commit active nofun le_rfl

theorem Coherent.current_commit_of_newest {delta : Delta}
    (active : view.mvcc.active txn = some state)
    (found : (view.chain key).newestOfTxn txn = some delta)
    (ordered : (view.chain key).inOrder txn) :
    ((Move.commit txn).apply view).current key =
      (delta.new.bind EntitySnapshot.record?).map Record.observed := by
  have clock : ((Move.commit txn).apply view).mvcc.clock = view.mvcc.clock + 1 :=
    Mvcc.commit_clock view.mvcc txn
  have pending : ∀ other ∈ view.chain key, other.txn = txn → other.commitTs = none :=
    fun other mem own => coherent.registry.pending_of_active mem (own ▸ active)
  rw [current, shown, version, clock, coherent.chain_commit active, ← stampTxn_eq_map,
    applyForRead_stamped found ordered pending (Nat.lt_succ_self _)]

theorem Tallies.commit {ledger : List CommitEntry} (tallies : view.Tallies ledger)
    (active : view.mvcc.active txn = some state) (ordered : view.mvcc.commitsInOrder txn) :
    ((Move.commit txn).apply view).Tallies (ledger ++ view.mvcc.commitEntries txn) := by
  have clock : ((Move.commit txn).apply view).mvcc.clock = view.mvcc.clock + 1 :=
    Mvcc.commit_clock view.mvcc txn
  have mem_entries {entry : CommitEntry} : entry ∈ view.mvcc.commitEntries txn ↔
      entry.ts = view.mvcc.clock ∧ ∃ delta, (entry.key, delta) ∈ view.mvcc.committed txn ∧
        delta.new = entry.version := by
    simp only [Mvcc.commitEntries, mem_map]
    constructor
    · rintro ⟨⟨key, delta⟩, mem, rfl⟩
      exact ⟨rfl, delta, mem, rfl⟩
    · rintro ⟨ts, delta, mem, version⟩
      exact ⟨(entry.key, delta), mem, by rw [← ts, version]⟩
  -- A delta of the transaction has an entry.
  have entered {key : EntityKey} {old : Delta} (mem : old ∈ view.chain key)
      (own : old.txn = txn) : ∃ delta, (key, delta) ∈ view.mvcc.committed txn := by
    obtain ⟨newest, found⟩ :=
      Option.isSome_iff_exists.mp (Mvcc.newestOfTxn_isSome.mpr ⟨old, mem, own⟩)
    refine ⟨newest, Mvcc.mem_committed.mpr ⟨?_, found⟩⟩
    rw [Mvcc.keysWrittenBy_eq active]
    exact coherent.registry.written mem (own ▸ active)
  refine ⟨fun entry mem => ?_, fun key delta mem ts stamped => ?_, fun entry mem greatest => ?_⟩
  · rw [clock]
    rcases mem_append.mp mem with old | new
    · exact (tallies.past entry old).trans (Nat.lt_succ_self _)
    · rw [(mem_entries.mp new).1]
      exact Nat.lt_succ_self _
  · rw [coherent.chain_commit active] at mem
    obtain ⟨old, here, rfl⟩ := mem_map.mp mem
    by_cases own : old.txn = txn
    · subst own
      obtain ⟨newest, committed⟩ := entered here rfl
      rw [stampOne_pending (coherent.registry.pending_of_active here active)] at stamped
      obtain rfl := Option.some.inj stamped
      exact ⟨⟨view.mvcc.clock, key, newest.new⟩,
        mem_append_right _ (mem_entries.mpr ⟨rfl, newest, committed, rfl⟩), rfl, rfl⟩
    · rw [stampOne_of_ne own] at stamped
      obtain ⟨entry, noted, same⟩ := tallies.noted key old here ts stamped
      exact ⟨entry, mem_append_left _ noted, same⟩
  · rcases mem_append.mp mem with old | new
    · have absent : ∀ delta ∈ view.chain entry.key, delta.txn ≠ txn := by
        intro delta here own
        obtain ⟨newest, committed⟩ := entered here own
        have later := greatest ⟨view.mvcc.clock, entry.key, newest.new⟩
          (mem_append_right _ (mem_entries.mpr ⟨rfl, newest, committed, rfl⟩)) rfl
        exact absurd (tallies.past entry old) (Nat.not_lt.mpr later)
      rw [coherent.current_commit_of_absent active absent]
      exact tallies.last entry old fun other mem =>
        greatest other (mem_append_left _ mem)
    · obtain ⟨_, delta, committed, version⟩ := mem_entries.mp new
      have found := (Mvcc.mem_committed.mp committed).2
      rw [coherent.current_commit_of_newest active found (ordered _ committed), version]

end Steady

end View

end ErmyaGraph
