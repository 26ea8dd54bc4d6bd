import ErmyaGraph.Versions.Chain

/-! # The registry and the chains over a run

Which deltas can be pending and which are stamped, as the transactions that
wrote them begin, write, commit and roll back. -/

namespace ErmyaGraph.Mvcc

open List Function DeltaChain

variable {key : EntityKey} {delta : Delta} {state : TxnState} {txn : Nat}

/-- Pending deltas belong to active transactions that recorded the write; stamped ones to
transactions that ended, each with one timestamp below the clock. -/
structure Sound (mvcc : Mvcc) : Prop where
  started : ∀ {txn state}, mvcc.active txn = some state → state.startTs < mvcc.clock
  known : ∀ {txn state}, mvcc.active txn = some state → txn < mvcc.nextTxnId
  given : ∀ {key delta}, delta ∈ mvcc.chain key → delta.txn < mvcc.nextTxnId
  pending : ∀ {key delta}, delta ∈ mvcc.chain key → delta.commitTs = none →
    ∃ state, mvcc.active delta.txn = some state ∧ key ∈ state.written
  stamped : ∀ {key delta ts}, delta ∈ mvcc.chain key → delta.commitTs = some ts →
    ts < mvcc.clock ∧ mvcc.active delta.txn = none
  together : ∀ {key delta other}, delta ∈ mvcc.chain key → other ∈ mvcc.chain key →
    delta.txn = other.txn → delta.commitTs = other.commitTs

theorem sound_empty : Sound {} where
  started := nofun
  known := nofun
  given := nofun
  pending := nofun
  stamped := nofun
  together := nofun

section Sound

variable {mvcc : Mvcc} (sound : mvcc.Sound)

include sound

theorem Sound.pending_of_active (mem : delta ∈ mvcc.chain key)
    (active : mvcc.active delta.txn = some state) : delta.commitTs = none := by
  cases committed : delta.commitTs with
  | none => rfl
  | some ts =>
    have ended := (sound.stamped mem committed).2
    rw [active] at ended
    cases ended

theorem Sound.written (mem : delta ∈ mvcc.chain key)
    (active : mvcc.active delta.txn = some state) : key ∈ state.written := by
  obtain ⟨state', active', written⟩ := sound.pending mem (sound.pending_of_active mem active)
  rw [active] at active'
  cases active'
  exact written

theorem Sound.tick : Sound { mvcc with clock := mvcc.clock + 1 } where
  started active := (sound.started active).trans (Nat.lt_succ_self _)
  known := sound.known
  given := sound.given
  pending := sound.pending
  stamped mem committed := ⟨(sound.stamped mem committed).1.trans (Nat.lt_succ_self _),
      (sound.stamped mem committed).2⟩
  together := sound.together

theorem Sound.begin : mvcc.begin.Sound := by
  have other {txn : Nat} (old : txn < mvcc.nextTxnId) :
      mvcc.begin.active txn = mvcc.active txn :=
    update_of_ne (old.ne) _ _
  refine ⟨fun {txn state} active => ?_, fun {txn state} active => ?_, fun mem => ?_,
    fun mem pending => ?_, fun mem committed => ?_, sound.together⟩
  · by_cases new : txn = mvcc.nextTxnId
    · subst new
      simp only [Mvcc.begin, update_self, Option.some.injEq] at active ⊢
      subst active
      exact Nat.lt_succ_self _
    · simp only [Mvcc.begin, update_of_ne new] at active ⊢
      exact (sound.started active).trans (Nat.lt_succ_self _)
  · by_cases new : txn = mvcc.nextTxnId
    · subst new
      exact Nat.lt_succ_self _
    · simp only [Mvcc.begin, update_of_ne new] at active ⊢
      exact (sound.known active).trans (Nat.lt_succ_self _)
  · exact (sound.given mem).trans (Nat.lt_succ_self _)
  · rw [other (sound.given mem)]
    exact sound.pending mem pending
  · rw [other (sound.given mem)]
    obtain ⟨early, ended⟩ := sound.stamped mem committed
    exact ⟨early.trans (Nat.lt_succ_self _), ended⟩

theorem Sound.modifyTxn {f : TxnState → TxnState}
    (startTs : ∀ state, (f state).startTs = state.startTs)
    (written : ∀ state key, key ∈ state.written → key ∈ (f state).written) :
    (mvcc.modifyTxn txn f).Sound := by
  have back {other : Nat} {state : TxnState}
      (active : (mvcc.modifyTxn txn f).active other = some state) :
      ∃ old, mvcc.active other = some old ∧ state.startTs = old.startTs := by
    by_cases same : other = txn
    · subst same
      simp only [Mvcc.modifyTxn, update_self, Option.map_eq_some_iff] at active
      obtain ⟨old, found, rfl⟩ := active
      exact ⟨old, found, startTs old⟩
    · simp only [Mvcc.modifyTxn, update_of_ne same] at active
      exact ⟨state, active, rfl⟩
  refine ⟨fun active => ?_, fun active => ?_, sound.given, fun {key delta} mem pending => ?_,
    fun {key delta ts} mem committed => ?_, sound.together⟩
  · obtain ⟨old, found, same⟩ := back active
    rw [same]
    exact sound.started found
  · obtain ⟨old, found, _⟩ := back active
    exact sound.known found
  · obtain ⟨state, active, recorded⟩ := sound.pending mem pending
    by_cases same : delta.txn = txn
    · refine ⟨f state, ?_, written state key recorded⟩
      simp [Mvcc.modifyTxn, ← same, active]
    · refine ⟨state, ?_, recorded⟩
      simpa only [Mvcc.modifyTxn, update_of_ne same] using active
  · obtain ⟨early, ended⟩ := sound.stamped mem committed
    refine ⟨early, ?_⟩
    by_cases same : delta.txn = txn
    · simp [Mvcc.modifyTxn, ← same, ended]
    · simpa only [Mvcc.modifyTxn, update_of_ne same] using ended

theorem Sound.shrink {chain : EntityKey → DeltaChain} (fewer : ∀ key, chain key ⊆ mvcc.chain key) :
    Sound { mvcc with chain := chain } where
  started := sound.started
  known := sound.known
  given {key _} mem := sound.given (fewer key mem)
  pending {key _} mem := sound.pending (fewer key mem)
  stamped {key _ _} mem := sound.stamped (fewer key mem)
  together {key _ _} mem other := sound.together (fewer key mem) (fewer key other)

theorem Sound.push (active : mvcc.active delta.txn = some state) (pending : delta.commitTs = none) :
    (mvcc.pushDelta key delta).Sound := by
  have recorded : (mvcc.pushDelta key delta).active delta.txn =
      some { state with written := state.written ++ [key] } := by
    simp [pushDelta, Mvcc.modifyTxn, setChain, active]
  have others {txn : Nat} (ne : txn ≠ delta.txn) :
      (mvcc.pushDelta key delta).active txn = mvcc.active txn :=
    update_of_ne ne _ _
  have chains (k : EntityKey) : (mvcc.pushDelta key delta).chain k =
      if k = key then delta :: mvcc.chain key else mvcc.chain k := by
    simp [pushDelta, Mvcc.modifyTxn, setChain, update_apply]
  have cases {k : EntityKey} {d : Delta} (mem : d ∈ (mvcc.pushDelta key delta).chain k) :
      k = key ∧ d = delta ∨ d ∈ mvcc.chain k := by
    rw [chains] at mem
    by_cases same : k = key
    · subst same
      rw [if_pos rfl] at mem
      rcases mem_cons.mp mem with new | old
      · exact .inl ⟨rfl, new⟩
      · exact .inr old
    · rw [if_neg same] at mem
      exact .inr mem
  have own {k : EntityKey} {d : Delta} (mem : d ∈ mvcc.chain k) (same : d.txn = delta.txn) :
      d.commitTs = none := sound.pending_of_active mem (same ▸ active)
  refine ⟨fun {txn current} found => ?_, fun {txn current} found => ?_, fun {k d} mem => ?_,
    fun {k d} mem open' => ?_, fun {k d ts} mem committed => ?_,
    fun {k d d'} mem mem' same => ?_⟩
  · by_cases same : txn = delta.txn
    · subst same
      rw [recorded] at found
      cases found
      have early : state.startTs < mvcc.clock := sound.started active
      exact early
    · rw [others same] at found
      exact sound.started found
  · by_cases same : txn = delta.txn
    · subst same
      exact sound.known active
    · rw [others same] at found
      exact sound.known found
  · rcases cases mem with ⟨_, rfl⟩ | old
    · exact sound.known active
    · exact sound.given old
  · rcases cases mem with ⟨rfl, rfl⟩ | old
    · exact ⟨_, recorded, by simp⟩
    · by_cases same : d.txn = delta.txn
      · refine ⟨_, same ▸ recorded, ?_⟩
        exact mem_append_left _ (sound.written old (same ▸ active))
      · rw [others same]
        exact sound.pending old open'
  · rcases cases mem with ⟨_, rfl⟩ | old
    · rw [pending] at committed
      cases committed
    · by_cases same : d.txn = delta.txn
      · rw [own old same] at committed
        cases committed
      · rw [others same]
        exact sound.stamped old committed
  · rcases cases mem with ⟨_, rfl⟩ | old
    · rcases cases mem' with ⟨_, rfl⟩ | old'
      · rfl
      · rw [pending, own old' same.symm]
    · rcases cases mem' with ⟨_, rfl⟩ | old'
      · rw [pending, own old same]
      · exact sound.together old old' same

end Sound

def forget (mvcc : Mvcc) (txn : Nat) : Mvcc := (mvcc.removeDeltas txn).endTxn txn

variable (mvcc : Mvcc)

theorem removeDeltas_chain (txn : Nat) (key : EntityKey) :
    (mvcc.removeDeltas txn).chain key = if key ∈ mvcc.keysWrittenBy txn then
      (mvcc.chain key).removeTxn txn else mvcc.chain key :=
  chain_foldl_setChain (fun chain => chain.removeTxn_idem txn) _ mvcc key

theorem foldl_setChain_clock (f : Mvcc → EntityKey → DeltaChain) (keys : List EntityKey)
    (mvcc : Mvcc) :
    (keys.foldl (fun mvcc key => mvcc.setChain key (f mvcc key)) mvcc).clock = mvcc.clock := by
  induction keys generalizing mvcc with
  | nil => rfl
  | cons key rest ih => exact ih (mvcc.setChain key (f mvcc key))

theorem forget_active (txn : Nat) : (mvcc.forget txn).active = update mvcc.active txn none := by
  simp only [forget, endTxn, removeDeltas]
  rw [(setChain_foldl_active (fun mvcc key => (mvcc.chain key).removeTxn txn) _ mvcc).1]

theorem forget_clock (txn : Nat) : (mvcc.forget txn).clock = mvcc.clock :=
  foldl_setChain_clock (fun mvcc key => (mvcc.chain key).removeTxn txn) _ mvcc

theorem forget_nextTxnId (txn : Nat) : (mvcc.forget txn).nextTxnId = mvcc.nextTxnId :=
  (setChain_foldl_active (fun mvcc key => (mvcc.chain key).removeTxn txn) _ mvcc).2

variable {mvcc : Mvcc}

theorem Sound.forget_chain (sound : mvcc.Sound) (active : mvcc.active txn = some state)
    (key : EntityKey) : (mvcc.forget txn).chain key = (mvcc.chain key).removeTxn txn := by
  change (mvcc.removeDeltas txn).chain key = _
  rw [removeDeltas_chain, keysWrittenBy_eq active]
  by_cases written : key ∈ state.written
  · rw [if_pos written]
  · rw [if_neg written, removeTxn_of_absent]
    rintro delta mem rfl
    exact written (sound.written mem active)

theorem Sound.forget (sound : mvcc.Sound) (active : mvcc.active txn = some state) :
    (mvcc.forget txn).Sound := by
  have back {other : Nat} {state' : TxnState}
      (found : (mvcc.forget txn).active other = some state') :
      mvcc.active other = some state' := by
    rw [forget_active] at found
    by_cases same : other = txn
    · subst same
      simp at found
    · simpa only [update_of_ne same] using found
  have kept {key : EntityKey} {delta : Delta} (mem : delta ∈ (mvcc.forget txn).chain key) :
      delta ∈ mvcc.chain key ∧ delta.txn ≠ txn := by
    rw [sound.forget_chain active] at mem
    simpa [removeTxn] using mem
  have others {other : Nat} (ne : other ≠ txn) :
      (mvcc.forget txn).active other = mvcc.active other := by
    rw [forget_active, update_of_ne ne]
  refine ⟨fun found => ?_, fun found => ?_, fun mem => ?_, fun mem pending => ?_,
    fun mem committed => ?_, fun mem mem' same => ?_⟩
  · rw [forget_clock]
    exact sound.started (back found)
  · rw [forget_nextTxnId]
    exact sound.known (back found)
  · rw [forget_nextTxnId]
    exact sound.given (kept mem).1
  · obtain ⟨old, ne⟩ := kept mem
    rw [others ne]
    exact sound.pending old pending
  · obtain ⟨old, ne⟩ := kept mem
    rw [others ne, forget_clock]
    exact sound.stamped old committed
  · exact sound.together (kept mem).1 (kept mem').1 same

/-- Stamp a transaction's deltas with the next timestamp. -/
def stamp (mvcc : Mvcc) (txn : Nat) : Mvcc :=
  stampKeys { mvcc with clock := mvcc.clock + 1 } txn mvcc.clock ((mvcc.committed txn).map Prod.fst)

def commit (mvcc : Mvcc) (txn : Nat) : Mvcc := (mvcc.stamp txn).endTxn txn

theorem stamp_active (mvcc : Mvcc) (txn : Nat) : (mvcc.stamp txn).active = mvcc.active :=
  (setChain_foldl_active (fun m key => (m.chain key).stampTxn txn mvcc.clock) _ _).1

theorem stamp_nextTxnId (mvcc : Mvcc) (txn : Nat) : (mvcc.stamp txn).nextTxnId = mvcc.nextTxnId :=
  (setChain_foldl_active (fun m key => (m.chain key).stampTxn txn mvcc.clock) _ _).2

theorem stamp_clock (mvcc : Mvcc) (txn : Nat) : (mvcc.stamp txn).clock = mvcc.clock + 1 :=
  foldl_setChain_clock (fun m key => (m.chain key).stampTxn txn mvcc.clock) _ _

theorem mem_firsts (seen keys : List EntityKey) (key : EntityKey) :
    key ∈ keys.foldl (fun seen key => if key ∈ seen then seen else seen ++ [key]) seen ↔
      key ∈ seen ∨ key ∈ keys := by
  induction keys generalizing seen with
  | nil => simp
  | cons first rest ih =>
    rw [foldl_cons, ih]
    by_cases known : first ∈ seen
    · rw [if_pos known, mem_cons]
      constructor
      · rintro (here | later)
        · exact .inl here
        · exact .inr (.inr later)
      · rintro (here | rfl | later)
        · exact .inl here
        · exact .inl known
        · exact .inr later
    · rw [if_neg known]
      simp [or_assoc]

theorem mem_committed :
    (key, delta) ∈ mvcc.committed txn ↔
      key ∈ mvcc.keysWrittenBy txn ∧ (mvcc.chain key).newestOfTxn txn = some delta := by
  simp only [committed, mem_filterMap, mem_firsts, not_mem_nil, false_or]
  constructor
  · rintro ⟨other, written, found⟩
    obtain ⟨newest, here, same⟩ := Option.map_eq_some_iff.mp found
    cases same
    exact ⟨written, here⟩
  · rintro ⟨written, newest⟩
    exact ⟨key, written, by simp [newest]⟩

theorem newestOfTxn_isSome {chain : DeltaChain} :
    (chain.newestOfTxn txn).isSome ↔ ∃ delta ∈ chain, delta.txn = txn := by
  simp [newestOfTxn]

theorem Sound.stamp_chain (sound : mvcc.Sound) (active : mvcc.active txn = some state)
    (key : EntityKey) : (mvcc.stamp txn).chain key = (mvcc.chain key).stampTxn txn mvcc.clock := by
  unfold stamp stampKeys
  rw [chain_foldl_setChain fun chain => chain.stampTxn_idem txn mvcc.clock]
  by_cases handled : key ∈ (mvcc.committed txn).map Prod.fst
  · rw [if_pos handled]
  · rw [if_neg handled, stampTxn_of_absent]
    rintro delta mem rfl
    obtain ⟨newest, found⟩ :=
      Option.isSome_iff_exists.mp (newestOfTxn_isSome.mpr ⟨delta, mem, rfl⟩)
    refine handled (mem_map.mpr ⟨(key, newest), mem_committed.mpr ⟨?_, found⟩, rfl⟩)
    rw [keysWrittenBy_eq active]
    exact sound.written mem active

theorem Sound.commit_chain (sound : mvcc.Sound) (active : mvcc.active txn = some state)
    (key : EntityKey) : (mvcc.commit txn).chain key = (mvcc.chain key).stampTxn txn mvcc.clock :=
  sound.stamp_chain active key

theorem commit_active (mvcc : Mvcc) (txn : Nat) :
    (mvcc.commit txn).active = update mvcc.active txn none := by
  simp only [commit, endTxn, stamp_active]

theorem commit_clock (mvcc : Mvcc) (txn : Nat) : (mvcc.commit txn).clock = mvcc.clock + 1 :=
  stamp_clock mvcc txn

theorem commit_nextTxnId (mvcc : Mvcc) (txn : Nat) :
    (mvcc.commit txn).nextTxnId = mvcc.nextTxnId := stamp_nextTxnId mvcc txn

theorem Sound.commit (sound : mvcc.Sound) (active : mvcc.active txn = some state) :
    (mvcc.commit txn).Sound := by
  have others {other : Nat} (ne : other ≠ txn) :
      (mvcc.commit txn).active other = mvcc.active other := by
    rw [commit_active, update_of_ne ne]
  have back {other : Nat} {state' : TxnState}
      (found : (mvcc.commit txn).active other = some state') :
      mvcc.active other = some state' := by
    by_cases same : other = txn
    · subst same
      simp [commit_active] at found
    · rwa [others same] at found
  -- Every delta is an old one, stamped now if it was the transaction's.
  have old {key : EntityKey} {delta : Delta} (mem : delta ∈ (mvcc.commit txn).chain key) :
      ∃ before ∈ mvcc.chain key, delta.txn = before.txn ∧
        (before.txn ≠ txn ∧ delta.commitTs = before.commitTs ∨
          before.txn = txn ∧ delta.commitTs = some mvcc.clock) := by
    rw [sound.commit_chain active, stampTxn_eq_map] at mem
    obtain ⟨before, was, rfl⟩ := mem_map.mp mem
    refine ⟨before, was, stampOne_txn .., ?_⟩
    by_cases own : before.txn = txn
    · subst own
      exact .inr ⟨rfl, stampOne_pending (sound.pending_of_active was active)⟩
    · exact .inl ⟨own, by rw [stampOne_of_ne own]⟩
  refine ⟨fun found => ?_, fun found => ?_, fun mem => ?_, fun mem pending => ?_,
    fun mem committed => ?_, fun mem mem' same => ?_⟩
  · rw [commit_clock]
    exact (sound.started (back found)).trans (Nat.lt_succ_self _)
  · rw [commit_nextTxnId]
    exact sound.known (back found)
  · rw [commit_nextTxnId]
    obtain ⟨before, was, txn', _⟩ := old mem
    rw [txn']
    exact sound.given was
  · obtain ⟨before, was, txn', ⟨ne, ts⟩ | ⟨_, ts⟩⟩ := old mem
    · rw [txn', others ne]
      exact sound.pending was (ts ▸ pending)
    · rw [ts] at pending
      cases pending
  · obtain ⟨before, was, txn', ⟨ne, ts⟩ | ⟨own, ts⟩⟩ := old mem
    · rw [txn', others ne, commit_clock]
      obtain ⟨early, ended⟩ := sound.stamped was (ts ▸ committed)
      exact ⟨early.trans (Nat.lt_succ_self _), ended⟩
    · rw [ts] at committed
      cases committed
      rw [txn', own, commit_active, commit_clock]
      exact ⟨Nat.lt_succ_self _, update_self ..⟩
  · obtain ⟨before, was, txn', stamp⟩ := old mem
    obtain ⟨before', was', txn'', stamp'⟩ := old mem'
    have equal : before.txn = before'.txn := by rw [← txn', ← txn'', same]
    rcases stamp with ⟨ne, ts⟩ | ⟨own, ts⟩
    · rcases stamp' with ⟨_, ts'⟩ | ⟨own', _⟩
      · rw [ts, ts']
        exact sound.together was was' equal
      · exact absurd (equal.trans own') ne
    · rcases stamp' with ⟨ne', _⟩ | ⟨_, ts'⟩
      · exact absurd (equal ▸ own) ne'
      · rw [ts, ts']

/-- A chain the vacuum takes, when its table hands over the given keys. -/
def drains (mvcc : Mvcc) (order : List EntityKey) (key : EntityKey) : Bool :=
  key ∈ order && mvcc.vacuumable key

def drain (mvcc : Mvcc) (order : List EntityKey) : Mvcc :=
  { mvcc with chain := fun key => if mvcc.drains order key then [] else mvcc.chain key }

theorem Sound.drain (sound : mvcc.Sound) (order : List EntityKey) : (mvcc.drain order).Sound := by
  refine sound.shrink fun key => ?_
  split
  · exact nil_subset _
  · exact List.Subset.refl _

variable {order : List EntityKey}

theorem Sound.drained (sound : mvcc.Sound) (drained : mvcc.drains order key) :
    ∃ newest older, mvcc.chain key = newest :: older ∧
      ∀ delta ∈ mvcc.chain key, delta.safeToVacuum mvcc.oldestActiveStartTs ∧
        mvcc.active delta.txn = none := by
  simp only [drains, vacuumable, Bool.and_eq_true] at drained
  obtain ⟨_, nonempty, safe⟩ := drained
  cases chain : mvcc.chain key with
  | nil =>
    rw [chain] at nonempty
    cases nonempty
  | cons newest older =>
    refine ⟨newest, older, rfl, fun delta mem => ?_⟩
    rw [chain, allSafeToVacuum, all_eq_true] at safe
    refine ⟨safe delta mem, ?_⟩
    have safe' := safe delta mem
    cases committed : delta.commitTs with
    | none => simp [Delta.safeToVacuum, committed] at safe'
    | some ts => exact (sound.stamped (chain ▸ mem) committed).2

theorem Sound.applyForRead_drained (sound : mvcc.Sound) (drained : mvcc.drains order key)
    {base : Option EntitySnapshot} {startTs : Nat} {reader : Option Nat}
    (live : startTs = mvcc.clock ∨
      ∃ txn state, mvcc.active txn = some state ∧ startTs = state.startTs) :
    (mvcc.chain key).applyForRead base startTs reader =
      ((mvcc.chain key).head?.bind Delta.new) := by
  obtain ⟨newest, older, chain, each⟩ := sound.drained drained
  have mem : newest ∈ mvcc.chain key := by simp [chain]
  have visible : newest.visibleTo startTs reader := by
    refine visibleTo_of_safe (each newest mem).1 (fun w least => ?_)
      fun ts committed unbounded => ?_
    · rcases live with rfl | ⟨txn, state, active, rfl⟩
      · -- Some transaction is active, and it started before now.
        have found := (List.min?_eq_some_iff.mp least).1
        obtain ⟨txn, _, start⟩ := mem_filterMap.mp found
        obtain ⟨state, active, rfl⟩ := Option.map_eq_some_iff.mp start
        exact Nat.le_of_lt (sound.started active)
      · obtain ⟨w', least', bound⟩ := oldestActiveStartTs_le (sound.known active) active
        rw [least] at least'
        cases least'
        exact bound
    · rcases live with rfl | ⟨txn, state, active, rfl⟩
      · exact (sound.stamped mem committed).1
      · obtain ⟨w, least, _⟩ := oldestActiveStartTs_le (sound.known active) active
        rw [unbounded] at least
        cases least
  rw [chain]
  exact applyForRead_cons_visible visible

end ErmyaGraph.Mvcc
