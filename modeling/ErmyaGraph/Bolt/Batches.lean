import ErmyaGraph.Bolt.Transactions

/-! # Batches

While a batch is open on a graph, what is written to it is not synced. A session
opens a batch for its first mutation outside of a transaction, and knows of an open
batch only by the number of its mutations. -/

namespace ErmyaGraph.Bolt

open Outcome Traces Session

def opensBatch (graph : GraphId) : Event → Bool
  | .beginBatch other => other = graph
  | _ => false

def closesBatch (graph : GraphId) : Event → Bool
  | .endBatch other => other = graph
  | _ => false

def BatchOpen (events : List Event) (graph : GraphId) : Prop :=
  events.countP (closesBatch graph) < events.countP (opensBatch graph)

/-- As many batches were ended on a graph as were begun. -/
def BatchesLevel (events : List Event) (graph : GraphId) : Prop :=
  events.countP (opensBatch graph) = events.countP (closesBatch graph)

/-- Only an open batch is ended. Outside of a transaction, a mutation that succeeds is in a batch,
and a pipeline is not. -/
def InBatch (past : List Event) : Event → Prop
  | .endBatch graph => BatchOpen past graph
  | .ran graph none _ _ .mutation true => BatchOpen past graph
  | .ran graph _ _ _ (.pipeline _) _ => BatchesLevel past graph
  | _ => True

/-- The graph of the batch that a session takes to be open. -/
def Session.batch (s : Session) : Option GraphId :=
  if 0 < s.dirtyCount then s.sessionAccessor else none

/-- The events of a session, where a batch may be open. -/
structure Levels (events : List Event) (batch : Option GraphId) : Prop where
  admits : Admits InBatch events
  level : ∀ graph, events.countP (opensBatch graph) =
    events.countP (closesBatch graph) + if batch = some graph then 1 else 0

section Levels

variable {events : List Event} {batch : Option GraphId} {graph : GraphId} {e : Event}

theorem levels_nil : Levels [] none := ⟨admits_nil, fun _ => rfl⟩

theorem Levels.batchOpen (levels : Levels events (some graph)) : BatchOpen events graph := by
  have level := levels.level graph
  rw [if_pos rfl] at level
  unfold BatchOpen
  omega

theorem Levels.batchesLevel (levels : Levels events none) : BatchesLevel events graph := by
  have level := levels.level graph
  rwa [if_neg nofun] at level

theorem Levels.neutral (levels : Levels events batch) (may : InBatch events e)
    (opens : ∀ graph, opensBatch graph e = false) (closes : ∀ graph, closesBatch graph e = false) :
    Levels (events ++ [e]) batch where
  admits := levels.admits.concat may
  level graph := by simp [opens, closes, levels.level graph]

theorem Levels.begin (levels : Levels events none) :
    Levels (events ++ [.beginBatch graph]) (some graph) where
  admits := levels.admits.concat trivial
  level other := by simp [List.countP_singleton, opensBatch, closesBatch, levels.level other]

theorem Levels.finish (levels : Levels events (some graph)) :
    Levels (events ++ [.endBatch graph]) none where
  admits := levels.admits.concat levels.batchOpen
  level other := by simp [List.countP_singleton, opensBatch, closesBatch, levels.level other]

end Levels

/-- A step keeps the batch on its graph, and a mutation begins one if and only if it counts as the
first of a batch. No batch is ended because it is due. -/
structure Even (grammars : Grammars) (s : Session) (input : Input) : Prop where
  rebinding : ∀ query db r, input = .message (.run query db) r → 0 < s.dirtyCount →
    Binding grammars query s → Rebinds s db →
    ∃ name handle, db = some name ∧ Acquires r name handle ∧ s.sessionAccessor = some handle.graph
  counting : ∀ query db r s', input = .message (.run query db) r →
    Dispatches grammars r query db s s' .mutation → ¬Gated s' .mutation → s'.dirtyCount = 0 →
    s'.openTxn.isNone = r.executed.isSome
  lasting : ∀ query db r s', input = .message (.run query db) r →
    Dispatches grammars r query db s s' .mutation → ¬Gated s' .mutation →
    (s'.counted r).shouldAutoFlush r.now = true → r.batchEnded = false

/-- A session whose events account for its batch. -/
structure Batched (s : Session) : Prop where
  bound : Bound s
  covered : 0 < s.dirtyCount → s.sessionAccessor.isSome
  fresh : s.dirtyCount = 0 → s.firstDirtyAt = none
  levels : Levels s.events s.batch

section Batched

variable {grammars : Grammars} {s : Session} {r : Replies} {request : Request} {graph : GraphId}

theorem batch_of_clean (clean : s.dirtyCount = 0) : s.batch = none := by
  simp [batch, clean]

theorem batch_of_dirty (dirty : 0 < s.dirtyCount) (accessor : s.sessionAccessor = some graph) :
    s.batch = some graph := by
  simp [batch, dirty, accessor]

theorem indifferent_batched : Indifferent Batched where
  failing _ batched := ⟨batched.bound, batched.covered, batched.fresh, batched.levels⟩
  waiting _ _ _ batched := ⟨batched.bound, batched.covered, batched.fresh, batched.levels⟩

theorem Batched.neutral {e : Event} (batched : Batched s) (may : InBatch s.events e)
    (opens : ∀ graph, opensBatch graph e = false) (closes : ∀ graph, closesBatch graph e = false) :
    Batched (s.log e) :=
  ⟨batched.bound, batched.covered, batched.fresh, batched.levels.neutral may opens closes⟩

theorem Batched.rebound {name : String} {handle : DbHandle} (batched : Batched s)
    (same : 0 < s.dirtyCount → s.sessionAccessor = some handle.graph) :
    Batched (s.bound name handle) := by
  refine ⟨rfl, fun _ => rfl, batched.fresh, ?_⟩
  have kept : (s.bound name handle).batch = s.batch := by
    by_cases dirty : 0 < s.dirtyCount
    · rw [batch_of_dirty dirty (same dirty), batch_of_dirty (s := s.bound name handle) dirty rfl]
    · have clean : s.dirtyCount = 0 := by omega
      rw [batch_of_clean clean, batch_of_clean (s := s.bound name handle) clean]
  rw [kept]
  exact batched.levels.neutral trivial (fun _ => rfl) fun _ => rfl

theorem Batched.unbound (batched : Batched s) (clean : s.dirtyCount = 0) : Batched s.unbound := by
  refine ⟨rfl, fun dirty => absurd clean (dirty.ne'), batched.fresh, ?_⟩
  have levels := batched.levels
  rw [batch_of_clean clean] at levels
  rw [batch_of_clean (s := s.unbound) clean]
  exact levels

theorem settled_dirtyCount : (s.settled graph).dirtyCount = 0 := by
  unfold settled
  split
  · rfl
  · omega

theorem Batched.settled (batched : Batched s) (accessor : s.sessionAccessor = some graph) :
    Batched (s.settled graph) := by
  unfold Session.settled
  split
  · next dirty =>
      refine ⟨batched.bound, nofun, fun _ => rfl, ?_⟩
      have levels := batched.levels
      rw [batch_of_dirty dirty accessor] at levels
      rw [batch_of_clean (s := s.flushed graph) rfl]
      exact levels.finish
  · exact batched

variable {txn : Option Nat}

theorem inBatch_mutation {past : List Event} {user : String} {handle : Option DbHandle} {ok : Bool}
    (batchOpen : ok = true → BatchOpen past graph) :
    InBatch past (.ran graph txn user handle .mutation ok) := by
  cases txn with
  | none =>
    cases ok with
    | true => exact batchOpen rfl
    | false => exact trivial
  | some txn => exact trivial

theorem counted_of_open (bound : Bound s) (accessor : s.sessionAccessor = some graph)
    (fresh : s.dirtyCount = 0 → s.firstDirtyAt = none) (levels : Levels s.events (some graph))
    (counts : s.dirtyCount = 0 → r.executed.isSome) :
    Batched ((s.ran graph txn .mutation r).counted r) := by
  have ran : Levels (s.ran graph txn .mutation r).events (some graph) :=
    levels.neutral (inBatch_mutation fun _ => levels.batchOpen) (fun _ => rfl) fun _ => rfl
  unfold counted
  split
  · refine ⟨bound, fun _ => ?_, nofun, ?_⟩
    · exact Option.isSome_iff_exists.mpr ⟨graph, accessor⟩
    · rw [batch_of_dirty (s := (s.ran graph txn .mutation r).markDirty r.now) (Nat.succ_pos _)
        accessor]
      exact ran
  · next failed =>
      have dirty : 0 < s.dirtyCount := Nat.pos_of_ne_zero fun clean => failed (counts clean)
      refine ⟨bound, fun _ => ?_, fresh, ?_⟩
      · exact Option.isSome_iff_exists.mpr ⟨graph, accessor⟩
      · rw [batch_of_dirty (s := s.ran graph txn .mutation r) dirty accessor]
        exact ran

/-- Where a mutation opens a batch exactly if it counts, the count and the batch still agree
after it. -/
theorem Batched.counted (batched : Batched s) (accessor : s.sessionAccessor = some graph)
    (counting : s.dirtyCount = 0 → s.openTxn.isNone = r.executed.isSome) :
    Batched (((s.opened graph).ran graph s.openTxn .mutation r).counted r) := by
  unfold opened
  by_cases clean : s.dirtyCount = 0
  · have levels := batched.levels
    rw [batch_of_clean clean] at levels
    cases executed : r.executed with
    | some rows =>
      have idle : s.openTxn.isNone = true := by simpa [executed] using counting clean
      rw [if_pos (by simp [idle, clean])]
      exact counted_of_open (s := s.log (.beginBatch graph)) batched.bound accessor batched.fresh
        levels.begin fun _ => by simp [executed]
    | none =>
      have held : s.openTxn.isNone = false := by simpa [executed] using counting clean
      rw [if_neg (by simp [held])]
      unfold Session.counted
      rw [executed, if_neg (by simp)]
      exact batched.neutral (inBatch_mutation fun ok => by simp [executed] at ok) (fun _ => rfl)
        fun _ => rfl
  · have levels := batched.levels
    rw [batch_of_dirty (Nat.pos_of_ne_zero clean) accessor] at levels
    rw [if_neg (by simp [clean])]
    exact counted_of_open batched.bound accessor batched.fresh levels fun none => absurd none clean

theorem Batched.autoFlushed (batched : Batched s) (accessor : s.sessionAccessor = some graph)
    (lasting : s.shouldAutoFlush r.now = true → r.batchEnded = false) :
    Batched (s.autoFlushed graph r) := by
  unfold Session.autoFlushed
  split
  · next due =>
      have dirty : 0 < s.dirtyCount := by
        by_contra clean
        have none : s.dirtyCount = 0 := by omega
        simp [shouldAutoFlush, none, batched.fresh none, autoFlushOps] at due
      have levels := batched.levels
      rw [batch_of_dirty dirty accessor] at levels
      rw [lasting due, if_neg Bool.false_ne_true]
      refine ⟨batched.bound, batched.covered, batched.fresh, ?_⟩
      rw [batch_of_dirty (s := (s.log (.endBatch graph)).log (.beginBatch graph)) dirty accessor]
      exact levels.finish.begin
  · exact batched

theorem counted_shouldAutoFlush {t : Session} (same : t.dirtyCount = s.dirtyCount)
    (since : t.firstDirtyAt = s.firstDirtyAt) :
    (t.counted r).shouldAutoFlush r.now = (s.counted r).shouldAutoFlush r.now := by
  have count : ∀ {u v : Session}, u.dirtyCount = v.dirtyCount → u.firstDirtyAt = v.firstDirtyAt →
      u.shouldAutoFlush r.now = v.shouldAutoFlush r.now := by
    intro u v count first
    unfold shouldAutoFlush
    rw [count, first]
  unfold counted
  split
  · exact count (congrArg Nat.succ same)
      (congrArg (fun first : Option Nat => some (first.getD r.now)) since)
  · exact count same since

theorem Batched.mutated (batched : Batched s) (accessor : s.sessionAccessor = some graph)
    (counting : s.dirtyCount = 0 → s.openTxn.isNone = r.executed.isSome)
    (lasting : (s.counted r).shouldAutoFlush r.now = true → r.batchEnded = false) :
    Batched (s.mutated graph r) := by
  have opened : (s.opened graph).dirtyCount = s.dirtyCount ∧
      (s.opened graph).firstDirtyAt = s.firstDirtyAt ∧
      (s.opened graph).sessionAccessor = some graph := by
    unfold opened
    split <;> exact ⟨rfl, rfl, accessor⟩
  refine (batched.counted accessor counting).autoFlushed ?_ fun due => lasting ?_
  · unfold Session.counted
    split <;> exact opened.2.2
  · rwa [counted_shouldAutoFlush (s := s) (t := (s.opened graph).ran graph s.openTxn .mutation r)
      opened.1 opened.2.1] at due

theorem Batched.rolledBack (batched : Batched s) : Batched s.rolledBack := by
  unfold Session.rolledBack
  split
  · exact ⟨batched.bound, batched.covered, batched.fresh,
      batched.levels.neutral trivial (fun _ => rfl) fun _ => rfl⟩
  · exact ⟨batched.bound, batched.covered, batched.fresh, batched.levels⟩

theorem Batched.binds {query : String} {db : Option String} {s' : Session} (batched : Batched s)
    (even : Even grammars s (.message (.run query db) r)) (reached : Binding grammars query s)
    (binds : Binds r db s s') : Batched s' := by
  cases binds with
  | kept => exact batched
  | first name handle unbound named acquires =>
    refine batched.rebound fun dirty => ?_
    have accessor := batched.covered dirty
    rw [batched.bound, unbound] at accessor
    cases accessor
  | again name handle rebinds named acquires =>
    by_cases dirty : 0 < s.dirtyCount
    · obtain ⟨name', handle', named', acquires', same⟩ :=
        even.rebinding query db r rfl dirty reached rebinds
      obtain rfl : handle' = handle :=
        Option.some.inj (acquires'.acquired.symm.trans acquires.acquired)
      exact batched.rebound fun _ => same
    · exact (batched.unbound (by omega)).rebound fun dirty' => absurd dirty' dirty

theorem preserves_batched (batched : Batched s) (even : Even grammars s (.message request r)) :
    Preserves grammars (fun _ => True) r request s Batched where
  indifferent := indifferent_batched
  cut _ := trivial
  fetched _ _ _ := trivial
  greeted _ _ _ _ _ := ⟨batched.bound, batched.covered, batched.fresh, batched.levels⟩
  lost := by
    rintro query db rfl loses
    refine indifferent_batched.failing _ (batched.unbound ?_)
    by_contra dirty
    obtain ⟨name, handle, named, acquires, -⟩ := even.rebinding query db r rfl
      (Nat.pos_of_ne_zero dirty) loses.toBinding loses.rebinds
    exact loses.refused name handle named acquires
  bound := by
    rintro query db s' rfl reached binds
    exact batched.binds even reached binds
  unbound _ _ _ _ _ _ _ _ _ := trivial
  outside := by
    rintro query db s' stmt graph - - kept - - alone -
    refine kept.neutral ?_ (fun _ => rfl) fun _ => rfl
    cases stmt with
    | ddl | call | admin => exact trivial
    | query | mutation | pipeline | constReturn => cases alone
  settled := by
    rintro query db s' stmt graph - - kept accessor - reads
    have settled := kept.settled accessor
    have levels := settled.levels
    rw [batch_of_clean settled_dirtyCount] at levels
    refine settled.neutral ?_ (fun _ => rfl) fun _ => rfl
    cases stmt with
    | pipeline terminal =>
      cases s'.openTxn
      all_goals exact levels.batchesLevel
    | query | constReturn =>
      cases s'.openTxn
      all_goals exact trivial
    | mutation | ddl | call | admin => cases reads
  mutated := by
    rintro query db s' graph rfl dispatches kept accessor ungated
    exact kept.mutated accessor (even.counting query db r s' rfl dispatches ungated)
      (even.lasting query db r s' rfl dispatches ungated)
  rolledBack := by
    rintro -
    exact ⟨batched.rolledBack, fun graph accessor =>
      batched.rolledBack.settled (by simpa using accessor), fun _ _ => trivial⟩
  begun graph txn _ _ _ _ _ := ⟨batched.bound, batched.covered, batched.fresh,
    batched.levels.neutral trivial (fun _ => rfl) fun _ => rfl⟩
  ended commit txn _ _ _ := by
    refine ⟨fun _ => ⟨trivial, batched.bound, batched.covered, batched.fresh, batched.levels⟩, ?_⟩
    intro graph _
    refine ⟨batched.bound, batched.covered, batched.fresh, ?_⟩
    cases commit
    all_goals exact batched.levels.neutral trivial (fun _ => rfl) fun _ => rfl

end Batched

/-- No batch is ended that is not open, a session that has ended leaves none open, and every
mutation outside of a transaction that succeeded is in a batch whose end syncs its graph. -/
structure Balanced (c : Connection) : Prop where
  levels : Levels c.session.events c.session.batch
  never : ∀ graph past rest, c.session.events = past ++ rest →
    past.countP (closesBatch graph) ≤ past.countP (opensBatch graph)
  ended : c.status = .ended → ∀ graph, BatchesLevel c.session.events graph
  synced : c.status = .ended → ∀ graph user handle past rest,
    c.session.events = past ++ .ran graph none user handle .mutation true :: rest →
    ∃ front back, rest = front ++ .endBatch graph :: back ∧ BatchesLevel
        (past ++ .ran graph none user handle .mutation true :: front ++ [.endBatch graph]) graph

section Runs

variable {grammars : Grammars} {c : Connection} {input : Input}

theorem eq_endBatch_of_closes {graph : GraphId} {e : Event} (closes : closesBatch graph e = true) :
    e = .endBatch graph := by
  cases e with
  | endBatch other => rw [show other = graph by simpa [closesBatch] using closes]
  | _ => cases closes

theorem Levels.balanced (levels : Levels c.session.events c.session.batch)
    (ended : c.status = .ended → c.session.dirtyCount = 0) : Balanced c := by
  have level : c.status = .ended → ∀ graph, BatchesLevel c.session.events graph := by
    intro finished graph
    have here := levels
    rw [batch_of_clean (ended finished)] at here
    exact here.batchesLevel
  refine ⟨levels, fun graph past rest front => ?_, level, ?_⟩
  · refine levels.admits.countP_le (opensBatch graph) (closesBatch graph) ?_ front
    intro past e may closes
    obtain rfl := eq_endBatch_of_closes closes
    exact may
  · intro finished graph user handle past rest same
    have whole : c.session.events =
        past ++ [.ran graph none user handle .mutation true] ++ rest := by simp [same]
    have even := level finished graph
    unfold BatchesLevel at even
    rw [whole] at even
    have excess : BatchOpen (past ++ [.ran graph none user handle .mutation true]) graph := by
      have before : BatchOpen past graph := levels.admits past _ rest same
      simpa [BatchOpen, opensBatch, closesBatch] using before
    obtain ⟨front, e, back, rfl, closes, balanced⟩ :=
      exists_balancing (opensBatch graph) (closesBatch graph) excess even
    obtain rfl := eq_endBatch_of_closes closes
    exact ⟨front, back, rfl, by simpa [BatchesLevel] using balanced⟩

variable {s : Session}

theorem finish_batched (batched : Batched s) (finishes : Finishes s c) :
    Batched c.session ∧ (c.status = .ended → c.session.dirtyCount = 0) := by
  cases finishes with
  | settled graph bound => exact ⟨batched.settled bound, fun _ => settled_dirtyCount⟩
  | idle unbound clean => exact ⟨batched, fun _ => clean⟩
  | panicked unbound dirty => exact ⟨batched, nofun⟩

theorem receive_batched (batched : Batched c.session)
    (ended : c.status = .ended → c.session.dirtyCount = 0)
    (even : c.status = .running → Even grammars c.session input) :
    Batched (receive grammars c input).session ∧ ((receive grammars c input).status = .ended →
        (receive grammars c input).session.dirtyCount = 0) := by
  by_cases running : c.status = .running
  · cases input with
    | close =>
      rw [receive_close running]
      exact finish_batched batched finishes_finish
    | message request r =>
      have goes := (preserves_batched batched (even running)).goes batched
      obtain ⟨s, batched', received⟩ := receives goes running
      generalize receive grammars c (.message request r) = next at received ⊢
      cases received with
      | running => exact ⟨batched', nofun⟩
      | finished why finishes => exact finish_batched batched' finishes
      | panicked why => exact ⟨batched', nofun⟩
  · rw [receive_stopped running]
    exact ⟨batched, ended⟩

/-- A mutation is written, read back and synced before the session ends. -/
def sampleBatch : List Input :=
  [.message (.hello "ada") {},
    .message (.run "CREATE (:Person)" (some "people"))
      { acquired := some ⟨"people", .readWrite, 1⟩ },
    .close]

variable {query : String} {db : Option String}

theorem Dispatches.counts {s' : Session} {r : Replies} {stmt : Statement}
    (dispatches : Dispatches grammars r query db s s' stmt) :
    s'.dirtyCount = s.dirtyCount ∧ s'.firstDirtyAt = s.firstDirtyAt := by
  rcases dispatches.bound with ⟨-, rfl⟩ | ⟨-, binds, -⟩
  · exact ⟨rfl, rfl⟩
  · cases binds
    all_goals exact ⟨rfl, rfl⟩

theorem Even.of_first {r : Replies} (clean : s.dirtyCount = 0) (fresh : s.firstDirtyAt = none)
    (idle : s.openTxn = none) (executed : r.executed.isSome) :
    Even grammars s (.message (.run query db) r) where
  rebinding := by
    rintro _ _ _ - dirty
    exact absurd clean (dirty.ne')
  counting := by
    rintro _ _ _ s' ⟨⟩ dispatches - -
    rw [dispatches.openTxn, idle, executed]
    rfl
  lasting := by
    rintro _ _ _ s' ⟨⟩ dispatches - due
    rw [counted_shouldAutoFlush dispatches.counts.1 dispatches.counts.2] at due
    simp [counted, executed, shouldAutoFlush, markDirty, clean, fresh,
      autoFlushOps, autoFlushWindow] at due

end Runs

end ErmyaGraph.Bolt
