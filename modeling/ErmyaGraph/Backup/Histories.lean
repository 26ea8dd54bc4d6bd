import ErmyaGraph.Backup.Restore

/-! # Histories of restores

Attempts to restore one live directory, and starts between them, each of which may fail or die
at any step. -/

namespace ErmyaGraph.Backup

open Moments

inductive Event where
  | attempt (snapshot : Option Dir) (fates : Step → Fate)
  | reconcile (fates : Step → Fate)

namespace Event

def snapshot : Event → Option Dir
  | .attempt snapshot _ => snapshot
  | .reconcile _ => none

/-- The state that an event leaves behind, with the states on the way. -/
def after (verifies : Dir → Bool) (w : World Siblings) : Event → World Siblings
  | .attempt snapshot fates => (outcomeOf (restoreDbFilesAtomic fates verifies snapshot) w).2
  | .reconcile fates => (outcomeOf (reconcileRestoreArtifacts fates) w).2

/-- An attempt that fails leaves the live directory as it was, unless it says otherwise; and a start
that does not fail ends with a good live directory. -/
def Answers (verifies : Dir → Bool) (original : Dir) (snapshots : List Dir) (w : World Siblings) :
    Event → Prop
  | .attempt snapshot fates => ∀ e,
      (outcomeOf (restoreDbFilesAtomic fates verifies snapshot) w).1 = .returned (.error e) →
        e ≠ .rollbackFailed →
        (outcomeOf (restoreDbFilesAtomic fates verifies snapshot) w).2.now .live = w.now .live
  | .reconcile fates => ∀ outcome,
      (outcomeOf (reconcileRestoreArtifacts fates) w).1 = .returned (some outcome) →
        Holds verifies original snapshots (outcomeOf (reconcileRestoreArtifacts fates) w).2.now .live

/-- What an event needs of the state it starts in. -/
def Ready (verifies : Dir → Bool) (original : Dir) (snapshots : List Dir) (s : Siblings) :
    Event → Prop
  | .attempt _ fates => Attemptable verifies original snapshots fates s
  | .reconcile _ => Reconcilable verifies original snapshots s

end Event

section Histories

variable (verifies : Dir → Bool) (original : Dir) (snapshots : List Dir)

/-- Every event of a history is ready in the state that those before it left. -/
def AllReady : List Event → World Siblings → Prop
  | [], _ => True
  | event :: rest, w =>
    event.Ready verifies original snapshots w.now ∧ AllReady rest (event.after verifies w)

/-- At every moment of a history there is a good database, and every event answers for what it
leaves. -/
def NothingLost : List Event → World Siblings → Prop
  | [], w => ∀ m ∈ w.now :: w.past, Safe verifies original snapshots m
  | event :: rest, w =>
    (∀ m ∈ w.now :: w.past, Safe verifies original snapshots m) ∧
      event.Answers verifies original snapshots w ∧ NothingLost rest (event.after verifies w)

end Histories

section Rules

variable {verifies : Dir → Bool} {original : Dir} {snapshots : List Dir} {w : World Siblings}

theorem Event.keeps {event : Event} (complete : validateSnapshotSource (some original) = true)
    (among : ∀ source, event.snapshot = some source → source ∈ snapshots)
    (sofar : ∀ m ∈ w.now :: w.past, Safe verifies original snapshots m)
    (ready : event.Ready verifies original snapshots w.now) :
    (∀ m ∈ (event.after verifies w).now :: (event.after verifies w).past,
      Safe verifies original snapshots m) ∧ event.Answers verifies original snapshots w := by
  have safe := sofar w.now List.mem_cons_self
  cases event with
  | attempt snapshot fates =>
    obtain ⟨all, answers⟩ := (through_restore safe ready among).outcome sofar
    exact ⟨all, fun e returned => answers (.error e) returned e rfl⟩
  | reconcile fates =>
    obtain ⟨all, answers⟩ := (@through_reconcile fates _ _ _ _ complete safe ready).outcome sofar
    exact ⟨all, fun outcome returned => answers (some outcome) returned rfl⟩

theorem nothingLost_of_ready {events : List Event}
    (complete : validateSnapshotSource (some original) = true)
    (among : ∀ event ∈ events, ∀ source, event.snapshot = some source → source ∈ snapshots)
    (sofar : ∀ m ∈ w.now :: w.past, Safe verifies original snapshots m)
    (ready : AllReady verifies original snapshots events w) :
    NothingLost verifies original snapshots events w := by
  induction events generalizing w with
  | nil => exact sofar
  | cons event rest ih =>
    obtain ⟨all, answers⟩ := Event.keeps complete (among event List.mem_cons_self) sofar ready.1
    exact ⟨sofar, answers, ih (fun other mem => among other (List.mem_cons_of_mem _ mem)) all
      ready.2⟩

/-- **Restores.** A history of attempts and starts, each of which starts in a state that it is
ready for, never loses the last good database. -/
theorem restores_lose_nothing {events : List Event} {start : Siblings}
    (complete : validateSnapshotSource (some original) = true) (live : start .live = some original)
    (ready : AllReady verifies original (events.filterMap Event.snapshot) events ⟨start, []⟩) :
    NothingLost verifies original (events.filterMap Event.snapshot) events ⟨start, []⟩ := by
  refine nothingLost_of_ready complete ?_ ?_ ready
  · intro event member source restored
    exact List.mem_filterMap.mpr ⟨event, member, restored⟩
  · intro m member
    rw [List.mem_singleton.mp member]
    exact .inl ⟨original, live, .inl rfl⟩

end Rules

def database (nodes : List UInt8) : Dir :=
  [("nodes.db", .file nodes), ("edges.db", .file []), ("adjacency.db", .file []),
    ("strings.db", .file []), ("overflow.db", .file []), ("graph.meta", .file [1])]

def opens (dir : Dir) : Bool := dir.entry "nodes.db" ≠ some (.file [2])

def alone : Siblings
  | .live => some (database [])
  | _ => none

/-- All steps are done, up to one at which the program dies. -/
def diesAt (last : Step) : Step → Fate := fun label => if label = last then .crash else .done

def allDone : Step → Fate := fun _ => .done

/-- An attempt that succeeds, and the start after it. -/
theorem restores_lose_nothing_twice :
    NothingLost opens (database [])
      ([.attempt (some (database [1])) allDone, .reconcile allDone].filterMap Event.snapshot)
      [.attempt (some (database [1])) allDone, .reconcile allDone] ⟨alone, []⟩ :=
  restores_lose_nothing rfl rfl ⟨⟨.inl rfl, .inl rfl, nofun⟩, .inl rfl, trivial⟩

def afterAll (verifies : Dir → Bool) (events : List Event) (w : World Siblings) : World Siblings :=
  events.foldl (Event.after verifies) w

theorem NothingLost.safe {verifies : Dir → Bool} {original : Dir} {snapshots : List Dir}
    {events : List Event} {w : World Siblings}
    (kept : NothingLost verifies original snapshots events w) :
    Safe verifies original snapshots (afterAll verifies events w).now := by
  induction events generalizing w with
  | nil => exact kept _ List.mem_cons_self
  | cons event rest ih => exact ih kept.2.2

/-- An attempt that dies while the database is set aside, and is tried again. -/
def triedAgain : List Event :=
  [.attempt (some (database [1])) (diesAt .createStaging),
    .attempt (some (database [1])) (diesAt .createStaging)]

/-- An attempt that dies while a damaged copy is in place, and the start after it. -/
def startedAgain : List Event :=
  [.attempt (some (database [2])) (diesAt .verify), .reconcile allDone]

/-- The database is lost where an attempt is tried again, and where the next start takes a damaged
copy for a good one. -/
theorem restores_lose_database :
    ¬NothingLost opens (database []) (triedAgain.filterMap Event.snapshot) triedAgain ⟨alone, []⟩ ∧
      ¬NothingLost opens (database []) (startedAgain.filterMap Event.snapshot) startedAgain
        ⟨alone, []⟩ := by
  constructor
  · intro kept
    have gone : (afterAll opens triedAgain ⟨alone, []⟩).now .live = none ∧
        (afterAll opens triedAgain ⟨alone, []⟩).now .bak = none := ⟨rfl, rfl⟩
    rcases kept.safe with ⟨d, held, _⟩ | ⟨d, held, _⟩
    · rw [gone.1] at held
      cases held
    · rw [gone.2] at held
      cases held
  · intro kept
    have damaged : (afterAll opens startedAgain ⟨alone, []⟩).now .live =
        some (copyOf (database [2])) ∧
        (afterAll opens startedAgain ⟨alone, []⟩).now .bak = none := ⟨rfl, rfl⟩
    rcases kept.safe with ⟨d, held, good⟩ | ⟨d, held, _⟩
    · rw [damaged.1] at held
      cases held
      rcases good with same | ⟨_, _, _, _, sound⟩
      · exact absurd same (by decide)
      · exact absurd sound (by decide)
    · rw [damaged.2] at held
      cases held

end ErmyaGraph.Backup
