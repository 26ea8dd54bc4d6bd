import ErmyaGraph.Bolt.Requests
import ErmyaGraph.Lib.Traces

/-! # Explicit transactions

A transaction belongs to the graph that began it, and stays active there until it
is committed or rolled back. A session keeps only its number, next to the graph
that it is bound to. -/

namespace ErmyaGraph.Bolt

variable {db : Option String} {s' : Session}

open Outcome Traces Option Session

/-- The transaction that an event leaves open, and its graph. -/
def txnAfter (current : Option (GraphId × Nat)) : Event → Option (GraphId × Nat)
  | .beginTxn graph txn => some (graph, txn)
  | .commitTxn _ _ _ | .rollbackTxn _ _ => none
  | _ => current

def openTxnOf (events : List Event) : Option (GraphId × Nat) := events.foldl txnAfter none

/-- The transactions that an event leaves active. A commit that fails leaves its transaction as
it was. -/
def activeAfter (active : List (GraphId × Nat)) : Event → List (GraphId × Nat)
  | .beginTxn graph txn => (graph, txn) :: active
  | .commitTxn graph txn answer =>
    if answer = .failed then active else active.filter (· ≠ (graph, txn))
  | .rollbackTxn graph txn => active.filter (· ≠ (graph, txn))
  | _ => active

def activeTxns (events : List Event) : List (GraphId × Nat) := events.foldl activeAfter []

/-- A statement, a commit and a rollback concern the transaction that is open, on its graph. -/
def InTxn (past : List Event) : Event → Prop
  | .ran graph txn _ _ _ _ => openTxnOf past = txn.map fun txn => (graph, txn)
  | .beginTxn _ _ => openTxnOf past = none
  | .commitTxn graph txn _ | .rollbackTxn graph txn => openTxnOf past = some (graph, txn)
  | _ => True

def begins (txn : GraphId × Nat) : Event → Bool
  | .beginTxn graph other => (graph, other) = txn
  | _ => false

def finishes (txn : GraphId × Nat) : Event → Bool
  | .commitTxn graph other _ | .rollbackTxn graph other => (graph, other) = txn
  | _ => false

/-- The transaction that a session holds, on the graph it is bound to. -/
def Session.currentTxn (s : Session) : Option (GraphId × Nat) :=
  s.openTxn.bind fun txn => s.sessionAccessor.map fun graph => (graph, txn)

/-- The events of a session, where a transaction may be open. -/
structure Tracks (events : List Event) (current : Option (GraphId × Nat)) : Prop where
  admits : Admits InTxn events
  latest : openTxnOf events = current
  active : activeTxns events = current.toList
  finished : ∀ txn, events.countP (begins txn) =
    events.countP (finishes txn) + if current = some txn then 1 else 0

section Tracks

variable {events : List Event} {current : Option (GraphId × Nat)} {graph : GraphId} {txn : Nat}
  {e : Event}

theorem openTxnOf_concat : openTxnOf (events ++ [e]) = txnAfter (openTxnOf events) e := by
  simp [openTxnOf]

theorem activeTxns_concat : activeTxns (events ++ [e]) = activeAfter (activeTxns events) e := by
  simp [activeTxns]

theorem tracks_nil : Tracks [] none := ⟨admits_nil, rfl, rfl, fun _ => rfl⟩

/-- An event that neither begins nor ends a transaction. -/
structure Neutral (e : Event) : Prop where
  latest : ∀ current, txnAfter current e = current
  active : ∀ active, activeAfter active e = active
  begins : ∀ txn, begins txn e = false
  finishes : ∀ txn, finishes txn e = false

theorem Tracks.neutral (tracks : Tracks events current) (neutral : Neutral e)
    (may : InTxn events e) : Tracks (events ++ [e]) current where
  admits := tracks.admits.concat may
  latest := by rw [openTxnOf_concat, neutral.latest, tracks.latest]
  active := by rw [activeTxns_concat, neutral.active, tracks.active]
  finished other := by
    simp [neutral.begins, neutral.finishes, tracks.finished other]

theorem Tracks.begin (tracks : Tracks events none) :
    Tracks (events ++ [.beginTxn graph txn]) (some (graph, txn)) where
  admits := tracks.admits.concat tracks.latest
  latest := by rw [openTxnOf_concat]; rfl
  active := by rw [activeTxns_concat, tracks.active]; rfl
  finished other := by
    simp [List.countP_cons, begins, finishes, tracks.finished other]

theorem Tracks.finish (tracks : Tracks events (some (graph, txn)))
    (ends : e = .rollbackTxn graph txn ∨
      ∃ answer, e = .commitTxn graph txn answer ∧ answer ≠ .failed) :
    Tracks (events ++ [e]) none := by
  have emptied : ([(graph, txn)] : List (GraphId × Nat)).filter (· ≠ (graph, txn)) = [] := by simp
  rcases ends with rfl | ⟨answer, rfl, stored⟩
  · refine ⟨tracks.admits.concat tracks.latest, ?_, ?_, fun other => ?_⟩
    · rw [openTxnOf_concat]
      rfl
    · rw [activeTxns_concat, tracks.active]
      exact emptied
    · simp [List.countP_cons, begins, finishes, tracks.finished other]
  · refine ⟨tracks.admits.concat tracks.latest, ?_, ?_, fun other => ?_⟩
    · rw [openTxnOf_concat]
      rfl
    · rw [activeTxns_concat, tracks.active, activeAfter, if_neg stored]
      exact emptied
    · simp [List.countP_cons, begins, finishes, tracks.finished other]

end Tracks

def Begins (s : Session) (r : Replies) (request : Request) : Prop :=
  request = .begin ∧ s.failed = false ∧ s.openTxn = none ∧ s.sessionAccessor.isSome ∧ r.begun.isSome

/-- A request ends the transaction, if there is one. -/
def Settles (s : Session) (request : Request) : Prop :=
  request = .reset ∨ s.failed = false ∧ ∃ commit, request = finishing commit

def Closes (s : Session) (r : Replies) (request : Request) : Prop :=
  s.openTxn = none ∧ ¬Begins s r request ∨ Settles s request

def Abandons (s : Session) : Input → Prop
  | .close => s.openTxn.isSome
  | .message request r => (request = .goodbye ∨ Cut s r request) ∧ ¬Closes s r request

/-- A step neither moves nor leaves an open transaction, and a commit does not fail. -/
structure Steady (grammars : Grammars) (s : Session) (input : Input) : Prop where
  rebinding : ∀ query db r, input = .message (.run query db) r → s.openTxn.isSome →
    Binding grammars query s → Rebinds s db →
    ∃ name handle, db = some name ∧ Acquires r name handle ∧ s.sessionAccessor = some handle.graph
  committing : ∀ r, input = .message .commit r → s.failed = false → s.openTxn.isSome →
    r.finished ≠ .failed
  staying : ¬Abandons s input

/-- A session whose events account for its transaction. -/
structure Tracked (s : Session) : Prop where
  bound : Bound s
  sound : ∀ pending, s.pendingResult = some pending → pending.Sound
  held : s.openTxn.isSome → s.sessionAccessor.isSome
  tracks : Tracks s.events s.currentTxn

section Tracked

variable {grammars : Grammars} {s : Session} {r : Replies} {request : Request}

theorem currentTxn_of_none (idle : s.openTxn = none) : s.currentTxn = none := by
  simp [currentTxn, idle]

variable {graph : GraphId} {txn : Nat}

theorem currentTxn_of_some (held : s.openTxn = some txn)
    (accessor : s.sessionAccessor = some graph) : s.currentTxn = some (graph, txn) := by
  simp [currentTxn, held, accessor]

theorem currentTxn_of_accessor (accessor : s.sessionAccessor = some graph) :
    s.currentTxn = s.openTxn.map fun txn => (graph, txn) := by
  cases held : s.openTxn <;> simp [currentTxn, held, accessor]

theorem indifferent_tracked : Indifferent Tracked where
  failing _ tracked := ⟨tracked.bound, tracked.sound, tracked.held, tracked.tracks⟩
  waiting _ _ sound tracked := ⟨tracked.bound, sound, tracked.held, tracked.tracks⟩

theorem Tracked.neutral {e : Event} (tracked : Tracked s) (neutral : Neutral e)
    (may : InTxn s.events e) : Tracked (s.log e) :=
  ⟨tracked.bound, tracked.sound, tracked.held, tracked.tracks.neutral neutral may⟩

theorem unbatched_tracked : Unbatched Tracked where
  counting _ _ _ tracked := ⟨tracked.bound, tracked.sound, tracked.held, tracked.tracks⟩
  beginning _ _ tracked :=
    tracked.neutral ⟨fun _ => rfl, fun _ => rfl, fun _ => rfl, fun _ => rfl⟩ trivial
  ending _ _ tracked :=
    tracked.neutral ⟨fun _ => rfl, fun _ => rfl, fun _ => rfl, fun _ => rfl⟩ trivial

variable {stmt : Statement}

section

variable (tracked : Tracked s)
include tracked

theorem Tracked.ran (accessor : s.sessionAccessor = some graph) :
    Tracked (s.ran graph s.openTxn stmt r) := by
  refine tracked.neutral ⟨fun _ => rfl, fun _ => rfl, fun _ => rfl, fun _ => rfl⟩ ?_
  rw [InTxn, tracked.tracks.latest, currentTxn_of_accessor accessor]

/-- Binding another database keeps what is known, as long as an open transaction keeps its
graph. -/
theorem Tracked.rebound {name : String} {handle : DbHandle}
    (same : s.openTxn.isSome → s.sessionAccessor = some handle.graph) :
    Tracked (s.bound name handle) := by
  refine ⟨rfl, tracked.sound, fun _ => rfl, ?_⟩
  have current : (s.bound name handle).currentTxn = s.currentTxn := by
    cases held : s.openTxn with
    | none => rw [currentTxn_of_none held, currentTxn_of_none (s := s.bound name handle) held]
    | some txn =>
      rw [currentTxn_of_some held (same (by simp [held])),
        currentTxn_of_some (s := s.bound name handle) held rfl]
  rw [current]
  exact tracked.tracks.neutral ⟨fun _ => rfl, fun _ => rfl, fun _ => rfl, fun _ => rfl⟩ trivial

theorem Tracked.unbound (idle : s.openTxn = none) : Tracked s.unbound := by
  refine ⟨rfl, tracked.sound, fun held => ?_, ?_⟩
  · simp [Session.unbound, idle] at held
  · rw [currentTxn_of_none (s := s.unbound) idle, ← currentTxn_of_none idle]
    exact tracked.tracks

theorem Tracked.rolledBack : Tracked s.rolledBack := by
  unfold Session.rolledBack
  split
  · next txn graph held accessor =>
      refine ⟨tracked.bound, tracked.sound, nofun, ?_⟩
      have tracks := tracked.tracks
      rw [currentTxn_of_some held accessor] at tracks
      exact tracks.finish (.inl rfl)
  · next unheld =>
      refine ⟨tracked.bound, tracked.sound, nofun, ?_⟩
      have idle : s.openTxn = none := by
        rcases eq_none_or_eq_some s.openTxn with idle | ⟨txn, held⟩
        · exact idle
        · obtain ⟨graph, accessor⟩ := isSome_iff_exists.mp (tracked.held (by simp [held]))
          exact absurd accessor (unheld txn graph held)
      have tracks := tracked.tracks
      rw [currentTxn_of_none idle] at tracks
      exact tracks

theorem Tracked.begun (idle : s.openTxn = none)
    (accessor : s.sessionAccessor = some graph) : Tracked (s.begun graph txn) := by
  refine ⟨tracked.bound, tracked.sound, fun _ => by simp [Session.begun, Session.log, accessor], ?_⟩
  have tracks := tracked.tracks
  rw [currentTxn_of_none idle] at tracks
  rw [currentTxn_of_some (s := s.begun graph txn) rfl accessor]
  exact tracks.begin

theorem Tracked.ended {commit : Bool} {answer : Finish}
    (held : s.openTxn = some txn) (accessor : s.sessionAccessor = some graph)
    (stored : commit = true → answer ≠ .failed) : Tracked (s.ended graph txn commit answer) := by
  refine ⟨tracked.bound, tracked.sound, nofun, ?_⟩
  have tracks := tracked.tracks
  rw [currentTxn_of_some held accessor] at tracks
  cases commit with
  | true => exact tracks.finish (.inr ⟨answer, rfl, stored rfl⟩)
  | false => exact tracks.finish (.inl rfl)

end

variable {query : String}

theorem Tracked.binds (tracked : Tracked s)
    (steady : Steady grammars s (.message (.run query db) r)) (reached : Binding grammars query s)
    (binds : Binds r db s s') : Tracked s' := by
  cases binds with
  | kept => exact tracked
  | first name handle unbound named acquires =>
    refine tracked.rebound fun open_ => ?_
    have accessor := tracked.held open_
    rw [tracked.bound, unbound] at accessor
    cases accessor
  | again name handle rebinds named acquires =>
    by_cases open_ : s.openTxn.isSome
    · obtain ⟨name', handle', named', acquires', same⟩ :=
        steady.rebinding query db r rfl open_ reached rebinds
      obtain rfl : handle' = handle := some.inj (acquires'.acquired.symm.trans acquires.acquired)
      exact tracked.rebound fun _ => same
    · have idle : s.openTxn = none := by simpa using open_
      have freed := tracked.unbound idle
      exact freed.rebound fun held => absurd held (by simp [Session.unbound, idle])

theorem Binds.openTxn (binds : Binds r db s s') : s'.openTxn = s.openTxn := by
  cases binds <;> rfl

theorem Dispatches.openTxn (dispatches : Dispatches grammars r query db s s' stmt) :
    s'.openTxn = s.openTxn := by
  rcases dispatches.bound with ⟨-, rfl⟩ | ⟨-, binds, -⟩
  · rfl
  · exact binds.openTxn

theorem Tracked.openTxn_of_unbound (tracked : Tracked s) (unbound : s.sessionAccessor = none) :
    s.openTxn = none := by
  by_contra held
  have bound := tracked.held (isSome_iff_ne_none.mpr held)
  rw [unbound] at bound
  cases bound

/-- A request stops a session where the connection breaks or, without a transaction, where nothing
is bound. -/
def Stops (s : Session) (r : Replies) (request : Request) : Stop → Prop
  | .disconnected => Cut s r request
  | .panicked => s.openTxn = none ∧ request ≠ .begin

theorem preserves_tracked (tracked : Tracked s) (steady : Steady grammars s (.message request r)) :
    Preserves grammars (Stops s r request) r request s Tracked where
  indifferent := indifferent_tracked
  cut breaks := breaks
  fetched pending waiting unsound := absurd (tracked.sound pending waiting) unsound
  greeted _ _ _ _ _ := ⟨tracked.bound, tracked.sound, tracked.held, tracked.tracks⟩
  lost := by
    rintro query db rfl loses
    refine indifferent_tracked.failing _ (tracked.unbound ?_)
    by_contra held
    obtain ⟨name, handle, named, acquires, -⟩ := steady.rebinding query db r rfl
      (isSome_iff_ne_none.mpr held) loses.toBinding loses.rebinds
    exact loses.refused name handle named acquires
  bound := by
    rintro query db s' rfl reached binds
    exact tracked.binds steady reached binds
  unbound := by
    rintro query db s' stmt rfl dispatches kept unbound -
    refine ⟨?_, nofun⟩
    rw [← dispatches.openTxn]
    exact kept.openTxn_of_unbound unbound
  outside := by
    rintro query db s' stmt graph - - kept accessor idle - -
    have ran : Tracked (s'.ran graph s'.openTxn stmt r) := kept.ran accessor
    rwa [idle] at ran
  settled := by
    rintro query db s' stmt graph - - kept accessor - -
    have still : (s'.settled graph).sessionAccessor = some graph ∧
        (s'.settled graph).openTxn = s'.openTxn := by
      unfold settled
      split <;> exact ⟨accessor, rfl⟩
    have ran : Tracked ((s'.settled graph).ran graph (s'.settled graph).openTxn stmt r) :=
      (unbatched_tracked.settled kept).ran still.1
    rwa [still.2] at ran
  mutated := by
    rintro query db s' graph - - kept accessor -
    refine unbatched_tracked.mutated kept fun opened => ?_
    have ran : Tracked ((s'.opened graph).ran graph (s'.opened graph).openTxn .mutation r) :=
      opened.ran (by simpa using accessor)
    rwa [opened_openTxn] at ran
  rolledBack := by
    rintro rfl
    exact ⟨tracked.rolledBack, fun graph _ => unbatched_tracked.settled tracked.rolledBack,
      fun unbound _ => ⟨tracked.openTxn_of_unbound unbound, nofun⟩⟩
  begun graph txn _ _ idle accessor _ := tracked.begun idle accessor
  ended := by
    rintro commit txn rfl live held
    refine ⟨fun unbound => ?_, fun graph accessor => tracked.ended held accessor ?_⟩
    · rw [tracked.openTxn_of_unbound unbound] at held
      cases held
    · rintro rfl
      exact steady.committing r rfl live (by simp [held])

theorem indifferent_idle : Indifferent fun s => s.openTxn = none where
  failing _ idle := idle
  waiting _ _ _ idle := idle

theorem unbatched_idle : Unbatched fun s => s.openTxn = none where
  counting _ _ _ idle := idle
  beginning _ _ idle := idle
  ending _ _ idle := idle

theorem preserves_idle (idle : s.openTxn = none) (other : ¬Begins s r request) :
    Preserves grammars (fun _ => True) r request s fun s' => s'.openTxn = none where
  indifferent := indifferent_idle
  cut _ := trivial
  fetched _ _ _ := trivial
  greeted _ _ _ _ _ := idle
  lost _ _ _ _ := idle
  bound _ _ _ _ _ binds := binds.openTxn.trans idle
  unbound _ _ _ _ _ _ _ _ _ := trivial
  outside _ _ _ _ _ _ _ kept _ _ _ _ := kept
  settled _ _ _ _ _ _ _ kept _ _ _ := unbatched_idle.settled kept
  mutated _ _ _ _ _ _ kept _ _ := unbatched_idle.mutated kept fun opened => opened
  rolledBack _ := ⟨rolledBack_openTxn, fun _ _ =>
    unbatched_idle.settled rolledBack_openTxn, fun _ _ => trivial⟩
  begun _ _ same live _ accessor answer :=
    absurd ⟨same, live, idle, by simp [accessor], by simp [answer]⟩ other
  ended _ _ _ _ _ := ⟨fun _ => ⟨trivial, rfl⟩, fun _ _ => rfl⟩

theorem goes_closed (closes : Closes s r request) :
    Goes (fun _ => True) (dispatch grammars r request) s fun s' => s'.openTxn = none := by
  have reset : Goes (fun _ => True) (handleReset r) s fun s' => s'.openTxn = none :=
    goes_handleReset indifferent_idle (fun _ => trivial) rolledBack_openTxn
      (fun _ _ => unbatched_idle.settled rolledBack_openTxn) fun _ _ => trivial
  have finish : ∀ commit, Goes (fun _ => True) (finishTxn r commit) s fun s' => s'.openTxn = none :=
    fun commit => goes_finishTxn indifferent_idle id (fun _ => trivial)
      (fun _ _ _ => ⟨trivial, rfl⟩) fun _ _ _ _ => rfl
  rcases closes with ⟨idle, other⟩ | rfl | ⟨live, commit, rfl⟩
  · exact (preserves_idle idle other).goes idle
  · unfold dispatch Goes
    rw [if_neg nofun, sat_bind, sat_get]
    split <;> exact reset
  · unfold dispatch Goes finishing
    cases commit
    all_goals
      rw [if_neg nofun, sat_bind, sat_get, live, if_neg Bool.false_ne_true]
      exact finish _

end Tracked

/-- A session's transaction stays on the graph that began it and has been ended, once, when the
session has let go of it. -/
structure Faithful (c : Connection) : Prop where
  held : c.session.openTxn.isSome → c.session.sessionAccessor.isSome
  tracks : Tracks c.session.events c.session.currentTxn
  closed : c.status ≠ .running → c.session.openTxn = none

section Runs

variable {grammars : Grammars} {c : Connection} {input : Input} {s : Session}

theorem finish_tracked (tracked : Tracked s) (idle : s.openTxn = none) (finishes : Finishes s c) :
    Tracked c.session ∧ c.session.openTxn = none := by
  cases finishes with
  | settled graph bound => exact ⟨unbatched_tracked.settled tracked, unbatched_idle.settled idle⟩
  | idle unbound clean => exact ⟨tracked, idle⟩
  | panicked unbound dirty => exact ⟨tracked, idle⟩

variable {request : Request}

theorem goes_tracked {r : Replies} (tracked : Tracked s)
    (steady : Steady grammars s (.message request r)) :
    Goes (Stops s r request) (dispatch grammars r request) s fun s' =>
      Tracked s' ∧ (Closes s r request → s'.openTxn = none) := by
  have kept := (preserves_tracked tracked steady).goes tracked
  by_cases closes : Closes s r request
  · exact Sat.mono (Sat.and kept (goes_closed closes)) (fun _ s' both => ⟨both.1, fun _ => both.2⟩)
      fun _ s' both => ⟨both.1.1, both.1.2, fun _ => both.2.2⟩
  · exact kept.mono fun s' tracked' => ⟨tracked', fun closed => absurd closed closes⟩

theorem receive_tracked (tracked : Tracked c.session)
    (closed : c.status ≠ .running → c.session.openTxn = none)
    (steady : c.status = .running → Steady grammars c.session input) :
    Tracked (receive grammars c input).session ∧ ((receive grammars c input).status ≠ .running →
        (receive grammars c input).session.openTxn = none) := by
  by_cases running : c.status = .running
  · cases input with
    | close =>
      rw [receive_close running]
      have idle : c.session.openTxn = none := by
        simpa [Abandons] using (steady running).staying
      have finished := finish_tracked tracked idle finishes_finish
      exact ⟨finished.1, fun _ => finished.2⟩
    | message request r =>
      have staying := (steady running).staying
      obtain ⟨s, ⟨tracked', closing⟩, received⟩ :=
        receives (goes_tracked tracked (steady running)) running
      generalize receive grammars c (.message request r) = next at received ⊢
      cases received with
      | running => exact ⟨tracked', fun stopped => absurd rfl stopped⟩
      | finished why finishes =>
        have closes : Closes c.session r request := by
          by_contra opened
          exact staying ⟨why, opened⟩
        have finished := finish_tracked tracked' (closing closes) finishes
        exact ⟨finished.1, fun _ => finished.2⟩
      | panicked why =>
        exact ⟨tracked', fun _ => closing (.inl ⟨why.1, fun begins => why.2 begins.1⟩)⟩
  · rw [receive_stopped running]
    exact ⟨tracked, closed⟩

/-- In a session that does not move or leave an open transaction, every transaction stays on its
graph and is ended there once. -/
theorem transactions_faithful {past : List Connection}
    (run : Runs.Run (fun _ c input => c.status = .running → Steady grammars c.session input)
      (receive grammars) {} past c) : Faithful c := by
  have kept : Tracked c.session ∧ (c.status ≠ .running → c.session.openTxn = none) :=
    run.invariant (fun _ c => Tracked c.session ∧ (c.status ≠ .running → c.session.openTxn = none))
      ⟨⟨rfl, nofun, nofun, tracks_nil⟩, fun _ => rfl⟩
      fun _ _ _ kept steady => receive_tracked kept.1 kept.2 steady
  exact ⟨kept.1.held, kept.1.tracks, kept.2⟩

/-- A session authenticates, is bound by a query, and writes in a transaction that it commits. -/
def sampleTransaction : List Input :=
  [.message (.hello "ada") {},
    .message (.run "MATCH (n) RETURN n" (some "people"))
      { acquired := some ⟨"people", .readWrite, 1⟩ },
    .message .begin { begun := some 7 },
    .message (.run "CREATE (:Person)" (some "people")) {},
    .message .commit {},
    .close]

/-- A request that is answered keeps its session going, so that only a statement for another
database can be in the way of a transaction. -/
theorem Steady.of_answered {r : Replies}
    (answered : r.sent = true ∧ r.recordsSent = true ∧ r.finished ≠ .failed)
    (stays : request ≠ .goodbye)
    (same : ∀ query db, request = .run query db → s.openTxn.isSome → ¬Rebinds s db) :
    Steady grammars s (.message request r) where
  rebinding := by
    rintro query db _ ⟨⟩ held - rebinds
    exact absurd rebinds (same query db rfl held)
  committing := by
    rintro _ ⟨⟩ - -
    exact answered.2.2
  staying := by
    rintro ⟨leaves | unsent | ⟨unwritten, -⟩, -⟩
    · exact stays leaves
    · rw [answered.1] at unsent
      cases unsent
    · rw [answered.2.1] at unwritten
      cases unwritten

theorem Steady.of_idle (idle : s.openTxn = none) : Steady grammars s .close where
  rebinding := by rintro _ _ _ ⟨⟩
  committing := by rintro _ ⟨⟩
  staying held := by
    rw [Abandons, idle] at held
    cases held

theorem sampleTransaction_faithful :
    Faithful (sampleTransaction.foldl (receive sampleGrammars) {}) := by
  have answered : ∀ {c : Connection} {r : Replies} {request : Request}, c.session.openTxn = none →
      r.sent = true ∧ r.recordsSent = true ∧ r.finished ≠ .failed → request ≠ .goodbye →
      c.status = .running → Steady sampleGrammars c.session (.message request r) :=
    fun idle answered stays _ =>
      .of_answered answered stays fun _ _ _ held => by simp [idle] at held
  have allows : Runs.Allows
      (fun _ c input => c.status = .running → Steady sampleGrammars c.session input)
      (receive sampleGrammars) [{}] {} sampleTransaction := by
    refine ⟨answered rfl (by decide) nofun, answered (by decide +kernel) (by decide) nofun,
      answered (by decide +kernel) (by decide) nofun, fun _ => ?_, fun _ => ?_, fun _ => ?_,
      trivial⟩
    · refine .of_answered (by decide) nofun ?_
      rintro query db ⟨⟩ - ⟨handle, name, bound, ⟨⟩, differs⟩
      have people : (List.foldl (receive sampleGrammars) {}
          (sampleTransaction.take 3)).session.dbHandle = some ⟨"people", .readWrite, 1⟩ := by
        decide +kernel
      exact differs (congrArg DbHandle.databaseName (some.inj (bound.symm.trans people)))
    · exact .of_answered (by decide) nofun nofun
    · exact .of_idle (by decide +kernel)
  obtain ⟨past, run⟩ := Runs.Run.append .start allows
  exact transactions_faithful run

/-- A transaction whose session was bound to a database that cannot be had is never ended. -/
theorem not_faithful_of_lost_database :
    ¬∀ (grammars : Grammars) (inputs : List Input),
      Faithful (inputs.foldl (receive grammars) {}) := by
  intro faithful
  have tracks := (faithful sampleGrammars
    [.message (.hello "ada") {},
      .message (.run "MATCH (n) RETURN n" (some "people"))
        { acquired := some ⟨"people", .readWrite, 1⟩ },
      .message .begin { begun := some 7 },
      .message (.run "MATCH (n) RETURN n" (some "system")) {},
      .message .reset {}, .close]).tracks.active
  revert tracks
  decide +kernel

end Runs

end ErmyaGraph.Bolt
