import ErmyaGraph.Bolt.Moves
import ErmyaGraph.Lib.Runs

/-! # What a session keeps

A property of sessions is kept by every request as soon as it is kept by the
changes that `Preserves` lists. How a session ends depends on whether its batch
can be settled. -/

namespace ErmyaGraph.Bolt

variable {graph : GraphId}

open Outcome Session

namespace Session

def greeted (principal : String) (s : Session) : Session :=
  { s with authenticatedUser := some (normalizeUser principal), authenticated := true }

/-- The failure is forgotten and so is the open transaction, which was rolled back where its graph
is still bound. -/
def rolledBack (s : Session) : Session :=
  match s.openTxn, s.sessionAccessor with
  | some txn, some graph => { s with failed := false, openTxn := none }.log (.rollbackTxn graph txn)
  | _, _ => { s with failed := false, openTxn := none }

def begun (graph : GraphId) (txn : Nat) (s : Session) : Session :=
  { s.log (.beginTxn graph txn) with openTxn := some txn }

def ended (graph : GraphId) (txn : Nat) (commit : Bool) (answer : Finish) (s : Session) : Session :=
  { s with openTxn := none }.log
    (if commit then .commitTxn graph txn answer else .rollbackTxn graph txn)

end Session

/-- The graph that a session uses is the one of its handle. -/
def Bound (s : Session) : Prop := s.sessionAccessor = s.dbHandle.map DbHandle.graph

/-- A property that no batch changes. -/
structure Unbatched (P : Session → Prop) : Prop where
  counting : ∀ (s : Session) (dirtyCount : Nat) (firstDirtyAt : Option Nat), P s →
    P { s with dirtyCount := dirtyCount, firstDirtyAt := firstDirtyAt }
  beginning : ∀ (s : Session) (graph : GraphId), P s → P (s.log (.beginBatch graph))
  ending : ∀ (s : Session) (graph : GraphId), P s → P (s.log (.endBatch graph))

def Writes (s : Session) (r : Replies) (request : Request) : Prop :=
  ∃ n pending, request = .pull n ∧ s.failed = false ∧ r.throttled = false ∧
    s.pendingResult = some pending ∧ 0 < takenRows n (pending.rows - pending.cursor)

/-- The connection breaks while a request is answered. -/
def Cut (s : Session) (r : Replies) (request : Request) : Prop :=
  r.sent = false ∨ r.recordsSent = false ∧ Writes s r request

def finishing (commit : Bool) : Request := if commit then .commit else .rollback

/-- What a property has to survive, so that a request keeps it. -/
structure Preserves (grammars : Grammars) (tolerable : Stop → Prop) (r : Replies)
    (request : Request) (s : Session) (P : Session → Prop) : Prop where
  indifferent : Indifferent P
  cut : Cut s r request → tolerable .disconnected
  fetched : ∀ pending, s.pendingResult = some pending → ¬pending.Sound → tolerable .panicked
  greeted : ∀ principal, request = .hello principal → s.failed = false → r.authBlocked = false →
    r.authenticated = true → P (s.greeted principal)
  lost : ∀ query db, request = .run query db → Loses grammars r query db s →
    P { s.unbound with failed := true }
  bound : ∀ query db s', request = .run query db → Binding grammars query s → Binds r db s s' → P s'
  unbound : ∀ query db s' stmt, request = .run query db → Dispatches grammars r query db s s' stmt →
    P s' → s'.sessionAccessor = none → stmt ≠ .admin → tolerable .panicked
  outside : ∀ query db s' stmt graph, request = .run query db →
    Dispatches grammars r query db s s' stmt → P s' → s'.sessionAccessor = some graph →
    s'.openTxn = none → stmt.standsAlone = true → stmt ≠ .admin → P (s'.ran graph none stmt r)
  settled : ∀ query db s' stmt graph, request = .run query db →
    Dispatches grammars r query db s s' stmt → P s' → s'.sessionAccessor = some graph →
    ¬Gated s' stmt → stmt.settles = true → P ((s'.settled graph).ran graph s'.openTxn stmt r)
  mutated : ∀ query db s' graph, request = .run query db →
    Dispatches grammars r query db s s' .mutation → P s' → s'.sessionAccessor = some graph →
    ¬Gated s' .mutation → P (s'.mutated graph r)
  rolledBack : request = .reset → P s.rolledBack ∧
    (∀ graph, s.sessionAccessor = some graph → P (s.rolledBack.settled graph)) ∧
    (s.sessionAccessor = none → 0 < s.dirtyCount → tolerable .panicked)
  begun : ∀ graph txn, request = .begin → s.failed = false → s.openTxn = none →
    s.sessionAccessor = some graph → r.begun = some txn → P (s.begun graph txn)
  ended : ∀ commit txn, request = finishing commit → s.failed = false → s.openTxn = some txn →
    (s.sessionAccessor = none → tolerable .panicked ∧ P { s with openTxn := none }) ∧
    ∀ graph, s.sessionAccessor = some graph → P (s.ended graph txn commit r.finished)

section Rules

variable {tolerable : Stop → Prop} {P : Session → Prop} {s : Session} {r : Replies}
  {grammars : Grammars} {request : Request}

theorem Unbatched.settled (unbatched : Unbatched P) (holds : P s) : P (s.settled graph) := by
  unfold Session.settled
  split
  · exact unbatched.counting _ 0 none (unbatched.ending s graph holds)
  · exact holds

theorem Unbatched.opened (unbatched : Unbatched P) (holds : P s) : P (s.opened graph) := by
  unfold Session.opened
  split
  · exact unbatched.beginning s graph holds
  · exact holds

theorem Unbatched.autoFlushed (unbatched : Unbatched P) (holds : P s) :
    P (s.autoFlushed graph r) := by
  have ended := unbatched.ending s graph holds
  unfold Session.autoFlushed
  split
  · refine unbatched.beginning _ graph ?_
    split
    · exact unbatched.counting _ 0 none ended
    · exact ended
  · exact holds

theorem Unbatched.mutated (unbatched : Unbatched P) (holds : P s)
    (ran : P (s.opened graph) → P ((s.opened graph).ran graph s.openTxn .mutation r)) :
    P (s.mutated graph r) := by
  refine unbatched.autoFlushed ?_
  have kept := ran (unbatched.opened holds)
  unfold counted
  split
  · exact unbatched.counting _ _ _ kept
  · exact kept

@[simp]
theorem Session.opened_openTxn : (s.opened graph).openTxn = s.openTxn := by
  unfold opened
  split <;> rfl

@[simp]
theorem Session.opened_sessionAccessor : (s.opened graph).sessionAccessor = s.sessionAccessor := by
  unfold opened
  split <;> rfl

@[simp]
theorem Session.opened_dbHandle : (s.opened graph).dbHandle = s.dbHandle := by
  unfold opened
  split <;> rfl

theorem PendingResult.advance_sound {pending result : PendingResult} {taken : Nat}
    (left : pending.advance taken = some result) : result.Sound := by
  unfold PendingResult.advance at left
  split at left
  · next before =>
      cases left
      exact Nat.le_of_lt before
  · cases left

theorem goes_fetch {n : Int} {written : Bool} (indifferent : Indifferent P) (holds : P s)
    (harmless : r.sent = false → tolerable .disconnected)
    (unsound : ∀ pending, s.pendingResult = some pending → ¬pending.Sound → tolerable .panicked)
    (unwritten : ∀ pending, written = false → r.throttled = false →
      s.pendingResult = some pending → 0 < takenRows n (pending.rows - pending.cursor) →
      tolerable .disconnected) : Goes tolerable (fetch r n written) s P := by
  unfold fetch
  split
  · exact goes_fail harmless (indifferent.failing s holds)
  · next open_ =>
      have passes : r.throttled = false := by simpa using open_
      unfold Goes
      rw [sat_bind, sat_get]
      cases waiting : s.pendingResult with
      | none => exact goes_sendResponse harmless holds
      | some pending =>
        simp only
        split
        · next beyond => exact ⟨unsound pending waiting (Nat.not_le.mpr beyond), holds⟩
        · split
          · next breaks =>
              have facts : 0 < takenRows n (pending.rows - pending.cursor) ∧ written = false := by
                simpa using breaks
              exact ⟨unwritten pending facts.2 passes waiting facts.1, holds⟩
          · exact goes_sendResponse (r := r) harmless (indifferent.waiting s _
              (fun result left => PendingResult.advance_sound left) holds)

@[simp]
theorem Session.rolledBack_sessionAccessor : s.rolledBack.sessionAccessor = s.sessionAccessor := by
  unfold rolledBack
  split <;> rfl

@[simp]
theorem Session.rolledBack_dirtyCount : s.rolledBack.dirtyCount = s.dirtyCount := by
  unfold rolledBack
  split <;> rfl

@[simp]
theorem Session.rolledBack_openTxn : s.rolledBack.openTxn = none := by
  unfold rolledBack
  split <;> rfl

theorem goes_handleReset (indifferent : Indifferent P)
    (harmless : r.sent = false → tolerable .disconnected) (rolledBack : P s.rolledBack)
    (settled : ∀ graph, s.sessionAccessor = some graph → P (s.rolledBack.settled graph))
    (unbound : s.sessionAccessor = none → 0 < s.dirtyCount → tolerable .panicked) :
    Goes tolerable (handleReset r) s P := by
  have cleared : ∀ t, P t → P { t with pendingResult := none } := fun t kept =>
    indifferent.waiting t none nofun kept
  have flushing : ∀ t : Session, t = { s.rolledBack with pendingResult := none } →
      Goes tolerable (do flushPendingBatch; sendResponse r) t P := by
    rintro t rfl
    refine goes_flushPendingBatch (cleared _ rolledBack) (fun none dirty => ?_)
      (fun _ => goes_sendResponse harmless (cleared _ rolledBack))
      fun graph accessor dirty => goes_sendResponse harmless ?_
    · exact unbound (by simpa using none) (by simpa using dirty)
    · have kept := settled graph (by simpa using accessor)
      rw [Session.settled, if_pos dirty] at kept
      exact cleared _ kept
  unfold Goes handleReset
  rw [sat_bind, sat_get, sat_bind, sat_modify]
  cases held : s.openTxn with
  | none => exact flushing _ (by simp [Session.rolledBack, held])
  | some txn =>
    cases accessor : s.sessionAccessor with
    | none => exact flushing _ (by simp [Session.rolledBack, held, accessor])
    | some graph => exact flushing _ (by simp [Session.rolledBack, held, accessor, Session.log])

theorem goes_handleBegin (indifferent : Indifferent P) (holds : P s)
    (harmless : r.sent = false → tolerable .disconnected)
    (begun : ∀ graph txn, s.openTxn = none → s.sessionAccessor = some graph →
      r.begun = some txn → P (s.begun graph txn)) : Goes tolerable (handleBegin r) s P := by
  have refused : Goes tolerable (fail r) s P := goes_fail harmless (indifferent.failing s holds)
  unfold Goes handleBegin
  rw [sat_bind, sat_get]
  cases held : s.openTxn with
  | some txn => exact refused
  | none =>
    cases accessor : s.sessionAccessor with
    | none => exact refused
    | some graph =>
      cases answer : r.begun with
      | none => exact refused
      | some txn =>
        exact goes_sendResponse (r := r) harmless (begun graph txn held accessor answer)

theorem goes_finishTxn {commit : Bool} (indifferent : Indifferent P)
    (idle : s.openTxn = none → P s)
    (harmless : r.sent = false → tolerable .disconnected)
    (unbound : ∀ txn, s.openTxn = some txn → s.sessionAccessor = none →
      tolerable .panicked ∧ P { s with openTxn := none })
    (ended : ∀ graph txn, s.openTxn = some txn → s.sessionAccessor = some graph →
      P (s.ended graph txn commit r.finished)) :
    Goes tolerable (finishTxn r commit) s P := by
  unfold Goes finishTxn
  rw [sat_bind, sat_get]
  cases held : s.openTxn with
  | none => exact goes_fail harmless (indifferent.failing s (idle held))
  | some txn =>
    rw [sat_bind, sat_modify]
    rcases Option.eq_none_or_eq_some s.sessionAccessor with accessor | ⟨graph, accessor⟩
    · unfold Sat
      rw [run_unbound (s := { s with openTxn := none }) accessor]
      exact unbound txn held accessor
    · rw [sat_bind, sat_of_run (run_currentAccessor (s := { s with openTxn := none }) accessor)]
      have kept := ended graph txn held accessor
      change Goes tolerable (if r.finished = .done then sendResponse r else fail r)
        (s.ended graph txn commit r.finished) P
      split
      · exact goes_sendResponse harmless kept
      · exact goes_fail harmless (indifferent.failing _ kept)

/-- What survives every change of a request survives the request. -/
theorem Preserves.goes (preserves : Preserves grammars tolerable r request s P) (holds : P s) :
    Goes tolerable (dispatch grammars r request) s P := by
  have indifferent := preserves.indifferent
  have harmless : r.sent = false → tolerable .disconnected := fun unsent =>
    preserves.cut (.inl unsent)
  have refused : Goes tolerable (fail r) s P := goes_fail harmless (indifferent.failing s holds)
  have ignored : Goes tolerable (sendResponse r) s P := goes_sendResponse harmless holds
  have reset : request = .reset → Goes tolerable (handleReset r) s P := by
    intro same
    obtain ⟨rolledBack, settled, unbound⟩ := preserves.rolledBack same
    exact goes_handleReset indifferent harmless rolledBack settled unbound
  unfold dispatch
  split
  · exact refused
  · unfold Goes
    rw [sat_bind, sat_get]
    cases failed : s.failed with
    | true =>
      simp only [if_true]
      cases request with
      | reset => exact reset rfl
      | goodbye => exact holds
      | undecodable | hello | logon | run | pull | discard | begin | commit | rollback =>
        exact ignored
    | false =>
      simp only [Bool.false_eq_true, if_false]
      cases request with
      | undecodable => exact refused
      | hello principal =>
        change Goes tolerable (handleHello r principal) s P
        unfold handleHello
        split
        · exact refused
        · next passed =>
            have checks : r.authBlocked = false ∧ r.authenticated = true := by
              simpa using passed
            exact goes_sendResponse (r := r) harmless
              (preserves.greeted principal rfl failed checks.1 checks.2)
      | logon => exact ignored
      | run query db =>
        refine goes_handleRun harmless indifferent failed holds (preserves.lost query db rfl)
          (fun s' => preserves.bound query db s' rfl) fun s' stmt dispatches kept => ?_
        refine goes_dispatchStatement harmless indifferent kept
          (preserves.unbound query db s' stmt rfl dispatches kept)
          (fun graph => preserves.outside query db s' stmt graph rfl dispatches kept)
          (fun graph => preserves.settled query db s' stmt graph rfl dispatches kept)
          fun graph accessor ungated mutates => ?_
        subst mutates
        exact preserves.mutated query db s' graph rfl dispatches kept accessor ungated
      | pull n =>
        exact goes_fetch indifferent holds harmless preserves.fetched
          fun pending unwritten passes waiting some => preserves.cut
            (.inr ⟨unwritten, n, pending, rfl, failed, passes, waiting, some⟩)
      | discard n => exact goes_fetch indifferent holds harmless preserves.fetched nofun
      | reset => exact reset rfl
      | goodbye => exact holds
      | begin =>
        exact goes_handleBegin indifferent holds harmless
          fun graph txn none => preserves.begun graph txn rfl failed none
      | commit =>
        exact goes_finishTxn indifferent (fun _ => holds) harmless
          (fun txn held => (preserves.ended true txn rfl failed held).1)
          fun graph txn held => (preserves.ended true txn rfl failed held).2 graph
      | rollback =>
        exact goes_finishTxn indifferent (fun _ => holds) harmless
          (fun txn held => (preserves.ended false txn rfl failed held).1)
          fun graph txn held => (preserves.ended false txn rfl failed held).2 graph

end Rules

/-- A computation does not end its session by what it returns. -/
def Stays (x : SessionM Bool) : Prop := ∀ s, Sat x s (fun ends _ => ends = false) fun _ _ => True

section Staying

variable {r : Replies} {grammars : Grammars}

theorem Stays.bind {α : Type} {x : SessionM α} {rest : α → SessionM Bool}
    (stays : ∀ a, Stays (rest a)) : Stays (x >>= rest) := by
  intro s
  rw [sat_bind, sat_iff]
  exact ⟨fun a s' _ => stays a s', fun _ _ _ => trivial⟩

theorem Stays.ite {p : Prop} [Decidable p] {x y : SessionM Bool} (left : Stays x)
    (right : Stays y) : Stays (if p then x else y) := by
  split
  · exact left
  · exact right

theorem stays_sendResponse : Stays (sendResponse r) := by
  intro s
  unfold sendResponse
  split
  · exact rfl
  · exact trivial

theorem stays_fail : Stays (fail r) := .bind fun _ => stays_sendResponse

theorem stays_finishRun : Stays (finishRun r) := by
  unfold finishRun
  split
  · exact .bind fun _ => stays_sendResponse
  · exact stays_fail

variable {stmt : Statement}

theorem stays_runMain : Stays (runMain r stmt) := by
  unfold runMain
  cases stmt with
  | query | pipeline | constReturn => exact .bind fun _ => .bind fun _ => stays_finishRun
  | mutation => exact .bind fun _ => stays_finishRun
  | admin | ddl | call => exact fun _ => trivial

theorem stays_dispatchStatement : Stays (dispatchStatement r stmt) := by
  have outside : ∀ stmt, Stays (dispatchOutside r stmt) := fun stmt =>
    .bind fun _ => .bind fun _ => .bind fun _ => stays_finishRun
  refine .bind fun s => .ite stays_fail ?_
  cases stmt with
  | admin => exact .bind fun _ => .ite stays_fail stays_finishRun
  | ddl stmt => exact outside _
  | call kind => exact .ite stays_fail (outside _)
  | query | mutation | pipeline | constReturn => exact .ite stays_fail stays_runMain

variable {query : String}

theorem stays_runBound : Stays (runBound grammars r query) := by
  unfold runBound
  refine .ite stays_fail ?_
  cases parseRun grammars query with
  | error e => exact stays_fail
  | ok stmt => exact .ite stays_fail stays_dispatchStatement

theorem stays_handleRun {db : Option String} : Stays (handleRun grammars r query db) := by
  unfold handleRun
  refine .bind fun s => .ite stays_fail ?_
  have bound : ∀ stopped : Bool,
      Stays (if stopped then return false else runBound grammars r query) := by
    intro stopped
    exact .ite (fun _ => rfl) stays_runBound
  split
  · exact .bind bound
  · exact .bind bound

theorem stays_fetch {n : Int} {written : Bool} : Stays (fetch r n written) := by
  refine .ite stays_fail (.bind fun s => ?_)
  split
  · exact stays_sendResponse
  · exact .ite (fun _ => trivial) (.ite (fun _ => trivial) (.bind fun _ => stays_sendResponse))

theorem stays_finishTxn {commit : Bool} : Stays (finishTxn r commit) := by
  refine .bind fun s => ?_
  split
  · exact stays_fail
  · exact .bind fun _ => .bind fun _ => .bind fun _ => .ite stays_sendResponse stays_fail

theorem stays_dispatch {request : Request} (other : request ≠ .goodbye) :
    Stays (dispatch grammars r request) := by
  have reset : Stays (handleReset r) := by
    refine .bind fun s => .bind fun _ => ?_
    split
    · exact .bind fun _ => .bind fun _ => stays_sendResponse
    · exact .bind fun _ => stays_sendResponse
  refine .ite stays_fail (.bind fun s => .ite ?_ ?_)
  · split
    · exact reset
    · exact absurd rfl other
    · exact stays_sendResponse
  · cases request with
    | undecodable => exact stays_fail
    | hello principal => exact .ite stays_fail (.bind fun _ => stays_sendResponse)
    | logon => exact stays_sendResponse
    | run query db => exact stays_handleRun
    | pull n => exact stays_fetch
    | discard n => exact stays_fetch
    | reset => exact reset
    | goodbye => exact absurd rfl other
    | begin =>
      refine .bind fun s => .ite stays_fail ?_
      split
      · exact stays_fail
      · split
        · exact .bind fun _ => .bind fun _ => stays_sendResponse
        · exact stays_fail
    | commit => exact stays_finishTxn
    | rollback => exact stays_finishTxn

end Staying

section Receiving

variable {tolerable : Stop → Prop} {P : Session → Prop} {s : Session} {r : Replies}
  {grammars : Grammars} {request : Request} {c : Connection}

/-- Ending a session settles its batch, if its database is still bound. -/
inductive Finishes (s : Session) : Connection → Prop
  | settled (graph : GraphId) (bound : s.sessionAccessor = some graph) :
      Finishes s ⟨s.settled graph, .ended⟩
  | idle (unbound : s.sessionAccessor = none) (clean : s.dirtyCount = 0) : Finishes s ⟨s, .ended⟩
  | panicked (unbound : s.sessionAccessor = none) (dirty : 0 < s.dirtyCount) :
      Finishes s ⟨s, .panicked⟩

theorem finishes_finish : Finishes s (finish s) := by
  unfold finish flushPendingBatch
  rw [EStateM.run_bind, EStateM.run_get]
  simp only
  rcases Option.eq_none_or_eq_some s.sessionAccessor with unbound | ⟨graph, bound⟩
  · by_cases dirty : 0 < s.dirtyCount
    · rw [if_pos dirty, dispatchEndBatch, bind_assoc, run_unbound unbound]
      exact .panicked unbound dirty
    · rw [if_neg dirty]
      exact .idle unbound (Nat.eq_zero_of_not_pos dirty)
  · have settled := Finishes.settled graph bound
    unfold Session.settled at settled
    by_cases dirty : 0 < s.dirtyCount
    · rw [if_pos dirty] at settled ⊢
      rw [EStateM.run_bind, run_dispatchEndBatch bound]
      exact settled
    · rw [if_neg dirty] at settled ⊢
      exact settled

/-- What becomes of a connection when a request leaves its session in a given state. -/
inductive Receives (tolerable : Stop → Prop) (request : Request) (s : Session) : Connection → Prop
  | running : Receives tolerable request s ⟨s, .running⟩
  | finished {c : Connection} (why : request = .goodbye ∨ tolerable .disconnected)
      (finishes : Finishes s c) : Receives tolerable request s c
  | panicked (why : tolerable .panicked) : Receives tolerable request s ⟨s, .panicked⟩

theorem receives (goes : Goes tolerable (dispatch grammars r request) c.session P)
    (running : c.status = .running) :
    ∃ s, P s ∧ Receives tolerable request s (receive grammars c (.message request r)) := by
  unfold receive
  rw [if_neg (by simp [running])]
  simp only
  cases ran : (dispatch grammars r request).run c.session with
  | ok ends s =>
    have holds : P s := goes.of_ok ran
    cases ends with
    | false => exact ⟨s, holds, .running⟩
    | true =>
      refine ⟨s, holds, .finished (.inl ?_) finishes_finish⟩
      by_contra other
      exact absurd ((stays_dispatch other c.session).of_ok ran) Bool.true_eq_false.mp
  | error stop s =>
    have stopped : tolerable stop ∧ P s := goes.of_error ran
    cases stop with
    | disconnected => exact ⟨s, stopped.2, .finished (.inr stopped.1) finishes_finish⟩
    | panicked => exact ⟨s, stopped.2, .panicked stopped.1⟩

theorem receive_close (running : c.status = .running) :
    receive grammars c .close = finish c.session := by
  unfold receive
  rw [if_neg (by simp [running])]

theorem receive_stopped {input : Input} (stopped : c.status ≠ .running) :
    receive grammars c input = c := if_pos stopped

end Receiving

end ErmyaGraph.Bolt
