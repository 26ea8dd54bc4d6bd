import ErmyaGraph.Bolt.Session

/-! # What a request can do

Most of what a session does leaves alone what it is bound to, its transaction and
its batch. A property of those is kept by every request as soon as it is kept by
the few changes that are listed here. -/

namespace ErmyaGraph.Bolt

variable {graph : GraphId} {stmt : Statement}

open Outcome

/-- Every end of a computation is tolerable and has a property. -/
def Goes {α : Type} (tolerable : Stop → Prop) (x : SessionM α) (s : Session)
    (P : Session → Prop) : Prop :=
  Sat x s (fun _ s' => P s') fun e s' => tolerable e ∧ P s'

def PendingResult.Sound (pending : PendingResult) : Prop := pending.cursor ≤ pending.rows

/-- A property that no failure takes away, and no result that waits to be fetched. -/
structure Indifferent (P : Session → Prop) : Prop where
  failing : ∀ s : Session, P s → P { s with failed := true }
  waiting : ∀ (s : Session) (pending : Option PendingResult),
    (∀ result, pending = some result → result.Sound) → P s → P { s with pendingResult := pending }

namespace Session

def ran (graph : GraphId) (txn : Option Nat) (stmt : Statement) (r : Replies) (s : Session) :
    Session :=
  s.log (.ran graph txn s.currentUsername s.dbHandle stmt r.executed.isSome)

def flushed (graph : GraphId) (s : Session) : Session := (s.log (.endBatch graph)).resetDirty

def bound (name : String) (handle : DbHandle) (s : Session) : Session :=
  { s.log (.acquired s.currentUsername name handle) with
    sessionAccessor := some handle.graph, dbHandle := some handle }

/-- A batch that is open, if there is one, was ended. -/
def settled (graph : GraphId) (s : Session) : Session :=
  if 0 < s.dirtyCount then s.flushed graph else s

/-- A batch was opened for the first mutation outside of a transaction. -/
def opened (graph : GraphId) (s : Session) : Session :=
  if s.openTxn.isNone && s.dirtyCount = 0 then s.log (.beginBatch graph) else s

def counted (r : Replies) (s : Session) : Session :=
  if r.executed.isSome then s.markDirty r.now else s

/-- A batch that is due was ended and the next one opened. -/
def autoFlushed (graph : GraphId) (r : Replies) (s : Session) : Session :=
  if s.shouldAutoFlush r.now then
    (if r.batchEnded then s.flushed graph else s.log (.endBatch graph)).log (.beginBatch graph)
  else s

def mutated (graph : GraphId) (r : Replies) (s : Session) : Session :=
  ((((s.opened graph).ran graph s.openTxn .mutation r).counted r)).autoFlushed graph r

def unbound (s : Session) : Session := { s with dbHandle := none, sessionAccessor := none }

end Session

/-- A statement names another database than the one that is bound. -/
def Rebinds (s : Session) (db : Option String) : Prop :=
  ∃ handle name, s.dbHandle = some handle ∧ db = some name ∧ handle.databaseName ≠ name

/-- A name is bound to what the registry hands out for it. -/
structure Acquires (r : Replies) (name : String) (handle : DbHandle) : Prop where
  valid : isValidDatabaseName name
  acquired : r.acquired = some handle

/-- How binding can leave a session. -/
inductive Binds (r : Replies) (db : Option String) (s : Session) : Session → Prop
  | kept : Binds r db s s
  | first (name : String) (handle : DbHandle) (unbound : s.dbHandle = none) (named : db = some name)
      (acquires : Acquires r name handle) : Binds r db s (s.bound name handle)
  | again (name : String) (handle : DbHandle) (rebinds : Rebinds s db) (named : db = some name)
      (acquires : Acquires r name handle) : Binds r db s (s.unbound.bound name handle)

/-- A statement comes to the point where its database is bound. -/
structure Binding (grammars : Grammars) (query : String) (s : Session) : Prop where
  live : s.failed = false
  authenticated : s.authenticated = true
  ordinary : isAdmin grammars query = false

/-- A statement gives up its database and gets no other one. -/
structure Loses (grammars : Grammars) (r : Replies) (query : String) (db : Option String)
    (s : Session) : Prop extends Binding grammars query s where
  rebinds : Rebinds s db
  refused : ∀ name handle, db = some name → ¬Acquires r name handle

/-- A statement gets past every check before it is dispatched, in the session as it is bound. -/
structure Dispatches (grammars : Grammars) (r : Replies) (query : String) (db : Option String)
    (s s' : Session) (stmt : Statement) : Prop where
  live : s.failed = false
  authenticated : s.authenticated = true
  bound : isAdmin grammars query = true ∧ s' = s ∨
    isAdmin grammars query = false ∧ Binds r db s s' ∧ s'.dbHandle.isSome
  throttled : r.throttled = false
  paramsOk : r.paramsOk = true
  parsed : parseRun grammars query = .ok stmt
  substituted : r.substituted = true

section Rules

variable {tolerable : Stop → Prop} {P Q : Session → Prop} {s : Session} {r : Replies}
variable {α : Type} {x : SessionM α}

theorem Goes.mono (goes : Goes tolerable x s P) (weaken : ∀ s', P s' → Q s') :
    Goes tolerable x s Q :=
  Sat.mono goes (fun _ s' holds => weaken s' holds) fun _ s' holds => ⟨holds.1, weaken s' holds.2⟩

theorem Goes.bind {β : Type} {rest : α → SessionM β} (first : Goes tolerable x s Q)
    (next : ∀ a s', Q s' → Goes tolerable (rest a) s' P) (weaken : ∀ s', Q s' → P s') :
    Goes tolerable (x >>= rest) s P := by
  unfold Goes
  rw [sat_bind]
  exact Sat.mono first (fun a s' holds => next a s' holds) fun e s' holds =>
    ⟨holds.1, weaken s' holds.2⟩

section Answers

variable (harmless : r.sent = false → tolerable .disconnected)

include harmless

theorem goes_sendResponse (holds : P s) : Goes tolerable (sendResponse r) s P := by
  unfold sendResponse
  split
  · exact holds
  · next unsent => exact ⟨harmless (by simpa using unsent), holds⟩

theorem goes_fail (holds : P { s with failed := true }) : Goes tolerable (fail r) s P :=
  goes_sendResponse (r := r) harmless holds

theorem goes_finishRun (indifferent : Indifferent P) (holds : P s) :
    Goes tolerable (finishRun r) s P := by
  unfold finishRun
  cases r.executed with
  | some rows =>
    refine goes_sendResponse (r := r) harmless (indifferent.waiting s _ ?_ holds)
    rintro result ⟨⟩
    exact Nat.zero_le rows
  | none => exact goes_fail harmless (indifferent.failing s holds)

variable {next : Bool → SessionM Bool}

theorem goes_failBind (holds : P { s with failed := true })
    (stopped : ∀ s', P s' → Goes tolerable (next true) s' P) :
    Goes tolerable (failBind r >>= next) s P := by
  unfold failBind
  rw [bind_assoc]
  refine (goes_fail harmless holds).bind (fun _ s' kept => ?_) fun _ kept => kept
  rw [pure_bind]
  exact stopped s' kept

theorem goes_acquireAndBind {name : String}
    (failing : (∀ handle, ¬Acquires r name handle) → P { s with failed := true })
    (stopped : ∀ s', P s' → Goes tolerable (next true) s' P)
    (bound : ∀ handle, Acquires r name handle →
      Goes tolerable (next false) (s.bound name handle) P) :
    Goes tolerable (acquireAndBind r name >>= next) s P := by
  unfold acquireAndBind
  split
  · next invalid =>
      have none : ∀ handle, ¬Acquires r name handle := fun handle acquires => by
        simp [acquires.valid] at invalid
      exact goes_failBind harmless (failing none) stopped
  · next valid =>
      cases acquired : r.acquired with
      | some handle => exact bound handle ⟨by simpa using valid, acquired⟩
      | none =>
        have none : ∀ handle, ¬Acquires r name handle := fun handle acquires => by
          simp [acquires.acquired] at acquired
        exact goes_failBind harmless (failing none) stopped

variable {db : Option String}

theorem goes_tryBindDatabase (indifferent : Indifferent P) (holds : P s)
    (lost : Rebinds s db → (∀ name handle, db = some name → ¬Acquires r name handle) →
      P { s.unbound with failed := true }) (stopped : ∀ s', P s' → Goes tolerable (next true) s' P)
    (bound : ∀ s', Binds r db s s' → s'.dbHandle.isSome → Goes tolerable (next false) s' P) :
    Goes tolerable (tryBindDatabase r db >>= next) s P := by
  have failing : ∀ s', P s' → P { s' with failed := true } := fun s' kept =>
    indifferent.failing s' kept
  unfold Goes tryBindDatabase
  rw [bind_assoc, sat_bind, sat_get]
  cases handled : s.dbHandle with
  | none =>
    cases db with
    | none => exact goes_failBind harmless (failing s holds) stopped
    | some name =>
      exact goes_acquireAndBind harmless (fun _ => failing s holds) stopped
        fun handle acquires => bound _ (.first name handle handled rfl acquires) rfl
  | some handle =>
    have here : s.dbHandle.isSome := by rw [handled]; rfl
    cases db with
    | none => exact bound s .kept here
    | some name =>
      by_cases same : handle.databaseName = name
      · simp only [same, if_true]
        exact bound s .kept here
      · simp only [same, if_false]
        have rebinds : Rebinds s (some name) := ⟨handle, name, handled, rfl, same⟩
        rw [bind_assoc, sat_bind, sat_modify]
        refine goes_acquireAndBind (s := s.unbound) harmless (fun none => ?_) stopped
          fun handle acquires => bound _ (.again name handle rebinds rfl acquires) rfl
        exact lost rebinds fun other handle named => by
          cases named
          exact none handle

variable {grammars : Grammars} {query : String}

theorem goes_runBound (indifferent : Indifferent P) (holds : P s)
    (dispatched : ∀ stmt, r.throttled = false → r.paramsOk = true →
      parseRun grammars query = .ok stmt → r.substituted = true →
      Goes tolerable (dispatchStatement r stmt) s P) :
    Goes tolerable (runBound grammars r query) s P := by
  have refused : Goes tolerable (fail r) s P := goes_fail harmless (indifferent.failing s holds)
  unfold runBound
  split
  · exact refused
  · next checked =>
      have checks : r.throttled = false ∧ r.paramsOk = true := by simpa using checked
      cases parsed : parseRun grammars query with
      | error e => exact refused
      | ok stmt =>
        simp only
        split
        · exact refused
        · next substituted =>
            exact dispatched stmt checks.1 checks.2 parsed (by simpa using substituted)

theorem goes_handleRun (indifferent : Indifferent P) (live : s.failed = false) (holds : P s)
    (lost : Loses grammars r query db s → P { s.unbound with failed := true })
    (binds : ∀ s', Binding grammars query s → Binds r db s s' → P s')
    (dispatched : ∀ s' stmt, Dispatches grammars r query db s s' stmt → P s' →
      Goes tolerable (dispatchStatement r stmt) s' P) :
    Goes tolerable (handleRun grammars r query db) s P := by
  unfold Goes handleRun
  rw [sat_bind, sat_get]
  by_cases authenticated : s.authenticated = true
  · simp only [authenticated, Bool.not_true, Bool.false_eq_true, if_false]
    by_cases admin : isAdmin grammars query = true
    · simp only [admin, if_true, pure_bind]
      exact goes_runBound harmless indifferent holds
        fun stmt throttled paramsOk parsed substituted => dispatched s stmt
          ⟨live, authenticated, .inl ⟨admin, rfl⟩, throttled, paramsOk, parsed, substituted⟩ holds
    · have ordinary : isAdmin grammars query = false := by simpa using admin
      have reached : Binding grammars query s := ⟨live, authenticated, ordinary⟩
      simp only [ordinary, Bool.false_eq_true, if_false]
      refine goes_tryBindDatabase harmless indifferent holds
        (fun rebinds refused => lost ⟨reached, rebinds, refused⟩) (fun _ kept => kept)
        fun s' bound here => ?_
      exact goes_runBound harmless indifferent (binds s' reached bound)
        fun stmt throttled paramsOk parsed substituted => dispatched s' stmt
          ⟨live, authenticated, .inr ⟨ordinary, bound, here⟩, throttled, paramsOk, parsed,
            substituted⟩ (binds s' reached bound)
  · simp only [authenticated]
    exact goes_fail harmless (indifferent.failing s holds)

end Answers

variable {next : GraphId → SessionM α}

theorem goes_currentAccessor (holds : P s)
    (unbound : s.sessionAccessor = none → tolerable .panicked)
    (bound : ∀ graph, s.sessionAccessor = some graph → Goes tolerable (next graph) s P) :
    Goes tolerable (currentAccessor >>= next) s P := by
  unfold Goes currentAccessor
  rw [bind_assoc, sat_bind, sat_get]
  cases accessor : s.sessionAccessor with
  | some graph => exact bound graph accessor
  | none => exact ⟨unbound accessor, holds⟩

theorem goes_flushPendingBatch {next : Unit → SessionM α} (holds : P s)
    (unbound : s.sessionAccessor = none → 0 < s.dirtyCount → tolerable .panicked)
    (idle : s.dirtyCount = 0 → Goes tolerable (next ()) s P)
    (flush : ∀ graph, s.sessionAccessor = some graph → 0 < s.dirtyCount →
      Goes tolerable (next ()) (s.flushed graph) P) :
    Goes tolerable (flushPendingBatch >>= next) s P := by
  unfold Goes flushPendingBatch
  rw [bind_assoc, sat_bind, sat_get]
  by_cases dirty : 0 < s.dirtyCount
  · simp only [dirty, if_true]
    unfold dispatchEndBatch
    rw [bind_assoc, bind_assoc]
    exact goes_currentAccessor holds (fun none => unbound none dirty)
      fun graph accessor => flush graph accessor dirty
  · simp only [dirty, if_false]
    exact idle (Nat.eq_zero_of_not_pos dirty)

section

variable (accessor : s.sessionAccessor = some graph)
include accessor

theorem run_currentAccessor : currentAccessor.run s = .ok graph s := by
  simp [currentAccessor, EStateM.run_bind, accessor]

theorem run_dispatchEndBatch : dispatchEndBatch.run s = .ok () (s.log (.endBatch graph)) := by
  rw [dispatchEndBatch, EStateM.run_bind, run_currentAccessor accessor]
  rfl

theorem run_dispatchBeginBatch : dispatchBeginBatch.run s = .ok () (s.log (.beginBatch graph)) := by
  rw [dispatchBeginBatch, EStateM.run_bind, run_currentAccessor accessor]
  rfl

theorem run_execute : (execute r stmt).run s = .ok () (s.ran graph s.openTxn stmt r) := by
  rw [execute, EStateM.run_bind, run_currentAccessor accessor]
  rfl

theorem run_autoFlush : (autoFlush r).run s = .ok () (s.autoFlushed graph r) := by
  unfold autoFlush Session.autoFlushed
  rw [EStateM.run_bind, EStateM.run_get]
  by_cases due : s.shouldAutoFlush r.now = true
  · simp only [due, if_true]
    rw [EStateM.run_bind, run_dispatchEndBatch accessor]
    cases ended : r.batchEnded with
    | true => exact run_dispatchBeginBatch (s := s.flushed graph) accessor
    | false => exact run_dispatchBeginBatch (s := s.log (.endBatch graph)) accessor
  · simp only [due]
    rfl

theorem run_runMutation : (runMutation r).run s = .ok () (s.mutated graph r) := by
  have after : ∀ s' : Session, s'.sessionAccessor = some graph → s'.openTxn = s.openTxn →
      (do
        execute r .mutation
        if r.executed.isSome then modify (Session.markDirty r.now) else pure ()
        autoFlush r : SessionM Unit).run s' =
      .ok () (((s'.ran graph s.openTxn .mutation r).counted r).autoFlushed graph r) := by
    intro s' still same
    rw [EStateM.run_bind, run_execute still, same]
    unfold Session.counted
    cases executed : r.executed with
    | some rows =>
      exact run_autoFlush (s := (s'.ran graph s.openTxn .mutation r).markDirty r.now) still
    | none => exact run_autoFlush (s := s'.ran graph s.openTxn .mutation r) still
  unfold runMutation Session.mutated Session.opened
  rw [EStateM.run_bind, EStateM.run_get]
  by_cases opens : (s.openTxn.isNone && decide (s.dirtyCount = 0)) = true
  · simp only [opens, if_true]
    rw [EStateM.run_bind, run_dispatchBeginBatch accessor]
    exact after (s.log (.beginBatch graph)) accessor rfl
  · simp only [opens]
    exact after s accessor rfl

end

theorem run_unbound (none : s.sessionAccessor = none) :
    (currentAccessor >>= next).run s = .error .panicked s := by
  rw [EStateM.run_bind, currentAccessor, EStateM.run_bind, EStateM.run_get]
  simp only [none]
  rfl

theorem run_runMutation_unbound (none : s.sessionAccessor = none) :
    (runMutation r).run s = .error .panicked s := by
  unfold runMutation
  rw [EStateM.run_bind, EStateM.run_get]
  by_cases opens : (s.openTxn.isNone && decide (s.dirtyCount = 0)) = true
  · simp only [opens, if_true]
    unfold dispatchBeginBatch
    rw [bind_assoc]
    exact run_unbound none
  · simp only [opens]
    unfold execute
    rw [if_neg Bool.false_ne_true, bind_assoc]
    exact run_unbound none

/-- The gate in front of statements that change the graph. -/
def Gated (s : Session) (stmt : Statement) : Prop :=
  ∃ handle, s.dbHandle = some handle ∧ handle.accessLevel = .read ∧ astIsMutating stmt = true

/-- The statements that are read from the graph as it is, once the batch is settled. -/
def Statement.settles : Statement → Bool
  | .query | .pipeline _ | .constReturn => true
  | _ => false

theorem goes_runMain (harmless : r.sent = false → tolerable .disconnected)
    (indifferent : Indifferent P) (holds : P s) (main : stmt.standsAlone = false)
    (unbound : s.sessionAccessor = none → tolerable .panicked)
    (settled : ∀ graph, s.sessionAccessor = some graph → stmt.settles = true →
      P ((s.settled graph).ran graph s.openTxn stmt r))
    (mutated : ∀ graph, s.sessionAccessor = some graph → stmt = .mutation → P (s.mutated graph r)) :
    Goes tolerable (runMain r stmt) s P := by
  have reading : stmt.settles = true → Goes tolerable (do
      flushPendingBatch
      execute r stmt
      finishRun r) s P := by
    intro reads
    cases accessor : s.sessionAccessor with
    | none =>
      refine goes_flushPendingBatch holds (fun _ _ => unbound accessor) (fun _ => ?_)
        fun graph found => by rw [accessor] at found; cases found
      unfold execute
      rw [bind_assoc]
      exact goes_currentAccessor holds unbound fun graph found => by
        rw [accessor] at found; cases found
    | some graph =>
      have kept := settled graph accessor reads
      have finished : ∀ s' : Session, s'.sessionAccessor = some graph →
          P (s'.ran graph s'.openTxn stmt r) →
          Goes tolerable (do execute r stmt; finishRun r) s' P := by
        intro s' still ran
        unfold Goes
        rw [sat_bind, sat_of_run (run_execute still)]
        exact goes_finishRun harmless indifferent ran
      refine goes_flushPendingBatch holds (fun none => by rw [accessor] at none; cases none) ?_ ?_
      · intro idle
        rw [Session.settled, if_neg (by omega)] at kept
        exact finished s accessor kept
      · intro other found dirty
        rw [accessor] at found
        cases found
        rw [Session.settled, if_pos dirty] at kept
        exact finished (s.flushed graph) accessor kept
  cases stmt with
  | mutation =>
    cases accessor : s.sessionAccessor with
    | none =>
      change Goes tolerable (do runMutation r; finishRun r) s P
      unfold Goes Sat
      rw [EStateM.run_bind, run_runMutation_unbound accessor]
      exact ⟨unbound accessor, holds⟩
    | some graph =>
      change Goes tolerable (do runMutation r; finishRun r) s P
      unfold Goes
      rw [sat_bind, sat_of_run (run_runMutation accessor)]
      exact goes_finishRun harmless indifferent (mutated graph accessor rfl)
  | query => exact reading rfl
  | pipeline terminal => exact reading rfl
  | constReturn => exact reading rfl
  | admin => cases main
  | ddl stmt => cases main
  | call kind => cases main

/-- A statement that gets past the gate and past the open transaction runs, if it is none of the
administration. -/
theorem goes_dispatchStatement (harmless : r.sent = false → tolerable .disconnected)
    (indifferent : Indifferent P) (holds : P s)
    (unbound : s.sessionAccessor = none → stmt ≠ .admin → tolerable .panicked)
    (outside : ∀ graph, s.sessionAccessor = some graph → s.openTxn = none →
      stmt.standsAlone = true → stmt ≠ .admin → P (s.ran graph none stmt r))
    (settled : ∀ graph, s.sessionAccessor = some graph → ¬Gated s stmt → stmt.settles = true →
      P ((s.settled graph).ran graph s.openTxn stmt r))
    (mutated : ∀ graph, s.sessionAccessor = some graph → ¬Gated s stmt → stmt = .mutation →
      P (s.mutated graph r)) : Goes tolerable (dispatchStatement r stmt) s P := by
  have refused : Goes tolerable (fail r) s P := goes_fail harmless (indifferent.failing s holds)
  have gate : stmt.standsAlone = false → Goes tolerable
      (if (s.dbHandle.any fun handle => handle.accessLevel = .read) && astIsMutating stmt then
        fail r else runMain r stmt) s P := by
    intro main
    have ordinary : stmt ≠ .admin := by
      rintro rfl
      cases main
    split
    · exact refused
    · next passed =>
        have ungated : ¬Gated s stmt := by
          rintro ⟨handle, bound, level, mutates⟩
          exact passed (by simp [bound, level, mutates])
        exact goes_runMain harmless indifferent holds main (fun none => unbound none ordinary)
          (fun graph accessor => settled graph accessor ungated)
          fun graph accessor => mutated graph accessor ungated
  unfold Goes dispatchStatement
  rw [sat_bind, sat_get]
  by_cases blocked : (s.openTxn.isSome && stmt.standsAlone) = true
  · simp only [blocked, if_true]
    exact refused
  · simp only [blocked]
    have alone : stmt.standsAlone = true → s.openTxn = none := by
      intro stands
      simpa [stands] using blocked
    have runs : stmt.standsAlone = true → stmt ≠ .admin →
        Goes tolerable (dispatchOutside r stmt) s P := by
      intro stands ordinary
      refine goes_currentAccessor holds (fun none => unbound none ordinary)
        fun graph accessor => ?_
      exact goes_finishRun harmless indifferent
        (outside graph accessor (alone stands) stands ordinary)
    cases stmt with
    | admin =>
      change Goes tolerable (dispatchAdmin r) s P
      unfold Goes dispatchAdmin
      rw [sat_bind, sat_get]
      split
      · exact refused
      · exact goes_finishRun harmless indifferent holds
    | ddl stmt => exact runs rfl nofun
    | call kind =>
      change Goes tolerable (dispatchCall r kind) s P
      unfold dispatchCall
      split
      · exact refused
      · exact runs rfl nofun
    | query => exact gate rfl
    | mutation => exact gate rfl
    | pipeline terminal => exact gate rfl
    | constReturn => exact gate rfl

end Rules

end ErmyaGraph.Bolt
