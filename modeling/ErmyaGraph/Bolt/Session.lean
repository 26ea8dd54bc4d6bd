import ErmyaGraph.Bolt.Language
import ErmyaGraph.Lib.Outcome

/-! # A session

A client sends one request after the other, and a session answers each before it
takes the next. It is bound to the database that its statements name, holds at
most one explicit transaction, and collects the mutations outside of transactions
into batches, so that they share a sync of the journal. -/

namespace ErmyaGraph.Bolt

open Outcome

abbrev GraphId := Nat

inductive AccessLevel where
  | none
  | read
  | readWrite
deriving DecidableEq, Repr

/-- What the registry hands out for a database: the graph, and what the user may do with it. -/
structure DbHandle where
  databaseName : String
  accessLevel : AccessLevel
  graph : GraphId
deriving DecidableEq, Repr

/-- The rows of a result, and how many of them have been fetched. -/
structure PendingResult where
  rows : Nat
  cursor : Nat
deriving DecidableEq, Repr

/-- How a graph answers the end of a transaction. -/
inductive Finish where
  | done
  /-- The transaction was no longer active, as where it had outgrown its memory. -/
  | inactive
  | failed
deriving DecidableEq, Repr

/-- What a session asks of others, in order. -/
inductive Event where
  | acquired (user db : String) (handle : DbHandle)
  | ran (graph : GraphId) (txn : Option Nat) (user : String) (handle : Option DbHandle)
      (stmt : Statement) (ok : Bool)
  | beginBatch (graph : GraphId)
  | endBatch (graph : GraphId)
  | beginTxn (graph : GraphId) (txn : Nat)
  | commitTxn (graph : GraphId) (txn : Nat) (answer : Finish)
  | rollbackTxn (graph : GraphId) (txn : Nat)
deriving DecidableEq, Repr

/-- The state of a session, with what it asked so far. -/
structure Session where
  authenticated : Bool := false
  authenticatedUser : Option String := none
  failed : Bool := false
  dbHandle : Option DbHandle := none
  sessionAccessor : Option GraphId := none
  pendingResult : Option PendingResult := none
  dirtyCount : Nat := 0
  firstDirtyAt : Option Nat := none
  openTxn : Option Nat := none
  events : List Event := []
deriving DecidableEq, Repr

inductive Stop where
  | disconnected
  | panicked
deriving DecidableEq, Repr

abbrev SessionM := EStateM Stop Session

/-- How everything but the session itself answers while a request is handled. -/
structure Replies where
  sent : Bool := true
  recordsSent : Bool := true
  authBlocked : Bool := false
  authenticated : Bool := true
  acquired : Option DbHandle := none
  throttled : Bool := false
  paramsOk : Bool := true
  substituted : Bool := true
  /-- The rows of a statement that succeeds. -/
  executed : Option Nat := some 0
  begun : Option Nat := none
  finished : Finish := .done
  batchEnded : Bool := true
  now : Nat := 0
deriving DecidableEq, Repr

inductive Request where
  | undecodable
  | hello (principal : String)
  | logon
  | run (query : String) (db : Option String)
  | pull (n : Int)
  | discard (n : Int)
  | reset
  | goodbye
  | begin
  | commit
  | rollback
deriving DecidableEq, Repr

def autoFlushOps : Nat := 500

def autoFlushWindow : Nat := 5000

namespace Session

def markDirty (now : Nat) (s : Session) : Session :=
  { s with dirtyCount := s.dirtyCount + 1, firstDirtyAt := some (s.firstDirtyAt.getD now) }

def shouldAutoFlush (now : Nat) (s : Session) : Bool :=
  autoFlushOps ≤ s.dirtyCount || s.firstDirtyAt.any fun first => autoFlushWindow ≤ now - first

def resetDirty (s : Session) : Session := { s with dirtyCount := 0, firstDirtyAt := none }

def currentUsername (s : Session) : String := s.authenticatedUser.getD ""

def log (e : Event) (s : Session) : Session := { s with events := s.events ++ [e] }

end Session

def record (e : Event) : SessionM Unit := modify (Session.log e)

/-- A response that cannot be sent ends the session. -/
def sendResponse (r : Replies) : SessionM Bool := do
  if r.sent then return false else throw .disconnected

/-- Until it is reset, the session ignores what follows. -/
def fail (r : Replies) : SessionM Bool := do
  modify fun s => { s with failed := true }
  sendResponse r

def failBind (r : Replies) : SessionM Bool := do
  let _ ← fail r
  return true

/-- Letters, digits, `_` and `-`, and no digit or `-` in front. -/
def isValidDatabaseName (name : String) : Bool :=
  name ≠ "system" && name ≠ "default" && 0 < name.utf8ByteSize && name.utf8ByteSize ≤ 63 &&
    (name.toList.head?.any fun c => c.isAlpha || c == '_') &&
      name.toList.all fun c => c.isAlphanum || c == '_' || c == '-'

def acquireAndBind (r : Replies) (name : String) : SessionM Bool := do
  if !isValidDatabaseName name then failBind r
  else
    match r.acquired with
    | some handle => do
        let s ← get
        record (.acquired s.currentUsername name handle)
        modify fun s =>
          { s with sessionAccessor := some handle.graph, dbHandle := some handle }
        return false
    | none => failBind r

/-- Bind the database that a statement names. The answer is whether the statement ends here. -/
def tryBindDatabase (r : Replies) (requested : Option String) : SessionM Bool := do
  match (← get).dbHandle, requested with
  | some _, none => return false
  | some handle, some name =>
    if handle.databaseName = name then return false
    else
      -- The old database is given up before it is known whether there is a new one.
      modify fun s => { s with dbHandle := none, sessionAccessor := none }
      acquireAndBind r name
  | none, none => failBind r
  | none, some name => acquireAndBind r name

def currentAccessor : SessionM GraphId := do
  match (← get).sessionAccessor with
  | some graph => return graph
  | none => throw .panicked

def dispatchBeginBatch : SessionM Unit := do
  let graph ← currentAccessor
  record (.beginBatch graph)

def dispatchEndBatch : SessionM Unit := do
  let graph ← currentAccessor
  record (.endBatch graph)

/-- The batch counts as over also where its sync failed. -/
def flushPendingBatch : SessionM Unit := do
  if 0 < (← get).dirtyCount then
    dispatchEndBatch
    modify Session.resetDirty
  else return

/-- Hand a statement to the accessor, in the transaction if there is one. -/
def execute (r : Replies) (stmt : Statement) : SessionM Unit := do
  let graph ← currentAccessor
  let s ← get
  record (.ran graph s.openTxn s.currentUsername s.dbHandle stmt r.executed.isSome)

/-- Keep the rows for fetching. -/
def finishRun (r : Replies) : SessionM Bool := do
  match r.executed with
  | some rows => do
      modify fun s => { s with pendingResult := some ⟨rows, 0⟩ }
      sendResponse r
  | none => fail r

def autoFlush (r : Replies) : SessionM Unit := do
  if (← get).shouldAutoFlush r.now then
    dispatchEndBatch
    -- A batch whose sync failed keeps its count.
    if r.batchEnded then modify Session.resetDirty else pure ()
    dispatchBeginBatch
  else return

def runMutation (r : Replies) : SessionM Unit := do
  let s ← get
  if s.openTxn.isNone && s.dirtyCount = 0 then dispatchBeginBatch else pure ()
  execute r .mutation
  if r.executed.isSome then modify (Session.markDirty r.now) else pure ()
  autoFlush r

/-- The statements that change the graph, as far as their form tells. -/
def astIsMutating : Statement → Bool
  | .mutation => true
  | .pipeline terminal => terminal ≠ .ret
  | _ => false

def runMain (r : Replies) (stmt : Statement) : SessionM Bool := do
  match stmt with
  | .query | .pipeline _ | .constReturn => do
      flushPendingBatch
      execute r stmt
  | .mutation => runMutation r
  | .admin | .ddl _ | .call _ => throw .panicked
  finishRun r

def dispatchAdmin (r : Replies) : SessionM Bool := do
  if (← get).authenticatedUser.isNone then fail r else finishRun r

/-- Changes of the schema and procedures run outside of transactions. -/
def dispatchOutside (r : Replies) (stmt : Statement) : SessionM Bool := do
  let graph ← currentAccessor
  let s ← get
  record (.ran graph none s.currentUsername s.dbHandle stmt r.executed.isSome)
  finishRun r

def dispatchCall (r : Replies) (kind : Option ProcedureKind) : SessionM Bool :=
  if kind = some .snapshot || kind = some .restore then fail r
  else dispatchOutside r (.call kind)

def Statement.standsAlone : Statement → Bool
  | .ddl _ | .call _ | .admin => true
  | _ => false

def dispatchStatement (r : Replies) (stmt : Statement) : SessionM Bool := do
  let s ← get
  if s.openTxn.isSome && stmt.standsAlone then fail r
  else
    match stmt with
    | .admin => dispatchAdmin r
    | .ddl _ => dispatchOutside r stmt
    | .call kind => dispatchCall r kind
    | stmt =>
      if (s.dbHandle.any fun handle => handle.accessLevel = .read) && astIsMutating stmt then
        fail r
      else runMain r stmt

section Running

variable (grammars : Grammars)

def isAdmin (query : String) : Bool :=
  match tryParseAdmin grammars query.toList with
  | .ok (some _) => true
  | _ => false

def parseRun (query : String) : Except Gql.ParseError Statement :=
  parseWithMode grammars query.toList .cypherCompat

/-- What is checked once the database is bound. -/
def runBound (r : Replies) (query : String) : SessionM Bool := do
  if r.throttled || !r.paramsOk then fail r
  else
    match parseRun grammars query with
    | .error _ => fail r
    | .ok stmt => if !r.substituted then fail r else dispatchStatement r stmt

def handleRun (r : Replies) (query : String) (db : Option String) : SessionM Bool := do
  if !(← get).authenticated then fail r
  else
    let stopped ← if isAdmin grammars query then pure false else tryBindDatabase r db
    if stopped then return false else runBound grammars r query

end Running

/-- Names are compared without the space around them, in lower case. -/
def normalizeUser (principal : String) : String :=
  String.ofList ((trim principal.toList).map Char.toLower)

def handleHello (r : Replies) (principal : String) : SessionM Bool := do
  if r.authBlocked || !r.authenticated then fail r
  else
    modify fun s =>
      { s with authenticatedUser := some (normalizeUser principal), authenticated := true }
    sendResponse r

/-- How many of the remaining rows a request takes; a negative number takes all. -/
def takenRows (n : Int) (remaining : Nat) : Nat :=
  if n < 0 then remaining else min n.toNat remaining

/-- Move the cursor of the result; what has been fetched in full is dropped. -/
def PendingResult.advance (taken : Nat) (pending : PendingResult) : Option PendingResult :=
  if pending.cursor + taken < pending.rows then
    some { pending with cursor := pending.cursor + taken }
  else none

/-- Fetch or drop rows; `written` says whether they reach the client where it wants them. -/
def fetch (r : Replies) (n : Int) (written : Bool) : SessionM Bool := do
  if r.throttled then fail r
  else
    match (← get).pendingResult with
    | none => sendResponse r
    | some pending =>
      let taken := takenRows n (pending.rows - pending.cursor)
      if pending.rows < pending.cursor then throw .panicked
      else if 0 < taken && !written then throw .disconnected
      else
        modify fun s => { s with pendingResult := pending.advance taken }
        sendResponse r

def handlePull (r : Replies) (n : Int) : SessionM Bool := fetch r n r.recordsSent

def handleDiscard (r : Replies) (n : Int) : SessionM Bool := fetch r n true

def handleReset (r : Replies) : SessionM Bool := do
  let s ← get
  modify fun s => { s with failed := false, pendingResult := none, openTxn := none }
  match s.openTxn, s.sessionAccessor with
  | some txn, some graph => record (.rollbackTxn graph txn)
  | _, _ => pure ()
  flushPendingBatch
  sendResponse r

def handleBegin (r : Replies) : SessionM Bool := do
  let s ← get
  if s.openTxn.isSome then fail r
  else
    match s.sessionAccessor with
    | none => fail r
    | some graph =>
      match r.begun with
      | some txn => do
          record (.beginTxn graph txn)
          modify fun s => { s with openTxn := some txn }
          sendResponse r
      | none => fail r

/-- The transaction is given up also where it cannot be finished. -/
def finishTxn (r : Replies) (commit : Bool) : SessionM Bool := do
  match (← get).openTxn with
  | none => fail r
  | some txn => do
      modify fun s => { s with openTxn := none }
      let graph ← currentAccessor
      record (if commit then .commitTxn graph txn r.finished else .rollbackTxn graph txn)
      if r.finished = .done then sendResponse r else fail r

section Session

variable (grammars : Grammars)

/-- Whether the session ends with a request. -/
def dispatch (r : Replies) (request : Request) : SessionM Bool := do
  if request = .undecodable then fail r
  else if (← get).failed then
    match request with
    | .reset => handleReset r
    | .goodbye => return true
    | _ => sendResponse r
  else
    match request with
    | .undecodable => fail r
    | .hello principal => handleHello r principal
    | .logon => sendResponse r
    | .run query db => handleRun grammars r query db
    | .pull n => handlePull r n
    | .discard n => handleDiscard r n
    | .reset => handleReset r
    | .goodbye => return true
    | .begin => handleBegin r
    | .commit => finishTxn r true
    | .rollback => finishTxn r false

inductive Status where
  | running
  | ended
  | panicked
deriving DecidableEq, Repr

structure Connection where
  session : Session := {}
  status : Status := .running
deriving DecidableEq, Repr

/-- A request, or the end of the session without one: the stream ends, nothing comes for too long,
or the server shuts down. -/
inductive Input where
  | message (request : Request) (replies : Replies)
  | close
deriving DecidableEq, Repr

/-- Nothing is left unsynced when a session ends. -/
def finish (s : Session) : Connection :=
  match flushPendingBatch.run s with
  | .ok _ s' => ⟨s', .ended⟩
  | .error .disconnected s' => ⟨s', .ended⟩
  | .error .panicked s' => ⟨s', .panicked⟩

def receive (c : Connection) (input : Input) : Connection :=
  if c.status ≠ .running then c
  else
    match input with
    | .close => finish c.session
    | .message request r =>
      match (dispatch grammars r request).run c.session with
      | .ok false s => ⟨s, .running⟩
      | .ok true s => finish s
      | .error .disconnected s => finish s
      | .error .panicked s => ⟨s, .panicked⟩

end Session

end ErmyaGraph.Bolt
