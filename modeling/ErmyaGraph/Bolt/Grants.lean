import ErmyaGraph.Bolt.Traps

/-! # What a user may do

A database is handed out to a user, with what the user may do to it. A session
holds on to it from one statement to the next. -/

namespace ErmyaGraph.Bolt

open Outcome Traces

def DdlStatement.changes : DdlStatement → Bool
  | .showIndexInfo | .showConstraintInfo | .showAppendOnlyInfo => false
  | _ => true

/-- A statement changes a graph or its catalog, as far as its form tells. -/
def Statement.writes : Statement → Bool
  | .ddl stmt => stmt.changes
  | stmt => astIsMutating stmt

/-- What was handed out last: to whom, under which name, and what. -/
def lastGrant (events : List Event) : Option (String × String × DbHandle) :=
  events.foldl (fun last e =>
    match e with
    | .acquired user db handle => some (user, db, handle)
    | _ => last) none

/-- A statement runs on what was handed out to its user, and writes only where the user may. -/
def Granted (past : List Event) : Event → Prop
  | .ran graph _ user handle stmt _ =>
    ∃ db granted, handle = some granted ∧ lastGrant past = some (user, db, granted) ∧
      granted.graph = graph ∧ (granted.accessLevel = .read → stmt.writes = false)
  | _ => True

/-- A step keeps the user while a database is bound, and does not change the schema of a database
that may only be read. -/
structure Respects (grammars : Grammars) (s : Session) (input : Input) : Prop where
  greeting : ∀ principal r, input = .message (.hello principal) r → s.failed = false →
    r.authBlocked = false → r.authenticated = true → s.dbHandle.isSome →
    normalizeUser principal = s.currentUsername
  reading : ∀ query db r s' stmt handle, input = .message (.run query db) r →
    Dispatches grammars r query db s s' (.ddl stmt) → s'.openTxn = none →
    s'.dbHandle = some handle → handle.accessLevel = .read → stmt.changes = false

/-- A session that holds what was handed out to its user. -/
structure Held (s : Session) : Prop where
  bound : Bound s
  grant : ∀ handle, s.dbHandle = some handle →
    ∃ db, lastGrant s.events = some (s.currentUsername, db, handle)
  admits : Admits Granted s.events

section Held

variable {grammars : Grammars} {s : Session} {r : Replies} {request : Request} {graph : GraphId}

theorem indifferent_held : Indifferent Held where
  failing _ held := ⟨held.bound, held.grant, held.admits⟩
  waiting _ _ _ held := ⟨held.bound, held.grant, held.admits⟩

theorem Held.log {e : Event} (held : Held s) (may : Granted s.events e)
    (keeps : lastGrant (s.events ++ [e]) = lastGrant s.events) : Held (s.log e) where
  bound := held.bound
  grant handle bound := by
    rw [Session.log, keeps]
    exact held.grant handle bound
  admits := held.admits.concat may

theorem unbatched_held : Unbatched Held where
  counting _ _ _ held := ⟨held.bound, held.grant, held.admits⟩
  beginning _ _ held := held.log trivial (by simp [lastGrant])
  ending _ _ held := held.log trivial (by simp [lastGrant])

variable {stmt : Statement}

theorem Held.ran {txn : Option Nat} (held : Held s) (accessor : s.sessionAccessor = some graph)
    (allowed : ∀ handle, s.dbHandle = some handle → handle.accessLevel = .read →
      stmt.writes = false) : Held (s.ran graph txn stmt r) := by
  obtain ⟨handle, handled, same⟩ : ∃ handle, s.dbHandle = some handle ∧ handle.graph = graph := by
    have bound := held.bound
    rw [Bound, accessor] at bound
    simpa using bound.symm
  obtain ⟨db, granted⟩ := held.grant handle handled
  exact held.log ⟨db, handle, handled, granted, same, allowed handle handled⟩ (by simp [lastGrant])

variable {handle : DbHandle}

theorem Held.rebound {name : String} (held : Held s) :
    Held (s.bound name handle) where
  bound := rfl
  grant := by
    rintro _ ⟨⟩
    exact ⟨name, by simp [lastGrant, Session.bound, Session.log, Session.currentUsername]⟩
  admits := held.admits.concat trivial

theorem Held.unbound (held : Held s) : Held s.unbound := ⟨rfl, nofun, held.admits⟩

theorem Held.rolledBack (held : Held s) : Held s.rolledBack := by
  unfold Session.rolledBack
  split
  · exact Held.log (s := { s with failed := false, openTxn := none })
      ⟨held.bound, held.grant, held.admits⟩ trivial (by simp [lastGrant])
  · exact ⟨held.bound, held.grant, held.admits⟩

theorem writes_of_ungated (ungated : ¬Gated s stmt) (ordinary : ∀ ddl, stmt ≠ .ddl ddl)
    (handled : s.dbHandle = some handle) (level : handle.accessLevel = .read) :
    stmt.writes = false := by
  have same : stmt.writes = astIsMutating stmt := by
    cases stmt with
    | ddl ddl => exact absurd rfl (ordinary ddl)
    | query | mutation | pipeline | constReturn | admin | call => rfl
  rw [same, Bool.eq_false_iff]
  exact fun mutates => ungated ⟨handle, handled, level, mutates⟩

theorem preserves_held (held : Held s) (respects : Respects grammars s (.message request r)) :
    Preserves grammars (fun _ => True) r request s Held where
  indifferent := indifferent_held
  cut _ := trivial
  fetched _ _ _ := trivial
  greeted := by
    rintro principal rfl live blocked authenticated
    refine ⟨held.bound, fun handle handled => ?_, held.admits⟩
    have same := respects.greeting principal r rfl live blocked authenticated
      (Option.isSome_iff_exists.mpr ⟨handle, handled⟩)
    obtain ⟨db, granted⟩ := held.grant handle handled
    exact ⟨db, granted.trans (by rw [← same]; rfl)⟩
  lost _ _ _ _ := indifferent_held.failing _ held.unbound
  bound := by
    rintro query db s' - - binds
    cases binds with
    | kept => exact held
    | first name handle unbound named acquires => exact held.rebound
    | again name handle rebinds named acquires => exact held.unbound.rebound
  unbound _ _ _ _ _ _ _ _ _ := trivial
  outside := by
    rintro query db s' stmt graph rfl dispatches kept accessor idle alone -
    refine kept.ran accessor fun handle handled level => ?_
    cases stmt with
    | ddl ddl => exact respects.reading query db r s' ddl handle rfl dispatches idle handled level
    | call | admin => rfl
    | query | mutation | pipeline | constReturn => cases alone
  settled := by
    rintro query db s' stmt graph - - kept accessor ungated reads
    have still : (s'.settled graph).sessionAccessor = some graph ∧
        (s'.settled graph).dbHandle = s'.dbHandle := by
      unfold Session.settled
      split <;> exact ⟨accessor, rfl⟩
    refine (unbatched_held.settled kept).ran still.1 fun handle handled level => ?_
    refine writes_of_ungated ungated ?_ (still.2 ▸ handled) level
    rintro ddl rfl
    cases reads
  mutated := by
    rintro query db s' graph - - kept accessor ungated
    refine unbatched_held.mutated kept fun opened => ?_
    refine opened.ran (by simpa using accessor) fun handle handled level => ?_
    exact writes_of_ungated ungated nofun (by simpa using handled) level
  rolledBack _ := ⟨held.rolledBack, fun _ _ => unbatched_held.settled held.rolledBack,
    fun _ _ => trivial⟩
  begun graph txn _ _ _ _ _ := by
    have begun : Held (s.log (.beginTxn graph txn)) := held.log trivial (by simp [lastGrant])
    exact ⟨begun.bound, begun.grant, begun.admits⟩
  ended commit txn _ _ _ := by
    have forgot : Held { s with openTxn := none } := ⟨held.bound, held.grant, held.admits⟩
    refine ⟨fun _ => ⟨trivial, forgot⟩, fun graph _ => ?_⟩
    cases commit
    all_goals exact forgot.log trivial (by simp [lastGrant])

end Held

/-- A session uses what was handed out to its user, and writes only where the user may. -/
structure WithinGrants (c : Connection) : Prop where
  grant : ∀ handle, c.session.dbHandle = some handle →
    ∃ db, lastGrant c.session.events = some (c.session.currentUsername, db, handle)
  admits : Admits Granted c.session.events

section Runs

variable {grammars : Grammars} {c : Connection} {input : Input} {s : Session}

theorem finish_held (held : Held s) (finishes : Finishes s c) : Held c.session := by
  cases finishes with
  | settled graph bound => exact unbatched_held.settled held
  | idle unbound clean => exact held
  | panicked unbound dirty => exact held

theorem receive_held (held : Held c.session)
    (respects : c.status = .running → Respects grammars c.session input) :
    Held (receive grammars c input).session := by
  by_cases running : c.status = .running
  · cases input with
    | close =>
      rw [receive_close running]
      exact finish_held held finishes_finish
    | message request r =>
      have goes := (preserves_held held (respects running)).goes held
      obtain ⟨s, held', received⟩ := receives goes running
      generalize receive grammars c (.message request r) = next at received ⊢
      cases received with
      | running => exact held'
      | finished why finishes => exact finish_held held' finishes
      | panicked why => exact held'
  · rw [receive_stopped running]
    exact held

/-- A user who may only read reads, looks at the schema, and is kept from writing. -/
def sampleReader : List Input :=
  [.message (.hello "ada") {},
    .message (.run "MATCH (n) RETURN n" (some "people"))
      { acquired := some ⟨"people", .read, 1⟩ },
    .message (.hello "Ada") {},
    .message (.run "SHOW INDEX INFO" none) {},
    .message (.run "CREATE (:Person)" none) {},
    .close]

theorem Respects.of_parsed {r : Replies} {query : String} {db : Option String} (stmt : Statement)
    (parsed : parseRun grammars query = .ok stmt)
    (reads : ∀ ddl, stmt = .ddl ddl → ddl.changes = false) :
    Respects grammars s (.message (.run query db) r) where
  greeting := by rintro _ _ ⟨⟩
  reading := by
    rintro _ _ _ s' ddl handle ⟨⟩ dispatches - - -
    exact reads ddl (Except.ok.inj (parsed.symm.trans dispatches.parsed))

theorem Respects.of_hello {r : Replies} {principal : String}
    (same : s.dbHandle.isSome → normalizeUser principal = s.currentUsername) :
    Respects grammars s (.message (.hello principal) r) where
  greeting := by
    rintro _ _ ⟨⟩ - - - bound
    exact same bound
  reading := by rintro _ _ _ _ _ _ ⟨⟩

/-- A second user writes by what the first one was granted. -/
def secondUser : List Input :=
  [.message (.hello "ada") {},
    .message (.run "MATCH (n) RETURN n" (some "people"))
      { acquired := some ⟨"people", .readWrite, 1⟩ },
    .message (.hello "bob") {},
    .message (.run "CREATE (:Person)" (some "people")) {}]

/-- A user who may only read changes the schema. -/
def schemaChange : List Input :=
  [.message (.hello "ada") {},
    .message (.run "ALTER LABEL :Person SET APPEND ONLY" (some "people"))
      { acquired := some ⟨"people", .read, 1⟩ }]

end Runs

end ErmyaGraph.Bolt
