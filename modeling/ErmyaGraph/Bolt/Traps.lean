import ErmyaGraph.Bolt.Batches

/-! # Where a session would panic

A session takes for granted that a database is bound where a statement is
dispatched, a batch is ended or a transaction is finished. -/

namespace ErmyaGraph.Bolt

open Outcome

/-- A step does not lose the database while mutations wait to be synced. -/
def Solid (grammars : Grammars) (s : Session) (input : Input) : Prop :=
  ∀ query db r, input = .message (.run query db) r → 0 < s.dirtyCount → ¬Loses grammars r query db s

/-- A session that has what its requests take for granted. -/
structure Safe (s : Session) : Prop where
  bound : Bound s
  sound : ∀ pending, s.pendingResult = some pending → pending.Sound
  covered : 0 < s.dirtyCount → s.sessionAccessor.isSome
  held : s.openTxn.isSome → s.sessionAccessor.isSome ∨ s.failed = true

section Safe

variable {grammars : Grammars} {s : Session} {r : Replies} {request : Request} {graph : GraphId}

theorem indifferent_safe : Indifferent Safe where
  failing _ safe := ⟨safe.bound, safe.sound, safe.covered, fun _ => .inr rfl⟩
  waiting _ _ sound safe := ⟨safe.bound, sound, safe.covered, safe.held⟩

theorem safe_of_accessor (bound : Bound s) (accessor : s.sessionAccessor = some graph)
    (sound : ∀ pending, s.pendingResult = some pending → pending.Sound) : Safe s := by
  have isSome : s.sessionAccessor.isSome := by simp [accessor]
  exact ⟨bound, sound, fun _ => isSome, fun _ => .inl isSome⟩

/-- A session that is bound to a graph, safely. -/
structure Sits (graph : GraphId) (s : Session) : Prop where
  bound : Bound s
  accessor : s.sessionAccessor = some graph
  sound : ∀ pending, s.pendingResult = some pending → pending.Sound

theorem Safe.sits (safe : Safe s) (accessor : s.sessionAccessor = some graph) : Sits graph s :=
  ⟨safe.bound, accessor, safe.sound⟩

theorem Sits.safe (sits : Sits graph s) : Safe s :=
  safe_of_accessor sits.bound sits.accessor sits.sound

theorem unbatched_sits : Unbatched (Sits graph) where
  counting _ _ _ sits := ⟨sits.bound, sits.accessor, sits.sound⟩
  beginning _ _ sits := ⟨sits.bound, sits.accessor, sits.sound⟩
  ending _ _ sits := ⟨sits.bound, sits.accessor, sits.sound⟩

theorem Safe.openTxn_of_unbound (safe : Safe s) (live : s.failed = false)
    (unbound : s.sessionAccessor = none) : s.openTxn = none := by
  by_contra held
  rcases safe.held (Option.isSome_iff_ne_none.mpr held) with bound | failed
  · rw [unbound] at bound
    cases bound
  · rw [live] at failed
    cases failed

theorem Safe.rolledBack (safe : Safe s) : Safe s.rolledBack := by
  unfold Session.rolledBack
  split
  · exact ⟨safe.bound, safe.sound, safe.covered, nofun⟩
  · exact ⟨safe.bound, safe.sound, safe.covered, nofun⟩

theorem Dispatches.accessor {query : String} {db : Option String} {s' : Session} {stmt : Statement}
    (dispatches : Dispatches grammars r query db s s' stmt) (bound : Bound s')
    (ordinary : stmt ≠ .admin) : s'.sessionAccessor.isSome := by
  rcases dispatches.bound with ⟨admin, -⟩ | ⟨-, -, handle⟩
  · refine absurd ?_ ordinary
    have recognised : tryParseAdmin grammars query.toList = .ok (some ()) := by
      unfold isAdmin at admin
      split at admin
      · assumption
      · cases admin
    have parsed := dispatches.parsed
    rw [parseRun, parseWithMode_of_admin recognised] at parsed
    exact (Except.ok.inj parsed).symm
  · rw [bound]
    simpa using handle

theorem preserves_safe (safe : Safe s) (solid : Solid grammars s (.message request r)) :
    Preserves grammars (· ≠ .panicked) r request s Safe where
  indifferent := indifferent_safe
  cut _ := nofun
  fetched pending waiting unsound := absurd (safe.sound pending waiting) unsound
  greeted _ _ _ _ _ := ⟨safe.bound, safe.sound, safe.covered, safe.held⟩
  lost := by
    rintro query db rfl loses
    refine ⟨rfl, safe.sound, fun dirty => ?_, fun _ => .inr rfl⟩
    exact absurd loses (solid query db r rfl dirty)
  bound := by
    rintro query db s' rfl reached binds
    cases binds with
    | kept => exact safe
    | first name handle unbound named acquires => exact safe_of_accessor rfl rfl safe.sound
    | again name handle rebinds named acquires => exact safe_of_accessor rfl rfl safe.sound
  unbound := by
    rintro query db s' stmt rfl dispatches kept unbound ordinary
    have accessor := dispatches.accessor kept.bound ordinary
    rw [unbound] at accessor
    cases accessor
  outside := by
    rintro query db s' stmt graph - - kept accessor - - -
    exact safe_of_accessor kept.bound accessor kept.sound
  settled := by
    rintro query db s' stmt graph - - kept accessor - -
    have sits : Sits graph (s'.settled graph) := unbatched_sits.settled (kept.sits accessor)
    exact safe_of_accessor sits.bound sits.accessor sits.sound
  mutated := by
    rintro query db s' graph - - kept accessor -
    have sits : Sits graph (s'.mutated graph r) :=
      unbatched_sits.mutated (kept.sits accessor) fun opened =>
        ⟨opened.bound, opened.accessor, opened.sound⟩
    exact sits.safe
  rolledBack := by
    rintro -
    refine ⟨safe.rolledBack, fun graph accessor => ?_, fun unbound dirty => ?_⟩
    · have sits : Sits graph s.rolledBack := safe.rolledBack.sits (by simpa using accessor)
      exact (unbatched_sits.settled sits).safe
    · have covered := safe.covered dirty
      rw [unbound] at covered
      cases covered
  begun graph txn _ _ _ accessor _ := safe_of_accessor safe.bound accessor safe.sound
  ended commit txn _ live held := by
    refine ⟨fun unbound => ?_, fun graph accessor => ?_⟩
    · rw [safe.openTxn_of_unbound live unbound] at held
      cases held
    · exact safe_of_accessor safe.bound accessor safe.sound

end Safe

section Runs

variable {grammars : Grammars} {c : Connection} {input : Input}

theorem finish_safe {s : Session} (safe : Safe s) (finishes : Finishes s c) :
    Safe c.session ∧ c.status ≠ .panicked := by
  cases finishes with
  | settled graph bound => exact ⟨(unbatched_sits.settled (safe.sits bound)).safe, nofun⟩
  | idle unbound clean => exact ⟨safe, nofun⟩
  | panicked unbound dirty =>
    have covered := safe.covered dirty
    rw [unbound] at covered
    cases covered

theorem receive_safe (safe : Safe c.session) (calm : c.status ≠ .panicked)
    (solid : c.status = .running → Solid grammars c.session input) :
    Safe (receive grammars c input).session ∧ (receive grammars c input).status ≠ .panicked := by
  by_cases running : c.status = .running
  · cases input with
    | close =>
      rw [receive_close running]
      exact finish_safe safe finishes_finish
    | message request r =>
      have goes := (preserves_safe safe (solid running)).goes safe
      obtain ⟨s, safe', received⟩ := receives goes running
      generalize receive grammars c (.message request r) = next at received ⊢
      cases received with
      | running => exact ⟨safe', nofun⟩
      | finished why finishes => exact finish_safe safe' finishes
      | panicked why => exact absurd rfl why
  · rw [receive_stopped running]
    exact ⟨safe, calm⟩

/-- A session that does not lose its database while mutations wait never panics, and what it takes
for a statement of the administration is parsed as one. -/
theorem never_panics {past : List Connection}
    (run : Runs.Run (fun _ c input => c.status = .running → Solid grammars c.session input)
      (receive grammars) {} past c) :
    c.status ≠ .panicked ∧ ∀ text mode, tryParseAdmin grammars text = .ok (some ()) →
      parseWithMode grammars text mode = .ok .admin := by
  have kept : Safe c.session ∧ c.status ≠ .panicked :=
    run.invariant (fun _ c => Safe c.session ∧ c.status ≠ .panicked)
      ⟨⟨rfl, nofun, nofun, nofun⟩, nofun⟩
      fun _ _ _ kept solid => receive_safe kept.1 kept.2 solid
  exact ⟨kept.2, fun _ mode recognised => parseWithMode_of_admin recognised mode⟩

/-- A session that writes, and loses its database only once it has read. -/
def sampleLoss : List Input :=
  [.message (.hello "ada") {},
    .message (.run "CREATE (:Person)" (some "people"))
      { acquired := some ⟨"people", .readWrite, 1⟩ },
    .message (.run "MATCH (n) RETURN n" none) {},
    .message (.run "MATCH (n) RETURN n" (some "system")) {},
    .message .reset {}, .close]

theorem sampleLoss_calm :
    (sampleLoss.foldl (receive sampleGrammars) {}).status ≠ .panicked ∧
      ∀ text mode, tryParseAdmin sampleGrammars text = .ok (some ()) →
        parseWithMode sampleGrammars text mode = .ok .admin := by
  have allows : Runs.Allows (fun _ c input => c.status = .running →
      Solid sampleGrammars c.session input) (receive sampleGrammars) [{}] {} sampleLoss := by
    have clean : ∀ {c : Connection} {input : Input}, c.session.dirtyCount = 0 →
        c.status = .running → Solid sampleGrammars c.session input :=
      fun clean _ _ _ _ _ dirty => absurd clean (dirty.ne')
    refine ⟨clean rfl, clean (by decide +kernel), fun _ => ?_, clean (by decide +kernel),
      clean (by decide +kernel), clean (by decide +kernel), trivial⟩
    rintro query db r ⟨⟩ - ⟨-, ⟨handle, name, -, named, -⟩, -⟩
    cases named
  obtain ⟨past, run⟩ := Runs.Run.append .start allows
  exact never_panics run

/-- A mutation, then a statement for a database that cannot be had, then a reset. -/
theorem panics_of_lost_database :
    ¬∀ (grammars : Grammars) (inputs : List Input),
      (inputs.foldl (receive grammars) {}).status ≠ .panicked := by
  intro calm
  refine calm sampleGrammars
    [.message (.hello "ada") {},
      .message (.run "CREATE (:Person)" (some "people"))
        { acquired := some ⟨"people", .readWrite, 1⟩ },
      .message (.run "MATCH (n) RETURN n" (some "system")) {},
      .message .reset {}] ?_
  decide +kernel

end Runs

end ErmyaGraph.Bolt
