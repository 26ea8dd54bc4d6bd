import ErmyaGraph.Auth.Administration

/-! # Schedules of administration

What a run keeps whose steps are ready, from a store whose map is the one of its graph. -/

namespace ErmyaGraph.Auth

variable {call : Call} {k : Nat} {name : String} {users : UserMap} {node : Option Nat}

theorem check_ok (passes : check users call = .ok node) :
    (∃ user, call.op = .create user ∧ users.lookup call.username = none ∧ node = none) ∨
      ∃ rec, (∀ user, call.op ≠ .create user) ∧ users.lookup call.username = some rec ∧
        node = some rec.nodeId ∧ (call.op.reduces = true → rec.leads = true →
          otherAdminsEnabled users call.username = true) := by
  unfold check at passes
  split at passes
  · next user op =>
    split at passes
    · cases passes
    · next free =>
      cases passes
      exact .inl ⟨user, op, by simpa using free, rfl⟩
  · next other =>
    split at passes
    · cases passes
    · next rec found =>
      split at passes
      · cases passes
      · next kept =>
        cases passes
        refine .inr ⟨rec, other, found, rfl, fun reduces leads => ?_⟩
        simpa [reduces, leads] using kept

variable {graph : UserGraph}

theorem writeGraph_ok {graph' : UserGraph} (writes : writeGraph graph call node = .ok (graph', k)) :
    (∃ user, call.op = .create user ∧ graph' = graph.addNode user ∧ k = graph.nextId) ∨
      (∃ user, call.op = .drop ∧ node = some k ∧ graph.nodes k = some user ∧
        graph' = graph.removeNode k) ∨
      ∃ user f, call.op.field = some f ∧ node = some k ∧ graph.nodes k = some user ∧
        graph' = graph.updateNode k (call.op.apply user) := by
  unfold writeGraph at writes
  split at writes
  · next user op =>
    cases writes
    exact .inl ⟨user, op, rfl, rfl⟩
  · cases writes
  · next op =>
    split at writes
    · next user present =>
      cases writes
      exact .inr (.inl ⟨user, op, rfl, present, rfl⟩)
    · cases writes
  · next node create drop =>
    split at writes
    · next user present =>
      cases writes
      obtain ⟨f, sets⟩ : ∃ f, call.op.field = some f := by
        cases op : call.op with
        | create user => exact absurd op (create user)
        | drop => exact absurd op drop
        | setPassword phc => exact ⟨_, rfl⟩
        | setEnabled enabled => exact ⟨_, rfl⟩
        | setAdmin isAdmin => exact ⟨_, rfl⟩
      exact .inr (.inr ⟨user, f, sets, rfl, present, rfl⟩)
    · cases writes

variable {rec : UserRecord}

theorem writeMap_set {f : Field} (sets : call.op.field = some f)
    (found : users.lookup call.username = some rec) :
    writeMap users call k =
      AList.insert call.username { rec with user := call.op.apply rec.user } users := by
  unfold writeMap
  rw [found]
  cases op : call.op <;> simp_all [Op.field]

theorem writeMap_gone {f : Field} (sets : call.op.field = some f)
    (gone : users.lookup call.username = none) : writeMap users call k = users := by
  unfold writeMap
  rw [gone]
  cases op : call.op <;> simp_all [Op.field]

theorem lookup_writeMap_of_ne (other : name ≠ call.username) :
    (writeMap users call k).lookup name = users.lookup name := by
  unfold writeMap
  split
  · exact AList.lookup_insert_ne other
  · exact AList.lookup_erase_ne other
  · split
    · exact AList.lookup_insert_ne other
    · rfl

theorem Op.leads_apply {op : Op} (keeps : op.reduces = false) (leads : rec.leads = true) :
    UserRecord.leads { rec with user := op.apply rec.user } = true := by
  cases op <;> simp_all [Op.reduces, Op.apply, UserRecord.leads]

theorem lookup_loadUser_range
    (distinct : ∀ k k' user user', graph.nodes k = some user → graph.nodes k' = some user' →
      user.username = user'.username → k = k') (n : Nat) (name : String) (rec : UserRecord) :
    ((List.range n).foldl (loadUser graph) ∅).lookup name = some rec ↔
      rec.nodeId < n ∧ graph.nodes rec.nodeId = some rec.user ∧ rec.user.username = name := by
  induction n with
  | zero => simp
  | succ n ih =>
    rw [List.range_succ, List.foldl_append, List.foldl_cons, List.foldl_nil, loadUser]
    cases present : graph.nodes n with
    | none =>
      have := ih
      grind
    | some user =>
      have := distinct n rec.nodeId user rec.user present
      have same : rec = ⟨user, n⟩ ↔ rec.user = user ∧ rec.nodeId = n := by
        cases rec
        simp
      grind

theorem lookup_loadUsers (fresh : ∀ k user, graph.nodes k = some user → k < graph.nextId)
    (distinct : ∀ k k' user user', graph.nodes k = some user → graph.nodes k' = some user' →
      user.username = user'.username → k = k') (name : String) (rec : UserRecord) :
    (loadUsers graph).lookup name = some rec ↔
      graph.nodes rec.nodeId = some rec.user ∧ rec.user.username = name := by
  rw [loadUsers, lookup_loadUser_range distinct]
  exact ⟨fun h => h.2, fun h => ⟨fresh _ _ h.1, h⟩⟩

variable {ι : Type} {calls : ι → Call} {c : Config ι} {i : ι}

namespace Config

/-- The store when it is open and no call is in progress: names are distinct and the map is the
one of the graph. -/
structure Opened (c : Config ι) : Prop where
  fresh : ∀ k user, c.graph.nodes k = some user → k < c.graph.nextId
  distinct : ∀ k k' user user', c.graph.nodes k = some user → c.graph.nodes k' = some user' →
    user.username = user'.username → k = k'
  mirrored : ∀ name, c.users.lookup name = (loadUsers c.graph).lookup name
  waiting : ∀ i, c.stage i = .waiting

theorem Opened.idle (opened : Opened c) (i : ι) : ¬c.InProgress i := by
  simp [InProgress, opened.waiting i]

theorem Opened.coherent (opened : Opened c) : Coherent calls c where
  fresh := opened.fresh
  distinct := opened.distinct
  keyed name rec found := by
    rw [opened.mirrored, lookup_loadUsers opened.fresh opened.distinct] at found
    exact found.2
  numbered name rec found := by
    rw [opened.mirrored, lookup_loadUsers opened.fresh opened.distinct] at found
    exact opened.fresh _ _ found.1
  recorded name rec found := by
    rw [opened.mirrored, lookup_loadUsers opened.fresh opened.distinct] at found
    exact .inl ⟨rec.user, found⟩
  mirrored k user present := by
    refine .inl ⟨⟨user, k⟩, ?_, rfl⟩
    rw [opened.mirrored, lookup_loadUsers opened.fresh opened.distinct]
    exact ⟨present, rfl⟩
  found i k checked := by simp [opened.waiting i] at checked
  creating i user node _ checked := by simp [opened.waiting i] at checked
  created i user k _ written := by simp [opened.waiting i] at written
  oneCreates i j name _ _ going := absurd going (opened.idle i)
  dropped i name k drops := by simp [Drops, opened.waiting i] at drops
  oneDrops i j name k k' drops := by simp [Drops, opened.waiting i] at drops
  setting i name f k sets := by simp [Sets, opened.waiting i] at sets
  oneSets i j name f k k' sets := by simp [Sets, opened.waiting i] at sets
  kept name rec user found present := by
    rw [opened.mirrored, lookup_loadUsers opened.fresh opened.distinct] at found
    obtain rfl := Option.some.inj (present.symm.trans found.1)
    refine ⟨rfl, rfl, fun f _ => by cases f <;> rfl, fun i f k sets => ?_⟩
    simp [Sets, opened.waiting i] at sets

theorem Opened.led (opened : Opened c) (found : c.users.lookup name = some rec)
    (leads : rec.leads = true) : c.Led calls :=
  ⟨name, rec, found, leads, fun i _ _ => opened.idle i⟩

theorem Coherent.lookup_eq (h : Coherent calls c) (idle : ∀ i, ¬c.InProgress i) (name : String) :
    c.users.lookup name = (loadUsers c.graph).lookup name := by
  have unset (name : String) (f : Field) (i : ι) (k : Nat) : ¬c.Sets calls name f k i :=
    fun sets => idle i (inProgress_of_written sets.2.2)
  have loaded (name : String) (rec : UserRecord) (found : c.users.lookup name = some rec) :
      c.graph.nodes rec.nodeId = some rec.user ∧ rec.user.username = name := by
    have keyed := h.keyed name rec found
    obtain ⟨user, present, named⟩ | ⟨-, i, -, -, written⟩ := h.recorded name rec found
    · obtain ⟨id, createdAt, same, -⟩ := h.kept name rec user found present
      have eq := User.eq_of_same id (named.trans keyed.symm) createdAt fun f =>
        same f (unset name f)
      exact ⟨eq ▸ present, keyed⟩
    · exact absurd (inProgress_of_written written) (idle i)
  ext rec
  rw [lookup_loadUsers h.fresh h.distinct]
  refine ⟨loaded name rec, fun ⟨present, named⟩ => ?_⟩
  obtain ⟨rec', found, node⟩ | ⟨i, -, -, written⟩ := h.mirrored rec.nodeId rec.user present
  · have present' := (loaded _ rec' found).1
    rw [node, present] at present'
    obtain ⟨user, nodeId⟩ := rec
    obtain ⟨user', nodeId'⟩ := rec'
    obtain rfl := Option.some.inj present'
    rw [← named, found]
    exact congrArg some (congrArg _ node)
  · exact absurd (inProgress_of_written written) (idle i)

variable [DecidableEq ι]

/-- Every step of a ready call keeps graph, map and calls fitting together. -/
theorem Coherent.step (h : Coherent calls c) (ready : c.Ready calls i) :
    Coherent calls (c.step calls i) := by
  unfold Config.step
  split
  · next waits =>
    split
    · next node passes =>
      obtain ⟨user, creates, free, rfl⟩ | ⟨rec, other, found, rfl, -⟩ := check_ok passes
      · exact h.checked_free waits creates free ready
      · exact h.checked_found waits other found
    · exact h.returned (by simp [waits]) _
  · next node checked =>
    split
    · next graph k writes =>
      obtain ⟨user, creates, rfl, rfl⟩ | ⟨user, drops, rfl, present, rfl⟩ |
        ⟨user, f, sets, rfl, present, rfl⟩ := writeGraph_ok writes
      · exact h.added checked creates
      · exact h.removed checked drops present
      · exact h.updated checked sets present ready
    · exact h.returned (by simp [checked]) _
  · next k written =>
    cases sets : (calls i).op.field with
    | none =>
      cases op : (calls i).op with
      | create user =>
        simp only [writeMap, op]
        exact h.entered written op _
      | drop =>
        simp only [writeMap, op]
        exact h.left written op _
      | setPassword => simp [op, Op.field] at sets
      | setEnabled => simp [op, Op.field] at sets
      | setAdmin => simp [op, Op.field] at sets
    | some f =>
      cases found : c.users.lookup (calls i).username with
      | some rec =>
        rw [writeMap_set sets found]
        exact h.changed written sets found _
      | none =>
        rw [writeMap_gone sets found]
        exact h.unchanged sets found _
  · exact h

theorem inProgress_step {j : ι} (going : (c.step calls i).InProgress j) :
    c.InProgress j ∨ j = i ∧ c.stage i = .waiting ∧ ∃ node, check c.users (calls i) = .ok node := by
  by_cases which : j = i
  · subst which
    cases at_ : c.stage j with
    | waiting =>
      cases passes : check c.users (calls j) with
      | ok node => exact .inr ⟨rfl, rfl, node, rfl⟩
      | error e => simp [step, at_, passes, InProgress] at going
    | checked node => exact .inl (inProgress_of_checked at_)
    | written k => exact .inl (inProgress_of_written at_)
    | finished result => simp [step, at_, InProgress] at going
  · have same : (c.step calls i).stage j = c.stage j := by
      unfold step
      split
      · split <;> exact Function.update_of_ne which ..
      · split <;> exact Function.update_of_ne which ..
      · exact Function.update_of_ne which ..
      · rfl
    rw [InProgress, same] at going
    exact .inl going

theorem users_step : (c.step calls i).users = c.users ∨
    ∃ k, c.stage i = .written k ∧ (c.step calls i).users = writeMap c.users (calls i) k := by
  unfold step
  split
  · split <;> exact .inl rfl
  · split <;> exact .inl rfl
  · next k written => exact .inr ⟨k, written, rfl⟩
  · exact .inl rfl

theorem Coherent.leads_step (h : Coherent calls c) (found : c.users.lookup name = some rec)
    (leads : rec.leads = true) (spared : (calls i).username = name → (calls i).op.reduces = false) :
    ∃ rec', (c.step calls i).users.lookup name = some rec' ∧ rec'.leads = true := by
  obtain same | ⟨k, written, writes⟩ := @users_step _ calls c i _
  · exact ⟨rec, same ▸ found, leads⟩
  · by_cases own : (calls i).username = name
    · subst own
      cases sets : (calls i).op.field with
      | some f =>
        refine ⟨_, ?_, Op.leads_apply (spared rfl) leads⟩
        rw [writes, writeMap_set sets found, AList.lookup_insert]
      | none =>
        cases op : (calls i).op with
        | create user =>
          exact absurd (found.symm.trans (h.created i user k op written).2)
            (Option.some_ne_none rec)
        | drop => simp [op, Op.reduces] at spared
        | setPassword => simp [op, Op.field] at sets
        | setEnabled => simp [op, Op.field] at sets
        | setAdmin => simp [op, Op.field] at sets
    · exact ⟨rec, by rw [writes, lookup_writeMap_of_ne (Ne.symm own), found], leads⟩

/-- Every step of a ready call leaves somebody who leads. -/
theorem Led.step (led : c.Led calls) (h : Coherent calls c) (ready : c.Ready calls i) :
    (c.step calls i).Led calls := by
  obtain ⟨name, rec, found, leads, safe⟩ := led
  by_cases passes : c.stage i = .waiting ∧ ∃ node, check c.users (calls i) = .ok node
  · obtain ⟨waits, node, passes⟩ := passes
    -- whom the check leaves out of account is not in a call that may put them down
    obtain ⟨name, rec, found, leads, safe, spared⟩ : ∃ name rec, c.users.lookup name = some rec ∧
        rec.leads = true ∧
        (∀ j, (calls j).username = name → (calls j).op.reduces = true → ¬c.InProgress j) ∧
        ((calls i).username = name → (calls i).op.reduces = false) := by
      by_cases own : (calls i).username = name ∧ (calls i).op.reduces = true
      · obtain ⟨rfl, reduces⟩ := own
        obtain ⟨user, creates, -, -⟩ | ⟨rec', -, found', -, others⟩ := check_ok passes
        · simp [creates, Op.reduces] at reduces
        · obtain rfl := Option.some.inj (found.symm.trans found')
          obtain ⟨name, rec', apart, found', leads', safe'⟩ :=
            ready.reduce waits reduces rec found leads (others reduces leads)
          exact ⟨name, rec', found', leads', safe', fun same => absurd same.symm apart⟩
      · exact ⟨name, rec, found, leads, safe, fun same => by simpa [same] using own⟩
    obtain ⟨rec', found', leads'⟩ := h.leads_step found leads spared
    refine ⟨name, rec', found', leads', fun j same reduces going => ?_⟩
    obtain before | ⟨rfl, -, -⟩ := inProgress_step going
    · exact safe j same reduces before
    · exact absurd reduces (by simp [spared same])
  · have before {j : ι} (going : (c.step calls i).InProgress j) : c.InProgress j :=
      (inProgress_step going).resolve_right fun new => passes new.2
    by_cases going : (c.step calls i).InProgress i ∨ c.InProgress i
    · have spared : (calls i).username = name → (calls i).op.reduces = false := fun same => by
        simpa using fun reduces => safe i same reduces (going.elim before id)
      obtain ⟨rec', found', leads'⟩ := h.leads_step found leads spared
      exact ⟨name, rec', found', leads', fun j same reduces going =>
        safe j same reduces (before going)⟩
    · have same : (c.step calls i).users = c.users :=
        users_step.resolve_right fun ⟨k, written, _⟩ =>
          going (.inr (inProgress_of_written written))
      exact ⟨name, rec, same ▸ found, leads, fun j same reduces going =>
        safe j same reduces (before going)⟩

variable (calls) in
/-- Every step of a schedule is one of a ready call. -/
def ReadyRun (c : Config ι) : List ι → Prop
  | [] => True
  | i :: rest => c.Ready calls i ∧ (c.step calls i).ReadyRun rest
variable {schedule : List ι}

theorem Coherent.run (h : Coherent calls c) (ready : c.ReadyRun calls schedule) :
    Coherent calls (c.run calls schedule) := by
  induction schedule generalizing c with
  | nil => exact h
  | cons i rest ih => exact ih (h.step ready.1) ready.2

theorem Led.run (led : c.Led calls) (h : Coherent calls c) (ready : c.ReadyRun calls schedule) :
    (c.run calls schedule).Led calls := by
  induction schedule generalizing c with
  | nil => exact led
  | cons i rest ih => exact ih (led.step h ready.1) (h.step ready.1) ready.2

def HasAdmin (c : Config ι) : Prop := ∃ name rec, c.users.lookup name = some rec ∧ rec.leads = true

def Distinct (c : Config ι) : Prop :=
  ∀ k k' user user', c.graph.nodes k = some user → c.graph.nodes k' = some user' →
    user.username = user'.username → k = k'

/-- What administration keeps: an enabled admin, distinct names, and with no call in progress the
map that the graph would be loaded into. -/
structure Upheld (c c' : Config ι) : Prop where
  led : c.HasAdmin → c'.HasAdmin
  distinct : c'.Distinct
  mirrored : (∀ i, ¬c'.InProgress i) →
    ∀ name, c'.users.lookup name = (loadUsers c'.graph).lookup name

def admin (username passwordHash : String) : User where
  id := username
  username
  passwordHash
  enabled := true
  isAdmin := true
  createdAt := ""

/-- A store with two enabled admins. -/
def twoAdminsGraph : UserGraph where
  nodes k :=
    if k = 0 then some (admin "alice" "a") else if k = 1 then some (admin "bob" "b") else none
  nextId := 2

def twoAdmins : Config Bool where
  graph := twoAdminsGraph
  users := loadUsers twoAdminsGraph
  stage _ := .waiting

theorem opened_twoAdmins : Opened twoAdmins where
  fresh k user present := by
    simp only [twoAdmins, twoAdminsGraph] at present ⊢
    grind
  distinct k k' user user' present present' same := by
    simp only [twoAdmins, twoAdminsGraph, admin] at present present'
    grind
  mirrored _ := rfl
  waiting _ := rfl

/-- One admin is dropped while the password of the other is set. -/
def dropAndSet : Bool → Call
  | false => ⟨"alice", .drop, nofun⟩
  | true => ⟨"bob", .setPassword "c", nofun⟩

theorem ready_dropAndSet {c : Config Bool} (i : Bool) (bob : c.stage false = .waiting →
    ∃ rec, c.users.lookup "bob" = some rec ∧ rec.leads = true) : c.Ready dropAndSet i where
  create _ name creates := by
    obtain ⟨-, user, op⟩ := creates
    cases i <;> cases op
  set node f checked sets j k sets' := by
    obtain ⟨name, -, written⟩ := sets'
    cases i <;> cases j <;> simp_all [dropAndSet, Op.field]
  reduce waits reduces rec _ _ _ := by
    cases i with
    | true => cases reduces
    | false =>
      obtain ⟨rec', found, leads⟩ := bob waits
      refine ⟨"bob", rec', by decide, found, leads, fun j name reduces' => ?_⟩
      cases j with
      | false => exact absurd name (by decide)
      | true => cases reduces'

/-- Calls in any order of their steps uphold the store, as long as every step is one of a ready
call. -/
theorem run_upheld (opened : Opened c) (schedule : List ι) (ready : c.ReadyRun calls schedule) :
    Upheld c (c.run calls schedule) where
  led := by
    rintro ⟨name, rec, found, leads⟩
    obtain ⟨name, rec, found, leads, -⟩ := (opened.led found leads).run opened.coherent ready
    exact ⟨name, rec, found, leads⟩
  distinct := (opened.coherent.run ready).distinct
  mirrored := (opened.coherent.run ready).lookup_eq

/-- Calls that cross and are ready at every step. -/
theorem run_upheld_dropAndSet :
    Upheld twoAdmins (twoAdmins.run dropAndSet [false, true, false, true, false, true]) := by
  refine run_upheld opened_twoAdmins _ ⟨ready_dropAndSet _ fun _ => ?_, ?_⟩
  · exact ⟨⟨admin "bob" "b", 1⟩, by decide, rfl⟩
  · exact ⟨ready_dropAndSet _ nofun, ready_dropAndSet _ nofun, ready_dropAndSet _ nofun,
      ready_dropAndSet _ nofun, ready_dropAndSet _ nofun, trivial⟩

/-- Each admin is dropped. -/
def drops (second : Bool) : Call where
  username := if second then "bob" else "alice"
  op := .drop
  named := nofun

/-- A name is created twice. -/
def creates (second : Bool) : Call where
  username := "carol"
  op := .create (admin "carol" (if second then "d" else "c"))
  named := by rintro _ ⟨⟩; exact ⟨rfl, rfl⟩

/-- A password is set twice. -/
def passwords (second : Bool) : Call where
  username := "alice"
  op := .setPassword (if second then "d" else "c")
  named := nofun

/-- The calls check, write the graph and write the map one after the other. -/
def crossed : List Bool := [false, true, false, true, false, true]

/-- The later write to the graph is the earlier one to the map. -/
def turned : List Bool := [false, true, false, true, true, false]

theorem users_drops : (twoAdmins.run drops crossed).users = ∅ := rfl

theorem lookup_passwords :
    (twoAdmins.run passwords turned).users.lookup "alice" = some ⟨admin "alice" "c", 0⟩ ∧
      (loadUsers (twoAdmins.run passwords turned).graph).lookup "alice" =
        some ⟨admin "alice" "d", 0⟩ := by
  decide

theorem idle_passwords (second : Bool) : ¬(twoAdmins.run passwords turned).InProgress second := by
  cases second <;> rintro (⟨node, at_⟩ | ⟨node, at_⟩) <;> cases at_

/-- Two drops leave no admin, two creations leave two nodes of one name, and two passwords leave
a map that is not the one of the graph. -/
theorem crossed_not_upheld : Opened twoAdmins ∧ ¬Upheld twoAdmins (twoAdmins.run drops crossed) ∧
    ¬Upheld twoAdmins (twoAdmins.run creates crossed) ∧
    ¬Upheld twoAdmins (twoAdmins.run passwords turned) := by
  refine ⟨opened_twoAdmins, fun upheld => ?_, fun upheld => ?_, fun upheld => ?_⟩
  · obtain ⟨name, rec, found, -⟩ := upheld.led ⟨"bob", ⟨admin "bob" "b", 1⟩, by decide, rfl⟩
    rw [users_drops, AList.lookup_empty] at found
    cases found
  · have same := upheld.distinct 2 3 (admin "carol" "c") (admin "carol" "d") rfl rfl rfl
    cases same
  · have same := upheld.mirrored idle_passwords "alice"
    rw [lookup_passwords.1, lookup_passwords.2] at same
    exact absurd same (by decide)

end Config

end ErmyaGraph.Auth
