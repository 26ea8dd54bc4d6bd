import ErmyaGraph.Auth.UserStore

/-! # Administration by several callers

Under which interleavings the user store keeps an enabled admin, one node for each name, and a
map that is the one its graph would be loaded into. -/

namespace ErmyaGraph.Auth

open Function Option Op

variable {f : Field} {u v user : User}

namespace Field

/-- Two users have the same value of a property. -/
def Same : Field → User → User → Prop
  | .password, u, v => u.passwordHash = v.passwordHash
  | .enabled, u, v => u.enabled = v.enabled
  | .admin, u, v => u.isAdmin = v.isAdmin

end Field

namespace Op

variable {op op' : Op}

theorem apply_username (user : User) : (op.apply user).username = user.username := by
  cases op <;> rfl

theorem apply_id (user : User) : (op.apply user).id = user.id := by
  cases op <;> rfl

theorem apply_createdAt (user : User) : (op.apply user).createdAt = user.createdAt := by
  cases op <;> rfl

theorem apply_apply (user : User) : op.apply (op.apply user) = op.apply user := by
  cases op <;> rfl

theorem same_apply (other : op.field ≠ some f) (user : User) : f.Same (op.apply user) user := by
  cases op <;> cases f <;> first | rfl | exact absurd rfl other

theorem same_apply_apply (sets : op.field = some f) (u v : User) :
    f.Same (op.apply u) (op.apply v) := by
  cases op <;> cases sets <;> rfl

theorem apply_comm (ne : op.field ≠ op'.field) (user : User) :
    op.apply (op'.apply user) = op'.apply (op.apply user) := by
  cases op <;> cases op' <;> first | rfl | exact absurd rfl ne

end Op

theorem Field.Same.trans {w : User} (first : f.Same u v) (second : f.Same v w) : f.Same u w := by
  cases f <;> exact Eq.trans first second

theorem Field.Same.symm (same : f.Same u v) : f.Same v u := by
  cases f <;> exact Eq.symm same

theorem User.eq_of_same (id : u.id = v.id) (username : u.username = v.username)
    (createdAt : u.createdAt = v.createdAt) (fields : ∀ f : Field, f.Same u v) : u = v := by
  have password := fields .password
  have enabled := fields .enabled
  have admin := fields .admin
  cases u
  cases v
  simp only [Field.Same] at password enabled admin
  simp only at id username createdAt
  simp only [id, username, createdAt, password, enabled, admin]

variable {ι : Type}

namespace Config

section Predicates

variable (calls : ι → Call) (c : Config ι)

def InProgress (i : ι) : Prop :=
  (∃ node, c.stage i = .checked node) ∨ ∃ node, c.stage i = .written node

def Creates (name : String) (i : ι) : Prop :=
  (calls i).username = name ∧ ∃ user, (calls i).op = .create user

/-- A call on a name has set a property in the graph and not in the map. -/
def Sets (name : String) (f : Field) (node : Nat) (i : ι) : Prop :=
  (calls i).username = name ∧ (calls i).op.field = some f ∧ c.stage i = .written node

/-- A call on a name has removed its node and not its entry. -/
def Drops (name : String) (node : Nat) (i : ι) : Prop :=
  (calls i).username = name ∧ (calls i).op = .drop ∧ c.stage i = .written node

/-- Graph, map and calls fit together. -/
structure Coherent : Prop where
  fresh : ∀ k user, c.graph.nodes k = some user → k < c.graph.nextId
  distinct : ∀ k k' user user', c.graph.nodes k = some user → c.graph.nodes k' = some user' →
    user.username = user'.username → k = k'
  keyed : ∀ name rec, c.users.lookup name = some rec → rec.user.username = name
  numbered : ∀ name rec, c.users.lookup name = some rec → rec.nodeId < c.graph.nextId
  recorded : ∀ name rec, c.users.lookup name = some rec →
    (∃ user, c.graph.nodes rec.nodeId = some user ∧ user.username = name) ∨
      c.graph.nodes rec.nodeId = none ∧
        ∃ i, (calls i).op = .drop ∧ (calls i).username = name ∧ c.stage i = .written rec.nodeId
  mirrored : ∀ k user, c.graph.nodes k = some user →
    (∃ rec, c.users.lookup user.username = some rec ∧ rec.nodeId = k) ∨
      ∃ i, (calls i).op = .create user ∧ (calls i).username = user.username ∧ c.stage i = .written k
  found : ∀ i k, c.stage i = .checked (some k) → k < c.graph.nextId ∧
    (∀ user, c.graph.nodes k = some user → user.username = (calls i).username) ∧
    ∀ j user, (calls j).op = .create user → c.stage j ≠ .written k
  creating : ∀ i user node, (calls i).op = .create user → c.stage i = .checked node →
    c.users.lookup (calls i).username = none ∧
      ∀ k user', c.graph.nodes k = some user' → user'.username ≠ (calls i).username
  created : ∀ i user k, (calls i).op = .create user → c.stage i = .written k →
    c.graph.nodes k = some user ∧ c.users.lookup (calls i).username = none
  oneCreates : ∀ i j name, Creates calls name i → Creates calls name j → c.InProgress i →
    c.InProgress j → i = j
  dropped : ∀ i name k, c.Drops calls name k i → c.graph.nodes k = none ∧
    ∃ rec, c.users.lookup name = some rec ∧ rec.nodeId = k
  oneDrops : ∀ i j name k k', c.Drops calls name k i → c.Drops calls name k' j → i = j
  setting : ∀ i name f k, c.Sets calls name f k i →
    (∀ rec, c.users.lookup name = some rec → rec.nodeId = k) ∧
      ∀ j, Creates calls name j → ¬c.InProgress j
  oneSets : ∀ i j name f k k', c.Sets calls name f k i → c.Sets calls name f k' j → i = j
  kept : ∀ name rec user, c.users.lookup name = some rec → c.graph.nodes rec.nodeId = some user →
    user.id = rec.user.id ∧ user.createdAt = rec.user.createdAt ∧
      (∀ f, (∀ i k, ¬c.Sets calls name f k i) → f.Same user rec.user) ∧
      ∀ i f k, c.Sets calls name f k i → (calls i).op.apply user = user

/-- Somebody leads whom no call is about to put down. -/
def Led : Prop :=
  ∃ name rec, c.users.lookup name = some rec ∧ rec.leads = true ∧
    ∀ i, (calls i).username = name → (calls i).op.reduces = true → ¬c.InProgress i

/-- The condition under which a call takes its next step. -/
structure Ready (i : ι) : Prop where
  create : c.stage i = .waiting → ∀ name, Creates calls name i →
    (∀ j, Creates calls name j → ¬c.InProgress j) ∧ ∀ j f k, ¬c.Sets calls name f k j
  set : ∀ node f, c.stage i = .checked node → (calls i).op.field = some f →
    ∀ j k, ¬c.Sets calls (calls i).username f k j
  reduce : c.stage i = .waiting → (calls i).op.reduces = true → ∀ rec,
    c.users.lookup (calls i).username = some rec → rec.leads = true →
    otherAdminsEnabled c.users (calls i).username = true →
      ∃ name rec', name ≠ (calls i).username ∧ c.users.lookup name = some rec' ∧ rec'.leads = true ∧
        ∀ j, (calls j).username = name → (calls j).op.reduces = true → ¬c.InProgress j

end Predicates

variable {calls : ι → Call} {c : Config ι} {i j : ι} {graph : UserGraph} {users : UserMap}
  {s : Stage} {name : String} {k : Nat}

@[grind →]
theorem Sets.stage (sets : c.Sets calls name f k j) : (calls j).username = name ∧
    (calls j).op.field = some f ∧ c.stage j = .written k :=
  sets

@[grind →]
theorem Creates.call (creates : Creates calls name j) :
    (calls j).username = name ∧ ∃ user, (calls j).op = .create user :=
  creates

@[grind! .]
theorem creates_of_op (creates : (calls j).op = .create user) :
    Creates calls (calls j).username j :=
  ⟨rfl, user, creates⟩

variable {node : Option Nat}

@[grind →]
theorem inProgress_of_checked (checked : c.stage j = .checked node) : c.InProgress j :=
  .inl ⟨node, checked⟩

@[grind →]
theorem inProgress_of_written {node : Nat} (written : c.stage j = .written node) : c.InProgress j :=
  .inr ⟨node, written⟩

theorem Coherent.create_alone (h : Coherent calls c) (creates : (calls i).op = .create user)
    (going : c.InProgress i) (j : ι) (user' : User) (other : j ≠ i)
    (creates' : (calls j).op = .create user') (going' : c.InProgress j) :
    (calls j).username ≠ (calls i).username := fun same =>
  other (h.oneCreates j i (calls i).username ⟨same, user', creates'⟩ ⟨rfl, user, creates⟩ going'
    going)

theorem Coherent.unset_of_create (h : Coherent calls c) (creates : (calls i).op = .create user)
    (going : c.InProgress i) (j : ι) (f : Field) (k : Nat) :
    ¬c.Sets calls (calls i).username f k j := fun sets =>
  (h.setting j (calls i).username f k sets).2 i ⟨rfl, user, creates⟩ going

theorem Coherent.record_of_checked (h : Coherent calls c) (checked : c.stage i = .checked (some k))
    (present : c.graph.nodes k = some user) :
    ∃ rec, c.users.lookup (calls i).username = some rec ∧ rec.nodeId = k := by
  obtain ⟨-, named, uncreated⟩ := h.found i k checked
  rw [← named user present]
  obtain has | ⟨j, creates, -, written⟩ := h.mirrored k user present
  · exact has
  · exact absurd written (uncreated j user creates)

variable [DecidableEq ι]

attribute [local grind =] update_apply

@[grind =]
theorem inProgress_update : (Config.mk graph users (update c.stage i s)).InProgress j ↔
    (j ≠ i ∧ c.InProgress j) ∨
      j = i ∧ ((∃ node, s = .checked node) ∨ ∃ node, s = .written node) := by
  unfold InProgress
  grind

@[grind =]
theorem sets_update :
    (Config.mk graph users (update c.stage i s)).Sets calls name f k j ↔
      (j ≠ i ∧ c.Sets calls name f k j) ∨
        j = i ∧ (calls i).username = name ∧ (calls i).op.field = some f ∧ s = .written k := by
  unfold Sets
  grind

@[grind =]
theorem drops_update :
    (Config.mk graph users (update c.stage i s)).Drops calls name k j ↔
      (j ≠ i ∧ c.Drops calls name k j) ∨
        j = i ∧ (calls i).username = name ∧ (calls i).op = .drop ∧ s = .written k := by
  unfold Drops
  grind

/-- The stage of a call changes, and no write is behind or ahead of it. -/
theorem Coherent.staged (h : Coherent calls c) (before : ∀ k, c.stage i ≠ .written k)
    (after : ∀ k, s ≠ .written k)
    (found : ∀ k, s = .checked (some k) → k < c.graph.nextId ∧
      (∀ user, c.graph.nodes k = some user → user.username = (calls i).username) ∧
      ∀ j user, (calls j).op = .create user → c.stage j ≠ .written k)
    (creating : ∀ user node, (calls i).op = .create user → s = .checked node →
      c.users.lookup (calls i).username = none ∧
        (∀ k user', c.graph.nodes k = some user' → user'.username ≠ (calls i).username) ∧
        (∀ j, Creates calls (calls i).username j → ¬c.InProgress j) ∧
        ∀ j f k, ¬c.Sets calls (calls i).username f k j) :
    Coherent calls { c with stage := update c.stage i s } where
  fresh := h.fresh
  distinct := h.distinct
  keyed := h.keyed
  numbered := h.numbered
  recorded := by
    have := h.recorded
    grind
  mirrored := by
    have := h.mirrored
    grind
  found := by
    have := h.found
    grind
  creating := by
    have := h.creating
    grind
  created := by
    have := h.created
    grind
  oneCreates := by
    have := h.oneCreates
    grind
  dropped := by
    have := h.dropped
    grind
  oneDrops := by
    have := h.oneDrops
    grind
  setting := by
    have := h.setting
    grind
  oneSets := by
    have := h.oneSets
    grind
  kept name rec user found present := by
    obtain ⟨id, createdAt, same, set⟩ := h.kept name rec user found present
    refine ⟨id, createdAt, fun f unset => same f fun j k sets => unset j k ?_, fun j f k sets => ?_⟩
    · grind
    · grind

theorem Coherent.returned (h : Coherent calls c) (before : ∀ k, c.stage i ≠ .written k)
    (result : Except AuthStoreError Unit) :
    Coherent calls { c with stage := update c.stage i (.finished result) } :=
  h.staged before nofun nofun nofun

theorem Coherent.checked_free (h : Coherent calls c) (waits : c.stage i = .waiting)
    (creates : (calls i).op = .create user) (free : c.users.lookup (calls i).username = none)
    (ready : c.Ready calls i) :
    Coherent calls { c with stage := update c.stage i (.checked none) } := by
  obtain ⟨alone, unset⟩ := ready.create waits (calls i).username ⟨rfl, user, creates⟩
  refine h.staged (by simp [waits]) nofun nofun fun _ _ _ _ =>
    ⟨free, fun k user' present same => ?_, alone, unset⟩
  obtain ⟨rec, found, -⟩ | ⟨j, creates', named, written⟩ := h.mirrored k user' present
  · exact some_ne_none rec (found.symm.trans (same ▸ free))
  · exact alone j ⟨named.trans same, user', creates'⟩ (inProgress_of_written written)

variable {rec : UserRecord}

theorem Coherent.checked_found (h : Coherent calls c) (waits : c.stage i = .waiting)
    (other : ∀ user, (calls i).op ≠ .create user)
    (found : c.users.lookup (calls i).username = some rec) :
    Coherent calls { c with
      stage := update c.stage i (.checked (some rec.nodeId)) } := by
  refine h.staged (by simp [waits]) nofun (fun k at_ => ?_) fun user _ creates =>
    absurd creates (other user)
  obtain rfl : rec.nodeId = k := by simpa using at_
  refine ⟨h.numbered _ rec found, fun user present => ?_, fun j user creates written => ?_⟩
  · obtain ⟨user', present', named⟩ | ⟨absent, -⟩ := h.recorded _ rec found
    · exact some.inj (present.symm.trans present') ▸ named
    · exact absurd (present.symm.trans absent) (some_ne_none user)
  · obtain ⟨present, free⟩ := h.created j user rec.nodeId creates written
    obtain ⟨user', present', named⟩ | ⟨absent, -⟩ := h.recorded _ rec found
    · have same : (calls j).username = (calls i).username := by
        rw [← named, ← ((calls j).named user creates).1, some.inj (present.symm.trans present')]
      exact some_ne_none rec (found.symm.trans (same ▸ free))
    · exact absurd (present.symm.trans absent) (some_ne_none user)

/-- A node is added for a user. -/
theorem Coherent.added (h : Coherent calls c) (checked : c.stage i = .checked node)
    (creates : (calls i).op = .create user) :
    Coherent calls { c with
      graph := c.graph.addNode user
      stage := update c.stage i (.written c.graph.nextId) } where
  fresh := by
    have := h.fresh
    grind
  distinct := by
    have := h.distinct
    have := h.creating
    have := fun j => (calls j).named
    grind
  keyed := h.keyed
  numbered := by
    have := h.numbered
    grind
  recorded := by
    have := h.recorded
    have := h.numbered
    grind
  mirrored := by
    have := h.mirrored
    have := h.fresh
    have := fun j => (calls j).named
    grind
  found := by
    have := h.found
    grind
  creating := by
    intro j user' node' creates' checked'
    have other : j ≠ i := by grind
    have apart := h.create_alone creates (by grind) j user' other creates' (by grind)
    have := h.creating
    have := (calls i).named user creates
    grind
  created := by
    have := h.created
    have := h.creating
    have := h.fresh
    grind
  oneCreates := by
    have := h.oneCreates
    grind
  dropped := by
    have := h.dropped
    have := h.numbered
    grind
  oneDrops := by
    have := h.oneDrops
    grind
  setting := by
    have := h.setting
    grind [field]
  oneSets := by
    have := h.oneSets
    grind [field]
  kept name rec user' found present := by
    have numbered := h.numbered name rec found
    obtain ⟨id, createdAt, same, set⟩ := h.kept name rec user' found (by grind)
    refine ⟨id, createdAt, fun f unset => same f fun j k sets => unset j k ?_, fun j f k sets => ?_⟩
    · grind
    · grind [field]

/-- The node of a user is removed. -/
theorem Coherent.removed (h : Coherent calls c) (checked : c.stage i = .checked (some k))
    (drops : (calls i).op = .drop) (present : c.graph.nodes k = some user) :
    Coherent calls { c with
      graph := c.graph.removeNode k
      stage := update c.stage i (.written k) } where
  fresh := by
    have := h.fresh
    grind
  distinct := by
    have := h.distinct
    grind
  keyed := h.keyed
  numbered := by
    have := h.numbered
    grind
  recorded := by
    have := h.recorded
    have := h.found
    grind
  mirrored := by
    have := h.mirrored
    grind
  found := by
    have := h.found
    grind
  creating := by
    have := h.creating
    grind
  created := by
    have := h.created
    have := h.found
    grind
  oneCreates := by
    have := h.oneCreates
    grind
  dropped := by
    have := h.dropped
    have := h.record_of_checked checked present
    grind
  oneDrops := by
    have := h.oneDrops
    have := h.dropped
    have := h.record_of_checked checked present
    grind
  setting := by
    have := h.setting
    grind [field]
  oneSets := by
    have := h.oneSets
    grind [field]
  kept name rec user' found present := by
    obtain ⟨id, createdAt, same, set⟩ := h.kept name rec user' found (by grind)
    refine ⟨id, createdAt, fun f unset => same f fun j k sets => unset j k ?_, fun j f k sets => ?_⟩
    · grind
    · grind [field]

theorem named_before {user' : User} {op : Op} {k' : Nat} (present : graph.nodes k = some user)
    (after : (graph.updateNode k (op.apply user)).nodes k' = some user') :
    ∃ before, graph.nodes k' = some before ∧ before.username = user'.username := by
  rw [UserGraph.nodes_updateNode] at after
  split at after
  · next same =>
    obtain rfl := some.inj after
    exact ⟨user, same ▸ present, (apply_username user).symm⟩
  · exact ⟨user', after, rfl⟩

/-- A property of a node is set. -/
theorem Coherent.updated (h : Coherent calls c) (checked : c.stage i = .checked (some k))
    (sets : (calls i).op.field = some f) (present : c.graph.nodes k = some user)
    (ready : c.Ready calls i) :
    Coherent calls { c with
      graph := c.graph.updateNode k ((calls i).op.apply user)
      stage := update c.stage i (.written k) } where
  fresh := by
    have := h.fresh
    grind
  distinct := by
    intro k₁ k₂ user₁ user₂ at₁ at₂ same
    obtain ⟨before₁, at₁, eq₁⟩ := named_before present at₁
    obtain ⟨before₂, at₂, eq₂⟩ := named_before present at₂
    exact h.distinct k₁ k₂ before₁ before₂ at₁ at₂ (by rw [eq₁, eq₂, same])
  keyed := h.keyed
  numbered := by
    have := h.numbered
    grind
  recorded := by
    have := h.recorded
    have := @Op.apply_username (calls i).op
    grind
  mirrored := by
    have := h.mirrored
    have := h.found
    have := @Op.apply_username (calls i).op
    grind
  found := by
    have := h.found
    have := @Op.apply_username (calls i).op
    grind [field]
  creating := by
    have := h.creating
    have := @Op.apply_username (calls i).op
    grind
  created := by
    have := h.created
    have := h.found
    grind [field]
  oneCreates := by
    have := h.oneCreates
    grind
  dropped := by
    have := h.dropped
    grind [field]
  oneDrops := by
    have := h.oneDrops
    grind [field]
  setting := by
    have named := (h.found i k checked).2.1 user present
    intro j name g k' sets'
    by_cases which : j = i
    · obtain ⟨rec, found, node⟩ := h.record_of_checked checked present
      refine ⟨by grind, ?_⟩
      rintro j' creates going
      have other : j' ≠ i := by grind [field]
      obtain ⟨same, user', is⟩ := creates
      obtain ⟨node', at_⟩ | ⟨node', at_⟩ : c.InProgress j' := by grind
      · exact (h.creating j' user' node' is at_).2 k user present (by grind)
      · have := (h.created j' user' node' is at_).2
        grind
    · have := h.setting j name g k'
      grind [field]
  oneSets := by
    have := h.oneSets
    have := ready.set _ _ checked sets
    grind [field]
  kept name rec user' found present' := by
    have alone := ready.set _ _ checked sets
    by_cases at_ : rec.nodeId = k
    · have named : name = (calls i).username := by
        have := h.recorded name rec found
        have := h.found i k checked
        grind
      obtain ⟨id, createdAt, same, set⟩ := h.kept name rec user found (at_ ▸ present)
      have set' : user' = (calls i).op.apply user := by grind
      subst set' named
      refine ⟨(apply_id user).trans id, (apply_createdAt user).trans createdAt,
        fun g unset => ?_, fun j g k' sets' => ?_⟩
      · -- the property that the call sets is between its two writes
        have other : (calls i).op.field ≠ some g := fun is => unset i k (by grind)
        have before : ∀ j k', ¬c.Sets calls (calls i).username g k' j := fun j k' sets' =>
          unset j k' (by grind)
        exact (same_apply other user).trans (same g before)
      · by_cases which : j = i
        · rw [which, apply_apply]
        · have sets' : c.Sets calls (calls i).username g k' j := by grind
          have ne : (calls j).op.field ≠ (calls i).op.field := fun is =>
            alone j k' ⟨sets'.1, is.trans sets, sets'.2.2⟩
          rw [apply_comm ne, set j g k' sets']
    · have := h.setting
      obtain ⟨id, createdAt, same, set⟩ := h.kept name rec user' found (by grind)
      refine ⟨id, createdAt, fun g unset => same g fun j k sets => unset j k ?_,
        fun j g k' sets' => ?_⟩
      · grind
      · -- the call's own write was to the node of the map
        obtain ⟨rec', found', node⟩ := h.record_of_checked checked present
        grind
/-- A created user goes into the map. -/
theorem Coherent.entered (h : Coherent calls c) (written : c.stage i = .written k)
    (creates : (calls i).op = .create user) (result : Except AuthStoreError Unit) :
    Coherent calls { c with
      users := c.users.insert (calls i).username ⟨user, k⟩
      stage := update c.stage i (.finished result) } where
  fresh := h.fresh
  distinct := h.distinct
  keyed := by
    have := h.keyed
    have := (calls i).named user creates
    grind
  numbered := by
    have := h.numbered
    have := h.fresh
    have := h.created i user k creates written
    grind
  recorded := by
    have := h.recorded
    have := (calls i).named user creates
    have := h.created i user k creates written
    grind
  mirrored := by
    intro k' user' present
    have := (calls i).named user creates
    have := h.created i user k creates written
    obtain ⟨rec, found, node⟩ | ⟨j, creates', named, written'⟩ := h.mirrored k' user' present
    · exact .inl ⟨rec, by grind, node⟩
    · by_cases which : j = i
      · exact .inl ⟨⟨user, k⟩, by grind⟩
      · exact .inr ⟨j, creates', named, by grind⟩
  found := by
    have := h.found
    grind
  creating := by
    intro j user' node creates' checked
    have := h.create_alone creates (inProgress_of_written written) j user'
    have := h.creating j user' node creates'
    grind
  created := by
    intro j user' k' creates' written'
    have := h.create_alone creates (inProgress_of_written written) j user'
    have := h.created j user' k' creates'
    grind
  oneCreates := by
    have := h.oneCreates
    grind
  dropped := by
    have := h.dropped
    have := h.created i user k creates written
    grind
  oneDrops := by
    have := h.oneDrops
    grind
  setting := by
    intro j name f k' sets
    have := h.unset_of_create creates (inProgress_of_written written) j f k'
    have := h.setting j name f k'
    grind
  oneSets := by
    have := h.oneSets
    grind
  kept name rec user' found present := by
    have unset := h.unset_of_create creates (inProgress_of_written written)
    by_cases which : name = (calls i).username
    · have := h.created i user k creates written
      obtain rfl : user' = rec.user := by grind
      exact ⟨rfl, rfl, fun f _ => by cases f <;> rfl, by grind⟩
    · obtain ⟨id, createdAt, same, set⟩ := h.kept name rec user' (by grind) present
      refine ⟨id, createdAt, fun g unset => same g fun j k sets => unset j k ?_,
        fun j g k' sets' => ?_⟩
      · grind
      · grind

/-- The entry of a dropped user goes. -/
theorem Coherent.left (h : Coherent calls c) (written : c.stage i = .written k)
    (drops : (calls i).op = .drop) (result : Except AuthStoreError Unit) :
    Coherent calls { c with
      users := c.users.erase (calls i).username
      stage := update c.stage i (.finished result) } where
  fresh := h.fresh
  distinct := h.distinct
  keyed := by
    have := h.keyed
    grind
  numbered := by
    have := h.numbered
    grind
  recorded := by
    have := h.recorded
    grind
  mirrored := by
    have := h.mirrored
    have := h.dropped i (calls i).username k ⟨rfl, drops, written⟩
    grind
  found := by
    have := h.found
    grind
  creating := by
    have := h.creating
    grind
  created := by
    have := h.created
    grind
  oneCreates := by
    have := h.oneCreates
    grind
  dropped := by
    intro j name k' drops'
    have mine : c.Drops calls (calls i).username k i := ⟨rfl, drops, written⟩
    have := h.oneDrops j i name k' k
    have := h.dropped j name k'
    grind
  oneDrops := by
    have := h.oneDrops
    grind
  setting := by
    have := h.setting
    grind
  oneSets := by
    have := h.oneSets
    grind
  kept name rec user found present := by
    obtain ⟨id, createdAt, same, set⟩ := h.kept name rec user (by grind) present
    refine ⟨id, createdAt, fun f unset => same f fun j k sets => unset j k ?_, fun j f k sets => ?_⟩
    · grind [field]
    · grind

/-- A property of the entry of a user is set. -/
theorem Coherent.changed (h : Coherent calls c) (written : c.stage i = .written k)
    (sets : (calls i).op.field = some f) (found : c.users.lookup (calls i).username = some rec)
    (result : Except AuthStoreError Unit) :
    Coherent calls { c with
      users := c.users.insert (calls i).username { rec with user := (calls i).op.apply rec.user }
      stage := update c.stage i (.finished result) } where
  fresh := h.fresh
  distinct := h.distinct
  keyed := by
    have := h.keyed
    have := @Op.apply_username (calls i).op
    grind
  numbered := by
    have := h.numbered
    grind
  recorded := by
    have := h.recorded
    grind [field]
  mirrored := by
    have := h.mirrored
    grind [field]
  found := by
    have := h.found
    grind
  creating := by
    have := h.creating
    grind
  created := by
    have := h.created
    grind
  oneCreates := by
    have := h.oneCreates
    grind
  dropped := by
    have := h.dropped
    grind
  oneDrops := by
    have := h.oneDrops
    grind
  setting := by
    have := h.setting
    grind
  oneSets := by
    have := h.oneSets
    grind
  kept name rec' user found' present := by
    have mine : c.Sets calls (calls i).username f k i := ⟨rfl, sets, written⟩
    by_cases which : name = (calls i).username
    · subst which
      obtain rfl : { rec with user := (calls i).op.apply rec.user } = rec' := by grind
      obtain ⟨id, createdAt, same, set⟩ := h.kept (calls i).username rec user found present
      refine ⟨id.trans (apply_id _).symm, createdAt.trans (apply_createdAt _).symm,
        fun g unset => ?_, fun j g k' sets' => set j g k' (by grind)⟩
      by_cases own : g = f
      · -- the graph has what the call set, and now the map has it too
        subst own
        rw [← set i g k mine]
        exact same_apply_apply sets user rec.user
      · have other : (calls i).op.field ≠ some g := by grind
        have before : g.Same user rec.user := same g fun j k' sets' => unset j k' (by grind)
        exact before.trans (same_apply other rec.user).symm
    · obtain ⟨id, createdAt, same, set⟩ := h.kept name rec' user (by grind) present
      refine ⟨id, createdAt, fun f unset => same f fun j k sets => unset j k ?_,
        fun j f k sets => ?_⟩
      · grind
      · grind

/-- A property is set of a user who has no entry any more. -/
theorem Coherent.unchanged (h : Coherent calls c) (sets : (calls i).op.field = some f)
    (gone : c.users.lookup (calls i).username = none) (result : Except AuthStoreError Unit) :
    Coherent calls { c with stage := update c.stage i (.finished result) } where
  fresh := h.fresh
  distinct := h.distinct
  keyed := h.keyed
  numbered := h.numbered
  recorded := by
    have := h.recorded
    grind [field]
  mirrored := by
    have := h.mirrored
    grind [field]
  found := by
    have := h.found
    grind
  creating := by
    have := h.creating
    grind
  created := by
    have := h.created
    grind
  oneCreates := by
    have := h.oneCreates
    grind
  dropped := by
    have := h.dropped
    grind
  oneDrops := by
    have := h.oneDrops
    grind
  setting := by
    have := h.setting
    grind
  oneSets := by
    have := h.oneSets
    grind
  kept name rec user found present := by
    obtain ⟨id, createdAt, same, set⟩ := h.kept name rec user found present
    refine ⟨id, createdAt, fun f unset => same f fun j k sets => unset j k ?_, fun j f k sets => ?_⟩
    · grind
    · grind

end Config

end ErmyaGraph.Auth
