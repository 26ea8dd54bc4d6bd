import ErmyaGraph.Lib.Tables

/-! # The user store

Users are nodes of a graph of their own, and a map in memory mirrors them. A call checks the map,
writes to the graph and then to the map, each under a lock of its own, so calls interleave
between these steps. -/

namespace ErmyaGraph.Auth

open Function

/-- The properties of a user that are read back. -/
structure User where
  id : String
  username : String
  passwordHash : String
  enabled : Bool
  isAdmin : Bool
  createdAt : String
deriving DecidableEq

structure UserRecord where
  user : User
  nodeId : Nat
deriving DecidableEq

abbrev UserMap := AList fun _ : String => UserRecord

/-- The nodes of users. An id is never used again. -/
structure UserGraph where
  nodes : Nat → Option User
  nextId : Nat

inductive AuthStoreError where
  | userExists
  | userNotFound
  | lastAdmin
  | backend
deriving DecidableEq

namespace UserGraph

def addNode (graph : UserGraph) (user : User) : UserGraph where
  nodes := update graph.nodes graph.nextId (some user)
  nextId := graph.nextId + 1

def removeNode (graph : UserGraph) (id : Nat) : UserGraph :=
  { graph with nodes := update graph.nodes id none }

def updateNode (graph : UserGraph) (id : Nat) (user : User) : UserGraph :=
  { graph with nodes := update graph.nodes id (some user) }

section Nodes

variable (graph : UserGraph) (user : User) (id k : Nat)

@[grind =]
theorem nodes_addNode :
    (graph.addNode user).nodes k = if k = graph.nextId then some user else graph.nodes k :=
  update_apply ..

@[grind =]
theorem nextId_addNode : (graph.addNode user).nextId = graph.nextId + 1 := rfl

@[grind =]
theorem nodes_removeNode : (graph.removeNode id).nodes k = if k = id then none else graph.nodes k :=
  update_apply ..

@[grind =]
theorem nextId_removeNode : (graph.removeNode id).nextId = graph.nextId := rfl

@[grind =]
theorem nodes_updateNode :
    (graph.updateNode id user).nodes k = if k = id then some user else graph.nodes k :=
  update_apply ..

@[grind =]
theorem nextId_updateNode : (graph.updateNode id user).nextId = graph.nextId := rfl

end Nodes

end UserGraph

namespace UserMap

variable (users : UserMap) (name name' : String)

@[grind =]
theorem lookup_insert (rec : UserRecord) : (AList.insert name rec users).lookup name' =
    if name' = name then some rec else AList.lookup name' users :=
  Tables.lookup_insert users name name' rec

@[grind =]
theorem lookup_erase : (AList.erase name users).lookup name' =
    if name' = name then none else AList.lookup name' users :=
  Tables.lookup_erase users name name'

end UserMap

/-- One node of a user goes into the map. -/
def loadUser (graph : UserGraph) (users : UserMap) (id : Nat) : UserMap :=
  match graph.nodes id with
  | some user => users.insert user.username ⟨user, id⟩
  | none => users

def loadUsers (graph : UserGraph) : UserMap :=
  (List.range graph.nextId).foldl (loadUser graph) ∅

/-- A property of a user that can be set. -/
inductive Field where
  | password
  | enabled
  | admin
deriving DecidableEq

/-- What a call does to the user it names. -/
inductive Op where
  | create (user : User)
  | drop
  | setPassword (phc : String)
  | setEnabled (enabled : Bool)
  | setAdmin (isAdmin : Bool)

namespace Op

/-- The property that a call sets. -/
def field : Op → Option Field
  | .create _ => none
  | .drop => none
  | .setPassword _ => some .password
  | .setEnabled _ => some .enabled
  | .setAdmin _ => some .admin

/-- The user after a property is set. -/
def apply (user : User) : Op → User
  | .create _ => user
  | .drop => user
  | .setPassword phc => { user with passwordHash := phc }
  | .setEnabled enabled => { user with enabled }
  | .setAdmin isAdmin => { user with isAdmin }

/-- A call that may leave fewer enabled admins. -/
def reduces : Op → Bool
  | .create _ => false
  | .drop => true
  | .setPassword _ => false
  | .setEnabled enabled => !enabled
  | .setAdmin isAdmin => !isAdmin

end Op

/-- A call with a valid name. -/
structure Call where
  username : String
  op : Op
  named : ∀ user, op = .create user → user.username = username ∧ user.enabled = true

/-- How far a call is: its check passed, with the node it found; the graph was written; or it
returned. -/
inductive Stage where
  | waiting
  | checked (node : Option Nat)
  | written (node : Nat)
  | finished (result : Except AuthStoreError Unit)

/-- The store, and the calls on it. -/
structure Config (ι : Type) where
  graph : UserGraph
  users : UserMap
  stage : ι → Stage

def UserRecord.leads (rec : UserRecord) : Bool := rec.user.isAdmin && rec.user.enabled

def otherAdminsEnabled (users : UserMap) (username : String) : Bool :=
  users.entries.any fun entry => entry.2.user.username ≠ username && entry.2.leads

/-- The check of a call, under the read lock of the map. -/
def check (users : UserMap) (call : Call) : Except AuthStoreError (Option Nat) :=
  match call.op with
  | .create _ => if (users.lookup call.username).isSome then .error .userExists else .ok none
  | op =>
    match users.lookup call.username with
    | none => .error .userNotFound
    | some rec =>
      if op.reduces && rec.leads && !otherAdminsEnabled users call.username then
        .error .lastAdmin
      else .ok (some rec.nodeId)

/-- The write of a call, under the lock of the graph. -/
def writeGraph (graph : UserGraph) (call : Call) (node : Option Nat) :
    Except AuthStoreError (UserGraph × Nat) :=
  match call.op, node with
  | .create user, _ => .ok (graph.addNode user, graph.nextId)
  | _, none => .error .backend
  | .drop, some node =>
    match graph.nodes node with
    | some _ => .ok (graph.removeNode node, node)
    | none => .error .backend
  | op, some node =>
    match graph.nodes node with
    | some user => .ok (graph.updateNode node (op.apply user), node)
    | none => .error .backend

/-- The update of the map by a call, under its write lock. -/
def writeMap (users : UserMap) (call : Call) (node : Nat) : UserMap :=
  match call.op with
  | .create user => users.insert call.username ⟨user, node⟩
  | .drop => users.erase call.username
  | op =>
    match users.lookup call.username with
    | some rec => users.insert call.username { rec with user := op.apply rec.user }
    | none => users

variable {ι : Type} [DecidableEq ι] (calls : ι → Call)

/-- The next step of a call. -/
def Config.step (config : Config ι) (i : ι) : Config ι :=
  match config.stage i with
  | .waiting =>
    match check config.users (calls i) with
    | .ok node => { config with stage := update config.stage i (.checked node) }
    | .error e => { config with stage := update config.stage i (.finished (.error e)) }
  | .checked node =>
    match writeGraph config.graph (calls i) node with
    | .ok (graph, node) =>
      { config with graph, stage := update config.stage i (.written node) }
    | .error e => { config with stage := update config.stage i (.finished (.error e)) }
  | .written node =>
    { config with
      users := writeMap config.users (calls i) node
      stage := update config.stage i (.finished (.ok ())) }
  | .finished _ => config

def Config.run (config : Config ι) (schedule : List ι) : Config ι :=
  schedule.foldl (Config.step calls) config

end ErmyaGraph.Auth
