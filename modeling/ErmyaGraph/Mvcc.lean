import Mathlib.Data.Finset.Basic
import ErmyaGraph.Data

/-! # Versions and transactions

The in-memory side of explicit transactions: delta chains, the registry of
active transactions, the visibility clock and the rule by which a reader picks
a version. -/

namespace ErmyaGraph

open Function

/-- The state of an entity in one version. -/
inductive EntitySnapshot where
  | live (record : Record)
  | deleted
deriving DecidableEq

inductive DeltaOp where
  | insert
  | update
  | delete
deriving DecidableEq, Repr

/-- One write of one transaction to one entity. -/
structure Delta where
  txn : Nat
  prior : Option EntitySnapshot
  new : Option EntitySnapshot
  op : DeltaOp
  commitTs : Option Nat := none
deriving DecidableEq

namespace Delta

def stampCommit (delta : Delta) (ts : Nat) : Delta := { delta with commitTs := some ts }

/-- No live snapshot can still need an older version once this delta is committed below the
watermark. -/
def safeToVacuum (delta : Delta) (watermark : Option Nat) : Bool :=
  match delta.commitTs, watermark with
  | none, _ => false
  | some _, none => true
  | some ts, some w => ts < w

/-- A reader sees its own writes and what committed before it started. -/
def visibleTo (delta : Delta) (startTs : Nat) (reader : Option Nat) : Bool :=
  reader = some delta.txn || delta.commitTs.any fun ts => ts < startTs

end Delta

/-- A chain lists the deltas of one entity, most recently pushed first. -/
abbrev DeltaChain := List Delta

namespace DeltaChain

def stampTxn (chain : DeltaChain) (txn ts : Nat) : DeltaChain :=
  chain.map fun delta =>
    if delta.txn = txn ∧ delta.commitTs = none then delta.stampCommit ts else delta

/-- Drop every delta of a transaction, stamped ones included. -/
def removeTxn (chain : DeltaChain) (txn : Nat) : DeltaChain :=
  chain.filter fun delta => delta.txn ≠ txn

def newestOfTxn (chain : DeltaChain) (txn : Nat) : Option Delta :=
  chain.find? fun delta => delta.txn = txn

def oldestOfTxn (chain : DeltaChain) (txn : Nat) : Option Delta :=
  chain.reverse.find? fun delta => delta.txn = txn

def allSafeToVacuum (chain : DeltaChain) (watermark : Option Nat) : Bool :=
  chain.all fun delta => delta.safeToVacuum watermark

/-- The version a reader sees: the first visible delta's, else the committed base. -/
def applyForRead (base : Option EntitySnapshot) (chain : DeltaChain) (startTs : Nat)
    (reader : Option Nat) : Option EntitySnapshot :=
  match chain.find? fun delta => delta.visibleTo startTs reader with
  | some delta => delta.new
  | none => base

end DeltaChain

/-- Inserts a transaction has made and not committed, for its own enumerations. -/
structure TxnOverlay where
  nodeIds : Finset Nat := ∅
  nodesByLabel : String → Finset Nat := fun _ => ∅
  adjacency : Nat → AdjDirection → List Nat := fun _ _ => []

/-- What the registry keeps of an active transaction. -/
structure TxnState where
  startTs : Nat
  bytesUsed : Nat := 0
  written : List EntityKey := []
  overlay : TxnOverlay := {}

/-- The delta table, the registry and the clock, which are enabled together. An entity without
a chain has the empty one. -/
structure Mvcc where
  chain : EntityKey → DeltaChain := fun _ => []
  active : Nat → Option TxnState := fun _ => none
  nextTxnId : Nat := 1
  clock : Nat := 1

namespace Mvcc

def isActive (mvcc : Mvcc) (txn : Nat) : Bool := (mvcc.active txn).isSome

def startTs? (mvcc : Mvcc) (txn : Nat) : Option Nat := (mvcc.active txn).map TxnState.startTs

def keysWrittenBy (mvcc : Mvcc) (txn : Nat) : List EntityKey :=
  ((mvcc.active txn).map TxnState.written).getD []

/-- The oldest snapshot an active transaction reads from. -/
def oldestActiveStartTs (mvcc : Mvcc) : Option Nat :=
  ((List.range mvcc.nextTxnId).filterMap mvcc.startTs?).min?

/-- Register a transaction under the next id and timestamp. -/
def begin (mvcc : Mvcc) : Mvcc :=
  { mvcc with
    active := update mvcc.active mvcc.nextTxnId (some { startTs := mvcc.clock })
    nextTxnId := mvcc.nextTxnId + 1
    clock := mvcc.clock + 1 }

def endTxn (mvcc : Mvcc) (txn : Nat) : Mvcc :=
  { mvcc with active := update mvcc.active txn none }

def modifyTxn (mvcc : Mvcc) (txn : Nat) (f : TxnState → TxnState) : Mvcc :=
  { mvcc with active := update mvcc.active txn ((mvcc.active txn).map f) }

def setChain (mvcc : Mvcc) (key : EntityKey) (chain : DeltaChain) : Mvcc :=
  { mvcc with chain := update mvcc.chain key chain }

/-- Push a delta in front of its chain and record the write. -/
def pushDelta (mvcc : Mvcc) (key : EntityKey) (delta : Delta) : Mvcc :=
  (mvcc.setChain key (delta :: mvcc.chain key)).modifyTxn delta.txn fun state =>
    { state with written := state.written ++ [key] }

/-- Discard the deltas of a transaction on the keys it wrote. -/
def removeDeltas (mvcc : Mvcc) (txn : Nat) : Mvcc :=
  (mvcc.keysWrittenBy txn).foldl
    (fun mvcc key => mvcc.setChain key ((mvcc.chain key).removeTxn txn)) mvcc

/-- Stamp the deltas of a transaction on the given keys. -/
def stampKeys (mvcc : Mvcc) (txn ts : Nat) (keys : List EntityKey) : Mvcc :=
  keys.foldl (fun mvcc key => mvcc.setChain key ((mvcc.chain key).stampTxn txn ts)) mvcc

/-- The transaction's newest delta of every key it wrote, in the order of first writes. -/
def committed (mvcc : Mvcc) (txn : Nat) : List (EntityKey × Delta) :=
  ((mvcc.keysWrittenBy txn).foldl
    (fun seen key => if key ∈ seen then seen else seen ++ [key]) []).filterMap fun key =>
      ((mvcc.chain key).newestOfTxn txn).map fun delta => (key, delta)

def vacuumable (mvcc : Mvcc) (key : EntityKey) : Bool :=
  !(mvcc.chain key).isEmpty && (mvcc.chain key).allSafeToVacuum mvcc.oldestActiveStartTs

/-- Ids are given out once: under an id given out before, a transaction can only end. -/
structure Ages (before after : Mvcc) : Prop where
  nextTxnId : before.nextTxnId ≤ after.nextTxnId
  ended : ∀ txn < before.nextTxnId, after.isActive txn → before.isActive txn
  given : ∀ txn, after.isActive txn → before.isActive txn ∨ txn < after.nextTxnId

instance : IsPreorder Mvcc Ages where
  refl _ := ⟨le_rfl, fun _ _ active => active, fun _ active => .inl active⟩
  trans _ _ _ := by
    rintro ⟨grown, ended, given⟩ ⟨grown', ended', given'⟩
    refine ⟨grown.trans grown', fun txn old active => ?_, fun txn active => ?_⟩
    · exact ended txn old (ended' txn (old.trans_le grown) active)
    · rcases given' txn active with earlier | bounded
      · rcases given txn earlier with earliest | bounded
        · exact .inl earliest
        · exact .inr (bounded.trans_le grown')
      · exact .inr bounded

variable (mvcc : Mvcc)

theorem ages_begin : mvcc.Ages mvcc.begin := by
  refine ⟨Nat.le_succ _, fun txn given active => ?_, fun txn active => ?_⟩
  · have other : txn ≠ mvcc.nextTxnId := Nat.ne_of_lt given
    simpa only [isActive, begin, update_of_ne other] using active
  · by_cases same : txn = mvcc.nextTxnId
    · subst same
      exact .inr (Nat.lt_succ_self _)
    · refine .inl ?_
      simpa only [isActive, begin, update_of_ne same] using active

theorem ages_of_subset {before after : Mvcc} (nextTxnId : after.nextTxnId = before.nextTxnId)
    (ended : ∀ txn, after.isActive txn → before.isActive txn) : before.Ages after :=
  ⟨nextTxnId.symm.le, fun txn _ => ended txn, fun txn active => .inl (ended txn active)⟩

variable (txn : Nat)

theorem ages_endTxn : mvcc.Ages (mvcc.endTxn txn) := by
  refine ages_of_subset rfl fun other active => ?_
  by_cases same : other = txn
  · subst same
    simp [isActive, endTxn] at active
  · simpa only [isActive, endTxn, update_of_ne same] using active

theorem ages_modifyTxn (f : TxnState → TxnState) : mvcc.Ages (mvcc.modifyTxn txn f) := by
  refine ages_of_subset rfl fun other active => ?_
  by_cases same : other = txn
  · subst same
    simpa [isActive, modifyTxn] using active
  · simpa only [isActive, modifyTxn, update_of_ne same] using active

theorem ages_of_active {before after : Mvcc} (active : after.active = before.active)
    (nextTxnId : after.nextTxnId = before.nextTxnId) : before.Ages after := by
  refine ages_of_subset nextTxnId fun txn running => ?_
  simpa only [isActive, active] using running

theorem setChain_foldl_active (f : Mvcc → EntityKey → DeltaChain) (keys : List EntityKey)
    (mvcc : Mvcc) :
    (keys.foldl (fun mvcc key => mvcc.setChain key (f mvcc key)) mvcc).active = mvcc.active ∧
      (keys.foldl (fun mvcc key => mvcc.setChain key (f mvcc key)) mvcc).nextTxnId =
        mvcc.nextTxnId := by
  induction keys generalizing mvcc with
  | nil => exact ⟨rfl, rfl⟩
  | cons key rest ih => exact ih (mvcc.setChain key (f mvcc key))

theorem ages_removeDeltas : mvcc.Ages (mvcc.removeDeltas txn) := by
  obtain ⟨active, nextTxnId⟩ := setChain_foldl_active
    (fun mvcc key => (mvcc.chain key).removeTxn txn) (mvcc.keysWrittenBy txn) mvcc
  exact ages_of_active active nextTxnId

theorem ages_stampKeys (ts : Nat) (keys : List EntityKey) :
    mvcc.Ages (mvcc.stampKeys txn ts keys) := by
  obtain ⟨active, nextTxnId⟩ := setChain_foldl_active
    (fun mvcc key => (mvcc.chain key).stampTxn txn ts) keys mvcc
  exact ages_of_active active nextTxnId

theorem ages_pushDelta (key : EntityKey) (delta : Delta) :
    mvcc.Ages (mvcc.pushDelta key delta) := by
  have pushed : mvcc.Ages (mvcc.setChain key (delta :: mvcc.chain key)) := ages_of_active rfl rfl
  exact trans_of Ages pushed (ages_modifyTxn _ delta.txn _)

end Mvcc

end ErmyaGraph
