import ErmyaGraph.Graph.Opening

/-! # Replaying what was appended

Records that bear on no transaction are applied one after the other to what the
journal before them recovers. -/

namespace ErmyaGraph

variable {record : WalRecord} {added : List WalRecord}

open Outcome List

theorem Plain.txn? (plain : Plain record) : record.txn? = none := by
  cases named : record.txn? with
  | none => rfl
  | some txn =>
    have about : record.subject? = some txn := by rw [WalRecord.subject?, named]; rfl
    rw [plain] at about
    cases about

theorem Plain.committed? (plain : Plain record) : record.committed? = none := by
  have about : record.subject? = record.committed? := by
    rw [WalRecord.subject?, Plain.txn? plain]
    rfl
  exact about.symm.trans plain

variable {old : List WalRecord}

theorem committedTxnIds_append (plain : ∀ record ∈ added, Plain record) :
    committedTxnIds (old ++ added) = committedTxnIds old := by
  have none : added.filterMap WalRecord.committed? = [] :=
    filterMap_eq_nil_iff.mpr fun record mem => (plain record mem).committed?
  rw [committedTxnIds, filterMap_append, none, append_nil, committedTxnIds]

/-- Apply records in turn, whatever transactions committed. -/
def applyRecords (state : Recovered) (records : List WalRecord) : Recovered :=
  records.foldl applyRecord state

theorem foldl_replayRecord {committed : List Nat} (plain : ∀ record ∈ added, Plain record)
    (state : Recovered) :
    added.foldl (replayRecord committed) state = applyRecords state added := by
  induction added generalizing state with
  | nil => rfl
  | cons record rest ih =>
    have durable : replayRecord committed state record = applyRecord state record := by
      rw [replayRecord, (plain record mem_cons_self).txn?]
      rfl
    rw [foldl_cons, durable, ih fun other mem => plain other (.tail _ mem)]
    rfl

theorem replayRecords_append {disk : Disk} (plain : ∀ record ∈ added, Plain record) :
    replayRecords disk (old ++ added) = applyRecords (replayRecords disk old) added := by
  rw [replayRecords, committedTxnIds_append plain, foldl_append, foldl_replayRecord plain]
  rfl

variable {records : List WalRecord}

theorem applyRecords_keeps {β : Type} (part : Recovered → β)
    (each : ∀ state, ∀ record ∈ records, part (applyRecord state record) = part state)
    (state : Recovered) : part (applyRecords state records) = part state := by
  induction records generalizing state with
  | nil => rfl
  | cons record rest ih =>
    have rest' := ih (fun state other mem => each state other (.tail _ mem))
      (applyRecord state record)
    exact rest'.trans (each state record mem_cons_self)

theorem applyRecord_aside (aside : record.Aside) (state : Recovered) :
    (applyRecord state record).pages.slots = state.pages.slots ∧
      (applyRecord state record).pages.adjacency = state.pages.adjacency := by
  cases record with
  | writeStringPage page bytes used => exact ⟨rfl, rfl⟩
  | writeOverflowPage page data => exact ⟨rfl, rfl⟩
  | freeListState head spare count => exact ⟨rfl, rfl⟩
  | _ => exact aside.elim False.elim False.elim

theorem applyRecords_aside (aside : ∀ record ∈ records, record.Aside) (state : Recovered) :
    (applyRecords state records).pages.slots = state.pages.slots ∧
      (applyRecords state records).pages.adjacency = state.pages.adjacency :=
  ⟨applyRecords_keeps (fun state => state.pages.slots)
      (fun state record mem => (applyRecord_aside (aside record mem) state).1) state,
    applyRecords_keeps (fun state => state.pages.adjacency)
      (fun state record mem => (applyRecord_aside (aside record mem) state).2) state⟩

end ErmyaGraph
