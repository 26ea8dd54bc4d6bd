import ErmyaGraph.Lib.Runs
import ErmyaGraph.Schema.Codec

/-! # The schema file over runs

Every declaration is followed by a write of the catalog, and an empty catalog is
not written. A graph that is reopened has the catalog it was closed with, unless
the catalog has become empty. -/

namespace ErmyaGraph.Schema

open Outcome Runs

variable {listing : Listing}

/-- The catalog of a graph and its file. -/
structure Database where
  catalog : SchemaCatalog
  file : Option (List UInt8)

variable {database : Database} {past : List Database}

inductive Ddl where
  | createIndex (decl : Decl)
  | dropIndex (decl : Decl)
  | createConstraint (decl : Decl)
  | dropConstraint (decl : Decl)
  | setAppendOnly (label : String) (since : UInt64)
  | unsetAppendOnly (label : String)

def Ddl.applied (catalog : SchemaCatalog) : Ddl → SchemaCatalog
  | createIndex decl => catalog.addIndex decl
  | dropIndex decl => catalog.removeIndex decl
  | createConstraint decl => catalog.addUniqueConstraint decl
  | dropConstraint decl => catalog.removeUniqueConstraint decl
  | setAppendOnly label since => catalog.markLabelAppendOnly label since
  | unsetAppendOnly label => catalog.unmarkLabelAppendOnly label

/-- Write the catalog, listed in the order its sets are iterated. -/
def persistSchema (listing : Listing) : EStateM Error Database Unit := do
  let bytes ← ofResult (serialize listing)
  if bytes ≠ [] then
    modify fun database => { database with file := some bytes }

/-- The catalog that a graph is opened with. A file that cannot be read is ignored. -/
def openCatalog : Option (List UInt8) → SchemaCatalog
  | some bytes =>
    match deserialize bytes with
    | .ok catalog => catalog
    | .error _ => {}
  | none => {}

/-- A declaration with the write that follows it, or a reopening. -/
inductive Event where
  | declare (ddl : Ddl) (listing : Listing)
  | reopen

/-- The catalog with its declaration, before it is written. -/
def Database.declared (database : Database) (ddl : Ddl) : Database :=
  { database with catalog := ddl.applied database.catalog }

def Database.step (database : Database) : Event → Database
  | .declare ddl listing => final (persistSchema listing) (database.declared ddl)
  | .reopen => { database with catalog := openCatalog database.file }

/-- The write lists the catalog and succeeds. -/
def Database.Allowed (database : Database) : Event → Prop
  | .declare ddl listing =>
    listing.Lists (ddl.applied database.catalog) ∧
      succeeds (persistSchema listing) (database.declared ddl)
  | .reopen => True

def Database.fresh : Database := ⟨{}, none⟩

variable {catalog : SchemaCatalog}

theorem SchemaCatalog.IsEmpty.eq (empty : catalog.IsEmpty) :
    catalog = {} := SchemaCatalog.ext empty.1 empty.2.1 empty.2.2

theorem Listing.Lists.isEmpty_iff (lists : listing.Lists catalog) :
    listing.indexes = [] ∧ listing.constraints = [] ∧ listing.appendOnly = [] ↔
      catalog.IsEmpty := by
  rw [SchemaCatalog.IsEmpty, ← lists.indexes, ← lists.constraints, ← lists.appendOnly]
  simp only [List.toFinset_eq_empty_iff]

theorem serialize_ne_nil {bytes : List UInt8}
    (some_ : ¬(listing.indexes = [] ∧ listing.constraints = [] ∧ listing.appendOnly = []))
    (ok : serialize listing = .ok bytes) : bytes ≠ [] := by
  rw [serialize, if_neg some_] at ok
  obtain ⟨idxBytes, _, ok⟩ := ok_of_bind ok
  obtain ⟨conBytes, _, ok⟩ := ok_of_bind ok
  obtain ⟨indexes, _, ok⟩ := ok_of_bind ok
  obtain ⟨constraints, _, ok⟩ := ok_of_bind ok
  obtain ⟨block, _, ok⟩ := ok_of_bind ok
  cases ok
  exact List.cons_ne_nil _ _

theorem sat_persistSchema (lists : listing.Lists database.catalog) :
    Sat (persistSchema listing) database
      (fun _ after => after.catalog = database.catalog ∧
        if database.catalog.IsEmpty then after.file = database.file
        else ∃ bytes, after.file = some bytes ∧ openCatalog after.file = database.catalog)
      (fun _ _ => True) := by
  unfold persistSchema
  cases result : serialize listing with
  | error e => simp
  | ok bytes =>
    by_cases empty : database.catalog.IsEmpty
    · have none_ := lists.isEmpty_iff.mpr empty
      rw [serialize, if_pos none_] at result
      cases result
      simp [empty]
    · have some_ := serialize_ne_nil (mt lists.isEmpty_iff.mp empty) result
      have read : openCatalog (some bytes) = database.catalog := by
        rw [openCatalog, deserialize_serialize lists some_ result]
      simp [empty, some_, read]

/-- Either nothing was ever declared, or the file has a catalog, and that one unless the
catalog is empty now. -/
def Followed (past : List Database) (database : Database) : Prop :=
  (database.file = none ∧ ∀ earlier ∈ past, earlier.catalog.IsEmpty) ∨
    ((∃ earlier ∈ past, ¬earlier.catalog.IsEmpty) ∧ ¬(openCatalog database.file).IsEmpty ∧
      (¬database.catalog.IsEmpty → openCatalog database.file = database.catalog))

theorem isEmpty_empty : SchemaCatalog.IsEmpty {} := ⟨rfl, rfl, rfl⟩

theorem Followed.declare {ddl : Ddl} (followed : Followed past database)
    (allowed : database.Allowed (.declare ddl listing)) :
    Followed (database.step (.declare ddl listing) :: past)
      (database.step (.declare ddl listing)) := by
  obtain ⟨lists, done⟩ := allowed
  have declared : listing.Lists (database.declared ddl).catalog := lists
  obtain ⟨catalog, file⟩ := (sat_persistSchema declared).final_of_succeeds done
  have step : database.step (.declare ddl listing) =
      final (persistSchema listing) (database.declared ddl) := rfl
  rw [← step] at catalog file
  by_cases empty : (database.declared ddl).catalog.IsEmpty
  · rw [if_pos empty] at file
    have same : (database.step (.declare ddl listing)).file = database.file := file
    have still : (database.step (.declare ddl listing)).catalog.IsEmpty := by
      rw [catalog]
      exact empty
    rcases followed with ⟨none_, never⟩ | ⟨⟨earlier, mem, some_⟩, kept, _⟩
    · left
      refine ⟨same.trans none_, fun earlier mem => ?_⟩
      rcases List.mem_cons.mp mem with rfl | old
      · exact still
      · exact never earlier old
    · right
      rw [same]
      exact ⟨⟨earlier, .tail _ mem, some_⟩, kept, fun some_ => absurd still some_⟩
  · rw [if_neg empty] at file
    obtain ⟨bytes, _, read⟩ := file
    rw [← catalog] at empty read
    right
    rw [read]
    exact ⟨⟨_, .head _, empty⟩, empty, fun _ => rfl⟩

theorem Followed.reopen (followed : Followed past database) :
    Followed (database.step .reopen :: past) (database.step .reopen) := by
  rcases followed with ⟨none_, never⟩ | ⟨⟨earlier, mem, some_⟩, kept, _⟩
  · left
    refine ⟨none_, fun earlier mem => ?_⟩
    rcases List.mem_cons.mp mem with rfl | old
    · show (openCatalog database.file).IsEmpty
      rw [none_]
      exact isEmpty_empty
    · exact never earlier old
  · right
    exact ⟨⟨earlier, .tail _ mem, some_⟩, kept, fun _ => rfl⟩

theorem followed_of_run
    (run : Run (fun _ => Database.Allowed) Database.step Database.fresh past database) :
    Followed past database := by
  apply run.invariant Followed
  · left
    refine ⟨rfl, fun earlier mem => ?_⟩
    rw [List.mem_singleton.mp mem]
    exact isEmpty_empty
  · intro past database event followed allowed
    cases event with
    | declare ddl listing => exact followed.declare allowed
    | reopen => exact followed.reopen

/-- After every run, reopening gives the catalog back exactly when the catalog is not empty
or nothing was ever declared. -/
theorem openCatalog_eq_iff {past : List Database} {database : Database}
    (run : Run (fun _ => Database.Allowed) Database.step Database.fresh past database) :
    openCatalog database.file = database.catalog ↔
      ¬database.catalog.IsEmpty ∨ ∀ earlier ∈ past, earlier.catalog.IsEmpty := by
  rcases followed_of_run run with ⟨none_, never⟩ | ⟨⟨earlier, member, some_⟩, kept, follows⟩
  · have empty := never database run.mem
    rw [none_, empty.eq]
    exact ⟨fun _ => .inr never, fun _ => rfl⟩
  · constructor
    · intro same
      rw [same] at kept
      exact .inl kept
    · rintro (filled | never)
      · exact follows filled
      · exact absurd (never earlier member) some_

def personId : Decl := ⟨"Person", "id"⟩

def listed : Listing := ⟨[personId], [], []⟩

def nothing : Listing := ⟨[], [], []⟩

theorem allowed_create : Database.fresh.Allowed (.declare (.createIndex personId) listed) := by
  constructor
  · constructor <;> first | rfl | decide
  · decide +kernel

/-- An index is declared. -/
theorem openCatalog_eq_iff_declared :
    openCatalog (Database.fresh.step (.declare (.createIndex personId) listed)).file =
        (Database.fresh.step (.declare (.createIndex personId) listed)).catalog ↔
      ¬(Database.fresh.step (.declare (.createIndex personId) listed)).catalog.IsEmpty ∨
        ∀ earlier ∈ [Database.fresh.step (.declare (.createIndex personId) listed),
          Database.fresh], earlier.catalog.IsEmpty :=
  openCatalog_eq_iff (.step (Event.declare (.createIndex personId) listed) .start allowed_create)

/-- The graph after the index is declared, and after it is dropped. -/
def withIndex : Database := Database.fresh.step (.declare (.createIndex personId) listed)

def withoutIndex : Database := withIndex.step (.declare (.dropIndex personId) nothing)

theorem allowed_drop : withIndex.Allowed (.declare (.dropIndex personId) nothing) := by
  constructor
  · constructor <;> decide +kernel
  · decide +kernel

/-- The dropped index is there again when the graph is reopened. -/
theorem dropped_index_returns :
    ∃ past database, Run (fun _ => Database.Allowed) Database.step Database.fresh past database ∧
        openCatalog database.file ≠ database.catalog := by
  have declared : Run (fun _ => Database.Allowed) Database.step Database.fresh
      [withIndex, Database.fresh] withIndex :=
    .step (Event.declare (.createIndex personId) listed) .start allowed_create
  have dropped : Run (fun _ => Database.Allowed) Database.step Database.fresh
      [withoutIndex, withIndex, Database.fresh] withoutIndex :=
    .step (Event.declare (.dropIndex personId) nothing) declared allowed_drop
  refine ⟨_, _, dropped, fun same => ?_⟩
  have filled : ¬withIndex.catalog.IsEmpty := by decide +kernel
  have empty : withoutIndex.catalog.IsEmpty := by decide +kernel
  rcases followed_of_run dropped with ⟨_, never⟩ | ⟨_, kept, _⟩
  · exact filled (never withIndex (by simp))
  · rw [same] at kept
    exact kept empty

end ErmyaGraph.Schema
