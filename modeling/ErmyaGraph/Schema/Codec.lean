import Mathlib.Data.Finset.Basic
import Mathlib.Data.Finset.Lattice.Lemmas
import ErmyaGraph.Data
import ErmyaGraph.Lib.Bytes
import ErmyaGraph.Lib.Outcome

/-! # The schema catalog and its file

Declared indexes, unique constraints and append-only labels, and the bytes that
keep them. A catalog that was written is read back, in whatever order its sets
were listed. -/

namespace ErmyaGraph.Schema

open Bytes Outcome List

/-- An index or a constraint is declared on a property of a label. -/
structure Decl where
  label : String
  prop : String
deriving DecidableEq

structure AppendOnlyDecl where
  label : String
  since : UInt64
deriving DecidableEq

theorem no_duplicates : ∀ d ∈ (∅ : Finset AppendOnlyDecl), ∀ e ∈ (∅ : Finset AppendOnlyDecl),
    d.label = e.label → d = e := by simp

/-- Declared indexes, constraints and append-only labels. A label is declared append-only at
most once. -/
@[ext]
structure SchemaCatalog where
  indexes : Finset Decl := ∅
  constraints : Finset Decl := ∅
  appendOnly : Finset AppendOnlyDecl := ∅
  unique : ∀ d ∈ appendOnly, ∀ e ∈ appendOnly, d.label = e.label → d = e := by
    first | exact no_duplicates | simp

namespace SchemaCatalog

def addIndex (catalog : SchemaCatalog) (decl : Decl) : SchemaCatalog :=
  { catalog with indexes := insert decl catalog.indexes }

def removeIndex (catalog : SchemaCatalog) (decl : Decl) : SchemaCatalog :=
  { catalog with indexes := catalog.indexes.erase decl }

def addUniqueConstraint (catalog : SchemaCatalog) (decl : Decl) : SchemaCatalog :=
  { catalog with constraints := insert decl catalog.constraints }

def removeUniqueConstraint (catalog : SchemaCatalog) (decl : Decl) : SchemaCatalog :=
  { catalog with constraints := catalog.constraints.erase decl }

/-- Declare a label append-only. A label that is declared already keeps its bound. -/
def markLabelAppendOnly (catalog : SchemaCatalog) (label : String) (since : UInt64) :
    SchemaCatalog :=
  if fresh : ∀ d ∈ catalog.appendOnly, d.label ≠ label then
    { catalog with
      appendOnly := insert ⟨label, since⟩ catalog.appendOnly
      unique := by
        intro d first e second same
        rcases Finset.mem_insert.mp first with rfl | oldFirst
        · rcases Finset.mem_insert.mp second with rfl | oldSecond
          · rfl
          · exact absurd same.symm (fresh e oldSecond)
        · rcases Finset.mem_insert.mp second with rfl | oldSecond
          · exact absurd same (fresh d oldFirst)
          · exact catalog.unique d oldFirst e oldSecond same }
  else catalog

def unmarkLabelAppendOnly (catalog : SchemaCatalog) (label : String) : SchemaCatalog :=
  { catalog with
    appendOnly := catalog.appendOnly.filter fun d => d.label ≠ label
    unique := by
      intro d first e second
      exact catalog.unique d (Finset.mem_of_mem_filter d first) e (Finset.mem_of_mem_filter e second) }

def IsEmpty (catalog : SchemaCatalog) : Prop :=
  catalog.indexes = ∅ ∧ catalog.constraints = ∅ ∧ catalog.appendOnly = ∅

instance (catalog : SchemaCatalog) : Decidable catalog.IsEmpty := inferInstanceAs (Decidable (_ ∧ _))

end SchemaCatalog

/-- The sets of a catalog in the order in which they are iterated. -/
structure Listing where
  indexes : List Decl
  constraints : List Decl
  appendOnly : List AppendOnlyDecl

/-- A listing of a catalog has each of its members once. -/
structure Listing.Lists (listing : Listing) (catalog : SchemaCatalog) : Prop where
  indexes : listing.indexes.toFinset = catalog.indexes
  indexesOnce : listing.indexes.Nodup
  constraints : listing.constraints.toFinset = catalog.constraints
  constraintsOnce : listing.constraints.Nodup
  appendOnly : listing.appendOnly.toFinset = catalog.appendOnly
  appendOnlyOnce : listing.appendOnly.Nodup

def schemaMagic : List UInt8 := [0x54, 0x47, 0x53, 0x43]

def schemaVersion : Nat := 1

def headerSize : Nat := 16

def writeLabel (label : String) : Except Error (List UInt8) :=
  if 2 ^ 16 ≤ (ofString label).length then .error (.recordTooLarge (ofString label).length)
  else .ok (leBytes 2 (ofString label).length ++ ofString label)

def writeEntry (decl : Decl) : Except Error (List UInt8) := do
  let label ← writeLabel decl.label
  let prop ← writeLabel decl.prop
  return label ++ prop

def writeAppendOnly (decl : AppendOnlyDecl) : Except Error (List UInt8) := do
  let label ← writeLabel decl.label
  return label ++ leBytes 8 decl.since.toNat

def writeAll {α : Type} (write : α → Except Error (List UInt8)) : List α → Except Error (List UInt8)
  | [] => .ok []
  | decl :: rest => do
      let first ← write decl
      let others ← writeAll write rest
      return first ++ others

/-- How many declarations follow; the count has 32 bits. -/
def writeCount (count : Nat) : Except Error (List UInt8) :=
  if 2 ^ 32 ≤ count then .error (.recordTooLarge count) else .ok (leBytes 4 count)

/-- The append-only labels. The block is left out when there are none. -/
def writeAppendOnlyBlock (decls : List AppendOnlyDecl) : Except Error (List UInt8) :=
  if decls = [] then .ok []
  else do
    let count ← writeCount decls.length
    let entries ← writeAll writeAppendOnly decls
    return count ++ entries

/-- The bytes of a catalog. There are none for an empty one. -/
def serialize (listing : Listing) : Except Error (List UInt8) :=
  if listing.indexes = [] ∧ listing.constraints = [] ∧ listing.appendOnly = [] then .ok []
  else do
    let idxCount ← writeCount listing.indexes.length
    let conCount ← writeCount listing.constraints.length
    let indexes ← writeAll writeEntry listing.indexes
    let constraints ← writeAll writeEntry listing.constraints
    let block ← writeAppendOnlyBlock listing.appendOnly
    return schemaMagic ++ leBytes 2 schemaVersion ++ [0, 0] ++ idxCount ++ conCount ++
      (indexes ++ (constraints ++ block))

inductive SchemaError where
  | invalidMagic (file : String)
  | incompatibleVersion (found expected : Nat)
  | corruptIndex (reason : String)

def readU16 (bytes : List UInt8) (pos : Nat) : Except SchemaError Nat :=
  if pos + 2 ≤ bytes.length then .ok (leNat (span bytes pos (pos + 2)))
  else .error (.corruptIndex "schema.bin: truncated entry")

def readU32 (bytes : List UInt8) (pos : Nat) : Except SchemaError Nat :=
  if pos + 4 ≤ bytes.length then .ok (leNat (span bytes pos (pos + 4)))
  else .error (.corruptIndex "schema.bin: truncated append-only count")

def readStr (bytes : List UInt8) (pos len : Nat) : Except SchemaError String :=
  if pos + len ≤ bytes.length then
    match toString? (span bytes pos (pos + len)) with
    | some text => .ok text
    | none => .error (.corruptIndex "schema.bin: non-UTF-8 string")
  else .error (.corruptIndex "schema.bin: truncated string")

/-- A label and the position behind it. -/
def readLabel (bytes : List UInt8) (pos : Nat) : Except SchemaError (String × Nat) := do
  let len ← readU16 bytes pos
  let label ← readStr bytes (pos + 2) len
  return (label, pos + 2 + len)

def readEntry (bytes : List UInt8) (pos : Nat) : Except SchemaError (Decl × Nat) := do
  let (label, pos) ← readLabel bytes pos
  let (prop, pos) ← readLabel bytes pos
  return (⟨label, prop⟩, pos)

/-- Read declarations into a catalog. -/
def readEntries (add : SchemaCatalog → Decl → SchemaCatalog) (bytes : List UInt8) :
    (count : Nat) → Nat → SchemaCatalog → Except SchemaError (SchemaCatalog × Nat)
  | 0, pos, catalog => .ok (catalog, pos)
  | count + 1, pos, catalog => do
      let (decl, pos) ← readEntry bytes pos
      readEntries add bytes count pos (add catalog decl)

/-- The bound behind an append-only label. Only the last entry of a file may lack it. -/
def readSince (bytes : List UInt8) (pos : Nat) : Except SchemaError (UInt64 × Nat) :=
  if pos + 8 ≤ bytes.length then .ok (u64 (span bytes pos (pos + 8)), pos + 8)
  else if pos < bytes.length then
    .error (.corruptIndex "schema.bin: append-only entry truncated mid-block")
  else .ok (0, pos)

def readAppendOnly (bytes : List UInt8) :
    (count : Nat) → Nat → SchemaCatalog → Except SchemaError SchemaCatalog
  | 0, _, catalog => .ok catalog
  | count + 1, pos, catalog => do
      let (label, pos) ← readLabel bytes pos
      let (since, pos) ← readSince bytes pos
      readAppendOnly bytes count pos (catalog.markLabelAppendOnly label since)

/-- The catalog of a file. -/
def deserialize (bytes : List UInt8) : Except SchemaError SchemaCatalog :=
  if bytes.length < headerSize then .error (.corruptIndex "schema.bin: header too short")
  else if span bytes 0 4 ≠ schemaMagic then .error (.invalidMagic "schema.bin")
  else if leNat (span bytes 4 6) ≠ schemaVersion then
    .error (.incompatibleVersion (leNat (span bytes 4 6)) schemaVersion)
  else do
    let idxCount := leNat (span bytes 8 12)
    let conCount := leNat (span bytes 12 16)
    let (catalog, pos) ← readEntries SchemaCatalog.addIndex bytes idxCount headerSize {}
    let (catalog, pos) ← readEntries SchemaCatalog.addUniqueConstraint bytes conCount pos catalog
    if pos < bytes.length then do
      let aoCount ← readU32 bytes pos
      readAppendOnly bytes aoCount (pos + 4) catalog
    else return catalog

section RoundTrip

variable (before after : List UInt8) {written : List UInt8}

theorem readLabel_write {label : String} (ok : writeLabel label = .ok written) :
    readLabel (before ++ (written ++ after)) before.length =
      .ok (label, before.length + written.length) := by
  rw [writeLabel] at ok
  by_cases long : 2 ^ 16 ≤ (ofString label).length
  · rw [if_pos long] at ok
    cases ok
  · rw [if_neg long] at ok
    cases ok
    have fits : (ofString label).length < 256 ^ 2 := by omega
    have readLen : span (before ++ (leBytes 2 (ofString label).length ++
        (ofString label ++ after))) before.length (before.length + 2) =
        leBytes 2 (ofString label).length := span_append _ _ _ rfl (by simp)
    have readText : span ((before ++ leBytes 2 (ofString label).length) ++
        (ofString label ++ after)) (before.length + 2)
        (before.length + 2 + (ofString label).length) = ofString label :=
      span_append _ _ _ (by simp) rfl
    rw [append_assoc] at readText
    have room : before.length + 2 ≤ (before ++ (leBytes 2 (ofString label).length ++
        (ofString label ++ after))).length := by
      simp only [length_append, length_leBytes]
      omega
    have roomText : before.length + 2 + (ofString label).length ≤
        (before ++ (leBytes 2 (ofString label).length ++ (ofString label ++ after))).length := by
      simp only [length_append, length_leBytes]
      omega
    have end_ : before.length + 2 + (ofString label).length =
        before.length + (leBytes 2 (ofString label).length ++ ofString label).length := by
      simp only [length_append, length_leBytes]
      omega
    rw [append_assoc, readLabel, readU16, if_pos room, readLen, leNat_leBytes fits, ← end_]
    simp only [bind, Except.bind, readStr, if_pos roomText, readText, toString?_ofString]
    rfl

theorem readEntry_write {decl : Decl} (ok : writeEntry decl = .ok written) :
    readEntry (before ++ (written ++ after)) before.length =
      .ok (decl, before.length + written.length) := by
  obtain ⟨label, labelOk, ok⟩ := ok_of_bind ok
  obtain ⟨prop, propOk, ok⟩ := ok_of_bind ok
  cases ok
  have first := readLabel_write before (prop ++ after) labelOk
  have second := readLabel_write (before ++ label) after propOk
  rw [length_append, append_assoc] at second
  rw [append_assoc, readEntry, first]
  simp only [bind, Except.bind, second, length_append, Nat.add_assoc]
  rfl

theorem readEntries_write (add : SchemaCatalog → Decl → SchemaCatalog) {decls : List Decl}
    (ok : writeAll writeEntry decls = .ok written) (catalog : SchemaCatalog) :
    readEntries add (before ++ (written ++ after)) decls.length before.length catalog =
      .ok (decls.foldl add catalog, before.length + written.length) := by
  induction decls generalizing before written catalog with
  | nil =>
    cases ok
    rfl
  | cons decl rest ih =>
    obtain ⟨first, firstOk, ok⟩ := ok_of_bind ok
    obtain ⟨others, othersOk, ok⟩ := ok_of_bind ok
    cases ok
    have here := readEntry_write before (others ++ after) firstOk
    have later := ih (before ++ first) othersOk (add catalog decl)
    rw [length_append, append_assoc] at later
    rw [append_assoc, length_cons, readEntries, here]
    simp only [bind, Except.bind, later, foldl_cons, length_append, Nat.add_assoc]

variable {decls : List AppendOnlyDecl}

theorem readAppendOnly_write (ok : writeAll writeAppendOnly decls = .ok written)
    (catalog : SchemaCatalog) :
    readAppendOnly (before ++ (written ++ after)) decls.length before.length catalog =
      .ok (decls.foldl (fun catalog d => catalog.markLabelAppendOnly d.label d.since) catalog) := by
  induction decls generalizing before written catalog with
  | nil =>
    cases ok
    rfl
  | cons decl rest ih =>
    obtain ⟨first, firstOk, ok⟩ := ok_of_bind ok
    obtain ⟨others, othersOk, ok⟩ := ok_of_bind ok
    obtain ⟨label, labelOk, firstOk⟩ := ok_of_bind firstOk
    cases ok
    cases firstOk
    have here := readLabel_write before
      (leBytes 8 decl.since.toNat ++ (others ++ after)) labelOk
    have readBound : span ((before ++ label) ++ (leBytes 8 decl.since.toNat ++
        (others ++ after))) (before.length + label.length) (before.length + label.length + 8) =
        leBytes 8 decl.since.toNat := span_append _ _ _ (by simp) (by simp)
    have room : before.length + label.length + 8 ≤ (before ++ (label ++
        (leBytes 8 decl.since.toNat ++ (others ++ after)))).length := by
      simp only [length_append, length_leBytes]
      omega
    have later := ih (before ++ (label ++ leBytes 8 decl.since.toNat)) othersOk
      (catalog.markLabelAppendOnly decl.label decl.since)
    have end_ : (before ++ (label ++ leBytes 8 decl.since.toNat)).length =
        before.length + label.length + 8 := by
      simp only [length_append, length_leBytes]
      omega
    rw [end_] at later
    simp only [append_assoc] at readBound later ⊢
    rw [length_cons, readAppendOnly, here]
    simp only [bind, Except.bind, readSince, if_pos room, readBound, u64_leBytes, later, foldl_cons]

theorem foldl_addIndex (decls : List Decl) (catalog : SchemaCatalog) :
    decls.foldl SchemaCatalog.addIndex catalog =
      { catalog with indexes := catalog.indexes ∪ decls.toFinset } := by
  induction decls generalizing catalog with
  | nil => simp
  | cons decl rest ih =>
    rw [foldl_cons, ih]
    simp [SchemaCatalog.addIndex, toFinset_cons]

theorem foldl_addUniqueConstraint (decls : List Decl) (catalog : SchemaCatalog) :
    decls.foldl SchemaCatalog.addUniqueConstraint catalog =
      { catalog with constraints := catalog.constraints ∪ decls.toFinset } := by
  induction decls generalizing catalog with
  | nil => simp
  | cons decl rest ih =>
    rw [foldl_cons, ih]
    simp [SchemaCatalog.addUniqueConstraint, toFinset_cons]

variable {catalog : SchemaCatalog}

theorem foldl_markLabelAppendOnly (apart : decls.Pairwise fun d e => d.label ≠ e.label)
    (fresh : ∀ d ∈ catalog.appendOnly, ∀ e ∈ decls, d.label ≠ e.label) :
    (decls.foldl (fun catalog d => catalog.markLabelAppendOnly d.label d.since) catalog).indexes =
        catalog.indexes ∧
      (decls.foldl (fun catalog d => catalog.markLabelAppendOnly d.label d.since)
        catalog).constraints = catalog.constraints ∧
      (decls.foldl (fun catalog d => catalog.markLabelAppendOnly d.label d.since)
        catalog).appendOnly = catalog.appendOnly ∪ decls.toFinset := by
  induction decls generalizing catalog with
  | nil => simp
  | cons decl rest ih =>
    obtain ⟨others, apart⟩ := pairwise_cons.mp apart
    have new : ∀ d ∈ catalog.appendOnly, d.label ≠ decl.label :=
      fun d mem => fresh d mem decl mem_cons_self
    have marked : (catalog.markLabelAppendOnly decl.label decl.since).indexes = catalog.indexes ∧
        (catalog.markLabelAppendOnly decl.label decl.since).constraints = catalog.constraints ∧
        (catalog.markLabelAppendOnly decl.label decl.since).appendOnly =
          insert decl catalog.appendOnly := by
      unfold SchemaCatalog.markLabelAppendOnly
      rw [dif_pos new]
      exact ⟨rfl, rfl, rfl⟩
    obtain ⟨indexes, constraints, appendOnly⟩ := marked
    have freshRest : ∀ d ∈ (catalog.markLabelAppendOnly decl.label decl.since).appendOnly,
        ∀ e ∈ rest, d.label ≠ e.label := by
      rw [appendOnly]
      intro d mem e inRest
      rcases Finset.mem_insert.mp mem with rfl | old
      · exact others e inRest
      · exact fresh d old e (.tail _ inRest)
    have later := ih apart freshRest
    rw [indexes, constraints, appendOnly] at later
    rw [foldl_cons, toFinset_cons, ← Finset.insert_union_comm]
    exact later

variable {listing : Listing}

theorem Listing.Lists.pairwise (lists : listing.Lists catalog) :
    listing.appendOnly.Pairwise fun d e => d.label ≠ e.label := by
  have members : ∀ d ∈ listing.appendOnly, d ∈ catalog.appendOnly := by
    intro d mem
    rw [← lists.appendOnly]
    exact mem_toFinset.mpr mem
  apply lists.appendOnlyOnce.imp_of_mem
  intro d e first second ne same
  exact ne (catalog.unique d (members d first) e (members e second) same)

theorem writeCount_ok {count : Nat} (ok : writeCount count = .ok written) :
    count < 256 ^ 4 ∧ written = leBytes 4 count := by
  rw [writeCount] at ok
  by_cases large : 2 ^ 32 ≤ count
  · rw [if_pos large] at ok
    cases ok
  · rw [if_neg large] at ok
    exact ⟨by omega, (Except.ok.inj ok).symm⟩

def header (idxCount conCount : Nat) : List UInt8 :=
  schemaMagic ++ leBytes 2 schemaVersion ++ [0, 0] ++ leBytes 4 idxCount ++ leBytes 4 conCount

theorem length_header (idxCount conCount : Nat) : (header idxCount conCount).length = headerSize := by
  simp [header, schemaMagic, headerSize]

theorem deserialize_header {idxCount conCount : Nat} (idxFits : idxCount < 256 ^ 4)
    (conFits : conCount < 256 ^ 4) (rest : List UInt8) :
    deserialize (header idxCount conCount ++ rest) = (do
      let (catalog, pos) ← readEntries SchemaCatalog.addIndex (header idxCount conCount ++ rest)
        idxCount headerSize {}
      let (catalog, pos) ← readEntries SchemaCatalog.addUniqueConstraint
        (header idxCount conCount ++ rest) conCount pos catalog
      if pos < (header idxCount conCount ++ rest).length then do
        let aoCount ← readU32 (header idxCount conCount ++ rest) pos
        readAppendOnly (header idxCount conCount ++ rest) aoCount (pos + 4) catalog
      else return catalog) := by
  have long : ¬(header idxCount conCount ++ rest).length < headerSize := by
    rw [length_append, length_header]
    omega
  have readMagic : span ([] ++ (schemaMagic ++ (leBytes 2 schemaVersion ++ ([0, 0] ++
      (leBytes 4 idxCount ++ (leBytes 4 conCount ++ rest)))))) 0 4 = schemaMagic :=
    span_append _ _ _ rfl rfl
  have readVersion : span (schemaMagic ++ (leBytes 2 schemaVersion ++ ([0, 0] ++
      (leBytes 4 idxCount ++ (leBytes 4 conCount ++ rest))))) 4 6 = leBytes 2 schemaVersion :=
    span_append _ _ _ rfl rfl
  have readIdx : span ((schemaMagic ++ (leBytes 2 schemaVersion ++ [0, 0])) ++
      (leBytes 4 idxCount ++ (leBytes 4 conCount ++ rest))) 8 12 = leBytes 4 idxCount :=
    span_append _ _ _ rfl (by simp)
  have readCon : span ((schemaMagic ++ (leBytes 2 schemaVersion ++ ([0, 0] ++
      leBytes 4 idxCount))) ++ (leBytes 4 conCount ++ rest)) 12 16 = leBytes 4 conCount :=
    span_append _ _ _ (by simp [schemaMagic]) (by simp)
  have version : leNat (leBytes 2 schemaVersion) = schemaVersion := leNat_leBytes (by decide)
  have whole : header idxCount conCount ++ rest = schemaMagic ++ (leBytes 2 schemaVersion ++
      ([0, 0] ++ (leBytes 4 idxCount ++ (leBytes 4 conCount ++ rest)))) := by
    simp only [header, append_assoc]
  simp only [append_assoc, nil_append] at readMagic readVersion readIdx readCon
  rw [deserialize, if_neg long, whole, readMagic, if_neg (not_not.mpr rfl), readVersion, version,
    if_neg (not_not.mpr rfl), readIdx, readCon, leNat_leBytes idxFits, leNat_leBytes conFits]

/-- The catalog that indexes and constraints declare. -/
def declared (indexes constraints : List Decl) : SchemaCatalog :=
  constraints.foldl SchemaCatalog.addUniqueConstraint (indexes.foldl SchemaCatalog.addIndex {})

theorem declared_indexes (indexes constraints : List Decl) :
    (declared indexes constraints).indexes = indexes.toFinset := by
  rw [declared, foldl_addUniqueConstraint, foldl_addIndex]
  exact Finset.empty_union _

theorem declared_constraints (indexes constraints : List Decl) :
    (declared indexes constraints).constraints = constraints.toFinset := by
  rw [declared, foldl_addUniqueConstraint, foldl_addIndex]
  exact Finset.empty_union _

theorem declared_appendOnly (indexes constraints : List Decl) :
    (declared indexes constraints).appendOnly = ∅ := by
  rw [declared, foldl_addUniqueConstraint, foldl_addIndex]

section Entries

variable {idx con : List Decl} {indexes constraints : List UInt8}

theorem deserialize_entries (idxFits : idx.length < 256 ^ 4) (conFits : con.length < 256 ^ 4)
    (indexesOk : writeAll writeEntry idx = .ok indexes)
    (constraintsOk : writeAll writeEntry con = .ok constraints) (rest : List UInt8) :
    deserialize (header idx.length con.length ++ (indexes ++ (constraints ++ rest))) =
      if headerSize + indexes.length + constraints.length <
          (header idx.length con.length ++ (indexes ++ (constraints ++ rest))).length then do
        let count ← readU32 (header idx.length con.length ++ (indexes ++ (constraints ++ rest)))
          (headerSize + indexes.length + constraints.length)
        readAppendOnly (header idx.length con.length ++ (indexes ++ (constraints ++ rest))) count
          (headerSize + indexes.length + constraints.length + 4) (declared idx con)
      else .ok (declared idx con) := by
  have start := length_header idx.length con.length
  have first := readEntries_write (header idx.length con.length) (constraints ++ rest)
    SchemaCatalog.addIndex indexesOk {}
  have second := readEntries_write (header idx.length con.length ++ indexes) rest
    SchemaCatalog.addUniqueConstraint constraintsOk (idx.foldl SchemaCatalog.addIndex {})
  rw [length_append, append_assoc, start] at second
  rw [start] at first
  rw [deserialize_header idxFits conFits, first]
  simp only [bind, Except.bind, second]
  rfl

theorem deserialize_unmarked (idxFits : idx.length < 256 ^ 4) (conFits : con.length < 256 ^ 4)
    (indexesOk : writeAll writeEntry idx = .ok indexes)
    (constraintsOk : writeAll writeEntry con = .ok constraints) :
    deserialize (header idx.length con.length ++ (indexes ++ (constraints ++ []))) =
      .ok (declared idx con) := by
  have atEnd : ¬headerSize + indexes.length + constraints.length <
      (header idx.length con.length ++ (indexes ++ (constraints ++ []))).length := by
    simp only [length_append, length_header, length_nil]
    omega
  rw [deserialize_entries idxFits conFits indexesOk constraintsOk, if_neg atEnd]

theorem deserialize_block {count : Nat} (idxFits : idx.length < 256 ^ 4)
    (conFits : con.length < 256 ^ 4) (fits : count < 256 ^ 4)
    (indexesOk : writeAll writeEntry idx = .ok indexes)
    (constraintsOk : writeAll writeEntry con = .ok constraints) (entries : List UInt8) :
    deserialize (header idx.length con.length ++
        (indexes ++ (constraints ++ (leBytes 4 count ++ entries)))) =
      readAppendOnly ((header idx.length con.length ++ (indexes ++ (constraints ++
          leBytes 4 count))) ++ entries) count
        (header idx.length con.length ++ (indexes ++ (constraints ++ leBytes 4 count))).length
        (declared idx con) := by
  have start := length_header idx.length con.length
  have readCount : span ((header idx.length con.length ++ (indexes ++ constraints)) ++
      (leBytes 4 count ++ entries)) (headerSize + indexes.length + constraints.length)
      (headerSize + indexes.length + constraints.length + 4) = leBytes 4 count := by
    apply span_append
    · simp only [length_append, start]
      omega
    · rw [length_leBytes]
  have further : headerSize + indexes.length + constraints.length + 4 ≤
      (header idx.length con.length ++
        (indexes ++ (constraints ++ (leBytes 4 count ++ entries)))).length := by
    simp only [length_append, start, length_leBytes]
    omega
  have place : (header idx.length con.length ++ (indexes ++ (constraints ++
      leBytes 4 count))).length = headerSize + indexes.length + constraints.length + 4 := by
    simp only [length_append, start, length_leBytes]
    omega
  simp only [append_assoc] at readCount
  rw [deserialize_entries idxFits conFits indexesOk constraintsOk, if_pos (by omega), readU32,
    if_pos further, readCount, leNat_leBytes fits, place]
  simp only [append_assoc]
  rfl

end Entries

/-- A catalog that was written is the catalog that is read. -/
theorem deserialize_serialize {bytes : List UInt8} (lists : listing.Lists catalog)
    (some_ : bytes ≠ []) (ok : serialize listing = .ok bytes) :
    deserialize bytes = .ok catalog := by
  rw [serialize] at ok
  by_cases empty : listing.indexes = [] ∧ listing.constraints = [] ∧ listing.appendOnly = []
  · rw [if_pos empty] at ok
    exact absurd (Except.ok.inj ok).symm some_
  · rw [if_neg empty] at ok
    obtain ⟨idxBytes, idxOk, ok⟩ := ok_of_bind ok
    obtain ⟨conBytes, conOk, ok⟩ := ok_of_bind ok
    obtain ⟨indexes, indexesOk, ok⟩ := ok_of_bind ok
    obtain ⟨constraints, constraintsOk, ok⟩ := ok_of_bind ok
    obtain ⟨block, blockOk, ok⟩ := ok_of_bind ok
    obtain ⟨idxFits, rfl⟩ := writeCount_ok idxOk
    obtain ⟨conFits, rfl⟩ := writeCount_ok conOk
    have whole : bytes = header listing.indexes.length listing.constraints.length ++
        (indexes ++ (constraints ++ block)) := (Except.ok.inj ok).symm
    have indexed := (declared_indexes listing.indexes listing.constraints).trans lists.indexes
    have constrained :=
      (declared_constraints listing.indexes listing.constraints).trans lists.constraints
    have unmarked := declared_appendOnly listing.indexes listing.constraints
    have appendOnly := lists.appendOnly
    rw [whole]
    rw [writeAppendOnlyBlock] at blockOk
    by_cases none_ : listing.appendOnly = []
    · rw [if_pos none_] at blockOk
      cases blockOk
      rw [deserialize_unmarked idxFits conFits indexesOk constraintsOk]
      rw [none_] at appendOnly
      exact congrArg Except.ok (SchemaCatalog.ext indexed constrained (unmarked.trans appendOnly))
    · rw [if_neg none_] at blockOk
      obtain ⟨countBytes, countOk, blockOk⟩ := ok_of_bind blockOk
      obtain ⟨entries, entriesOk, blockOk⟩ := ok_of_bind blockOk
      obtain ⟨fits, rfl⟩ := writeCount_ok countOk
      cases blockOk
      have read := readAppendOnly_write (header listing.indexes.length listing.constraints.length ++
        (indexes ++ (constraints ++ leBytes 4 listing.appendOnly.length))) [] entriesOk
        (declared listing.indexes listing.constraints)
      rw [append_nil] at read
      obtain ⟨sameIndexes, sameConstraints, marked⟩ := foldl_markLabelAppendOnly lists.pairwise
        (fun d mem => by rw [unmarked] at mem; exact absurd mem (Finset.notMem_empty d))
      rw [deserialize_block idxFits conFits fits indexesOk constraintsOk, read]
      rw [unmarked, Finset.empty_union, appendOnly] at marked
      exact congrArg Except.ok (SchemaCatalog.ext (sameIndexes.trans indexed)
        (sameConstraints.trans constrained) marked)

end RoundTrip

end ErmyaGraph.Schema
