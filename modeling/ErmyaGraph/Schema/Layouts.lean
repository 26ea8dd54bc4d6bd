import Mathlib.Data.Finset.Card
import ErmyaGraph.Schema.Codec

/-! # The layouts of schema files

A schema file was first written without an append-only block, then with a block of bare
labels, and then with a bound behind each label. The version never changed: a reader tells
the layouts apart by how many bytes are left. That tells a last label without a bound, and
no other. -/

namespace ErmyaGraph.Schema

open Bytes Outcome

variable {label : String} {written : List UInt8} {decl : AppendOnlyDecl}

/-- The shapes that the append-only block of a file has had. -/
inductive Layout where
  | unmarked
  | bare
  | bounded
deriving DecidableEq

namespace Layout

/-- A block of labels without bounds, as it was written before each label got one. -/
def writeBareBlock (decls : List AppendOnlyDecl) : Except Error (List UInt8) :=
  if decls = [] then .ok []
  else do
    let count ← writeCount decls.length
    let entries ← writeAll (fun decl => writeLabel decl.label) decls
    return count ++ entries

def block : Layout → List AppendOnlyDecl → Except Error (List UInt8)
  | .unmarked, _ => .ok []
  | .bare, decls => writeBareBlock decls
  | .bounded, decls => writeAppendOnlyBlock decls

/-- The file of a catalog in a layout. -/
def encode (layout : Layout) (listing : Listing) : Except Error (List UInt8) := do
  let idxCount ← writeCount listing.indexes.length
  let conCount ← writeCount listing.constraints.length
  let indexes ← writeAll writeEntry listing.indexes
  let constraints ← writeAll writeEntry listing.constraints
  let block ← layout.block listing.appendOnly
  return schemaMagic ++ leBytes 2 schemaVersion ++ [0, 0] ++ idxCount ++ conCount ++
    (indexes ++ (constraints ++ block))

theorem encode_bounded {listing : Listing}
    (some_ : ¬(listing.indexes = [] ∧ listing.constraints = [] ∧ listing.appendOnly = [])) :
    encode .bounded listing = serialize listing := by
  rw [serialize, if_neg some_]
  rfl

def Holds (layout : Layout) (catalog : SchemaCatalog) : Prop :=
  layout = .unmarked → catalog.appendOnly = ∅

/-- A label without a bound covers every node of the label. -/
def since : Layout → UInt64 → UInt64
  | .bare, _ => 0
  | _, since => since

/-- The append-only labels that a file in a layout declares. -/
def reread (layout : Layout) (decl : AppendOnlyDecl) : AppendOnlyDecl :=
  ⟨decl.label, layout.since decl.since⟩

/-- What a catalog means when it is kept in a layout. -/
def meaning (layout : Layout) (catalog : SchemaCatalog) : SchemaCatalog :=
  { catalog with
    appendOnly := catalog.appendOnly.image layout.reread
    unique := by
      intro d first e second same
      obtain ⟨d, dMember, rfl⟩ := Finset.mem_image.mp first
      obtain ⟨e, eMember, rfl⟩ := Finset.mem_image.mp second
      rw [catalog.unique d dMember e eMember same] }

variable (layout : Layout) (catalog : SchemaCatalog)

theorem meaning_indexes : (layout.meaning catalog).indexes = catalog.indexes := rfl

theorem meaning_constraints : (layout.meaning catalog).constraints = catalog.constraints := rfl

theorem meaning_appendOnly :
    (layout.meaning catalog).appendOnly = catalog.appendOnly.image layout.reread := rfl

theorem meaning_of_ne {layout : Layout} (kept : layout ≠ .bare) (catalog : SchemaCatalog) :
    layout.meaning catalog = catalog := by
  have same : layout.reread = id := by
    funext decl
    cases layout with
    | bare => exact absurd rfl kept
    | unmarked => rfl
    | bounded => rfl
  apply SchemaCatalog.ext
  · rfl
  · rfl
  · rw [meaning_appendOnly, same, Finset.image_id]

end Layout

theorem writeLabel_ok (ok : writeLabel label = .ok written) :
    (ofString label).length < 256 ^ 2 ∧
      written = leBytes 2 (ofString label).length ++ ofString label := by
  rw [writeLabel] at ok
  by_cases long : 2 ^ 16 ≤ (ofString label).length
  · rw [if_pos long] at ok
    cases ok
  · rw [if_neg long] at ok
    exact ⟨by omega, (Except.ok.inj ok).symm⟩

theorem ofString_eq_nil (empty : (ofString label).length = 0) : label = "" := by
  have text := toString?_ofString label
  rw [List.length_eq_zero_iff.mp empty] at text
  exact (Option.some.inj text).symm

/-- The label behind a bare label is never read as a bound of `0`. -/
theorem labels_bound_ne_zero {decls : List AppendOnlyDecl}
    (ok : writeAll (fun decl => writeLabel decl.label) decls = .ok written)
    (apart : decls.Pairwise fun d e => d.label ≠ e.label) (room : 8 ≤ written.length) :
    u64 (span written 0 8) ≠ 0 := by
  intro zero
  -- A bound of zero is eight bytes of zero, so a length that starts the bytes is zero too.
  have wide : leNat (written.take 8) < 2 ^ 64 := by
    have bound := leNat_lt (written.take 8)
    rw [List.length_take, Nat.min_eq_left room] at bound
    exact bound
  have zeros : leNat (written.take 8) = 0 := by
    have value := congrArg UInt64.toNat zero
    rw [u64, span, List.drop_zero, UInt64.toNat_ofNat', Nat.mod_eq_of_lt wide] at value
    exact value
  have startsZero : ∀ (front back : List UInt8), written = front ++ back → front.length ≤ 8 →
      leNat front = 0 := by
    intro front back whole short
    rw [whole, List.take_append, List.take_of_length_le short, leNat_append] at zeros
    omega
  cases decls with
  | nil =>
    cases ok
    simp at room
  | cons first decls =>
    obtain ⟨firstBytes, firstOk, ok⟩ := ok_of_bind ok
    obtain ⟨others, othersOk, ok⟩ := ok_of_bind ok
    cases ok
    obtain ⟨firstFits, rfl⟩ := writeLabel_ok firstOk
    have firstZero := startsZero (leBytes 2 (ofString first.label).length)
      (ofString first.label ++ others) (List.append_assoc _ _ _) (by rw [length_leBytes]; decide)
    rw [leNat_leBytes firstFits] at firstZero
    have firstEmpty := List.length_eq_zero_iff.mp firstZero
    rw [firstEmpty] at startsZero room
    cases decls with
    | nil =>
      cases othersOk
      simp at room
    | cons second decls =>
      obtain ⟨secondBytes, secondOk, othersOk⟩ := ok_of_bind othersOk
      obtain ⟨rest, _, othersOk⟩ := ok_of_bind othersOk
      cases othersOk
      obtain ⟨secondFits, rfl⟩ := writeLabel_ok secondOk
      have secondZero := startsZero
        (leBytes 2 0 ++ leBytes 2 (ofString second.label).length)
        (ofString second.label ++ rest)
        (by simp only [List.length_nil, List.append_nil, List.append_assoc])
        (by simp only [List.length_append, length_leBytes]; decide)
      rw [leNat_append, leNat_leBytes secondFits, length_leBytes] at secondZero
      have secondLength : (ofString second.label).length = 0 := by omega
      have ne := (List.pairwise_cons.mp apart).1 second List.mem_cons_self
      exact ne ((ofString_eq_nil firstZero).trans (ofString_eq_nil secondLength).symm)

variable {catalog : SchemaCatalog}

theorem markLabelAppendOnly_mono (label : String) (since : UInt64)
    (mem : decl ∈ catalog.appendOnly) :
    decl ∈ (catalog.markLabelAppendOnly label since).appendOnly := by
  unfold SchemaCatalog.markLabelAppendOnly
  split
  · exact Finset.mem_insert_of_mem mem
  · exact mem

theorem mem_markLabelAppendOnly (fresh : ∀ d ∈ catalog.appendOnly, d.label ≠ label)
    (since : UInt64) : ⟨label, since⟩ ∈ (catalog.markLabelAppendOnly label since).appendOnly := by
  unfold SchemaCatalog.markLabelAppendOnly
  rw [dif_pos fresh]
  exact Finset.mem_insert_self _ _

theorem readAppendOnly_mono {bytes : List UInt8} {count pos : Nat} {result : SchemaCatalog}
    (ok : readAppendOnly bytes count pos catalog = .ok result) :
    catalog.appendOnly ⊆ result.appendOnly := by
  induction count generalizing pos catalog with
  | zero =>
    cases ok
    exact Finset.Subset.refl _
  | succ count ih =>
    obtain ⟨⟨label, pos⟩, _, ok⟩ := ok_of_bind ok
    obtain ⟨⟨since, pos⟩, _, ok⟩ := ok_of_bind ok
    intro decl mem
    exact ih ok (markLabelAppendOnly_mono label since mem)

variable (before : List UInt8)

theorem readAppendOnly_single (ok : writeLabel decl.label = .ok written) (catalog : SchemaCatalog) :
    readAppendOnly (before ++ written) 1 before.length catalog =
      .ok (catalog.markLabelAppendOnly decl.label 0) := by
  have here := readLabel_write before [] ok
  rw [List.append_nil] at here
  have noRoom : ¬before.length + written.length + 8 ≤ (before ++ written).length := by
    rw [List.length_append]
    omega
  have atEnd : ¬before.length + written.length < (before ++ written).length := by
    rw [List.length_append]
    omega
  rw [readAppendOnly, here]
  simp only [bind, Except.bind, readSince, if_neg noRoom, if_neg atEnd]
  rfl

/-- A bare label in front of another is not read with the bound `0`. -/
theorem readAppendOnly_bare {next : AppendOnlyDecl} {rest : List AppendOnlyDecl}
    (ok : writeAll (fun decl => writeLabel decl.label) (decl :: next :: rest) = .ok written)
    (apart : (decl :: next :: rest).Pairwise fun d e => d.label ≠ e.label) {count : Nat}
    {result : SchemaCatalog} (fresh : ∀ d ∈ catalog.appendOnly, d.label ≠ decl.label)
    (read : readAppendOnly (before ++ written) (count + 1) before.length catalog = .ok result) :
    ⟨decl.label, 0⟩ ∉ result.appendOnly := by
  obtain ⟨label, labelOk, ok⟩ := ok_of_bind ok
  obtain ⟨others, othersOk, ok⟩ := ok_of_bind ok
  cases ok
  obtain ⟨⟨text, pos⟩, readOk, read⟩ := ok_of_bind read
  rw [readLabel_write before others labelOk] at readOk
  cases readOk
  obtain ⟨⟨since, pos⟩, sinceOk, read⟩ := ok_of_bind read
  have bounded : since ≠ 0 := by
    have nonempty : 0 < others.length := by
      obtain ⟨second, secondOk, othersOk⟩ := ok_of_bind othersOk
      obtain ⟨others, _, othersOk⟩ := ok_of_bind othersOk
      cases othersOk
      obtain ⟨_, rfl⟩ := writeLabel_ok secondOk
      simp only [List.length_append, length_leBytes]
      omega
    by_cases room : 8 ≤ others.length
    · have window : span ((before ++ label) ++ others) (before.length + label.length)
          (before.length + label.length + 8) = span others 0 8 := by
        rw [span, span, List.drop_zero, ← List.length_append, List.take_length_add_append,
          List.drop_left]
      have fits : before.length + label.length + 8 ≤ (before ++ (label ++ others)).length := by
        simp only [List.length_append]
        omega
      rw [readSince, if_pos fits, ← List.append_assoc, window] at sinceOk
      cases sinceOk
      exact labels_bound_ne_zero othersOk (List.pairwise_cons.mp apart).2 room
    · have noRoom : ¬before.length + label.length + 8 ≤ (before ++ (label ++ others)).length := by
        simp only [List.length_append]
        omega
      have leftover : before.length + label.length < (before ++ (label ++ others)).length := by
        simp only [List.length_append]
        omega
      rw [readSince, if_neg noRoom, if_pos leftover] at sinceOk
      cases sinceOk
  intro mem
  have marked := readAppendOnly_mono read (mem_markLabelAppendOnly fresh since)
  have same := result.unique _ marked _ mem rfl
  exact bounded (congrArg AppendOnlyDecl.since same)

namespace Layout

section Reading

variable {layout : Layout} {listing : Listing} {catalog : SchemaCatalog} {bytes : List UInt8}

theorem card_appendOnly (lists : listing.Lists catalog) :
    catalog.appendOnly.card = listing.appendOnly.length := by
  rw [← lists.appendOnly, List.toFinset_card_of_nodup lists.appendOnlyOnce]

theorem encode_ok (ok : layout.encode listing = .ok bytes) :
    ∃ indexes constraints block, listing.indexes.length < 256 ^ 4 ∧
      listing.constraints.length < 256 ^ 4 ∧ writeAll writeEntry listing.indexes = .ok indexes ∧
      writeAll writeEntry listing.constraints = .ok constraints ∧
      layout.block listing.appendOnly = .ok block ∧
      bytes = header listing.indexes.length listing.constraints.length ++
        (indexes ++ (constraints ++ block)) := by
  obtain ⟨idxBytes, idxOk, ok⟩ := ok_of_bind ok
  obtain ⟨conBytes, conOk, ok⟩ := ok_of_bind ok
  obtain ⟨indexes, indexesOk, ok⟩ := ok_of_bind ok
  obtain ⟨constraints, constraintsOk, ok⟩ := ok_of_bind ok
  obtain ⟨block, blockOk, ok⟩ := ok_of_bind ok
  obtain ⟨idxFits, rfl⟩ := writeCount_ok idxOk
  obtain ⟨conFits, rfl⟩ := writeCount_ok conOk
  exact ⟨indexes, constraints, block, idxFits, conFits, indexesOk, constraintsOk, blockOk,
    (Except.ok.inj ok).symm⟩

theorem deserialize_serialized (lists : listing.Lists catalog)
    (ok : encode .bounded listing = .ok bytes) : deserialize bytes = .ok catalog := by
  by_cases empty : listing.indexes = [] ∧ listing.constraints = [] ∧ listing.appendOnly = []
  · obtain ⟨indexes, constraints, block, idxFits, conFits, indexesOk, constraintsOk, blockOk, rfl⟩ :=
      encode_ok ok
    rw [Layout.block, writeAppendOnlyBlock, if_pos empty.2.2] at blockOk
    cases blockOk
    rw [deserialize_unmarked idxFits conFits indexesOk constraintsOk]
    refine congrArg Except.ok (SchemaCatalog.ext ?_ ?_ ?_)
    · rw [declared_indexes, lists.indexes]
    · rw [declared_constraints, lists.constraints]
    · rw [declared_appendOnly, ← lists.appendOnly, empty.2.2]
      rfl
  · have some_ : bytes ≠ [] := by
      obtain ⟨indexes, constraints, block, _, _, _, _, _, rfl⟩ := encode_ok ok
      simp [header, schemaMagic]
    rw [encode_bounded empty] at ok
    exact deserialize_serialize lists some_ ok

theorem block_nil (layout : Layout) : layout.block [] = .ok [] := by
  cases layout <;> rfl

theorem encode_unmarked (none_ : listing.appendOnly = []) (layout : Layout) :
    layout.encode listing = encode .bounded listing := by
  rw [encode, encode, none_, block_nil, block_nil]

/-- A file of bare labels is read as it was meant if and only if it has one label at most. -/
theorem deserialize_bare (lists : listing.Lists catalog) (some_ : listing.appendOnly ≠ [])
    (ok : encode .bare listing = .ok bytes) :
    deserialize bytes = .ok (meaning .bare catalog) ↔ listing.appendOnly.length ≤ 1 := by
  obtain ⟨indexes, constraints, block, idxFits, conFits, indexesOk, constraintsOk, blockOk, rfl⟩ :=
    encode_ok ok
  rw [Layout.block, writeBareBlock, if_neg some_] at blockOk
  obtain ⟨countBytes, countOk, blockOk⟩ := ok_of_bind blockOk
  obtain ⟨entries, entriesOk, blockOk⟩ := ok_of_bind blockOk
  obtain ⟨fits, rfl⟩ := writeCount_ok countOk
  cases blockOk
  have unmarked := declared_appendOnly listing.indexes listing.constraints
  have members := lists.appendOnly
  have apart := lists.pairwise
  rw [deserialize_block idxFits conFits fits indexesOk constraintsOk]
  generalize front : header listing.indexes.length listing.constraints.length ++
    (indexes ++ (constraints ++ leBytes 4 listing.appendOnly.length)) = before
  match labels : listing.appendOnly with
  | [] => exact absurd labels some_
  | [decl] =>
    rw [labels] at entriesOk members
    obtain ⟨label, labelOk, entriesOk⟩ := ok_of_bind entriesOk
    obtain ⟨others, othersOk, entriesOk⟩ := ok_of_bind entriesOk
    cases othersOk
    cases entriesOk
    rw [List.append_nil, List.length_singleton, readAppendOnly_single before labelOk]
    refine iff_of_true (congrArg Except.ok ?_) (Nat.le_refl 1)
    obtain ⟨sameIndexes, sameConstraints, marked⟩ := @foldl_markLabelAppendOnly [⟨decl.label, 0⟩]
        (declared listing.indexes listing.constraints)
        (List.pairwise_singleton _ _)
        (fun d mem => by rw [unmarked] at mem; exact absurd mem (Finset.notMem_empty d))
    refine SchemaCatalog.ext (sameIndexes.trans ?_) (sameConstraints.trans ?_) (marked.trans ?_)
    · rw [declared_indexes, lists.indexes, meaning_indexes]
    · rw [declared_constraints, lists.constraints, meaning_constraints]
    · rw [unmarked, meaning_appendOnly, ← members]
      rfl
  | decl :: next :: rest =>
    rw [labels] at entriesOk members apart
    refine iff_of_false ?_ (by simp)
    intro read
    refine readAppendOnly_bare before entriesOk apart ?_ read ?_
    · intro d mem
      rw [unmarked] at mem
      exact absurd mem (Finset.notMem_empty d)
    · rw [meaning_appendOnly, ← members]
      exact Finset.mem_image_of_mem (reread .bare) (List.mem_toFinset.mpr List.mem_cons_self)

/-- **Old schema files.** A file is read as it was meant in its layout, unless it lists two or
more labels without bounds. -/
theorem deserialize_iff (lists : listing.Lists catalog) (holds : layout.Holds catalog)
    (ok : layout.encode listing = .ok bytes) :
    deserialize bytes = .ok (layout.meaning catalog) ↔
      (layout = .bare → catalog.appendOnly.card ≤ 1) := by
  rw [card_appendOnly lists]
  by_cases none_ : listing.appendOnly = []
  · rw [encode_unmarked none_] at ok
    have unmarked : layout.meaning catalog = catalog := by
      refine SchemaCatalog.ext rfl rfl ?_
      rw [meaning_appendOnly, ← lists.appendOnly, none_]
      rfl
    rw [unmarked, none_]
    exact iff_of_true (deserialize_serialized lists ok) (fun _ => Nat.zero_le 1)
  · cases layout with
    | bare =>
      rw [deserialize_bare lists none_ ok]
      exact ⟨fun short _ => short, fun short => short rfl⟩
    | bounded =>
      rw [meaning_of_ne (by decide)]
      exact iff_of_true (deserialize_serialized lists ok) (fun same => nomatch same)
    | unmarked =>
      have gone := holds rfl
      rw [← lists.appendOnly, List.toFinset_eq_empty_iff] at gone
      exact absurd gone none_

/-- The test fixture of an old file: an index, and a label without a bound. -/
def oneLabel : Listing := ⟨[⟨"Person", "id"⟩], [], [⟨"Event", 0⟩]⟩

def oneLabelCatalog : SchemaCatalog :=
  { indexes := {⟨"Person", "id"⟩}, appendOnly := {⟨"Event", 0⟩}, unique := by decide }

def oneLabelFile : List UInt8 :=
  [84, 71, 83, 67, 1, 0, 0, 0, 1, 0, 0, 0, 0, 0, 0, 0, 6, 0, 80, 101, 114, 115, 111, 110, 2, 0,
    105, 100, 1, 0, 0, 0, 5, 0, 69, 118, 101, 110, 116]

theorem deserialize_iff_oneLabel : deserialize oneLabelFile = .ok (meaning .bare oneLabelCatalog) :=
  (@deserialize_iff .bare oneLabel oneLabelCatalog oneLabelFile
    ⟨by decide, by decide, by decide, by decide, by decide, by decide⟩ nofun rfl).mpr
      (fun _ => by decide)

def twoLabels : Listing := ⟨[⟨"Person", "id"⟩], [], [⟨"Event", 0⟩, ⟨"AuditLog", 0⟩]⟩

def twoLabelsCatalog : SchemaCatalog :=
  { indexes := {⟨"Person", "id"⟩}, appendOnly := {⟨"Event", 0⟩, ⟨"AuditLog", 0⟩}
    unique := by decide }

/-- Of two bare labels the second is taken for the bound of the first. -/
theorem bare_labels_misread :
    twoLabels.Lists twoLabelsCatalog ∧ ∃ bytes, encode .bare twoLabels = .ok bytes ∧
        deserialize bytes = .error (.corruptIndex "schema.bin: truncated string") := by
  refine ⟨⟨by decide, by decide, by decide, by decide, by decide, by decide⟩, ?_⟩
  exact ⟨[84, 71, 83, 67, 1, 0, 0, 0, 1, 0, 0, 0, 0, 0, 0, 0, 6, 0, 80, 101, 114, 115, 111, 110,
    2, 0, 105, 100, 2, 0, 0, 0, 5, 0, 69, 118, 101, 110, 116, 8, 0, 65, 117, 100, 105, 116, 76,
    111, 103], rfl, rfl⟩

end Reading

end Layout

end ErmyaGraph.Schema
