import Mathlib.Data.Finset.Card
import Mathlib.Data.List.AList
import ErmyaGraph.Data
import ErmyaGraph.Lib.Checked
import ErmyaGraph.Lib.Outcome

/-! # The label index file

The index maps a label to the ids that carry it. Its file lists the pairs one
after the other, each with the length of its label, under a count. -/

namespace ErmyaGraph

open Bytes Checked Outcome

/-- The ids by label. -/
structure LabelIndex where
  map : AList fun _ : String => Finset UInt64 := ∅

namespace LabelIndex

def new : LabelIndex := {}

/-- Register an id under a label; a registered pair stays registered once. -/
def insert (index : LabelIndex) (label : String) (id : UInt64) : LabelIndex :=
  match index.map.lookup label with
  | some ids => ⟨index.map.insert label (Insert.insert id ids)⟩
  | none => ⟨index.map.insert label {id}⟩

def entryCount (index : LabelIndex) : Nat :=
  (index.map.entries.map fun entry => entry.2.card).sum

def Has (index : LabelIndex) (label : String) (id : UInt64) : Prop :=
  ∃ ids, index.map.lookup label = some ids ∧ id ∈ ids

/-- An order in which the pairs are iterated: each registered pair once, and no other. -/
structure Iterates (index : LabelIndex) (pairs : List (String × UInt64)) : Prop where
  once : pairs.Nodup
  mem_iff : ∀ label id, (label, id) ∈ pairs ↔ index.Has label id

theorem not_has_new (label : String) (id : UInt64) : ¬new.Has label id := by
  intro ⟨ids, found, _⟩
  cases found

variable {index : LabelIndex}

theorem has_insert {label other : String} {id otherId : UInt64} :
    (index.insert label id).Has other otherId ↔
      (other, otherId) = (label, id) ∨ index.Has other otherId := by
  unfold insert Has
  by_cases same : other = label
  · subst same
    cases found : index.map.lookup other with
    | none => simp
    | some ids => simp
  · have apart : (other, otherId) ≠ (label, id) := fun equal => same (Prod.ext_iff.mp equal).1
    cases found : index.map.lookup label with
    | none => simp [AList.lookup_insert_ne same, apart]
    | some ids => simp [AList.lookup_insert_ne same, apart]

/-- One order of the pairs: label by label. -/
noncomputable def pairs (index : LabelIndex) : List (String × UInt64) :=
  index.map.entries.flatMap fun entry => entry.2.toList.map (Prod.mk entry.1)

theorem iterates_pairs (index : LabelIndex) : index.Iterates index.pairs where
  once := by
    refine List.nodup_flatMap.mpr ⟨fun entry _ => ?_, ?_⟩
    · exact (Finset.nodup_toList _).map fun _ _ same => (Prod.ext_iff.mp same).2
    · refine (List.nodupKeys_iff_pairwise.mp index.map.nodupKeys).imp fun {first second} apart => ?_
      intro pair left right
      obtain ⟨_, _, rfl⟩ := List.mem_map.mp left
      obtain ⟨_, _, same⟩ := List.mem_map.mp right
      exact apart (Prod.ext_iff.mp same).1.symm
  mem_iff label id := by
    simp only [pairs, List.mem_flatMap, List.mem_map, Finset.mem_toList, Has]
    constructor
    · intro ⟨entry, mem, _, held, same⟩
      cases same
      exact ⟨entry.2, AList.mem_lookup_iff.mpr mem, held⟩
    · intro ⟨ids, found, held⟩
      exact ⟨⟨label, ids⟩, AList.mem_lookup_iff.mp found, id, held, rfl⟩

theorem Iterates.length_eq {listed : List (String × UInt64)} (iterates : index.Iterates listed) :
    listed.length = index.entryCount := by
  have perm : listed.Perm index.pairs := by
    refine (List.perm_ext_iff_of_nodup iterates.once index.iterates_pairs.once).mpr ?_
    intro (label, id)
    rw [iterates.mem_iff, index.iterates_pairs.mem_iff]
  rw [perm.length_eq, pairs, List.length_flatMap, entryCount]
  congr 1
  simp

end LabelIndex

namespace IndexCodec

variable {count : Nat} {label : String} {id : UInt64}

def indexMagic : List UInt8 := [0x54, 0x47, 0x49, 0x58]

def indexVersion : Nat := 2

def headerSize : Nat := 4 + 2 + 2 + 4

def kindNode : UInt8 := 1

def kindEdge : UInt8 := 2

/-- One entry. Entries follow each other with no separator. -/
def writeEntry (kind : UInt8) (entry : String × UInt64) : Except Error (List UInt8) :=
  if (ofString entry.1).length < 2 ^ 32 then
    .ok (kind :: leBytes 4 (ofString entry.1).length ++ ofString entry.1 ++ leBytes 8 entry.2.toNat)
  else .error (.recordTooLarge (ofString entry.1).length)

def writeEntries (kind : UInt8) : List (String × UInt64) → Except Error (List UInt8)
  | [] => .ok []
  | entry :: rest => do
      let first ← writeEntry kind entry
      let others ← writeEntries kind rest
      return first ++ others

def header (count : Nat) : List UInt8 :=
  indexMagic ++ leBytes 2 indexVersion ++ [0, 0] ++ leBytes 4 count

/-- The file of two indexes whose pairs are iterated in the given orders. -/
def serialize (nodes edges : LabelIndex) (nodePairs edgePairs : List (String × UInt64)) :
    Except Error (List UInt8) := do
  let count := nodes.entryCount + edges.entryCount
  if 2 ^ 32 ≤ count then
    throw (.recordTooLarge count)
  let first ← writeEntries kindNode nodePairs
  let second ← writeEntries kindEdge edgePairs
  return header count ++ (first ++ second)

inductive IndexError where
  | corruptIndex (reason : String)
  | incompatibleVersion (found expected : Nat)
deriving DecidableEq

/-- `data.get(pos..pos + len)`, or an error with the given reason. -/
def getRange (data : List UInt8) (pos len : Nat) (reason : String) :
    Attempt IndexError (List UInt8) :=
  if pos + len ≤ data.length then .ok (span data pos (pos + len))
  else .error (.error (.corruptIndex reason))

def decodeLabel (bytes : List UInt8) : Attempt IndexError String :=
  match toString? bytes with
  | some label => .ok label
  | none => .error (.error (.corruptIndex "invalid UTF-8 in label"))

/-- The entry at a position, and the position behind it. -/
def readEntry (data : List UInt8) (pos : Nat) :
    Attempt IndexError ((List UInt8 × String × UInt64) × Nat) := do
  let kind ← getRange data pos 1 "truncated entry: missing kind"
  let pos := pos + 1
  let labelLen ← getRange data pos 4 "truncated entry: missing label_len"
  let labelLen := leNat labelLen
  let pos := pos + 4
  let label ← getRange data pos labelLen "truncated entry: missing label data"
  let label ← decodeLabel label
  let pos := pos + labelLen
  let id ← getRange data pos 8 "truncated entry: missing id"
  return ((kind, label, u64 id), pos + 8)

/-- Register an entry in the index of its kind. -/
def register (kind : List UInt8) (label : String) (id : UInt64)
    (indexes : LabelIndex × LabelIndex) : Attempt IndexError (LabelIndex × LabelIndex) :=
  if kind = [kindNode] then .ok (indexes.1.insert label id, indexes.2)
  else if kind = [kindEdge] then .ok (indexes.1, indexes.2.insert label id)
  else .error (.error (.corruptIndex "unknown entry kind"))

/-- Read `count` entries, and return the position behind them. -/
def readEntries (data : List UInt8) : (count : Nat) → Nat → LabelIndex × LabelIndex →
    Attempt IndexError ((LabelIndex × LabelIndex) × Nat)
  | 0, pos, indexes => .ok (indexes, pos)
  | count + 1, pos, indexes => do
      let ((kind, label, id), pos) ← readEntry data pos
      let indexes ← register kind label id indexes
      readEntries data count pos indexes

/-- The four bytes at a position as a number. -/
def wordAt (data : List UInt8) (pos : Nat) : Attempt IndexError Nat := do
  let b0 ← byteAt data pos
  let b1 ← byteAt data (pos + 1)
  let b2 ← byteAt data (pos + 2)
  let b3 ← byteAt data (pos + 3)
  return leNat [b0, b1, b2, b3]

def deserialize (data : List UInt8) : Attempt IndexError (LabelIndex × LabelIndex) := do
  if data.length < headerSize then
    throw (.error (.corruptIndex "file too short for header"))
  let magic ← rangeOf data 0 4
  if magic ≠ indexMagic then
    throw (.error (.corruptIndex "invalid magic bytes"))
  let v0 ← byteAt data 4
  let v1 ← byteAt data 5
  let version := leNat [v0, v1]
  if version ≠ indexVersion then
    throw (.error (.incompatibleVersion version indexVersion))
  let entryCount ← wordAt data 8
  let (indexes, _) ← readEntries data entryCount headerSize (.new, .new)
  return indexes

section Calm

variable {data : List UInt8} {pos len : Nat}

theorem calm_getRange (data : List UInt8) (pos len : Nat) (reason : String) :
    Calm (getRange data pos len reason) :=
  calm_ite (fun _ => calm_ok _) fun _ => calm_error _

theorem calm_decodeLabel (bytes : List UInt8) : Calm (decodeLabel bytes) := by
  unfold decodeLabel
  split
  · exact calm_ok _
  · exact calm_error _

theorem calm_readEntry (data : List UInt8) (pos : Nat) : Calm (readEntry data pos) := by
  refine (calm_getRange _ _ _ _).bind fun kind _ => ?_
  refine (calm_getRange _ _ _ _).bind fun labelLen _ => ?_
  refine (calm_getRange _ _ _ _).bind fun bytes _ => ?_
  refine (calm_decodeLabel bytes).bind fun label _ => ?_
  exact (calm_getRange _ _ _ _).bind fun id _ => calm_ok _

theorem calm_register (kind : List UInt8) (label : String) (id : UInt64)
    (indexes : LabelIndex × LabelIndex) : Calm (register kind label id indexes) :=
  calm_ite (fun _ => calm_ok _) fun _ => calm_ite (fun _ => calm_ok _) fun _ => calm_error _

theorem calm_readEntries (data : List UInt8) (count pos : Nat) (indexes : LabelIndex × LabelIndex) :
    Calm (readEntries data count pos indexes) := by
  induction count generalizing pos indexes with
  | zero => exact calm_ok _
  | succ count ih =>
    refine (calm_readEntry data pos).bind fun entry _ => ?_
    exact (calm_register _ _ _ _).bind fun indexes _ => ih _ indexes

theorem calm_byteAt (inside : pos < data.length) :
    Calm (byteAt data pos : Attempt IndexError UInt8) := calm_demand.mpr inside

theorem calm_wordAt (inside : pos + 3 < data.length) : Calm (wordAt data pos) := by
  refine (calm_byteAt (by omega)).bind fun _ _ => ?_
  refine (calm_byteAt (by omega)).bind fun _ _ => ?_
  refine (calm_byteAt (by omega)).bind fun _ _ => ?_
  exact (calm_byteAt inside).bind fun _ _ => calm_ok _

theorem calm_deserialize (data : List UInt8) : Calm (deserialize data) := by
  by_cases short : data.length < headerSize
  · rw [deserialize, if_pos short]
    exact calm_error _
  · have room : 12 ≤ data.length := not_lt.mp short
    rw [deserialize, if_neg short]
    refine (calm_demand.mpr ⟨Nat.zero_le _, by omega⟩).bind fun magic _ => ?_
    refine calm_ite (fun _ => calm_error _) fun _ => ?_
    refine (calm_byteAt (by omega)).bind fun v0 _ => ?_
    refine (calm_byteAt (by omega)).bind fun v1 _ => ?_
    refine calm_ite (fun _ => calm_error _) fun _ => ?_
    refine (calm_wordAt (by omega)).bind fun count _ => ?_
    exact (calm_readEntries _ _ _ _).bind fun read _ => calm_ok _

end Calm

section Cut

variable {front data : List UInt8} {pos : Nat}

theorem getRange_mono {len : Nat} {reason : String} {bytes : List UInt8} (cut : front <+: data)
    (read : getRange front pos len reason = .ok bytes) :
    getRange data pos len reason = .ok bytes ∧ pos + len ≤ front.length := by
  unfold getRange at read
  split at read
  · next room =>
      have longer := cut.length_le
      have same : span front pos (pos + len) = span data pos (pos + len) := by
        obtain ⟨back, rfl⟩ := cut
        rw [span, span, List.take_append_of_le_length room]
      cases read
      exact ⟨by rw [getRange, if_pos (by omega), same], room⟩
  · cases read

theorem readEntry_mono {entry : List UInt8 × String × UInt64} {next : Nat} (cut : front <+: data)
    (read : readEntry front pos = .ok (entry, next)) :
    readEntry data pos = .ok (entry, next) ∧ next ≤ front.length := by
  obtain ⟨kind, first, read⟩ := ok_of_bind read
  obtain ⟨labelLen, second, read⟩ := ok_of_bind read
  obtain ⟨bytes, third, read⟩ := ok_of_bind read
  obtain ⟨label, text, read⟩ := ok_of_bind read
  obtain ⟨id, fourth, read⟩ := ok_of_bind read
  cases read
  obtain ⟨fourth, inside⟩ := getRange_mono cut fourth
  refine ⟨?_, inside⟩
  simp only [readEntry, (getRange_mono cut first).1, (getRange_mono cut second).1,
    (getRange_mono cut third).1, text, fourth, bind, Except.bind]
  rfl

theorem readEntries_mono {next : Nat} {indexes read : LabelIndex × LabelIndex}
    (cut : front <+: data) (inside : pos ≤ front.length)
    (ok : readEntries front count pos indexes = .ok (read, next)) :
    readEntries data count pos indexes = .ok (read, next) ∧ next ≤ front.length := by
  induction count generalizing pos indexes with
  | zero =>
    cases ok
    exact ⟨rfl, inside⟩
  | succ count ih =>
    obtain ⟨⟨⟨kind, label, id⟩, behind⟩, entry, ok⟩ := ok_of_bind ok
    obtain ⟨indexes', registered, ok⟩ := ok_of_bind ok
    obtain ⟨entry, within⟩ := readEntry_mono cut entry
    obtain ⟨rest, ends⟩ := ih within ok
    refine ⟨?_, ends⟩
    simp only [readEntries, entry, registered, rest, bind, Except.bind]

end Cut

section RoundTrip

def insertAll (index : LabelIndex) (pairs : List (String × UInt64)) : LabelIndex :=
  pairs.foldl (fun index pair => index.insert pair.1 pair.2) index

theorem has_insertAll {index : LabelIndex} {pairs : List (String × UInt64)} :
    (insertAll index pairs).Has label id ↔ (label, id) ∈ pairs ∨ index.Has label id := by
  induction pairs generalizing index with
  | nil => simp [insertAll]
  | cons pair rest ih =>
    have next : insertAll index (pair :: rest) = insertAll (index.insert pair.1 pair.2) rest := rfl
    rw [next, ih, LabelIndex.has_insert, List.mem_cons]
    tauto

theorem getRange_append (front mid back : List UInt8) {pos len : Nat} (reason : String)
    (starts : front.length = pos) (ends : mid.length = len) :
    getRange (front ++ (mid ++ back)) pos len reason = .ok mid := by
  have room : pos + len ≤ (front ++ (mid ++ back)).length := by
    simp only [List.length_append]
    omega
  rw [getRange, if_pos room, span_append front mid back starts (by omega)]

variable {kind : UInt8} {written : List UInt8}

theorem writeEntry_eq_ok (ok : writeEntry kind (label, id) = .ok written) :
    (ofString label).length < 256 ^ 4 ∧ written = [kind] ++ (leBytes 4 (ofString label).length ++
        (ofString label ++ leBytes 8 id.toNat)) := by
  unfold writeEntry at ok
  split at ok
  · next fits =>
      cases ok
      exact ⟨fits, by simp only [List.cons_append, List.append_assoc, List.nil_append]⟩
  · cases ok

theorem readEntry_writeEntry (ok : writeEntry kind (label, id) = .ok written)
    (front back : List UInt8) :
    readEntry (front ++ (written ++ back)) front.length =
      .ok (([kind], label, id), front.length + written.length) := by
  obtain ⟨fits, rfl⟩ := writeEntry_eq_ok ok
  let size := leBytes 4 (ofString label).length
  let rest := leBytes 8 id.toNat ++ back
  have first := getRange_append front [kind] (size ++ (ofString label ++ rest))
    "truncated entry: missing kind" rfl rfl
  have second := getRange_append (front ++ [kind]) size (ofString label ++ rest)
    "truncated entry: missing label_len" rfl (length_leBytes _ _)
  have third := getRange_append (front ++ [kind] ++ size) (ofString label) rest
    "truncated entry: missing label data" rfl rfl
  have fourth := getRange_append (front ++ [kind] ++ size ++ ofString label) (leBytes 8 id.toNat)
    back "truncated entry: missing id" rfl (length_leBytes _ _)
  have ends : front.length + 1 + 4 + (ofString label).length + 8 = front.length +
      ([kind] ++ (leBytes 4 (ofString label).length ++
        (ofString label ++ leBytes 8 id.toNat))).length := by
    simp only [List.length_append, length_leBytes, List.length_cons, List.length_nil]
    omega
  have decoded : decodeLabel (ofString label) = .ok label := by simp [decodeLabel]
  rw [← ends]
  simp only [List.append_assoc, List.length_append, List.length_cons, List.length_nil, size,
    rest, length_leBytes, Nat.zero_add] at first second third fourth ⊢
  simp only [readEntry, first, second, leNat_leBytes fits, third, decoded, fourth, bind,
    Except.bind, u64_leBytes, Nat.add_assoc]
  rfl

theorem readEntries_writeEntries {entries : List (String × UInt64)}
    (ok : writeEntries kind entries = .ok written)
    {add : LabelIndex × LabelIndex → String × UInt64 → LabelIndex × LabelIndex}
    (adds : ∀ indexes label id, register [kind] label id indexes = .ok (add indexes (label, id)))
    (front back : List UInt8) (more : Nat) (indexes : LabelIndex × LabelIndex) :
    readEntries (front ++ (written ++ back)) (entries.length + more) front.length indexes =
      readEntries (front ++ (written ++ back)) more (front.length + written.length)
        (entries.foldl add indexes) := by
  induction entries generalizing front written indexes with
  | nil =>
    cases ok
    simp
  | cons entry rest ih =>
    obtain ⟨first, firstOk, ok⟩ := ok_of_bind ok
    obtain ⟨others, othersOk, ok⟩ := ok_of_bind ok
    cases ok
    have here := readEntry_writeEntry firstOk front (others ++ back)
    have later := ih othersOk (front ++ first) (add indexes entry)
    have count : (entry :: rest).length + more = (rest.length + more) + 1 := by
      rw [List.length_cons]
      omega
    rw [List.length_append, List.append_assoc] at later
    rw [count, List.append_assoc, readEntries, here]
    simp only [bind, Except.bind, adds, later, List.foldl_cons, List.length_append, Nat.add_assoc]

variable (indexes : LabelIndex × LabelIndex)

theorem register_node (label : String) (id : UInt64) :
    register [kindNode] label id indexes = .ok (indexes.1.insert label id, indexes.2) := rfl

theorem register_edge (label : String) (id : UInt64) :
    register [kindEdge] label id indexes = .ok (indexes.1, indexes.2.insert label id) := rfl

theorem foldl_nodes (pairs : List (String × UInt64)) (indexes : LabelIndex × LabelIndex) :
    pairs.foldl (fun indexes pair => (indexes.1.insert pair.1 pair.2, indexes.2)) indexes =
      (insertAll indexes.1 pairs, indexes.2) := by
  induction pairs generalizing indexes with
  | nil => rfl
  | cons pair rest ih => exact ih _

theorem foldl_edges (pairs : List (String × UInt64)) (indexes : LabelIndex × LabelIndex) :
    pairs.foldl (fun indexes pair => (indexes.1, indexes.2.insert pair.1 pair.2)) indexes =
      (indexes.1, insertAll indexes.2 pairs) := by
  induction pairs generalizing indexes with
  | nil => rfl
  | cons pair rest ih => exact ih _

@[simp]
theorem length_header (count : Nat) : (header count).length = headerSize := by
  simp [header, indexMagic, headerSize]

end RoundTrip

section Files

variable {nodes edges : LabelIndex} {nodePairs edgePairs : List (String × UInt64)}
  {bytes : List UInt8}

theorem serialize_eq_ok (ok : serialize nodes edges nodePairs edgePairs = .ok bytes) :
    nodes.entryCount + edges.entryCount < 2 ^ 32 ∧
      ∃ first second, writeEntries kindNode nodePairs = .ok first ∧
        writeEntries kindEdge edgePairs = .ok second ∧
        bytes = header (nodes.entryCount + edges.entryCount) ++ (first ++ second) := by
  obtain ⟨few, ok⟩ := ok_of_guard ok
  obtain ⟨first, firstOk, ok⟩ := ok_of_bind ok
  obtain ⟨second, secondOk, ok⟩ := ok_of_bind ok
  cases ok
  exact ⟨not_le.mp few, first, second, firstOk, secondOk, rfl⟩

theorem wordAt_header (fits : count < 2 ^ 32) (rest : List UInt8) :
    wordAt (header count ++ rest) 8 = .ok count := by
  have read : leNat (leBytes 4 count) = count := leNat_leBytes fits
  have room : ∀ i, i < 12 → i < (header count ++ rest).length := by
    intro i below
    rw [List.length_append, length_header, headerSize]
    omega
  simp only [wordAt, byteAt]
  rw [demand_of (room 8 (by omega)), demand_of (room 9 (by omega)), demand_of (room 10 (by omega)),
    demand_of (room 11 (by omega))]
  exact congrArg Except.ok read

theorem deserialize_header (fits : count < 2 ^ 32) (rest : List UInt8) :
    deserialize (header count ++ rest) =
      (readEntries (header count ++ rest) count headerSize (.new, .new)).map Prod.fst := by
  have long : ¬(header count ++ rest).length < headerSize := by
    rw [List.length_append, length_header]
    omega
  have magic : (rangeOf (header count ++ rest) 0 4 : Attempt IndexError _) = .ok indexMagic :=
    demand_of ⟨Nat.zero_le _, by rw [List.length_append, length_header, headerSize]; omega⟩
  have v0 : (byteAt (header count ++ rest) 4 : Attempt IndexError _) = .ok 2 :=
    demand_of (by rw [List.length_append, length_header, headerSize]; omega)
  have v1 : (byteAt (header count ++ rest) 5 : Attempt IndexError _) = .ok 0 :=
    demand_of (by rw [List.length_append, length_header, headerSize]; omega)
  rw [deserialize, if_neg long, magic]
  simp only [bind, Except.bind, ne_eq, not_true_eq_false, ↓reduceIte, v0, v1,
    wordAt_header fits rest]
  have version : leNat [2, 0] = indexVersion := rfl
  rw [if_neg (not_not_intro version)]
  cases readEntries (header count ++ rest) count headerSize (.new, .new) <;> rfl

theorem deserialize_eq_ok {data : List UInt8} {read : LabelIndex × LabelIndex}
    (ok : deserialize data = .ok read) :
    ∃ count next, headerSize ≤ data.length ∧ wordAt data 8 = .ok count ∧
      readEntries data count headerSize (.new, .new) = .ok (read, next) := by
  obtain ⟨long, ok⟩ := ok_of_guard ok
  obtain ⟨magic, _, ok⟩ := ok_of_bind ok
  obtain ⟨_, ok⟩ := ok_of_guard ok
  obtain ⟨v0, _, ok⟩ := ok_of_bind ok
  obtain ⟨v1, _, ok⟩ := ok_of_bind ok
  obtain ⟨_, ok⟩ := ok_of_guard ok
  obtain ⟨count, counted, ok⟩ := ok_of_bind ok
  obtain ⟨⟨indexes, next⟩, entries, ok⟩ := ok_of_bind ok
  cases ok
  exact ⟨count, next, not_lt.mp long, counted, entries⟩

theorem wordAt_append {front back : List UInt8} {pos : Nat} (inside : pos + 3 < front.length) :
    wordAt (front ++ back) pos = wordAt front pos := by
  have byte : ∀ i, i < front.length →
      (byteAt (front ++ back) i : Attempt IndexError UInt8) = byteAt front i := by
    intro i below
    have within : i < (front ++ back).length := by
      rw [List.length_append]
      omega
    rw [byteAt, byteAt, demand_of below, demand_of within, List.getD_append _ _ _ _ below]
  rw [wordAt, wordAt, byte pos (by omega), byte (pos + 1) (by omega), byte (pos + 2) (by omega),
    byte (pos + 3) inside]

theorem readEntries_serialize (nodesOrder : nodes.Iterates nodePairs)
    (edgesOrder : edges.Iterates edgePairs)
    (ok : serialize nodes edges nodePairs edgePairs = .ok bytes) :
    ∃ count rest, count < 2 ^ 32 ∧ bytes = header count ++ rest ∧
      readEntries bytes count headerSize (.new, .new) =
        .ok ((insertAll .new nodePairs, insertAll .new edgePairs), bytes.length) := by
  obtain ⟨few, first, second, firstOk, secondOk, rfl⟩ := serialize_eq_ok ok
  refine ⟨_, _, few, rfl, ?_⟩
  generalize counted : nodes.entryCount + edges.entryCount = count at few ⊢
  have total : count = nodePairs.length + (edgePairs.length + 0) := by
    rw [nodesOrder.length_eq, edgesOrder.length_eq, Nat.add_zero, counted]
  let addNode (indexes : LabelIndex × LabelIndex) (pair : String × UInt64) :=
    (indexes.1.insert pair.1 pair.2, indexes.2)
  let addEdge (indexes : LabelIndex × LabelIndex) (pair : String × UInt64) :=
    (indexes.1, indexes.2.insert pair.1 pair.2)
  have ofNodes := @readEntries_writeEntries _ _ _ firstOk addNode register_node (header count)
    second (edgePairs.length + 0) (.new, .new)
  have ofEdges := @readEntries_writeEntries _ _ _ secondOk addEdge register_edge
    (header count ++ first) [] 0 (insertAll .new nodePairs, .new)
  rw [foldl_nodes, length_header, ← total] at ofNodes
  rw [foldl_edges, List.append_nil, List.append_assoc, List.length_append, length_header] at ofEdges
  rw [ofNodes, ofEdges, readEntries, List.length_append, List.length_append, length_header,
    Nat.add_assoc]

theorem deserialize_prefix_ne_ok (nodesOrder : nodes.Iterates nodePairs)
    (edgesOrder : edges.Iterates edgePairs)
    (ok : serialize nodes edges nodePairs edgePairs = .ok bytes) {front : List UInt8}
    (cut : front <+: bytes) (strict : front ≠ bytes) (read : LabelIndex × LabelIndex) :
    deserialize front ≠ .ok read := by
  intro readOk
  obtain ⟨count, rest, few, whole, entries⟩ := readEntries_serialize nodesOrder edgesOrder ok
  obtain ⟨count', next, long, counted, entries'⟩ := deserialize_eq_ok readOk
  -- The prefix holds the header, so it announces as many entries as the whole file.
  have same : count' = count := by
    have inWhole := wordAt_header few rest
    obtain ⟨back, rfl⟩ := cut
    rw [← whole, wordAt_append (Nat.lt_of_lt_of_le (by decide) long), counted] at inWhole
    exact Except.ok.inj inWhole
  subst same
  obtain ⟨again, within⟩ := readEntries_mono cut long entries'
  rw [entries] at again
  have ends : bytes.length = next := (Prod.ext_iff.mp (Except.ok.inj again)).2
  exact strict (cut.eq_of_length_le (ends ▸ within))

end Files

/-- The file of two label indexes is read back with the same pairs, a strict prefix of it is an
error, and no byte string makes the reader panic. -/
theorem label_index_file :
    (∀ (nodes edges : LabelIndex) (nodePairs edgePairs : List (String × UInt64))
      (bytes : List UInt8), nodes.Iterates nodePairs → edges.Iterates edgePairs →
        serialize nodes edges nodePairs edgePairs = .ok bytes →
          (∃ n e, deserialize bytes = .ok (n, e) ∧
            (∀ label id, n.Has label id ↔ nodes.Has label id) ∧
            ∀ label id, e.Has label id ↔ edges.Has label id) ∧
          ∀ front, front <+: bytes → front ≠ bytes → ∃ e, deserialize front = .error (.error e)) ∧
      ∀ data, Calm (deserialize data) := by
  refine ⟨fun nodes edges nodePairs edgePairs bytes nodesOrder edgesOrder ok => ⟨?_, ?_⟩,
    calm_deserialize⟩
  · obtain ⟨count, rest, few, whole, entries⟩ := readEntries_serialize nodesOrder edgesOrder ok
    refine ⟨insertAll .new nodePairs, insertAll .new edgePairs, ?_, fun label id => ?_,
      fun label id => ?_⟩
    · rw [whole] at entries ⊢
      rw [deserialize_header few rest, entries]
      rfl
    · rw [has_insertAll, nodesOrder.mem_iff, or_iff_left (LabelIndex.not_has_new label id)]
    · rw [has_insertAll, edgesOrder.mem_iff, or_iff_left (LabelIndex.not_has_new label id)]
  · intro front cut strict
    exact (calm_deserialize front).error_of_not_ok
      (deserialize_prefix_ne_ok nodesOrder edgesOrder ok cut strict)

def sampleNodes : LabelIndex := LabelIndex.new.insert "P" 7

theorem sampleNodes_iterates : sampleNodes.Iterates [("P", 7)] where
  once := List.nodup_singleton _
  mem_iff label id := by
    rw [sampleNodes, LabelIndex.has_insert, or_iff_left (LabelIndex.not_has_new label id),
      List.mem_singleton]

theorem new_iterates : LabelIndex.new.Iterates [] where
  once := List.nodup_nil
  mem_iff label id := iff_of_false List.not_mem_nil (LabelIndex.not_has_new label id)

def sampleFile : List UInt8 :=
  [84, 71, 73, 88, 2, 0, 0, 0, 1, 0, 0, 0, 1, 1, 0, 0, 0, 80, 7, 0, 0, 0, 0, 0, 0, 0]

theorem sample_file_read_and_cut :
    (∃ n e, deserialize sampleFile = .ok (n, e) ∧ n.Has "P" 7) ∧
      ∃ e, deserialize (sampleFile.take 20) = .error (.error e) := by
  obtain ⟨⟨n, e, read, nodes, _⟩, cut⟩ := label_index_file.1 sampleNodes .new [("P", 7)] []
    sampleFile sampleNodes_iterates new_iterates rfl
  refine ⟨⟨n, e, read, ?_⟩, cut _ (List.take_prefix _ _) (by decide)⟩
  exact (nodes "P" 7).mpr (LabelIndex.has_insert.mpr (.inl rfl))

end IndexCodec

end ErmyaGraph
