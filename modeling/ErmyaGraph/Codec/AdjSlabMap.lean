import ErmyaGraph.Lib.Runs
import ErmyaGraph.Codec.AdjSlab

/-! # A shared adjacency page as a map

The page maps a node and a direction to an edge list. The operations on its
bytes are the operations of the map, or leave the page alone. -/

namespace ErmyaGraph.AdjSlabCodec

open Bytes Outcome Runs Store List Option Subblock

variable {index offset : Nat} {direction : AdjDirection} {added : List Nat}

/-- The footprints of two sub-blocks do not meet. -/
def Apart (left right : Subblock) : Prop :=
  left.edges = [] ∨ right.edges = [] ∨
    left.offset + left.edges.length * adjEdgeSize ≤ right.offset ∨
    right.offset + right.edges.length * adjEdgeSize ≤ left.offset

theorem Apart.symm {left right : Subblock} (apart : Apart left right) : Apart right left := by
  unfold Apart at apart ⊢
  tauto

/-- The sub-blocks lie behind the directory, inside the page, and apart from each other. -/
structure Laid (entries : List Subblock) : Prop where
  room : directoryAreaEnd entries.length ≤ pagePayloadSize
  inside : ∀ entry ∈ entries, entry.offset + entry.edges.length * adjEdgeSize ≤ pagePayloadSize
  above : ∀ entry ∈ entries, entry.direction.isSome → directoryAreaEnd entries.length ≤ entry.offset
  freed : ∀ entry ∈ entries, entry.direction = none → entry.edges = []
  apart : ∀ (i j : Nat) (left right : Subblock), i ≠ j → entries[i]? = some left →
    entries[j]? = some right → left.direction.isSome → right.direction.isSome → Apart left right
  unique : ∀ (i j : Nat) (left right : Subblock) (node : Nat) (direction : AdjDirection),
    entries[i]? = some left → entries[j]? = some right → isFor node direction left →
    isFor node direction right → i = j

/-- The bytes of a directory entry. -/
structure EntryIs (mem : Memory) (index : Nat) (entry : Subblock) : Prop where
  node : readLe mem (entryAt index) 8 = entry.node
  state : mem (entryAt index + 8) = stateByte entry.direction
  offset : readLe mem (entryAt index + 10) 2 = entry.offset
  edgeCount : readLe mem (entryAt index + 12) 2 = entry.edges.length

variable {mem : Memory}

theorem EntryIs.congr {mem' : Memory} {entry : Subblock} (here : EntryIs mem index entry)
    (same : ∀ i, entryAt index ≤ i → i < entryAt index + adjDirEntrySize → mem' i = mem i) :
    EntryIs mem' index entry := by
  have size : adjDirEntrySize = 14 := rfl
  constructor
  · rw [readLe_congr fun i above below => same i above (by omega), here.node]
  · rw [same _ (by omega) (by omega), here.state]
  · rw [readLe_congr fun i above below => same i (by omega) (by omega), here.offset]
  · rw [readLe_congr fun i above below => same i (by omega) (by omega), here.edgeCount]

/-- The bytes of a page hold the sub-blocks. -/
structure Holds (mem : Memory) (entries : List Subblock) : Prop where
  count : readLe mem 0 2 = entries.length
  directory : ∀ (i : Nat) (entry : Subblock), entries[i]? = some entry → EntryIs mem i entry
  edges : ∀ entry ∈ entries, readWords mem entry.offset entry.edges.length = entry.edges

theorem entryAt_add (index : Nat) :
    entryAt index + adjDirEntrySize = directoryAreaEnd (index + 1) := by
  simp only [entryAt, directoryAreaEnd, Nat.add_mul, Nat.one_mul, Nat.add_assoc]

theorem directoryAreaEnd_mono {small large : Nat} (le : small ≤ large) :
    directoryAreaEnd small ≤ directoryAreaEnd large :=
  Nat.add_le_add_left (Nat.mul_le_mul_right _ le) _

theorem entryAt_apart {i j : Nat} (ne : i ≠ j) :
    entryAt i + adjDirEntrySize ≤ entryAt j ∨ entryAt j + adjDirEntrySize ≤ entryAt i := by
  rcases Nat.lt_or_gt_of_ne ne with less | greater
  · left
    rw [entryAt_add]
    exact directoryAreaEnd_mono less
  · right
    rw [entryAt_add]
    exact directoryAreaEnd_mono greater

section Reading

variable {page : PageId} {entries : List Subblock}

theorem readDirTotalCount_eq (holds : Holds mem entries) (laid : Laid entries) :
    readDirTotalCount page mem = .ok entries.length := by
  rw [readDirTotalCount, holds.count, if_neg (Nat.not_lt.mpr laid.room)]

/-- The fields that the directory keeps of a sub-block. -/
def dirEntry (entry : Subblock) : DirEntry := ⟨entry.node, entry.offset, entry.edges.length⟩

variable {entry : Subblock}

theorem readDirEntry_eq (holds : Holds mem entries) (laid : Laid entries) {i : Nat}
    (here : entries[i]? = some entry) :
    readDirEntry page mem i entries.length =
      .ok (some (stateByte entry.direction, dirEntry entry)) := by
  obtain ⟨bound, _⟩ := List.getElem?_eq_some_iff.mp here
  obtain ⟨node, state, offset, edgeCount⟩ := holds.directory i entry here
  have inside := laid.inside entry (mem_of_getElem? here)
  have known : stateByte entry.direction = stateByte none ∨
      stateByte entry.direction = stateByte (some .outgoing) ∨
      stateByte entry.direction = stateByte (some .incoming) := by
    cases entry.direction with
    | none => exact .inl rfl
    | some direction =>
      cases direction with
      | outgoing => exact .inr (.inl rfl)
      | incoming => exact .inr (.inr rfl)
  simp only [readDirEntry, node, state, offset, edgeCount, if_neg (Nat.not_le.mpr bound),
    if_neg (Nat.not_lt.mpr inside), if_pos known, dirEntry]

/-- The first live sub-block of a node and direction from an index on. -/
def firstFor (node : Nat) (direction : AdjDirection) : Nat → List Subblock → Option (Nat × Subblock)
  | _, [] => none
  | index, entry :: rest =>
    if isFor node direction entry then some (index, entry)
    else firstFor node direction (index + 1) rest

variable {node : Nat}

theorem isFor_iff :
    isFor node direction entry ↔
      stateByte entry.direction = stateByte (some direction) ∧ entry.node = node := by
  simp only [isFor, Bool.and_eq_true, decide_eq_true_eq]
  constructor
  · intro ⟨sameNode, same⟩
    exact ⟨congrArg stateByte same, sameNode⟩
  · intro ⟨same, sameNode⟩
    exact ⟨sameNode, stateByte_inj same⟩

theorem getElem?_of_suffix {rest : List Subblock} (suffix : entries.drop index = entry :: rest) :
    entries[index]? = some entry ∧ entries.drop (index + 1) = rest := by
  constructor
  · have first := congrArg List.head? suffix
    rw [List.head?_drop] at first
    exact first
  · rw [← drop_drop, suffix]
    rfl

variable {suffix : List Subblock}

theorem findFrom_eq (holds : Holds mem entries) (laid : Laid entries) (node : Nat)
    (direction : AdjDirection) (isSuffix : entries.drop index = suffix) :
    findFrom page mem node direction entries.length suffix.length index =
      .ok ((firstFor node direction index suffix).map fun found => (found.1, dirEntry found.2)) := by
  induction suffix generalizing index with
  | nil => rfl
  | cons entry rest ih =>
    obtain ⟨here, later⟩ := getElem?_of_suffix isSuffix
    rw [length_cons, findFrom, readDirEntry_eq holds laid here]
    simp only [bind, Except.bind, dirEntry, ← isFor_iff, firstFor]
    by_cases wanted : isFor node direction entry
    · simp [wanted]
    · simp only [wanted, Bool.false_eq_true, ↓reduceIte]
      exact ih later

theorem findLiveEntry_eq (holds : Holds mem entries) (laid : Laid entries) (node : Nat)
    (direction : AdjDirection) :
    findLiveEntry page mem node direction =
      .ok ((firstFor node direction 0 entries).map fun found => (found.1, dirEntry found.2)) := by
  rw [findLiveEntry, readDirTotalCount_eq holds laid]
  exact findFrom_eq holds laid node direction rfl

theorem firstFor_some {start i : Nat}
    (found : firstFor node direction start entries = some (i, entry)) :
    start ≤ i ∧ entries[i - start]? = some entry ∧ isFor node direction entry := by
  induction entries generalizing start with
  | nil => cases found
  | cons first rest ih =>
    rw [firstFor] at found
    split at found
    · next wanted =>
        cases found
        exact ⟨Nat.le_refl i, by simp, wanted⟩
    · obtain ⟨above, here, wanted⟩ := ih found
      have index : i - start = (i - (start + 1)) + 1 := by omega
      exact ⟨by omega, by rw [index, List.getElem?_cons_succ]; exact here, wanted⟩

theorem firstFor_none {start : Nat} (missing : firstFor node direction start entries = none) :
    ∀ entry ∈ entries, ¬isFor node direction entry := by
  induction entries generalizing start with
  | nil => exact fun _ mem => nomatch mem
  | cons first rest ih =>
    rw [firstFor] at missing
    split at missing
    · cases missing
    · next other =>
        intro entry mem
        rcases mem_cons.mp mem with rfl | later
        · exact other
        · exact ih missing entry later

theorem firstFor_of_unique (laid : Laid entries) {i : Nat} (here : entries[i]? = some entry)
    (wanted : isFor node direction entry) :
    firstFor node direction 0 entries = some (i, entry) := by
  cases found : firstFor node direction 0 entries with
  | none => exact absurd wanted (firstFor_none found entry (mem_of_getElem? here))
  | some other =>
    obtain ⟨_, there, wanted'⟩ := firstFor_some found
    rw [Nat.sub_zero] at there
    have same := laid.unique _ _ _ _ node direction there here wanted' wanted
    rw [← same, there] at here
    have entry_ := some.inj here
    rw [← entry_, ← same]

def lowWater (low : Nat) (entries : List Subblock) : Nat :=
  entries.foldl (fun low entry => if entry.direction.isSome then min low entry.offset else low) low

theorem lowWaterFrom_eq (holds : Holds mem entries) (laid : Laid entries) {low : Nat}
    (isSuffix : entries.drop index = suffix) :
    lowWaterFrom page mem entries.length suffix.length index low = .ok (lowWater low suffix) := by
  induction suffix generalizing index low with
  | nil => rfl
  | cons entry rest ih =>
    obtain ⟨here, later⟩ := getElem?_of_suffix isSuffix
    rw [length_cons, lowWaterFrom, readDirEntry_eq holds laid here]
    simp only [bind, Except.bind, dirEntry]
    rw [ih later, lowWater, lowWater, foldl_cons]
    cases state : entry.direction with
    | none => simp
    | some direction => cases direction <;> simp [stateByte]

theorem lowWater_le (low : Nat) (entries : List Subblock) :
    lowWater low entries ≤ low ∧
      ∀ entry ∈ entries, entry.direction.isSome → lowWater low entries ≤ entry.offset := by
  induction entries generalizing low with
  | nil => exact ⟨Nat.le_refl low, fun _ mem => nomatch mem⟩
  | cons first rest ih =>
    have step : lowWater low (first :: rest) =
        lowWater (if first.direction.isSome then min low first.offset else low) rest := rfl
    rw [step]
    by_cases live : first.direction.isSome
    · rw [if_pos live]
      obtain ⟨below, others⟩ := ih (min low first.offset)
      refine ⟨Nat.le_trans below (Nat.min_le_left _ _), fun entry mem isLive => ?_⟩
      rcases mem_cons.mp mem with rfl | later
      · exact Nat.le_trans below (Nat.min_le_right _ _)
      · exact others entry later isLive
    · rw [if_neg live]
      obtain ⟨below, others⟩ := ih low
      refine ⟨below, fun entry mem isLive => ?_⟩
      rcases mem_cons.mp mem with rfl | later
      · exact absurd isLive live
      · exact others entry later isLive

theorem subblocksBytesUsed_eq (holds : Holds mem entries) (laid : Laid entries) :
    subblocksBytesUsed page mem = .ok (pagePayloadSize - lowWater pagePayloadSize entries) := by
  rw [subblocksBytesUsed, readDirTotalCount_eq holds laid]
  have low : lowWaterFrom page mem entries.length entries.length 0 pagePayloadSize =
      .ok (lowWater pagePayloadSize entries) := lowWaterFrom_eq holds laid rfl
  simp only [bind, Except.bind, low]
  rfl

def edgesFor (entries : List Subblock) (node : Nat) (direction : AdjDirection) :
    Option (List Nat) :=
  (firstFor node direction 0 entries).map fun found => found.2.edges

theorem readSubblock_eq (holds : Holds mem entries) (laid : Laid entries) (node : Nat)
    (direction : AdjDirection) :
    readSubblock page mem node direction =
      match edgesFor entries node direction with
      | some edges => .ok edges
      | none => .error (noLiveSubblock page) := by
  rw [readSubblock, findLiveEntry_eq holds laid, edgesFor]
  cases found : firstFor node direction 0 entries with
  | none => rfl
  | some entry =>
    obtain ⟨_, here, _⟩ := firstFor_some found
    have edges := holds.edges entry.2 (mem_of_getElem? here)
    simp only [map_some, bind, Except.bind, dirEntry, edges]
    rfl

end Reading

section Directory

variable {mem' : Memory} {entries : List Subblock}

theorem writeDirEntry_outside {node edgeCount i : Nat}
    (outside : i < entryAt index ∨ entryAt index + adjDirEntrySize ≤ i) :
    writeDirEntry mem index node direction offset edgeCount i = mem i := by
  have size : adjDirEntrySize = 14 := rfl
  have two : [stateByte (some direction), (0 : UInt8)].length = 2 := rfl
  rw [writeDirEntry, writeLe_outside (by omega), writeLe_outside (by omega),
    splice_outside (by omega), writeLe_outside (by omega)]

theorem entryIs_writeDirEntry (mem : Memory) (index : Nat) {node : Nat} {edges : List Nat}
    (nodeFits : node < 256 ^ 8) (offsetFits : offset < 256 ^ 2) (short : edges.length < 256 ^ 2) :
    EntryIs (writeDirEntry mem index node direction offset edges.length) index
      ⟨node, some direction, offset, edges⟩ := by
  have two : [stateByte (some direction), (0 : UInt8)].length = 2 := rfl
  constructor
  · rw [writeDirEntry]
    rw [readLe_congr fun i _ _ => writeLe_outside (by omega),
      readLe_congr fun i _ _ => writeLe_outside (by omega),
      readLe_congr fun i _ _ => splice_outside (by omega), readLe_writeLe _ _ nodeFits]
  · rw [writeDirEntry, writeLe_outside (by omega), writeLe_outside (by omega),
      splice_inside (Nat.le_refl _) (by omega), Nat.sub_self]
    rfl
  · rw [writeDirEntry]
    rw [readLe_congr fun i _ _ => writeLe_outside (by omega), readLe_writeLe _ _ offsetFits]
  · rw [writeDirEntry, readLe_writeLe _ _ short]

theorem Holds.edges_of_same {entry : Subblock} (holds : Holds mem entries) (member : entry ∈ entries)
    (same : ∀ a, entry.offset ≤ a → a < entry.offset + entry.edges.length * adjEdgeSize →
      mem' a = mem a) :
    readWords mem' entry.offset entry.edges.length = entry.edges := by
  have bytes : entry.edges.length * adjEdgeSize = 8 * entry.edges.length := Nat.mul_comm _ 8
  rw [readWords_congr fun a above below => same a above (by omega), holds.edges entry member]

end Directory

section Changes

variable {mem' : Memory} {entries : List Subblock} {entry entry' : Subblock} {i : Nat}

theorem firstFor_append (node : Nat) (direction : AdjDirection) (start : Nat) (last : Subblock) :
    firstFor node direction start (entries ++ [last]) = (firstFor node direction start entries).or
        (if isFor node direction last then some (start + entries.length, last)
          else none) := by
  induction entries generalizing start with
  | nil => simp [firstFor]
  | cons first rest ih =>
    rw [cons_append, firstFor, firstFor]
    by_cases wanted : isFor node direction first
    · simp [wanted]
    · have index : start + 1 + rest.length = start + (first :: rest).length := by
        rw [length_cons]
        omega
      rw [if_neg wanted, if_neg wanted, ih, index]

variable {node : Nat}

theorem firstFor_set (start : Nat) (here : entries[i]? = some entry)
    (before : ¬isFor node direction entry) (after : ¬isFor node direction entry') :
    firstFor node direction start (entries.set i entry') = firstFor node direction start entries := by
  induction entries generalizing i start with
  | nil => rfl
  | cons first rest ih =>
    cases i with
    | zero =>
      have first_ : first = entry := some.inj here
      rw [set_cons_zero, firstFor, firstFor, first_, if_neg before, if_neg after]
    | succ i =>
      rw [set_cons_succ, firstFor, firstFor, ih (start + 1) here]

theorem firstFor_eq_none (other : ∀ entry ∈ entries, ¬isFor node direction entry) :
    firstFor node direction 0 entries = none := by
  cases found : firstFor node direction 0 entries with
  | none => rfl
  | some there =>
    obtain ⟨_, here, wanted⟩ := firstFor_some found
    exact absurd wanted (other there.2 (mem_of_getElem? here))

theorem of_getElem?_set {j : Nat} {other : Subblock} (here : entries[i]? = some entry)
    (there : (entries.set i entry')[j]? = some other) :
    j = i ∧ other = entry' ∨ j ≠ i ∧ entries[j]? = some other := by
  by_cases at_ : j = i
  · rw [at_, List.getElem?_set_self (List.getElem?_eq_some_iff.mp here).1] at there
    exact .inl ⟨at_, (some.inj there).symm⟩
  · rw [List.getElem?_set_ne (Ne.symm at_)] at there
    exact .inr ⟨at_, there⟩

/-- A sub-block that changes within its own space leaves the page laid out. -/
theorem Laid.set (laid : Laid entries) (here : entries[i]? = some entry)
    (inside : entry'.offset + entry'.edges.length * adjEdgeSize ≤ pagePayloadSize)
    (above : entry'.direction.isSome → directoryAreaEnd entries.length ≤ entry'.offset)
    (freed : entry'.direction = none → entry'.edges = [])
    (apart : ∀ (j : Nat) (other : Subblock), j ≠ i → entries[j]? = some other →
      entry'.direction.isSome → other.direction.isSome → Apart entry' other)
    (same : ∀ (node : Nat) (direction : AdjDirection), isFor node direction entry' →
      isFor node direction entry) : Laid (entries.set i entry') := by
  constructor
  · rw [length_set]
    exact laid.room
  · intro other mem
    rcases mem_or_eq_of_mem_set mem with before | rfl
    · exact laid.inside other before
    · exact inside
  · intro other mem isLive
    rw [length_set]
    rcases mem_or_eq_of_mem_set mem with before | rfl
    · exact laid.above other before isLive
    · exact above isLive
  · intro other mem isFreed
    rcases mem_or_eq_of_mem_set mem with before | rfl
    · exact laid.freed other before isFreed
    · exact freed isFreed
  · intro j k left right ne atJ atK liveLeft liveRight
    rcases of_getElem?_set here atJ with ⟨jIs, rfl⟩ | ⟨jNot, beforeJ⟩
    · rcases of_getElem?_set here atK with ⟨kIs, _⟩ | ⟨kNot, beforeK⟩
      · exact absurd (jIs.trans kIs.symm) ne
      · exact apart k right kNot beforeK liveLeft liveRight
    · rcases of_getElem?_set here atK with ⟨kIs, rfl⟩ | ⟨kNot, beforeK⟩
      · exact (apart j left jNot beforeJ liveRight liveLeft).symm
      · exact laid.apart j k left right ne beforeJ beforeK liveLeft liveRight
  · intro j k left right node direction atJ atK forLeft forRight
    rcases of_getElem?_set here atJ with ⟨jIs, rfl⟩ | ⟨jNot, beforeJ⟩
    · rcases of_getElem?_set here atK with ⟨kIs, _⟩ | ⟨kNot, beforeK⟩
      · exact jIs.trans kIs.symm
      · exact absurd (laid.unique k i right entry node direction beforeK here forRight
          (same node direction forLeft)) kNot
    · rcases of_getElem?_set here atK with ⟨kIs, rfl⟩ | ⟨kNot, beforeK⟩
      · exact absurd (laid.unique j i left entry node direction beforeJ here forLeft
          (same node direction forRight)) jNot
      · exact laid.unique j k left right node direction beforeJ beforeK forLeft forRight

theorem Holds.set (holds : Holds mem entries) (here : entries[i]? = some entry)
    (count : readLe mem' 0 2 = readLe mem 0 2) (changed : EntryIs mem' i entry')
    (filled : readWords mem' entry'.offset entry'.edges.length = entry'.edges)
    (directory : ∀ j other, j ≠ i → entries[j]? = some other → ∀ a, entryAt j ≤ a →
      a < entryAt j + adjDirEntrySize → mem' a = mem a)
    (others : ∀ j other, j ≠ i → entries[j]? = some other → other.edges ≠ [] → ∀ a,
      other.offset ≤ a → a < other.offset + other.edges.length * adjEdgeSize →
      mem' a = mem a) : Holds mem' (entries.set i entry') := by
  constructor
  · rw [count, length_set, holds.count]
  · intro j other there
    rcases of_getElem?_set here there with ⟨rfl, rfl⟩ | ⟨ne, before⟩
    · exact changed
    · exact (holds.directory j other before).congr (directory j other ne before)
  · intro other member
    obtain ⟨j, there⟩ := mem_iff_getElem?.mp member
    rcases of_getElem?_set here there with ⟨rfl, rfl⟩ | ⟨ne, before⟩
    · exact filled
    · by_cases empty : other.edges = []
      · rw [empty]
        rfl
      · exact holds.edges_of_same (mem_of_getElem? before)
          (others j other ne before empty)

abbrev Lists := Nat → AdjDirection → Option (List Nat)

def Lists.put (lists : Lists) (node : Nat) (direction : AdjDirection) (edges : Option (List Nat)) :
    Lists := fun n d => if n = node ∧ d = direction then edges else lists n d

theorem isFor_key {n : Nat} {d : AdjDirection} (wanted : isFor node direction entry) :
    isFor n d entry ↔ n = node ∧ d = direction := by
  simp only [isFor, Bool.and_eq_true, decide_eq_true_eq] at wanted ⊢
  rw [wanted.1, wanted.2, some.injEq]
  exact and_congr eq_comm eq_comm

theorem edgesFor_set (laid' : Laid (entries.set i entry')) (here : entries[i]? = some entry)
    (wanted : isFor node direction entry) (kept : isFor node direction entry') :
    edgesFor (entries.set i entry') =
      Lists.put (edgesFor entries) node direction (some entry'.edges) := by
  funext n d
  have there : (entries.set i entry')[i]? = some entry' :=
    List.getElem?_set_self (List.getElem?_eq_some_iff.mp here).1
  by_cases key : n = node ∧ d = direction
  · have first := firstFor_of_unique laid' there ((isFor_key kept).mpr key)
    rw [Lists.put, if_pos key, edgesFor, first]
    rfl
  · have before := mt (isFor_key wanted).mp key
    have after := mt (isFor_key kept).mp key
    rw [Lists.put, if_neg key, edgesFor, firstFor_set 0 here before after, edgesFor]

theorem edgesFor_set_none (laid : Laid entries) (here : entries[i]? = some entry)
    (wanted : isFor node direction entry) (freed : entry'.direction = none) :
    edgesFor (entries.set i entry') = Lists.put (edgesFor entries) node direction none := by
  funext n d
  have after : ¬isFor n d entry' := by simp [isFor, freed]
  by_cases key : n = node ∧ d = direction
  · have gone : firstFor n d 0 (entries.set i entry') = none := by
      apply firstFor_eq_none
      intro other mem forOther
      obtain ⟨j, there⟩ := mem_iff_getElem?.mp mem
      rcases of_getElem?_set here there with ⟨_, rfl⟩ | ⟨ne, before⟩
      · exact after forOther
      · exact ne
          (laid.unique j i other entry n d before here forOther ((isFor_key wanted).mpr key))
    rw [Lists.put, if_pos key, edgesFor, gone]
    rfl
  · have before := mt (isFor_key wanted).mp key
    rw [Lists.put, if_neg key, edgesFor, firstFor_set 0 here before after, edgesFor]

end Changes

section Operations

variable {page : PageId} {mem' : Memory} {entries : List Subblock} {node : Nat}

/-- The place of a new sub-block: right below the lowest live one. -/
structure Placed (entries : List Subblock) (offset count : Nat) : Prop where
  low : offset + count * adjEdgeSize = lowWater pagePayloadSize entries
  above : directoryAreaEnd (entries.length + 1) ≤ offset
  offset : offset < 2 ^ 16
  count : count < 2 ^ 16

theorem writeSubblock_ok {edges : List Nat} (holds : Holds mem entries) (laid : Laid entries)
    (ok : writeSubblock page mem node direction edges = .ok mem') :
    firstFor node direction 0 entries = none ∧ ∃ offset, Placed entries offset edges.length ∧
      mem' = splice (writeLe
        (writeDirEntry mem entries.length node direction offset edges.length) 0 2
        (entries.length + 1)) offset (wordBytes edges) := by
  rw [writeSubblock, findLiveEntry_eq holds laid, readDirTotalCount_eq holds laid,
    subblocksBytesUsed_eq holds laid] at ok
  have low := (lowWater_le pagePayloadSize entries).1
  obtain ⟨missing, ok⟩ := ok_of_guard ok
  obtain ⟨free, _, ok⟩ := ok_of_bind ok
  obtain ⟨_, ok⟩ := ok_of_guard ok
  obtain ⟨fits, ok⟩ := ok_of_guard ok
  obtain ⟨_, ok⟩ := ok_of_guard ok
  obtain ⟨above, ok⟩ := ok_of_guard ok
  obtain ⟨small, ok⟩ := ok_of_guard ok
  obtain ⟨short, ok⟩ := ok_of_guard ok
  have mem_ := Except.ok.inj ok
  have offset : pagePayloadSize - (pagePayloadSize - lowWater pagePayloadSize entries) -
      edges.length * adjEdgeSize + edges.length * adjEdgeSize =
      lowWater pagePayloadSize entries := by omega
  constructor
  · cases found : firstFor node direction 0 entries with
    | none => rfl
    | some entry =>
      rw [found] at missing
      exact absurd rfl missing
  · exact ⟨_, ⟨offset, Nat.not_lt.mp above, Nat.not_le.mp small, Nat.not_le.mp short⟩, mem_.symm⟩

def Shows (mem : Memory) (lists : Lists) : Prop :=
  ∃ entries, Holds mem entries ∧ Laid entries ∧ edgesFor entries = lists

theorem laid_append {edges : List Nat} (laid : Laid entries)
    (missing : firstFor node direction 0 entries = none)
    (placed : Placed entries offset edges.length) :
    Laid (entries ++ [⟨node, some direction, offset, edges⟩]) := by
  obtain ⟨lowest, lows⟩ := lowWater_le pagePayloadSize entries
  have low := placed.low
  have above := placed.above
  have wider := directoryAreaEnd_mono (Nat.le_succ entries.length)
  have old : ∀ (j : Nat) (other : Subblock),
      (entries ++ [⟨node, some direction, offset, edges⟩])[j]? = some other →
      j < entries.length ∧ entries[j]? = some other ∨
        j = entries.length ∧ other = ⟨node, some direction, offset, edges⟩ := by
    intro j other there
    rcases Nat.lt_or_ge j entries.length with less | more
    · rw [List.getElem?_append_left less] at there
      exact .inl ⟨less, there⟩
    · rw [List.getElem?_append_right more] at there
      obtain ⟨zero, here⟩ := List.getElem?_eq_some_iff.mp there
      have only : j - entries.length = 0 := Nat.lt_one_iff.mp zero
      simp only [only, getElem_cons_zero] at here
      exact .inr ⟨by omega, here.symm⟩
  constructor
  · rw [length_append, length_singleton]
    omega
  · intro other mem
    rcases mem_append.mp mem with before | new
    · exact laid.inside other before
    · rw [mem_singleton.mp new]
      exact low.trans_le lowest
  · intro other mem isLive
    rw [length_append, length_singleton]
    rcases mem_append.mp mem with before | new
    · have := lows other before isLive
      omega
    · rw [mem_singleton.mp new]
      exact above
  · intro other mem isFreed
    rcases mem_append.mp mem with before | new
    · exact laid.freed other before isFreed
    · rw [mem_singleton.mp new] at isFreed
      cases isFreed
  · intro j k left right ne atJ atK liveLeft liveRight
    rcases old j left atJ with ⟨_, beforeJ⟩ | ⟨isJ, rfl⟩
    · rcases old k right atK with ⟨_, beforeK⟩ | ⟨isK, rfl⟩
      · exact laid.apart j k left right ne beforeJ beforeK liveLeft liveRight
      · have := lows left (mem_of_getElem? beforeJ) liveLeft
        exact .inr (.inr (.inr (low.trans_le this)))
    · rcases old k right atK with ⟨_, beforeK⟩ | ⟨isK, rfl⟩
      · have := lows right (mem_of_getElem? beforeK) liveRight
        exact .inr (.inr (.inl (low.trans_le this)))
      · exact absurd (isJ.trans isK.symm) ne
  · intro j k left right n d atJ atK forLeft forRight
    have absent : ∀ other ∈ entries, n = node ∧ d = direction → ¬isFor n d other := by
      intro other mem key
      rw [key.1, key.2]
      exact firstFor_none missing other mem
    have self : isFor node direction ⟨node, some direction, offset, edges⟩ := by
      simp [isFor]
    rcases old j left atJ with ⟨_, beforeJ⟩ | ⟨isJ, rfl⟩
    · rcases old k right atK with ⟨_, beforeK⟩ | ⟨isK, rfl⟩
      · exact laid.unique j k left right n d beforeJ beforeK forLeft forRight
      · exact absurd forLeft
          (absent left (mem_of_getElem? beforeJ) ((isFor_key self).mp forRight))
    · rcases old k right atK with ⟨_, beforeK⟩ | ⟨isK, rfl⟩
      · exact absurd forRight
          (absent right (mem_of_getElem? beforeK) ((isFor_key self).mp forLeft))
      · exact isJ.trans isK.symm

/-- The page with a new sub-block behind its last entry. -/
def withSubblock (mem : Memory) (total node : Nat) (direction : AdjDirection) (offset : Nat)
    (edges : List Nat) : Memory :=
  splice (writeLe (writeDirEntry mem total node direction offset edges.length) 0 2 (total + 1))
    offset (wordBytes edges)

theorem withSubblock_outside {total a : Nat} {edges : List Nat} (behind : adjDirCountSize ≤ a)
    (entry : a < entryAt total ∨ entryAt total + adjDirEntrySize ≤ a)
    (packed : a < offset ∨ offset + edges.length * adjEdgeSize ≤ a) :
    withSubblock mem total node direction offset edges a = mem a := by
  have count : adjDirCountSize = 2 := rfl
  have bytes : edges.length * adjEdgeSize = 8 * edges.length := Nat.mul_comm _ 8
  have words := length_wordBytes edges
  rw [withSubblock, splice_outside (by omega), writeLe_outside (by omega),
    writeDirEntry_outside entry]

theorem entryIs_withSubblock {total : Nat} {edges : List Nat} (nodeFits : node < 256 ^ 8)
    (above : directoryAreaEnd (total + 1) ≤ offset) (offsetFits : offset < 256 ^ 2)
    (short : edges.length < 256 ^ 2) :
    EntryIs (withSubblock mem total node direction offset edges) total
      ⟨node, some direction, offset, edges⟩ := by
  have count : adjDirCountSize = 2 := rfl
  have next := entryAt_add total
  have start : adjDirCountSize ≤ entryAt total := Nat.le_add_right _ _
  apply (entryIs_writeDirEntry mem total nodeFits offsetFits short).congr
  intro a lower upper
  rw [withSubblock, splice_outside (by omega), writeLe_outside (by omega)]

theorem holds_withSubblock {edges : List Nat} (holds : Holds mem entries) (laid : Laid entries)
    (nodeFits : node < 256 ^ 8) (fit : ∀ edge ∈ edges, edge < 256 ^ 8)
    (placed : Placed entries offset edges.length) :
    Holds (withSubblock mem entries.length node direction offset edges)
      (entries ++ [⟨node, some direction, offset, edges⟩]) := by
  have low := placed.low
  have above := placed.above
  have offsetFits : offset < 256 ^ 2 := Nat.lt_of_lt_of_eq placed.offset (by decide)
  have short : edges.length < 256 ^ 2 := Nat.lt_of_lt_of_eq placed.count (by decide)
  have next := entryAt_add entries.length
  have start : adjDirCountSize ≤ entryAt entries.length := Nat.le_add_right _ _
  constructor
  · have size : adjDirEntrySize = 14 := rfl
    have fits : entries.length + 1 < 256 ^ 2 := by
      rw [directoryAreaEnd, size] at above
      omega
    have count : adjDirCountSize = 2 := rfl
    rw [withSubblock, readLe_congr fun i _ _ => splice_outside (by omega),
      readLe_writeLe _ _ fits, length_append, length_singleton]
  · intro j other there
    rcases Nat.lt_or_ge j entries.length with less | more
    · rw [List.getElem?_append_left less] at there
      have before : directoryAreaEnd (j + 1) ≤ directoryAreaEnd entries.length :=
        directoryAreaEnd_mono less
      have wider := directoryAreaEnd_mono (Nat.le_succ entries.length)
      have place := entryAt_add j
      have first : adjDirCountSize ≤ entryAt j := Nat.le_add_right _ _
      have end_ : entryAt entries.length = directoryAreaEnd entries.length := rfl
      apply (holds.directory j other there).congr
      intro a lower upper
      exact withSubblock_outside (by omega) (by omega) (by omega)
    · rw [List.getElem?_append_right more] at there
      obtain ⟨zero, here⟩ := List.getElem?_eq_some_iff.mp there
      have only : j - entries.length = 0 := Nat.lt_one_iff.mp zero
      have same : j = entries.length := by omega
      simp only [only, getElem_cons_zero] at here
      rw [same, ← here]
      exact entryIs_withSubblock nodeFits above offsetFits short
  · intro other member
    rcases mem_append.mp member with before | new
    · cases state : other.direction with
      | none =>
        rw [laid.freed other before state]
        rfl
      | some d =>
        have isLive : other.direction.isSome := by rw [state]; rfl
        have higher := (lowWater_le pagePayloadSize entries).2 other before isLive
        apply holds.edges_of_same before
        intro a lower upper
        exact withSubblock_outside (by omega) (by omega) (by omega)
    · rw [mem_singleton.mp new]
      exact readWords_splice _ _ fit

theorem edgesFor_append {edges : List Nat} (missing : firstFor node direction 0 entries = none) :
    edgesFor (entries ++ [⟨node, some direction, offset, edges⟩]) =
      Lists.put (edgesFor entries) node direction (some edges) := by
  funext n d
  have self : isFor node direction ⟨node, some direction, offset, edges⟩ := by
    simp [isFor]
  rw [edgesFor, firstFor_append, Lists.put]
  by_cases key : n = node ∧ d = direction
  · rw [if_pos key, if_pos ((isFor_key self).mpr key), key.1, key.2, missing]
    rfl
  · rw [if_neg key, if_neg (mt (isFor_key self).mp key), or_none, edgesFor]

section

variable (holds : Holds mem entries)
include holds

section

variable (laid : Laid entries)
include laid

theorem writeSubblock_shows {edges : List Nat}
    (nodeFits : node < 256 ^ 8) (fit : ∀ edge ∈ edges, edge < 256 ^ 8)
    (ok : writeSubblock page mem node direction edges = .ok mem') :
    Shows mem' (Lists.put (edgesFor entries) node direction (some edges)) := by
  obtain ⟨missing, offset, placed, rfl⟩ := writeSubblock_ok holds laid ok
  exact ⟨_, holds_withSubblock holds laid nodeFits fit placed, laid_append laid missing placed,
    edgesFor_append missing⟩

theorem findLiveEntry_some {i : Nat}
    {found : DirEntry} (ok : findLiveEntry page mem node direction = .ok (some (i, found))) :
    ∃ entry, entries[i]? = some entry ∧ isFor node direction entry ∧
      found = dirEntry entry := by
  rw [findLiveEntry_eq holds laid] at ok
  cases first : firstFor node direction 0 entries with
  | none =>
    rw [first] at ok
    cases ok
  | some there =>
    rw [first] at ok
    obtain ⟨_, here, wanted⟩ := firstFor_some first
    cases ok
    exact ⟨there.2, here, wanted, rfl⟩

section

variable (ok : freeSubblock page mem node direction = .ok mem')
include ok

theorem freeSubblock_ok :
    ∃ (i : Nat) (entry : Subblock), entries[i]? = some entry ∧ isFor node direction entry ∧
      mem' = writeLe (writeLe (splice mem (entryAt i + 8) [stateByte none]) (entryAt i + 10) 2 0)
        (entryAt i + 12) 2 0 := by
  obtain ⟨found, search, ok⟩ := ok_of_bind ok
  cases found with
  | none => cases ok
  | some found =>
    obtain ⟨entry, here, wanted, _⟩ := findLiveEntry_some holds laid search
    exact ⟨found.1, entry, here, wanted, (Except.ok.inj ok).symm⟩

/-- Freeing changes the sub-block of a node and direction to a freed one. -/
theorem freeSubblock_set :
    ∃ (i : Nat) (entry : Subblock), entries[i]? = some entry ∧ isFor node direction entry ∧
      Holds mem' (entries.set i ⟨entry.node, none, 0, []⟩) ∧
      Laid (entries.set i ⟨entry.node, none, 0, []⟩) := by
  obtain ⟨i, entry, here, wanted, rfl⟩ := freeSubblock_ok holds laid ok
  obtain ⟨bound, _⟩ := List.getElem?_eq_some_iff.mp here
  have size : adjDirEntrySize = 14 := rfl
  have one : [stateByte none].length = 1 := rfl
  have outside : ∀ a, a < entryAt i + 8 ∨ entryAt i + adjDirEntrySize ≤ a →
      writeLe (writeLe (splice mem (entryAt i + 8) [stateByte none]) (entryAt i + 10) 2 0)
        (entryAt i + 12) 2 0 a = mem a := by
    intro a apart
    rw [writeLe_outside (by omega), writeLe_outside (by omega), splice_outside (by omega)]
  have count : adjDirCountSize = 2 := rfl
  have start : adjDirCountSize ≤ entryAt i := Nat.le_add_right _ _
  have bytes := holds.directory i entry here
  refine ⟨i, entry, here, wanted, ?_, ?_⟩
  · apply holds.set here
    · exact readLe_congr fun a _ _ => outside a (by omega)
    · constructor
      · rw [readLe_congr fun a _ _ => outside a (by omega), bytes.node]
      · rw [writeLe_outside (by omega), writeLe_outside (by omega),
          splice_inside (Nat.le_refl _) (by omega), Nat.sub_self]
        rfl
      · rw [readLe_congr fun a _ _ => writeLe_outside (by omega), readLe_writeLe _ _ (by decide)]
      · rw [readLe_writeLe _ _ (by decide)]
        rfl
    · rfl
    · intro j other ne there a lower upper
      have apart := entryAt_apart ne
      exact outside a (by omega)
    · intro j other ne there filled a lower upper
      cases state : other.direction with
      | none => exact absurd (laid.freed other (mem_of_getElem? there) state) filled
      | some d =>
        have isLive : other.direction.isSome := by rw [state]; rfl
        have behind := laid.above other (mem_of_getElem? there) isLive
        have place := entryAt_add i
        have before : directoryAreaEnd (i + 1) ≤ directoryAreaEnd entries.length :=
          directoryAreaEnd_mono bound
        exact outside a (by omega)
  · exact laid.set here (Nat.zero_le _) (fun isLive => nomatch isLive) (fun _ => rfl)
      (fun _ _ _ _ isLive => nomatch isLive) (fun _ _ wanted' => by simp [isFor] at wanted')

theorem freeSubblock_shows : Shows mem' (Lists.put (edgesFor entries) node direction none) := by
  obtain ⟨i, entry, here, wanted, holds', laid'⟩ := freeSubblock_set holds laid ok
  exact ⟨_, holds', laid', edgesFor_set_none laid here wanted rfl⟩

end

theorem rewriteSubblockEdges_ok {edges : List Nat}
    (ok : rewriteSubblockEdges page mem node direction edges = .ok mem') :
    ∃ (i : Nat) (entry : Subblock), entries[i]? = some entry ∧ isFor node direction entry ∧
      edges.length < 2 ^ 16 ∧ edges.length ≤ entry.edges.length ∧
      mem' = writeDirEntry (splice mem entry.offset (wordBytes edges)) i node direction
        entry.offset edges.length := by
  obtain ⟨found, search, ok⟩ := ok_of_bind ok
  cases found with
  | none => cases ok
  | some found =>
    obtain ⟨entry, here, wanted, same⟩ := findLiveEntry_some holds laid search
    obtain ⟨short, ok⟩ := ok_of_guard ok
    obtain ⟨shrinks, ok⟩ := ok_of_guard ok
    rw [same] at shrinks ok
    exact ⟨found.1, entry, here, wanted, Nat.not_le.mp short, Nat.not_lt.mp shrinks,
      (Except.ok.inj ok).symm⟩

end

end

theorem isLive_of_isFor {entry : Subblock} (wanted : isFor node direction entry) :
    entry.direction = some direction := by
  simp only [isFor, Bool.and_eq_true, decide_eq_true_eq] at wanted
  exact wanted.2

section

variable (holds : Holds mem entries)
include holds

section

variable (laid : Laid entries)
include laid

/-- An entry is written anew, over the words that `packed` has at its offset. -/
theorem writeDirEntry_set {packed : Memory} {edges : List Nat} {i : Nat} {entry : Subblock}
    (here : entries[i]? = some entry) (wanted : isFor node direction entry)
    (nodeFits : node < 256 ^ 8) (short : edges.length < 256 ^ 2)
    (above : directoryAreaEnd entries.length ≤ offset)
    (inside : offset + 8 * edges.length ≤ pagePayloadSize)
    (apart : ∀ (j : Nat) (other : Subblock), j ≠ i → entries[j]? = some other →
      other.direction.isSome → Apart ⟨node, some direction, offset, edges⟩ other)
    (words : readWords packed offset edges.length = edges)
    (outside : ∀ a, a < offset ∨ offset + 8 * edges.length ≤ a → packed a = mem a) :
    Holds (writeDirEntry packed i node direction offset edges.length)
        (entries.set i ⟨node, some direction, offset, edges⟩) ∧
      Laid (entries.set i ⟨node, some direction, offset, edges⟩) := by
  obtain ⟨bound, _⟩ := List.getElem?_eq_some_iff.mp here
  have bytes : edges.length * adjEdgeSize = 8 * edges.length := Nat.mul_comm _ 8
  have place := entryAt_add i
  have before : directoryAreaEnd (i + 1) ≤ directoryAreaEnd entries.length :=
    directoryAreaEnd_mono bound
  have start : adjDirCountSize ≤ entryAt i := Nat.le_add_right _ _
  have count : adjDirCountSize = 2 := rfl
  have offsetFits : offset < 256 ^ 2 := by
    have : pagePayloadSize < 256 ^ 2 := by decide
    omega
  have unchanged : ∀ a, a < entryAt i ∨ entryAt i + adjDirEntrySize ≤ a →
      a < offset ∨ offset + 8 * edges.length ≤ a →
      writeDirEntry packed i node direction offset edges.length a = mem a := fun a directory free =>
    (writeDirEntry_outside directory).trans (outside a free)
  constructor
  · apply holds.set here
    · exact readLe_congr fun a _ _ => unchanged a (by omega) (by omega)
    · exact entryIs_writeDirEntry _ i nodeFits offsetFits short
    · show readWords _ offset edges.length = edges
      rw [readWords_congr fun a _ _ => writeDirEntry_outside (by omega), words]
    · intro j other ne there a lower upper
      have apart := entryAt_apart ne
      obtain ⟨boundJ, _⟩ := List.getElem?_eq_some_iff.mp there
      have placeJ := entryAt_add j
      have beforeJ : directoryAreaEnd (j + 1) ≤ directoryAreaEnd entries.length :=
        directoryAreaEnd_mono boundJ
      exact unchanged a (by omega) (by omega)
    · intro j other ne there filled a lower upper
      cases state : other.direction with
      | none => exact absurd (laid.freed other (mem_of_getElem? there) state) filled
      | some d =>
        have otherLive : other.direction.isSome := by rw [state]; rfl
        have behind := laid.above other (mem_of_getElem? there) otherLive
        rcases apart j other ne there otherLive with none_ | none_ | left | right
        · have zero : edges.length = 0 := congrArg length none_
          exact unchanged a (by omega) (by omega)
        · exact absurd none_ filled
        · replace left : offset + edges.length * adjEdgeSize ≤ other.offset := left
          exact unchanged a (by omega) (by omega)
        · exact unchanged a (by omega) (.inl (Nat.lt_of_lt_of_le upper right))
  · apply laid.set here
    · show offset + edges.length * adjEdgeSize ≤ pagePayloadSize
      omega
    · exact fun _ => above
    · exact fun freed => nomatch freed
    · exact fun j other ne there _ => apart j other ne there
    · intro n d wanted'
      have self : isFor node direction ⟨node, some direction, offset, edges⟩ := by
        simp [isFor]
      exact (isFor_key wanted).mpr ((isFor_key self).mp wanted')

/-- Rewriting changes the edges of a sub-block, and not its offset. -/
theorem rewriteSubblockEdges_set {edges : List Nat}
    (nodeFits : node < 256 ^ 8) (fit : ∀ edge ∈ edges, edge < 256 ^ 8)
    (ok : rewriteSubblockEdges page mem node direction edges = .ok mem') :
    ∃ (i : Nat) (entry : Subblock), entries[i]? = some entry ∧ isFor node direction entry ∧
      Holds mem' (entries.set i ⟨node, some direction, entry.offset, edges⟩) ∧
      Laid (entries.set i ⟨node, some direction, entry.offset, edges⟩) := by
  obtain ⟨i, entry, here, wanted, short, shrinks, rfl⟩ := rewriteSubblockEdges_ok holds laid ok
  have member := mem_of_getElem? here
  have live : entry.direction.isSome := by rw [isLive_of_isFor wanted]; rfl
  have inside := laid.inside entry member
  have words := length_wordBytes edges
  have oldBytes : entry.edges.length * adjEdgeSize = 8 * entry.edges.length := Nat.mul_comm _ 8
  refine ⟨i, entry, here, wanted, writeDirEntry_set holds laid here wanted nodeFits
    (Nat.lt_of_lt_of_eq short (by decide)) (laid.above entry member live) (by omega) ?_
    (readWords_splice mem entry.offset fit) fun a free => splice_outside (by omega)⟩
  intro j other ne there otherLive
  rcases laid.apart i j entry other (Ne.symm ne) here there live otherLive with
    none_ | none_ | left | right
  · left
    rw [none_] at shrinks
    exact eq_nil_of_length_eq_zero (Nat.le_zero.mp shrinks)
  · exact .inr (.inl none_)
  · refine .inr (.inr (.inl ?_))
    show entry.offset + edges.length * adjEdgeSize ≤ other.offset
    have bytes : edges.length * adjEdgeSize = 8 * edges.length := Nat.mul_comm _ 8
    omega
  · exact .inr (.inr (.inr right))

theorem rewriteSubblockEdges_shows {edges : List Nat}
    (nodeFits : node < 256 ^ 8) (fit : ∀ edge ∈ edges, edge < 256 ^ 8)
    (ok : rewriteSubblockEdges page mem node direction edges = .ok mem') :
    Shows mem' (Lists.put (edgesFor entries) node direction (some edges)) := by
  obtain ⟨i, entry, here, wanted, holds', laid'⟩ :=
    rewriteSubblockEdges_set holds laid nodeFits fit ok
  exact ⟨_, holds', laid', edgesFor_set laid' here wanted (by simp [isFor])⟩

theorem appendSubblockEdges_ok
    (ok : appendSubblockEdges page mem node direction added = .ok (some mem')) :
    ∃ (i offset : Nat) (entry : Subblock), entries[i]? = some entry ∧
      isFor node direction entry ∧ entry.offset = lowWater pagePayloadSize entries ∧
      entry.edges.length + added.length < 2 ^ 16 ∧
      offset + added.length * adjEdgeSize = entry.offset ∧
      directoryAreaEnd entries.length ≤ offset ∧ mem' = writeDirEntry (splice (splice mem offset
          (slice mem entry.offset (entry.edges.length * adjEdgeSize)))
          (offset + entry.edges.length * adjEdgeSize) (wordBytes added)) i node direction offset
        (entry.edges.length + added.length) := by
  have low := (lowWater_le pagePayloadSize entries).1
  obtain ⟨found, search, ok⟩ := ok_of_bind ok
  cases found with
  | none => cases ok
  | some found =>
    obtain ⟨entry, here, wanted, same⟩ := findLiveEntry_some holds laid search
    obtain ⟨used, usedIs, ok⟩ := ok_of_bind ok
    rw [subblocksBytesUsed_eq holds laid] at usedIs
    cases usedIs
    obtain ⟨lowest, ok⟩ := some_of_guard ok
    obtain ⟨free, _, ok⟩ := ok_of_bind ok
    obtain ⟨_, ok⟩ := some_of_guard ok
    obtain ⟨short, ok⟩ := ok_of_guard ok
    obtain ⟨fits, ok⟩ := ok_of_guard ok
    obtain ⟨_, ok⟩ := ok_of_guard ok
    obtain ⟨total, totalIs, ok⟩ := ok_of_bind ok
    rw [readDirTotalCount_eq holds laid] at totalIs
    cases totalIs
    obtain ⟨above, ok⟩ := some_of_guard ok
    obtain ⟨_, ok⟩ := ok_of_guard ok
    rw [same] at lowest short fits above ok
    have lowestIs := not_not.mp lowest
    simp only [dirEntry] at lowestIs short fits above
    refine ⟨found.1, entry.offset - added.length * adjEdgeSize, entry, here, wanted, ?_,
      Nat.not_le.mp short, Nat.sub_add_cancel (Nat.not_lt.mp fits), Nat.not_lt.mp above,
      (some.inj (Except.ok.inj ok)).symm⟩
    omega

/-- Appending moves the lowest sub-block down by the added edges. -/
theorem appendSubblockEdges_set (nodeFits : node < 256 ^ 8) (fit : ∀ edge ∈ added, edge < 256 ^ 8)
    (ok : appendSubblockEdges page mem node direction added = .ok (some mem')) :
    ∃ (i offset : Nat) (entry : Subblock), entries[i]? = some entry ∧
      isFor node direction entry ∧ entry.offset = lowWater pagePayloadSize entries ∧
      offset + added.length * adjEdgeSize = entry.offset ∧
      Holds mem' (entries.set i ⟨node, some direction, offset, entry.edges ++ added⟩) ∧
      Laid (entries.set i ⟨node, some direction, offset, entry.edges ++ added⟩) := by
  obtain ⟨i, offset, entry, here, wanted, lowest, short, low, room, rfl⟩ :=
    appendSubblockEdges_ok holds laid ok
  have member := mem_of_getElem? here
  have live : entry.direction.isSome := by rw [isLive_of_isFor wanted]; rfl
  have inside := laid.inside entry member
  have words := length_wordBytes added
  have bytes : added.length * adjEdgeSize = 8 * added.length := Nat.mul_comm _ 8
  have oldBytes : entry.edges.length * adjEdgeSize = 8 * entry.edges.length := Nat.mul_comm _ 8
  have length : entry.edges.length + added.length = (entry.edges ++ added).length :=
    length_append.symm
  have size := length_slice mem entry.offset (entry.edges.length * adjEdgeSize)
  refine ⟨i, offset, entry, here, wanted, lowest, low, ?_⟩
  rw [length]
  refine writeDirEntry_set holds laid here wanted nodeFits
    (Nat.lt_of_lt_of_eq (length ▸ short) (by decide)) room (by omega) ?_ ?_ ?_
  · intro j other ne there otherLive
    have higher := (lowWater_le pagePayloadSize entries).2 other (mem_of_getElem? there) otherLive
    rcases laid.apart i j entry other (Ne.symm ne) here there live otherLive with
      none_ | none_ | left | right
    · refine .inr (.inr (.inl ?_))
      show offset + (entry.edges ++ added).length * adjEdgeSize ≤ other.offset
      rw [none_, nil_append]
      omega
    · exact .inr (.inl none_)
    · refine .inr (.inr (.inl ?_))
      show offset + (entry.edges ++ added).length * adjEdgeSize ≤ other.offset
      rw [← length, Nat.add_mul]
      omega
    · have otherBytes : other.edges.length * adjEdgeSize = 8 * other.edges.length :=
        Nat.mul_comm _ 8
      exact .inr (.inl (eq_nil_of_length_eq_zero (by omega)))
  · rw [← length, readWords_add, readWords_congr fun a _ _ => splice_outside (by omega), oldBytes,
      readWords_splice _ _ fit, readWords_shift fun k small => splice_slice small,
      holds.edges entry member]
  · intro a free
    rw [splice_outside (by omega), splice_outside (by omega)]

theorem appendSubblockEdges_shows (nodeFits : node < 256 ^ 8) (fit : ∀ edge ∈ added, edge < 256 ^ 8)
    (ok : appendSubblockEdges page mem node direction added = .ok (some mem')) :
    Shows mem' (Lists.put (edgesFor entries) node direction
      ((edgesFor entries node direction).map (· ++ added))) := by
  obtain ⟨i, offset, entry, here, wanted, _, _, holds', laid'⟩ :=
    appendSubblockEdges_set holds laid nodeFits fit ok
  have old : edgesFor entries node direction = some entry.edges := by
    rw [edgesFor, firstFor_of_unique laid here wanted]
    rfl
  rw [old]
  exact ⟨_, holds', laid', edgesFor_set laid' here wanted (by simp [isFor])⟩

end

end

end Operations

/-- The calls that change a page. -/
inductive Call
  | write (node : Nat) (direction : AdjDirection) (edges : List Nat)
  | append (node : Nat) (direction : AdjDirection) (added : List Nat)
  | rewrite (node : Nat) (direction : AdjDirection) (edges : List Nat)
  | free (node : Nat) (direction : AdjDirection)

namespace Call

/-- The node and direction of a call. -/
def key : Call → Nat × AdjDirection
  | write node direction _ | append node direction _ | rewrite node direction _ =>
    (node, direction)
  | free node direction => (node, direction)

def edges : Call → List Nat
  | write _ _ edges | append _ _ edges | rewrite _ _ edges => edges
  | free _ _ => []

def Typed (call : Call) : Prop := call.key.1 < 256 ^ 8 ∧ ∀ edge ∈ call.edges, edge < 256 ^ 8

/-- The page that a call writes back; none, if it found no room. -/
def result (page : PageId) (mem : Memory) : Call → Except Error (Option Memory)
  | write node direction edges => some <$> writeSubblock page mem node direction edges
  | append node direction added => appendSubblockEdges page mem node direction added
  | rewrite node direction edges => some <$> rewriteSubblockEdges page mem node direction edges
  | free node direction => some <$> freeSubblock page mem node direction

/-- A call on the stored page. It answers whether it found room. -/
def perform (page : PageId) (call : Call) : EStateM Error Memory Bool := do
  let mem ← get
  match ← ofResult (call.result page mem) with
  | none => return false
  | some mem =>
    set mem
    return true

/-- What a call does to the map. -/
def applied (lists : Lists) : Call → Lists
  | write node direction edges => lists.put node direction (some edges)
  | append node direction added =>
    lists.put node direction ((lists node direction).map (· ++ added))
  | rewrite node direction edges => lists.put node direction (some edges)
  | free node direction => lists.put node direction none

theorem applied_other (call : Call) (lists : Lists) {node : Nat}
    (other : (node, direction) ≠ call.key) :
    call.applied lists node direction = lists node direction := by
  have ne : ¬(node = call.key.1 ∧ direction = call.key.2) :=
    fun same => other (Prod.ext same.1 same.2)
  cases call <;> exact if_neg ne

end Call

/-- A stored page, and the map it should show. -/
structure Tracked where
  mem : Memory
  lists : Lists

/-- The map follows the calls that are carried out. -/
def Tracked.step (page : PageId) (tracked : Tracked) (call : Call) : Tracked :=
  match (call.perform page).run tracked.mem with
  | .ok true mem => ⟨mem, call.applied tracked.lists⟩
  | .ok false mem => ⟨mem, tracked.lists⟩
  | .error _ mem => ⟨mem, tracked.lists⟩

def Tracked.blank : Tracked := ⟨fun _ => 0, fun _ _ => none⟩

theorem shows_blank : Shows Tracked.blank.mem Tracked.blank.lists := by
  refine ⟨[], ?_, ?_, rfl⟩
  · constructor
    · rfl
    · exact fun i entry here => nomatch here
    · exact fun entry mem => nomatch mem
  · constructor
    · decide
    · exact fun entry mem => nomatch mem
    · exact fun entry mem => nomatch mem
    · exact fun entry mem => nomatch mem
    · exact fun i j left right _ here => nomatch here
    · exact fun i j left right node direction here => nomatch here

theorem ok_of_map {α β : Type} {x : Except Error α} {f : α → β} {b : β} (ok : f <$> x = .ok b) :
    ∃ a, x = .ok a ∧ f a = b := by
  cases x with
  | error e => cases ok
  | ok a => exact ⟨a, rfl, Except.ok.inj ok⟩

variable {page : PageId}

theorem Call.result_shows {mem' : Memory} {lists : Lists} {call : Call} (shows_ : Shows mem lists)
    (typed : call.Typed) (ok : call.result page mem = .ok (some mem')) :
    Shows mem' (call.applied lists) := by
  obtain ⟨entries, holds, laid, rfl⟩ := shows_
  obtain ⟨nodeFits, fit⟩ := typed
  cases call with
  | write node direction edges =>
    obtain ⟨_, ok, written⟩ := ok_of_map ok
    cases written
    exact writeSubblock_shows holds laid nodeFits fit ok
  | append node direction added => exact appendSubblockEdges_shows holds laid nodeFits fit ok
  | rewrite node direction edges =>
    obtain ⟨_, ok, written⟩ := ok_of_map ok
    cases written
    exact rewriteSubblockEdges_shows holds laid nodeFits fit ok
  | free node direction =>
    obtain ⟨_, ok, written⟩ := ok_of_map ok
    cases written
    exact freeSubblock_shows holds laid ok

theorem Call.sat_perform (page : PageId) (call : Call) (mem : Memory) :
    Sat (call.perform page) mem
      (fun done mem' => if done then call.result page mem = .ok (some mem') else mem' = mem)
      (fun _ mem' => mem' = mem) := by
  unfold Call.perform
  cases result : call.result page mem with
  | error e => simp [result]
  | ok written =>
    cases written with
    | none => simp [result]
    | some mem' => simp [result]

variable {tracked : Tracked}

theorem Tracked.shows_step {call : Call} (shows_ : Shows tracked.mem tracked.lists)
    (typed : call.Typed) : Shows (tracked.step page call).mem (tracked.step page call).lists := by
  have done := call.sat_perform page tracked.mem
  unfold Tracked.step
  cases ran : (call.perform page).run tracked.mem with
  | error e mem =>
    rw [(sat_iff.mp done).2 e mem ran]
    exact shows_
  | ok carried mem =>
    have left := (sat_iff.mp done).1 carried mem ran
    cases carried with
    | true => exact Call.result_shows shows_ typed left
    | false =>
      have same : mem = tracked.mem := left
      rw [same]
      exact shows_

theorem shows_of_run {past : List Tracked}
    (run : Run (fun _ _ call => Call.Typed call) (Tracked.step page) Tracked.blank past tracked) :
    Shows tracked.mem tracked.lists :=
  run.invariant (fun _ tracked => Shows tracked.mem tracked.lists) shows_blank
    fun _ _ _ shows_ typed => Tracked.shows_step shows_ typed

theorem readSubblock_of_shows {lists : Lists} (shows_ : Shows mem lists) (node : Nat)
    (direction : AdjDirection) :
    readSubblock page mem node direction =
      match lists node direction with
      | some edges => .ok edges
      | none => .error (noLiveSubblock page) := by
  obtain ⟨entries, holds, laid, rfl⟩ := shows_
  exact readSubblock_eq holds laid node direction

/-- After every run of calls a page reads as the map. A call that fails or finds no room
leaves the bytes alone, and no call changes what another node or direction reads. -/
theorem run_refines_map {page : PageId} {past : List Tracked} {tracked : Tracked}
    (run : Run (fun _ _ call => Call.Typed call) (Tracked.step page) Tracked.blank past tracked) :
    (∀ node direction, readSubblock page tracked.mem node direction =
      match tracked.lists node direction with
      | some edges => .ok edges
      | none => .error (noLiveSubblock page)) ∧
    ∀ call : Call,
      Sat (call.perform page) tracked.mem (fun done mem => done = false → mem = tracked.mem)
        (fun _ mem => mem = tracked.mem) ∧
      (call.Typed → ∀ node direction, (node, direction) ≠ call.key →
        readSubblock page (tracked.step page call).mem node direction =
          readSubblock page tracked.mem node direction) := by
  have shows_ := shows_of_run run
  refine ⟨readSubblock_of_shows shows_, fun call => ⟨?_, ?_⟩⟩
  · apply (call.sat_perform page tracked.mem).mono
    · intro done mem carried undone
      rw [undone] at carried
      exact carried
    · exact fun _ _ same => same
  · intro typed node direction other
    have lists : (tracked.step page call).lists node direction = tracked.lists node direction := by
      unfold Tracked.step
      split
      · exact call.applied_other tracked.lists other
      · rfl
      · rfl
    rw [readSubblock_of_shows (Tracked.shows_step shows_ typed), lists,
      readSubblock_of_shows shows_]

/-- A sub-block is started, grows, and is read back. -/
theorem run_refines_map_grown :
    readSubblock 0 ((Tracked.blank.step 0 (.write 7 .outgoing [1, 2])).step 0
        (.append 7 .outgoing [3])).mem 7 .outgoing =
      match ((Tracked.blank.step 0 (.write 7 .outgoing [1, 2])).step 0
        (.append 7 .outgoing [3])).lists 7 .outgoing with
      | some edges => .ok edges
      | none => .error (noLiveSubblock 0) := by
  have opened : Run (fun _ _ call => Call.Typed call) (Tracked.step 0) Tracked.blank [Tracked.blank]
      Tracked.blank := Run.start
  have written := Run.step (.write 7 .outgoing [1, 2]) opened (by unfold Call.Typed; decide)
  have grown := Run.step (.append 7 .outgoing [3]) written (by unfold Call.Typed; decide)
  exact (run_refines_map grown).1 7 .outgoing

end ErmyaGraph.AdjSlabCodec
