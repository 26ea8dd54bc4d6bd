import Mathlib.Data.List.GetD
import ErmyaGraph.Lib.Bytes

/-! # Memory

Bytes by address, ranges of them, and the little-endian numbers they hold. A
write changes its own range and nothing else. -/

namespace Bytes

open List

abbrev Memory := Nat → UInt8

def slice (mem : Memory) (start len : Nat) : List UInt8 :=
  (List.range len).map fun i => mem (start + i)

def splice (mem : Memory) (start : Nat) (data : List UInt8) : Memory := fun i =>
  if start ≤ i ∧ i < start + data.length then data.getD (i - start) 0 else mem i

section Ranges

variable {mem mem' : Memory} {start len : Nat} {data : List UInt8}

@[simp]
theorem length_slice (mem : Memory) (start len : Nat) : (slice mem start len).length = len := by
  simp [slice]

theorem slice_congr (same : ∀ i, start ≤ i → i < start + len → mem' i = mem i) :
    slice mem' start len = slice mem start len := by
  apply map_congr_left
  intro i member
  have below := mem_range.mp member
  exact same (start + i) (Nat.le_add_right _ _) (by omega)

theorem splice_outside {i : Nat} (outside : i < start ∨ start + data.length ≤ i) :
    splice mem start data i = mem i := by
  have not : ¬(start ≤ i ∧ i < start + data.length) := by omega
  rw [splice, if_neg not]

theorem splice_inside {i : Nat} (above : start ≤ i) (below : i < start + data.length) :
    splice mem start data i = data.getD (i - start) 0 := by
  rw [splice, if_pos ⟨above, below⟩]

theorem slice_splice (mem : Memory) (start : Nat) (data : List UInt8) :
    slice (splice mem start data) start data.length = data := by
  apply ext_getElem
  · exact length_slice _ _ _
  · intro i bound here
    simp only [slice, getElem_map, getElem_range]
    rw [splice_inside (Nat.le_add_right _ _) (by omega), Nat.add_sub_cancel_left,
      getD_eq_getElem data 0 here]

theorem splice_slice {from_ k : Nat} (below : k < len) :
    splice mem' start (slice mem from_ len) (start + k) = mem (from_ + k) := by
  have size := length_slice mem from_ len
  rw [splice_inside (Nat.le_add_right _ _) (by omega), Nat.add_sub_cancel_left,
    getD_eq_getElem _ 0 (by omega)]
  simp [slice]

theorem splice_append (mem : Memory) (start : Nat) (front back : List UInt8) :
    splice mem start (front ++ back) = splice (splice mem start front) (start + front.length) back := by
  funext i
  have whole : (front ++ back).length = front.length + back.length := length_append
  by_cases inBack : start + front.length ≤ i ∧ i < start + front.length + back.length
  · have left : splice mem start (front ++ back) i = (front ++ back).getD (i - start) 0 :=
      splice_inside (by omega) (by omega)
    have right : splice (splice mem start front) (start + front.length) back i =
        back.getD (i - (start + front.length)) 0 := splice_inside inBack.1 inBack.2
    have index : i - start - front.length = i - (start + front.length) := Nat.sub_sub _ _ _
    rw [left, right, getD_append_right _ _ _ _ (by omega), index]
  · have right : splice (splice mem start front) (start + front.length) back i =
        splice mem start front i := splice_outside (by omega)
    rw [right]
    by_cases inFront : start ≤ i ∧ i < start + front.length
    · have left : splice mem start (front ++ back) i = (front ++ back).getD (i - start) 0 :=
        splice_inside inFront.1 (by omega)
      rw [left, splice_inside inFront.1 inFront.2, getD_append _ _ _ _ (by omega)]
    · have left : splice mem start (front ++ back) i = mem i := splice_outside (by omega)
      rw [left, splice_outside (by omega)]

end Ranges

def readLe (mem : Memory) (start width : Nat) : Nat := leNat (slice mem start width)

def writeLe (mem : Memory) (start width n : Nat) : Memory := splice mem start (leBytes width n)

section Numbers

variable {mem mem' : Memory} {start width n : Nat}

theorem readLe_congr (same : ∀ i, start ≤ i → i < start + width → mem' i = mem i) :
    readLe mem' start width = readLe mem start width := by
  rw [readLe, readLe, slice_congr same]

theorem readLe_writeLe (mem : Memory) (start : Nat) (fits : n < 256 ^ width) :
    readLe (writeLe mem start width n) start width = n := by
  have back := slice_splice mem start (leBytes width n)
  rw [length_leBytes] at back
  rw [readLe, writeLe, back, leNat_leBytes fits]

theorem readLe_lt (mem : Memory) (start width : Nat) : readLe mem start width < 256 ^ width := by
  have below := leNat_lt (slice mem start width)
  rw [length_slice] at below
  exact below

theorem writeLe_outside {i : Nat} (outside : i < start ∨ start + width ≤ i) :
    writeLe mem start width n i = mem i := by
  apply splice_outside
  rw [length_leBytes]
  exact outside

/-! Ranges that do not meet do not disturb each other. -/

variable {start' width' : Nat} {data : List UInt8}

theorem slice_writeLe_of_disjoint {len : Nat}
    (apart : start + len ≤ start' ∨ start' + width' ≤ start) :
    slice (writeLe mem start' width' n) start len = slice mem start len :=
  slice_congr fun i above below => writeLe_outside (by omega)

theorem readLe_splice_of_disjoint (apart : start + width ≤ start' ∨ start' + data.length ≤ start) :
    readLe (splice mem start' data) start width = readLe mem start width :=
  readLe_congr fun i above below => splice_outside (by omega)

theorem readLe_writeLe_of_disjoint (apart : start + width ≤ start' ∨ start' + width' ≤ start) :
    readLe (writeLe mem start' width' n) start width = readLe mem start width :=
  readLe_congr fun i above below => writeLe_outside (by omega)

end Numbers

def wordBytes (words : List Nat) : List UInt8 := words.flatMap (leBytes 8)

def readWords (mem : Memory) (start count : Nat) : List Nat :=
  (List.range count).map fun i => readLe mem (start + 8 * i) 8

section Words

variable {mem mem' : Memory} {start count : Nat}

@[simp]
theorem length_wordBytes (words : List Nat) : (wordBytes words).length = 8 * words.length := by
  induction words with
  | nil => rfl
  | cons word rest ih =>
    simp only [wordBytes, flatMap_cons, length_append, length_leBytes, length_cons] at ih ⊢
    omega

@[simp]
theorem length_readWords (mem : Memory) (start count : Nat) :
    (readWords mem start count).length = count := by
  simp [readWords]

theorem readWords_congr (same : ∀ i, start ≤ i → i < start + 8 * count → mem' i = mem i) :
    readWords mem' start count = readWords mem start count := by
  apply map_congr_left
  intro k member
  have below := mem_range.mp member
  apply readLe_congr
  intro i above before
  exact same i (by omega) (by omega)

theorem readWords_succ (mem : Memory) (start count : Nat) :
    readWords mem start (count + 1) = readLe mem start 8 :: readWords mem (start + 8) count := by
  have place : ∀ i, start + 8 * Nat.succ i = start + 8 + 8 * i := fun i => by omega
  simp only [readWords, range_succ_eq_map, map_cons, map_map, Function.comp_def,
    place, Nat.mul_zero, Nat.add_zero]

theorem readWords_add (mem : Memory) (start front back : Nat) :
    readWords mem start (front + back) =
      readWords mem start front ++ readWords mem (start + 8 * front) back := by
  have place : ∀ i, start + 8 * (front + i) = start + 8 * front + 8 * i := fun i => by omega
  simp only [readWords, range_add, map_append, map_map, Function.comp_def, place]

theorem readWords_splice (mem : Memory) (start : Nat) {words : List Nat}
    (fit : ∀ word ∈ words, word < 256 ^ 8) :
    readWords (splice mem start (wordBytes words)) start words.length = words := by
  induction words generalizing mem start with
  | nil => rfl
  | cons word rest ih =>
    have split : splice mem start (wordBytes (word :: rest)) =
        splice (writeLe mem start 8 word) (start + 8) (wordBytes rest) := by
      have bytes : wordBytes (word :: rest) = leBytes 8 word ++ wordBytes rest := flatMap_cons
      rw [bytes, splice_append, length_leBytes, writeLe]
    have first : readLe (splice (writeLe mem start 8 word) (start + 8) (wordBytes rest)) start 8 =
        readLe (writeLe mem start 8 word) start 8 :=
      readLe_congr fun i _ below => splice_outside (.inl below)
    have later := ih (writeLe mem start 8 word) (start + 8)
      fun other member => fit other (.tail _ member)
    rw [length_cons, readWords_succ, split, later, first,
      readLe_writeLe mem start (fit word mem_cons_self)]

theorem readWords_shift {from_ : Nat}
    (same : ∀ k, k < 8 * count → mem' (start + k) = mem (from_ + k)) :
    readWords mem' start count = readWords mem from_ count := by
  apply map_congr_left
  intro i member
  have below := mem_range.mp member
  rw [readLe, readLe]
  congr 1
  apply map_congr_left
  intro k inner
  have small := mem_range.mp inner
  rw [Nat.add_assoc, Nat.add_assoc]
  exact same (8 * i + k) (by omega)

end Words

end Bytes
