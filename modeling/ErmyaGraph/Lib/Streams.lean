import Mathlib.Algebra.Order.Ring.Int
import Mathlib.Data.List.Basic

/-! # Byte streams that arrive in pieces

A source delivers its bytes in pieces of any size and ends with an error, the end of the
stream being one. Reading an exact number of bytes does not depend on the pieces. -/

namespace Streams

open List

variable {ε : Type}

/-- What is still to arrive, and how the source ends. A piece is never empty. -/
structure Source (ε : Type) where
  pieces : List (List UInt8)
  arrives : [] ∉ pieces
  ending : ε

namespace Source

def bytes (source : Source ε) : List UInt8 := source.pieces.flatten

def exhausted (source : Source ε) : Source ε := ⟨[], by simp, source.ending⟩

end Source

/-- The first `count` bytes of the pieces, a piece at a time, and the pieces that are left. -/
def fill : (count : Nat) → List (List UInt8) → Option (List UInt8 × List (List UInt8))
  | 0, pieces => some ([], pieces)
  | _ + 1, [] => none
  | count + 1, piece :: pieces =>
    if count + 1 < piece.length then
      some (piece.take (count + 1), piece.drop (count + 1) :: pieces)
    else (fill (count + 1 - piece.length) pieces).map fun filled => (piece ++ filled.1, filled.2)

variable {count : Nat}

theorem fill_arrives {pieces left : List (List UInt8)} {filled : List UInt8}
    (done : fill count pieces = some (filled, left)) (arrives : [] ∉ pieces) : [] ∉ left := by
  induction pieces generalizing count filled with
  | nil =>
    cases count with
    | zero =>
      cases done
      exact arrives
    | succ count => cases done
  | cons piece pieces ih =>
    cases count with
    | zero =>
      cases done
      exact arrives
    | succ count =>
      rw [fill] at done
      by_cases short : count + 1 < piece.length
      · rw [if_pos short] at done
        cases done
        rw [mem_cons, not_or] at arrives ⊢
        refine ⟨?_, arrives.2⟩
        intro empty
        have length := congrArg List.length empty
        rw [length_drop, length_nil] at length
        omega
      · rw [if_neg short] at done
        obtain ⟨⟨more, rest⟩, inner, same⟩ := Option.map_eq_some_iff.mp done
        cases same
        exact ih inner fun mem => arrives (.tail _ mem)

/-- Pieces fill a buffer as their bytes do. -/
theorem fill_flatten (count : Nat) (pieces : List (List UInt8)) :
    (fill count pieces).map (fun filled => (filled.1, filled.2.flatten)) =
      if count ≤ pieces.flatten.length then
        some (pieces.flatten.take count, pieces.flatten.drop count)
      else none := by
  induction pieces generalizing count with
  | nil => cases count <;> simp [fill]
  | cons piece pieces ih =>
    cases count with
    | zero => simp [fill]
    | succ count =>
      rw [fill]
      by_cases short : count + 1 < piece.length
      · have enough : count + 1 ≤ (piece :: pieces).flatten.length := by
          rw [flatten_cons, length_append]
          omega
        rw [if_pos short, if_pos enough, flatten_cons,
          take_append_of_le_length (Nat.le_of_lt short),
          drop_append_of_le_length (Nat.le_of_lt short)]
        rfl
      · have later := ih (count + 1 - piece.length)
        rw [if_neg short, flatten_cons, length_append]
        by_cases enough : count + 1 - piece.length ≤ pieces.flatten.length
        · rw [if_pos enough] at later
          obtain ⟨filled, inner, same⟩ := Option.map_eq_some_iff.mp later
          have first : filled.1 = pieces.flatten.take (count + 1 - piece.length) :=
            congrArg Prod.fst same
          have second : filled.2.flatten = pieces.flatten.drop (count + 1 - piece.length) :=
            congrArg Prod.snd same
          rw [if_pos (by omega), inner, take_append, drop_append,
            take_of_length_le (by omega), drop_eq_nil_of_le (by omega)]
          simp only [Option.map_some, first, second, nil_append]
        · rw [if_neg enough] at later
          have none_ := Option.map_eq_none_iff.mp later
          rw [if_neg (by omega), none_]
          rfl

/-- Fill a buffer, or use up the source. -/
def readExact (count : Nat) : EStateM ε (Source ε) (List UInt8) := fun source =>
  match done : fill count source.pieces with
  | some (filled, left) => .ok filled ⟨left, fill_arrives done source.arrives, source.ending⟩
  | none => .error source.ending source.exhausted

variable {source : Source ε}

theorem readExact_ok (enough : count ≤ source.bytes.length) :
    ∃ left, readExact count source = .ok (source.bytes.take count) left ∧
      left.bytes = source.bytes.drop count ∧ left.ending = source.ending := by
  have filled := fill_flatten count source.pieces
  rw [← Source.bytes, if_pos enough] at filled
  obtain ⟨⟨bytes, pieces⟩, done, same⟩ := Option.map_eq_some_iff.mp filled
  have first : bytes = source.bytes.take count := congrArg Prod.fst same
  have second : pieces.flatten = source.bytes.drop count := congrArg Prod.snd same
  refine ⟨⟨pieces, fill_arrives done source.arrives, source.ending⟩, ?_, second, rfl⟩
  rw [readExact]
  split
  · rename_i other left done'
    rw [done] at done'
    cases done'
    exact congrArg (EStateM.Result.ok · _) first
  · rename_i done'
    rw [done] at done'
    cases done'

theorem readExact_error (short : source.bytes.length < count) :
    readExact count source = .error source.ending source.exhausted := by
  have filled := fill_flatten count source.pieces
  rw [← Source.bytes, if_neg (by omega)] at filled
  have none_ := Option.map_eq_none_iff.mp filled
  rw [readExact]
  split
  · rename_i other left done
    rw [none_] at done
    cases done
  · rfl

theorem readExact_length {left : Source ε} {bytes : List UInt8}
    (ok : readExact count source = .ok bytes left) :
    left.bytes.length + count = source.bytes.length := by
  by_cases enough : count ≤ source.bytes.length
  · obtain ⟨other, read, rest, _⟩ := readExact_ok enough
    rw [ok] at read
    cases read
    rw [rest, length_drop]
    omega
  · rw [readExact_error (by omega)] at ok
    cases ok

end Streams
