import Mathlib.Algebra.Order.Ring.Int
import Mathlib.Data.List.Basic

/-! # Texts that show where they end

Texts put one behind the other can be told apart again when each of them shows
where it ends. -/

namespace Delimited

open List

variable {stop : Char}

variable {α : Type}

def Split (left right : List Char) (same : Prop) : Prop :=
  ∀ rest rest', left ++ rest = right ++ rest' → same ∧ rest = rest'

def SelfDelimiting (code : α → List Char) : Prop :=
  ∀ a b, Split (code a) (code b) (a = b)

variable {same : Prop}

theorem Split.of_ne {c d : Char} (left right : List Char) (ne : c ≠ d) :
    Split (c :: left) (d :: right) same := by
  intro rest rest' equal
  exact absurd (List.cons.inj equal).1 ne

variable {left right : List Char}

theorem Split.cons (c : Char) (split : Split left right same) :
    Split (c :: left) (c :: right) same := by
  intro rest rest' equal
  exact split rest rest' (List.cons.inj equal).2

theorem Split.imp {same' : Prop} (split : Split left right same) (weaken : same → same') :
    Split left right same' := by
  intro rest rest' equal
  have parts := split rest rest' equal
  exact ⟨weaken parts.1, parts.2⟩

theorem split_of_not_mem (free : stop ∉ left) (free' : stop ∉ right) :
    Split (left ++ [stop]) (right ++ [stop]) (left = right) := by
  induction left generalizing right with
  | nil =>
    cases right with
    | nil =>
      intro rest rest' equal
      exact ⟨rfl, (List.cons.inj equal).2⟩
    | cons d right =>
      intro rest rest' equal
      have same := (List.cons.inj equal).1
      exact absurd (same ▸ .head _) free'
  | cons c left ih =>
    cases right with
    | nil =>
      intro rest rest' equal
      have same := (List.cons.inj equal).1
      exact absurd (same ▸ .head _) free
    | cons d right =>
      intro rest rest' equal
      obtain ⟨rfl, later⟩ := List.cons.inj equal
      have parts := ih (fun inside => free (.tail _ inside))
        (fun inside => free' (.tail _ inside)) rest rest' later
      exact ⟨congrArg _ parts.1, parts.2⟩

variable {code : α → List Char}

theorem selfDelimiting_append (injective : Function.Injective code) (free : ∀ a, stop ∉ code a) :
    SelfDelimiting fun a => code a ++ [stop] := by
  intro a b
  exact (split_of_not_mem (free a) (free b)).imp fun same => injective same

theorem selfDelimiting_flatMap (items : SelfDelimiting code)
    (begins : ∀ a rest rest', stop :: rest ≠ code a ++ rest') :
    SelfDelimiting fun as : List α => as.flatMap code ++ [stop] := by
  intro as bs
  induction as generalizing bs with
  | nil =>
    cases bs with
    | nil =>
      intro rest rest' equal
      exact ⟨rfl, (List.cons.inj equal).2⟩
    | cons b bs =>
      intro rest rest' equal
      simp only [flatMap_nil, flatMap_cons, nil_append, singleton_append, append_assoc] at equal
      exact absurd equal (begins b _ _)
  | cons a as ih =>
    cases bs with
    | nil =>
      intro rest rest' equal
      simp only [flatMap_nil, flatMap_cons, nil_append, singleton_append, append_assoc] at equal
      exact absurd equal.symm (begins a _ _)
    | cons b bs =>
      intro rest rest' equal
      dsimp only at equal
      rw [flatMap_cons, flatMap_cons, append_assoc, append_assoc,
        append_assoc, append_assoc] at equal
      obtain ⟨rfl, later⟩ := items a b _ _ equal
      rw [← append_assoc, ← append_assoc] at later
      have parts := ih bs rest rest' later
      exact ⟨congrArg _ parts.1, parts.2⟩

/-- Put an escape character in front of a character that is special. -/
def escapeChar (escape : Char) (special : Char → Bool) (c : Char) : List Char :=
  if special c then [escape, c] else [c]

variable {special : Char → Bool}

theorem selfDelimiting_escapeChar {escape : Char} (escaped : special escape) :
    SelfDelimiting (escapeChar escape special) := by
  intro c d rest rest' equal
  unfold escapeChar at equal
  by_cases left : special c <;> by_cases right : special d
  · rw [if_pos left, if_pos right] at equal
    have inner := List.cons.inj (List.cons.inj equal).2
    exact inner
  · rw [if_pos left, if_neg right] at equal
    have same := (List.cons.inj equal).1
    exact absurd (same ▸ escaped) right
  · rw [if_neg left, if_pos right] at equal
    have same := (List.cons.inj equal).1
    exact absurd (same ▸ escaped) left
  · rw [if_neg left, if_neg right] at equal
    exact List.cons.inj equal

theorem selfDelimiting_escape {escape : Char} (escaped : special escape) (stops : special stop)
    (ne : escape ≠ stop) :
    SelfDelimiting fun text : List Char => text.flatMap (escapeChar escape special) ++ [stop] := by
  apply selfDelimiting_flatMap (selfDelimiting_escapeChar escaped)
  intro c rest rest' equal
  unfold escapeChar at equal
  by_cases inside : special c
  · rw [if_pos inside] at equal
    exact ne (List.cons.inj equal).1.symm
  · rw [if_neg inside] at equal
    exact inside ((List.cons.inj equal).1 ▸ stops)

theorem toDigits_injective : Function.Injective (Nat.toDigits 10) := by
  intro n m same
  rw [← @Nat.ofDigitChars_ten_toDigits n, same, Nat.ofDigitChars_ten_toDigits]

theorem not_mem_toDigits (other : stop.isDigit = false) (n : Nat) : stop ∉ Nat.toDigits 10 n := by
  intro inside
  have digit : stop.isDigit := Nat.isDigit_of_mem_toDigits (by omega) (Nat.le_refl 10) inside
  rw [other] at digit
  cases digit

theorem selfDelimiting_toDigits (other : stop.isDigit = false) :
    SelfDelimiting fun n : Nat => Nat.toDigits 10 n ++ [stop] :=
  selfDelimiting_append toDigits_injective (not_mem_toDigits other)

/-- An integer in decimals, with a sign when it is negative. -/
def decimal : Int → List Char
  | .ofNat n => Nat.toDigits 10 n
  | .negSucc n => '-' :: Nat.toDigits 10 (n + 1)

theorem decimal_injective : Function.Injective decimal := by
  have unsigned (n m : Nat) : Nat.toDigits 10 n ≠ '-' :: Nat.toDigits 10 m := by
    intro same
    have sign : '-' ∈ Nat.toDigits 10 n := same ▸ mem_cons_self
    exact not_mem_toDigits (by decide) n sign
  intro i j same
  cases i with
  | ofNat n =>
    cases j with
    | ofNat m => exact congrArg Int.ofNat (toDigits_injective same)
    | negSucc m => exact absurd same (unsigned n (m + 1))
  | negSucc n =>
    cases j with
    | ofNat m => exact absurd same.symm (unsigned m (n + 1))
    | negSucc m =>
      have digits := toDigits_injective (List.cons.inj same).2
      exact congrArg Int.negSucc (Nat.succ.inj digits)

theorem selfDelimiting_decimal (other : stop.isDigit = false) (unsigned : stop ≠ '-') :
    SelfDelimiting fun i : Int => decimal i ++ [stop] := by
  apply selfDelimiting_append decimal_injective
  intro i inside
  cases i with
  | ofNat n => exact not_mem_toDigits other n inside
  | negSucc n =>
    rcases mem_cons.mp inside with same | inside
    · exact unsigned same
    · exact not_mem_toDigits other (n + 1) inside

end Delimited
