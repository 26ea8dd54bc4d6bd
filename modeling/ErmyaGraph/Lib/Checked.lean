import ErmyaGraph.Lib.Memory

/-! # Checked computations

A computation returns a value, returns an error, or panics: an index out of
range and a subtraction below zero stop the program. -/

namespace Checked

open Bytes

/-- Why a computation has no value. -/
inductive Fault (ε : Type) where
  | error (e : ε)
  | panic
deriving DecidableEq

abbrev Attempt (ε α : Type) := Except (Fault ε) α

variable {ε α β : Type}

/-- A computation that cannot panic, among those that can. -/
def attempt (r : Except ε α) : Attempt ε α := r.mapError .error

def demand (p : Prop) [Decidable p] (a : α) : Attempt ε α := if p then .ok a else .error .panic

def byteAt (bytes : List UInt8) (i : Nat) : Attempt ε UInt8 :=
  demand (i < bytes.length) (bytes.getD i 0)

def rangeOf (bytes : List UInt8) (from_ upto : Nat) : Attempt ε (List UInt8) :=
  demand (from_ ≤ upto ∧ upto ≤ bytes.length) (span bytes from_ upto)

def minus (a b : Nat) : Attempt ε Nat := demand (b ≤ a) (a - b)

def readWithin (limit : Nat) (mem : Memory) (start width : Nat) : Attempt ε Nat :=
  demand (start + width ≤ limit) (readLe mem start width)

def sliceWithin (limit : Nat) (mem : Memory) (start len : Nat) : Attempt ε (List UInt8) :=
  demand (start + len ≤ limit) (slice mem start len)

def byteWithin (limit : Nat) (mem : Memory) (i : Nat) : Attempt ε UInt8 :=
  demand (i < limit) (mem i)

def spliceWithin (limit : Nat) (mem : Memory) (start : Nat) (data : List UInt8) :
    Attempt ε Memory :=
  demand (start + data.length ≤ limit) (splice mem start data)

/-- `copy_within`, from a range of a buffer to another. -/
def copyWithin (limit : Nat) (mem : Memory) (src len dest : Nat) : Attempt ε Memory :=
  demand (src + len ≤ limit ∧ dest + len ≤ limit) (splice mem dest (slice mem src len))

def writeWithin (limit : Nat) (mem : Memory) (start width n : Nat) : Attempt ε Memory :=
  demand (start + width ≤ limit) (writeLe mem start width n)

def Calm (x : Attempt ε α) : Prop := x ≠ .error .panic

section Rules

variable {p : Prop} [Decidable p] {a : α} {r : Except ε α} {x : Attempt ε α}

theorem demand_of (held : p) : (demand p a : Attempt ε α) = .ok a := if_pos held

theorem demand_not (failed : ¬p) : (demand p a : Attempt ε α) = .error .panic := if_neg failed

theorem calm_ok (a : α) : Calm (.ok a : Attempt ε α) := nofun

theorem calm_error (e : ε) : Calm (.error (.error e) : Attempt ε α) := nofun

theorem calm_demand : Calm (demand p a : Attempt ε α) ↔ p := by
  by_cases held : p
  · rw [demand_of held]
    exact iff_of_true (calm_ok a) held
  · rw [demand_not held]
    exact iff_of_false (fun calm => calm rfl) held

theorem calm_attempt (r : Except ε α) : Calm (attempt r) := by
  cases r with
  | ok a => exact calm_ok a
  | error e => exact calm_error e

variable {f : α → Attempt ε β}

theorem Calm.bind (first : Calm x) (rest : ∀ a, x = .ok a → Calm (f a)) : Calm (x >>= f) := by
  cases x with
  | ok a => exact rest a rfl
  | error fault =>
    cases fault with
    | error e => exact calm_error e
    | panic => exact absurd rfl first

theorem calm_ite {y : Attempt ε α} (yes : p → Calm x) (no : ¬p → Calm y) :
    Calm (if p then x else y) := by
  split
  · next held => exact yes held
  · next failed => exact no failed

theorem Calm.error_of_not_ok (calm : Calm x) (no : ∀ a, x ≠ .ok a) :
    ∃ e, x = .error (.error e) := by
  cases x with
  | ok a => exact absurd rfl (no a)
  | error fault =>
    cases fault with
    | error e => exact ⟨e, rfl⟩
    | panic => exact absurd rfl calm

@[simp]
theorem attempt_ok (a : α) : attempt (.ok a : Except ε α) = .ok a := rfl

@[simp]
theorem attempt_error (e : ε) : attempt (.error e : Except ε α) = .error (.error e) := rfl

theorem attempt_eq_ok : attempt r = .ok a ↔ r = .ok a := by
  cases r with
  | ok b => simp
  | error e => simp

theorem demand_bind (held : p) (f : α → Attempt ε β) : (demand p a >>= f) = f a := by
  rw [demand_of held]
  rfl

/-! A computation that never panics is the embedding of one that cannot. It is so part by
part. -/

theorem eq_attempt_bind {g : α → Except ε β} (first : x = attempt r)
    (rest : ∀ a, r = .ok a → f a = attempt (g a)) : (x >>= f) = attempt (r >>= g) := by
  subst first
  cases r with
  | ok a => exact rest a rfl
  | error e => rfl

theorem eq_attempt_guard {e : ε} {after : PUnit → Attempt ε α} {after' : PUnit → Except ε α}
    (rest : ¬p → x = attempt r) :
    (if p then throw (Fault.error e) >>= after else x) =
      attempt (if p then throw e >>= after' else r) := by
  by_cases stops : p
  · rw [if_pos stops, if_pos stops]
    rfl
  · rw [if_neg stops, if_neg stops, rest stops]

theorem eq_attempt_ite {y : Attempt ε α} {r' : Except ε α} (yes : p → x = attempt r)
    (no : ¬p → y = attempt r') : (if p then x else y) = attempt (if p then r else r') := by
  by_cases held : p
  · rw [if_pos held, if_pos held, yes held]
  · rw [if_neg held, if_neg held, no held]

theorem calm_of_eq_attempt (same : x = attempt r) : Calm x := same ▸ calm_attempt r

end Rules

section Loops

variable {σ : Type} {step : Nat → σ → Attempt ε σ} {next : Nat → σ → σ} {limit : Nat}

/-- `for i in index..index + fuel`, with what each round leaves to the next. -/
def sweep (step : Nat → σ → Attempt ε σ) : (fuel : Nat) → Nat → σ → Attempt ε σ
  | 0, _, s => .ok s
  | fuel + 1, index, s => do
      let s ← step index s
      sweep step fuel (index + 1) s

theorem sweep_eq {loop : Nat → Nat → σ → σ} (steps : ∀ i s, i < limit → step i s = .ok (next i s))
    (zero : ∀ i s, loop 0 i s = s)
    (succ : ∀ fuel i s, loop (fuel + 1) i s = loop fuel (i + 1) (next i s)) {fuel index : Nat}
    (inside : index + fuel ≤ limit) (s : σ) :
    sweep step fuel index s = .ok (loop fuel index s) := by
  induction fuel generalizing index s with
  | zero => rw [zero, sweep]
  | succ fuel ih =>
    rw [sweep, steps index s (by omega), succ]
    exact ih (by omega) _

theorem sweep_panic (steps : ∀ i s, i < limit → step i s = .ok (next i s))
    (bad : ∀ s, step limit s = .error .panic) {fuel index : Nat} (before : index ≤ limit)
    (beyond : limit < index + fuel) (s : σ) : sweep step fuel index s = .error .panic := by
  induction fuel generalizing index s with
  | zero => omega
  | succ fuel ih =>
    rw [sweep]
    rcases Nat.lt_or_ge index limit with less | more
    · rw [steps index s less]
      exact ih less (by omega) _
    · rw [Nat.le_antisymm before more, bad s]
      rfl

end Loops

end Checked
