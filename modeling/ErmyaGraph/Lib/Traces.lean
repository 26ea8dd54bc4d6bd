import Mathlib.Algebra.Order.Ring.Int
import Mathlib.Data.List.Induction

/-! # Traces

What is asked of an event of a trace may depend on the events before it. -/

namespace Traces

variable {ε : Type} {may : List ε → ε → Prop} {trace past rest : List ε} {e : ε}

/-- Every event of a trace may happen after those before it. -/
def Admits (may : List ε → ε → Prop) (trace : List ε) : Prop :=
  ∀ past e rest, trace = past ++ e :: rest → may past e

theorem admits_nil : Admits may [] := by
  intro past e rest same
  simp at same

theorem Admits.concat (admits : Admits may trace) (next : may trace e) :
    Admits may (trace ++ [e]) := by
  intro past other rest same
  obtain ⟨front, rfl⟩ | ⟨rfl, rfl, rfl⟩ :
      (∃ front, trace = past ++ other :: front) ∨ past = trace ∧ other = e ∧ rest = [] := by
    cases rest using List.reverseRecOn with
    | nil =>
      have parts := List.append_inj' same rfl
      exact .inr ⟨parts.1.symm, (List.cons.inj parts.2).1.symm, rfl⟩
    | append_singleton front last =>
      have grown : trace ++ [e] = (past ++ other :: front) ++ [last] := by simpa using same
      exact .inl ⟨front, (List.append_inj' grown rfl).1⟩
  · exact admits past other front rfl
  · exact next

section Balance

variable (opens closes : ε → Bool)

theorem Admits.countP_le (admits : Admits may trace)
    (sound : ∀ past e, may past e → closes e = true → past.countP closes < past.countP opens)
    (front : trace = past ++ rest) : past.countP closes ≤ past.countP opens := by
  induction past using List.reverseRecOn generalizing rest with
  | nil => exact Nat.le_refl 0
  | append_singleton past e ih =>
    have before : trace = past ++ e :: rest := by simp [front]
    have level := ih before
    have next := sound past e (admits past e rest before)
    simp only [List.countP_append, List.countP_singleton]
    split
    · next closing =>
        have below := next closing
        omega
    · omega

/-- What is open at some point of a trace and balanced at its end is balanced by an event that
closes it. -/
theorem exists_balancing (excess : trace.countP closes < trace.countP opens)
    (even : (trace ++ rest).countP opens = (trace ++ rest).countP closes) :
    ∃ front e back, rest = front ++ e :: back ∧ closes e = true ∧
      (trace ++ front ++ [e]).countP opens = (trace ++ front ++ [e]).countP closes := by
  induction rest generalizing trace with
  | nil =>
    rw [List.append_nil] at even
    omega
  | cons e rest ih =>
    have grown : trace ++ e :: rest = trace ++ [e] ++ rest := by simp
    rw [grown] at even
    by_cases still : (trace ++ [e]).countP closes < (trace ++ [e]).countP opens
    · obtain ⟨front, last, back, rfl, closing, balanced⟩ := ih still even
      exact ⟨e :: front, last, back, rfl, closing, by simpa using balanced⟩
    · have single : ∀ p : ε → Bool, (trace ++ [e]).countP p =
          trace.countP p + if p e = true then 1 else 0 := fun p => by simp [List.countP_cons]
      rw [single, single] at still
      have closing : closes e = true := by
        by_contra not
        rw [if_neg not] at still
        omega
      refine ⟨[], e, rest, rfl, closing, ?_⟩
      rw [List.append_nil, single, single]
      rw [if_pos closing] at still ⊢
      split at still
      · omega
      · next unopened =>
          rw [if_neg unopened]
          omega

end Balance

end Traces
