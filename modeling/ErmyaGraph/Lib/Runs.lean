import Mathlib.Algebra.Order.Ring.Int
import Mathlib.Data.List.Basic

/-! # Runs that remember their past

A step of a run may depend on every state the run went through, as when a
caller writes back a value it read some steps ago. -/

namespace Runs

variable {σ α : Type}

/-- Runs from a state. A run lists the states it went through, the last one first. -/
inductive Run (allowed : List σ → σ → α → Prop) (step : σ → α → σ) (start : σ) :
    List σ → σ → Prop
  | start : Run allowed step start [start] start
  | step {past : List σ} {s : σ} (a : α) (sofar : Run allowed step start past s)
      (may : allowed past s a) : Run allowed step start (step s a :: past) (step s a)

section Rules

variable {allowed allowed' : List σ → σ → α → Prop} {step : σ → α → σ} {start s : σ}
  {past : List σ}

section

variable (run : Run allowed step start past s)
include run

theorem Run.invariant (inv : List σ → σ → Prop) (first : inv [start] start)
    (next : ∀ past s a, inv past s → allowed past s a → inv (step s a :: past) (step s a)) :
    inv past s := by
  induction run with
  | start => exact first
  | step a sofar may ih => exact next _ _ a ih may

theorem Run.mono (weaken : ∀ past s a, allowed past s a → allowed' past s a) :
    Run allowed' step start past s := by
  induction run with
  | start => exact .start
  | step a sofar may ih => exact .step a ih (weaken _ _ a may)

theorem Run.mem : s ∈ past := by
  cases run with
  | start => exact List.mem_singleton_self start
  | step a sofar may => exact List.mem_cons_self

end

/-- Every action of a list is allowed after those before it. -/
def Allows (allowed : List σ → σ → α → Prop) (step : σ → α → σ) : List σ → σ → List α → Prop
  | _, _, [] => True
  | past, s, a :: rest => allowed past s a ∧ Allows allowed step (step s a :: past) (step s a) rest

theorem Run.append (run : Run allowed step start past s) {actions : List α}
    (allows : Allows allowed step past s actions) :
    ∃ past', Run allowed step start past' (actions.foldl step s) := by
  induction actions generalizing past s with
  | nil => exact ⟨past, run⟩
  | cons a rest ih => exact ih (.step a run allows.1) allows.2

end Rules

end Runs
