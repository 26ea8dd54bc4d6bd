import ErmyaGraph.Lib.Outcome

/-! # Programs that may stop at any step

A program changes a state step by step. Each step takes effect, or fails and changes nothing,
or is where the program stops for good. What matters is every state on the way. -/

namespace Moments

open Outcome

/-- What happens to a step. -/
inductive Fate where
  | done
  | failed
  | crash
deriving DecidableEq

/-- The program stopped. -/
inductive Stopped where
  | crash

/-- A state and the states before it, the latest first. -/
structure World (σ : Type) where
  now : σ
  past : List σ

abbrev Io (σ : Type) := EStateM Stopped (World σ)

variable {σ α β : Type}

/-- Take a step. It fails by its fate, or where the state does not allow for it. -/
def act (fate : Fate) (step : σ → Option σ) : Io σ Bool := fun w =>
  match fate with
  | .crash => .error .crash w
  | .failed => .ok false w
  | .done =>
    match step w.now with
    | some next => .ok true ⟨next, w.now :: w.past⟩
    | none => .ok false w

def now : Io σ σ := do
  let w ← get
  return w.now

/-- From a state on, a program goes through states that satisfy an invariant, and returns with a
postcondition if it returns. -/
def Through (inv : σ → Prop) (x : Io σ α) (s : σ) (post : α → σ → Prop) : Prop :=
  ∀ past : List σ, (∀ m ∈ s :: past, inv m) →
    Sat x ⟨s, past⟩ (fun a w => (∀ m ∈ w.now :: w.past, inv m) ∧ post a w.now)
      fun _ w => ∀ m ∈ w.now :: w.past, inv m

section Rules

variable {inv : σ → Prop} {x : Io σ α} {s : σ} {post post' : α → σ → Prop}

theorem through_pure {a : α} (holds : post a s) : Through inv (pure a) s post :=
  fun _ sofar => ⟨sofar, holds⟩

theorem Through.mono (through : Through inv x s post) (weaken : ∀ a s', post a s' → post' a s') :
    Through inv x s post' :=
  fun past sofar => (through past sofar).mono
    (fun a w holds => ⟨holds.1, weaken a w.now holds.2⟩) fun _ _ => id

variable {last : β → σ → Prop}

theorem Through.bind {f : α → Io σ β} (through : Through inv x s post)
    (rest : ∀ a s', post a s' → Through inv (f a) s' last) : Through inv (x >>= f) s last := by
  intro past sofar
  rw [sat_bind]
  refine (through past sofar).mono ?_ fun _ _ => id
  intro a w holds
  exact rest a w.now holds.2 w.past holds.1

theorem through_now {f : σ → Io σ β} (rest : Through inv (f s) s last) :
    Through inv (now >>= f) s last :=
  fun past sofar => rest past sofar

theorem through_act {fate : Fate} {step : σ → Option σ} {post : Bool → σ → Prop}
    (taken : ∀ next, fate = .done → step s = some next → inv next ∧ post true next)
    (refused : fate ≠ .crash → (fate = .done → step s = none) → post false s) :
    Through inv (act fate step) s post := by
  intro past sofar
  cases fate with
  | crash => exact sofar
  | failed => exact ⟨sofar, refused nofun nofun⟩
  | done =>
    unfold Sat EStateM.run act
    dsimp only
    cases stepped : step s with
    | none => exact ⟨sofar, refused nofun fun _ => stepped⟩
    | some next =>
      obtain ⟨holds, done⟩ := taken next rfl stepped
      exact ⟨List.forall_mem_cons.mpr ⟨holds, sofar⟩, done⟩

end Rules

/-- A program returned, or stopped. -/
inductive Ending (α : Type) where
  | returned (a : α)
  | stopped

/-- The state after a program, and how it ended. -/
def outcomeOf (x : Io σ α) (w : World σ) : Ending α × World σ :=
  match x.run w with
  | .ok a w' => (.returned a, w')
  | .error _ w' => (.stopped, w')

theorem Through.outcome {inv : σ → Prop} {x : Io σ α} {w : World σ} {post : α → σ → Prop}
    (through : Through inv x w.now post) (sofar : ∀ m ∈ w.now :: w.past, inv m) :
    (∀ m ∈ (outcomeOf x w).2.now :: (outcomeOf x w).2.past, inv m) ∧
      ∀ a, (outcomeOf x w).1 = .returned a → post a (outcomeOf x w).2.now := by
  have sat := through w.past sofar
  unfold Sat at sat
  unfold outcomeOf
  split at sat
  · rename_i a w' ran
    have ran' : EStateM.run x w = .ok a w' := ran
    rw [ran']
    refine ⟨sat.1, ?_⟩
    rintro b same
    cases same
    exact sat.2
  · rename_i e w' ran
    have ran' : EStateM.run x w = .error e w' := ran
    rw [ran']
    exact ⟨sat, nofun⟩

end Moments
