import Mathlib.Algebra.Order.Ring.Int
import Mathlib.Order.Lattice.Nat

/-! # Stateful computations that may fail

A fallible method on `&mut self` keeps whatever it had already written when it
returns an error. `EStateM` has exactly this meaning. This module gives it a
small calculus of postconditions: `Sat` relates one run to a condition on its
normal results and a condition on its failures. -/

namespace Outcome

open List

variable {ε σ α β γ : Type}

/-- Running `x` from `s` ends in a normal result satisfying `post`, or in a
failure satisfying `fail`; both see the state that was reached. -/
def Sat (x : EStateM ε σ α) (s : σ) (post : α → σ → Prop) (fail : ε → σ → Prop) : Prop :=
  match x.run s with
  | .ok a s' => post a s'
  | .error e s' => fail e s'

section Rules

variable {x : EStateM ε σ α} {s : σ} {post post' : α → σ → Prop} {fail fail' : ε → σ → Prop}

theorem Sat.of_ok {a : α} {s' : σ} (sat : Sat x s post fail)
    (ran : x.run s = .ok a s') : post a s' := by
  simpa only [Sat, ran] using sat

theorem Sat.of_error {e : ε} {s' : σ} (sat : Sat x s post fail)
    (ran : x.run s = .error e s') : fail e s' := by
  simpa only [Sat, ran] using sat

theorem sat_iff : Sat x s post fail ↔
    (∀ a s', x.run s = .ok a s' → post a s') ∧ (∀ e s', x.run s = .error e s' → fail e s') := by
  unfold Sat
  cases ran : x.run s with
  | ok a s' => simp
  | error e s' => simp

theorem Sat.mono (sat : Sat x s post fail) (onOk : ∀ a s', post a s' → post' a s')
    (onError : ∀ e s', fail e s' → fail' e s') : Sat x s post' fail' := by
  unfold Sat at sat ⊢
  cases ran : x.run s with
  | ok a s' =>
    rw [ran] at sat
    exact onOk a s' sat
  | error e s' =>
    rw [ran] at sat
    exact onError e s' sat

/-- The computation cannot fail. -/
theorem Sat.sure (sat : Sat x s post fun _ _ => False)
    (onOk : ∀ a s', post a s' → post' a s') : Sat x s post' fail :=
  sat.mono onOk fun _ _ => False.elim

theorem Sat.loose (sat : Sat x s post fail) (onOk : ∀ a s', post a s' → post' a s') :
    Sat x s post' fun _ _ => True :=
  sat.mono onOk fun _ _ _ => trivial

theorem Sat.relax (sat : Sat x s post fail) (onOk : ∀ a s', post a s' → post' a s') :
    Sat x s post' fail :=
  sat.mono onOk fun _ _ => id

theorem Sat.and (left : Sat x s post fail) (right : Sat x s post' fail') :
    Sat x s (fun a s' => post a s' ∧ post' a s') (fun e s' => fail e s' ∧ fail' e s') := by
  unfold Sat at left right ⊢
  cases ran : x.run s with
  | ok a s' =>
    rw [ran] at left right
    exact ⟨left, right⟩
  | error e s' =>
    rw [ran] at left right
    exact ⟨left, right⟩

@[simp]
theorem sat_pure (a : α) : Sat (pure a : EStateM ε σ α) s post fail ↔ post a s := Iff.rfl

@[simp]
theorem sat_throw (e : ε) : Sat (throw e : EStateM ε σ α) s post fail ↔ fail e s := Iff.rfl

@[simp]
theorem sat_get {post : σ → σ → Prop} :
    Sat (get : EStateM ε σ σ) s post fail ↔ post s s := Iff.rfl

@[simp]
theorem sat_set (t : σ) {post : PUnit → σ → Prop} :
    Sat (set t : EStateM ε σ PUnit) s post fail ↔ post ⟨⟩ t := Iff.rfl

@[simp]
theorem sat_modify (f : σ → σ) {post : PUnit → σ → Prop} :
    Sat (modify f : EStateM ε σ PUnit) s post fail ↔ post ⟨⟩ (f s) := Iff.rfl

@[simp]
theorem sat_bind (f : α → EStateM ε σ β) {post : β → σ → Prop} :
    Sat (x >>= f) s post fail ↔ Sat x s (fun a s' => Sat (f a) s' post fail) fail := by
  unfold Sat
  change (match EStateM.bind x f s with | .ok a s' => post a s' | .error e s' => fail e s') ↔ _
  unfold EStateM.bind
  change _ ↔ (match x s with | .ok a s' => _ | .error e s' => fail e s')
  cases x s with
  | ok a s' => rfl
  | error e s' => rfl

@[simp]
theorem sat_map (f : α → β) {post : β → σ → Prop} :
    Sat (f <$> x) s post fail ↔ Sat x s (fun a s' => post (f a) s') fail := by
  unfold Sat
  change (match EStateM.map f x s with | .ok a s' => post a s' | .error e s' => fail e s') ↔ _
  unfold EStateM.map
  change _ ↔ (match x s with | .ok a s' => _ | .error e s' => fail e s')
  cases x s with
  | ok a s' => rfl
  | error e s' => rfl

@[simp]
theorem sat_discard {post : PUnit → σ → Prop} :
    Sat (discard x) s post fail ↔ Sat x s (fun _ s' => post ⟨⟩ s') fail :=
  sat_map (Function.const α PUnit.unit)

theorem sat_ite {p : Prop} [Decidable p] {y : EStateM ε σ α} :
    Sat (if p then x else y) s post fail ↔ (p → Sat x s post fail) ∧ (¬p → Sat y s post fail) := by
  by_cases held : p
  · simp [held]
  · simp [held]

end Rules

def ofResult : Except ε α → EStateM ε σ α
  | .ok a => pure a
  | .error e => throw e

variable {s : σ} {post : α → σ → Prop} {fail : ε → σ → Prop}

@[simp]
theorem sat_ofResult_ok (a : α) : Sat (ofResult (.ok a)) s post fail ↔ post a s := Iff.rfl

@[simp]
theorem sat_ofResult_error (e : ε) :
    Sat (ofResult (.error e)) s post fail ↔ fail e s := Iff.rfl

theorem sat_ofResult (r : Except ε α) :
    Sat (ofResult r) s post fail ↔
      (∀ a, r = .ok a → post a s) ∧ (∀ e, r = .error e → fail e s) := by
  cases r with
  | ok a => simp
  | error e => simp

/-- Run a computation over a component of the state. -/
def zoom {τ : Type} (getter : σ → τ) (setter : τ → σ → σ) (x : EStateM ε τ α) :
    EStateM ε σ α := fun s =>
  match x.run (getter s) with
  | .ok a t => .ok a (setter t s)
  | .error e t => .error e (setter t s)

@[simp]
theorem sat_zoom {τ : Type} (getter : σ → τ) (setter : τ → σ → σ) (x : EStateM ε τ α) :
    Sat (zoom getter setter x) s post fail ↔
      Sat x (getter s) (fun a t => post a (setter t s)) (fun e t => fail e (setter t s)) := by
  unfold Sat zoom
  simp only [EStateM.run]
  cases x (getter s) with
  | ok a t => rfl
  | error e t => rfl

/-- An invariant kept by every element's body is kept by the whole loop, also when a body
fails in the middle. -/
theorem sat_forM_of_invariant {body : α → EStateM ε σ PUnit} {items : List α} (inv : σ → Prop)
    (start : inv s)
    (step : ∀ a ∈ items, ∀ s, inv s → Sat (body a) s (fun _ s' => inv s') (fun _ s' => inv s')) :
    Sat (items.forM body) s (fun _ s' => inv s') (fun _ s' => inv s') := by
  induction items generalizing s with
  | nil => exact start
  | cons item rest ih =>
    simp only [forM_eq_forM, forM_cons, sat_bind]
    refine (step item (by simp) s start).mono (fun _ s' held => ?_) (fun _ _ held => held)
    exact ih held fun a mem => step a (mem_cons_of_mem item mem)

variable {body : γ → β → EStateM ε σ γ} {items : List β}

theorem sat_foldlM_of_invariant {init : γ} (inv : γ → σ → Prop) (start : inv init s)
    (step : ∀ b ∈ items, ∀ acc s, inv acc s → Sat (body acc b) s inv fail) :
    Sat (items.foldlM body init) s inv fail := by
  induction items generalizing init s with
  | nil => exact start
  | cons item rest ih =>
    rw [foldlM_cons, sat_bind]
    refine (step item (by simp) init s start).mono (fun acc s' held => ?_) (fun _ _ failed => failed)
    exact ih held fun b mem => step b (mem_cons_of_mem item mem)

theorem sat_foldlM_count (count : γ → Nat) (k : Nat) (step : ∀ acc b s,
      Sat (body acc b) s (fun acc' _ => count acc' = count acc + k) fun _ _ => True)
    (items : List β) (init : γ) (s : σ) :
    Sat (items.foldlM body init) s (fun acc _ => count acc = count init + k * items.length)
      fun _ _ => True := by
  induction items generalizing init s with
  | nil => exact rfl
  | cons item rest ih =>
    rw [foldlM_cons, sat_bind]
    refine (step init item s).mono (fun acc s' counted => ?_) (fun _ _ _ => trivial)
    refine (ih acc s').mono (fun last _ total => ?_) (fun _ _ _ => trivial)
    rw [total, counted, length_cons, Nat.mul_add, Nat.mul_one]
    omega

theorem foldlM_congr_mem {f g : γ → β → EStateM ε σ γ}
    (same : ∀ b ∈ items, ∀ acc, f acc b = g acc b) (init : γ) :
    items.foldlM f init = items.foldlM g init := by
  induction items generalizing init with
  | nil => rfl
  | cons item rest ih =>
    rw [foldlM_cons, foldlM_cons, same item mem_cons_self]
    exact bind_congr fun acc => ih (fun b mem => same b (mem_cons_of_mem item mem)) acc

/-- The state a run leaves, whichever way it ends. -/
def final (x : EStateM ε σ α) (s : σ) : σ :=
  match x.run s with
  | .ok _ s' => s'
  | .error _ s' => s'

/-- The run ends normally. -/
def succeeds (x : EStateM ε σ α) (s : σ) : Bool :=
  match x.run s with
  | .ok _ _ => true
  | .error _ _ => false

variable {x : EStateM ε σ α}

theorem Sat.exists_run (sat : Sat x s post fun _ _ => False) :
    ∃ a s', x.run s = .ok a s' ∧ post a s' := by
  unfold Sat at sat
  cases ran : x.run s with
  | ok a s' =>
    rw [ran] at sat
    exact ⟨a, s', rfl, sat⟩
  | error e s' =>
    rw [ran] at sat
    exact sat.elim

theorem sat_of_run {s' : σ} {a : α} (ran : x.run s = .ok a s') : Sat x s post fail ↔ post a s' := by
  unfold Sat
  rw [ran]

/-- What a run answers, without the state it leaves. -/
def answer (x : EStateM ε σ α) (s : σ) : Except ε α :=
  match x.run s with
  | .ok a _ => .ok a
  | .error e _ => .error e

theorem Sat.answer_eq {result : Except ε α}
    (sat : Sat x s (fun a _ => result = .ok a) (fun e _ => result = .error e)) :
    answer x s = result := by
  unfold Sat at sat
  unfold answer
  cases ran : x.run s with
  | ok a s' =>
    rw [ran] at sat
    exact sat.symm
  | error e s' =>
    rw [ran] at sat
    exact sat.symm

theorem Sat.answer {a : α} (sat : Sat x s (fun b _ => b = a) fail) (total : ∀ e s', ¬fail e s') :
    Outcome.answer x s = .ok a :=
  (sat.mono (fun _ _ same => congrArg Except.ok same.symm)
    (fun e s' failed => (total e s' failed).elim)).answer_eq

theorem succeeds_of_answer {a : α} (answered : answer x s = .ok a) : succeeds x s := by
  unfold answer at answered
  unfold succeeds
  split at answered
  · rfl
  · cases answered

theorem Sat.final {P : σ → Prop} (sat : Sat x s (fun _ s' => P s') (fun _ s' => P s')) :
    P (final x s) := by
  unfold Sat at sat
  unfold Outcome.final
  cases ran : x.run s with
  | ok a s' =>
    rw [ran] at sat
    exact sat
  | error e s' =>
    rw [ran] at sat
    exact sat

theorem Sat.outcome (sat : Sat x s post fail) :
    (∀ a, Outcome.answer x s = .ok a → post a (Outcome.final x s)) ∧
      ∀ e, Outcome.answer x s = .error e → fail e (Outcome.final x s) := by
  unfold Sat at sat
  unfold Outcome.answer Outcome.final
  cases ran : x.run s with
  | ok a s' =>
    rw [ran] at sat
    exact ⟨fun _ same => Except.ok.inj same ▸ sat, nofun⟩
  | error e s' =>
    rw [ran] at sat
    exact ⟨nofun, fun _ same => Except.error.inj same ▸ sat⟩

theorem run_of_succeeds {x : EStateM ε σ Unit} (ok : succeeds x s) :
    x.run s = .ok () (final x s) := by
  unfold succeeds at ok
  unfold final
  cases ran : x.run s with
  | ok a s' => rfl
  | error e s' =>
    rw [ran] at ok
    cases ok

theorem Sat.final_of_succeeds {P : σ → Prop} (sat : Sat x s (fun _ s' => P s') fail)
    (ok : succeeds x s) : P (Outcome.final x s) := by
  unfold Sat at sat
  unfold Outcome.final
  unfold succeeds at ok
  cases ran : x.run s with
  | ok a s' =>
    rw [ran] at sat
    exact sat
  | error e s' =>
    rw [ran] at ok
    cases ok

theorem Sat.of_succeeds {fail' : ε → σ → Prop} (sat : Sat x s post fail) (ok : succeeds x s) :
    Sat x s post fail' := by
  unfold Sat at sat ⊢
  unfold succeeds at ok
  cases ran : x.run s with
  | ok a s' =>
    rw [ran] at sat
    exact sat
  | error e s' =>
    rw [ran] at ok
    cases ok

theorem Sat.of_fails {post' : α → σ → Prop} (sat : Sat x s post fail)
    (failed : succeeds x s = false) : Sat x s post' fail := by
  unfold Sat at sat ⊢
  unfold succeeds at failed
  cases ran : x.run s with
  | ok a s' =>
    rw [ran] at failed
    cases failed
  | error e s' =>
    rw [ran] at sat
    exact sat

/-! ## Relations kept by a computation

A frame condition relates the state before a computation to the state after it,
whichever way it ends. For a preorder such conditions compose. -/

/-- Every run of `x` relates its first state to its last. -/
def Keeps (R : σ → σ → Prop) (x : EStateM ε σ α) : Prop :=
  ∀ s, Sat x s (fun _ s' => R s s') (fun _ s' => R s s')

section Keeps

variable {R : σ → σ → Prop}

theorem Keeps.mono {R' : σ → σ → Prop} (keeps : Keeps R x) (weaken : ∀ s s', R s s' → R' s s') :
    Keeps R' x :=
  fun s => (keeps s).mono (fun _ s' => weaken s s') (fun _ s' => weaken s s')

theorem keeps_modify {f : σ → σ} (step : ∀ s, R s (f s)) :
    Keeps R (modify f : EStateM ε σ PUnit) := step

theorem keeps_get_bind {f : σ → EStateM ε σ β}
    (body : ∀ s, Sat (f s) s (fun _ s' => R s s') (fun _ s' => R s s')) : Keeps R (get >>= f) := by
  intro s
  rw [sat_bind, sat_get]
  exact body s

theorem keeps_ite {p : Prop} [Decidable p] {y : EStateM ε σ α} (onTrue : p → Keeps R x)
    (onFalse : ¬p → Keeps R y) : Keeps R (if p then x else y) := by
  by_cases held : p
  · rw [if_pos held]
    exact onTrue held
  · rw [if_neg held]
    exact onFalse held

theorem Keeps.map (f : α → β) (keeps : Keeps R x) : Keeps R (f <$> x) := by
  intro s
  rw [sat_map]
  exact keeps s

variable [IsPreorder σ R]

theorem keeps_pure (a : α) : Keeps R (pure a : EStateM ε σ α) := fun s => refl_of R s

theorem keeps_throw (e : ε) : Keeps R (throw e : EStateM ε σ α) := fun s => refl_of R s

theorem keeps_get : Keeps R (get : EStateM ε σ σ) := fun s => refl_of R s

theorem keeps_ofResult (r : Except ε α) : Keeps R (ofResult r : EStateM ε σ α) := by
  intro s
  rw [sat_ofResult]
  exact ⟨fun _ _ => refl_of R s, fun _ _ => refl_of R s⟩

theorem Keeps.bind {f : α → EStateM ε σ β} (first : Keeps R x) (rest : ∀ a, Keeps R (f a)) :
    Keeps R (x >>= f) := by
  intro s
  rw [sat_bind]
  refine (first s).mono (fun a s₁ reached => ?_) (fun _ _ reached => reached)
  exact (rest a s₁).mono (fun _ s₂ moved => trans_of R reached moved)
    (fun _ s₂ moved => trans_of R reached moved)

theorem keeps_forM {body : β → EStateM ε σ PUnit} (items : List β)
    (step : ∀ b ∈ items, Keeps R (body b)) : Keeps R (items.forM body) := by
  intro s
  refine sat_forM_of_invariant (fun s' => R s s') (refl_of R s) ?_
  intro b mem s₁ reached
  exact (step b mem s₁).mono (fun _ _ moved => trans_of R reached moved)
    (fun _ _ moved => trans_of R reached moved)

theorem keeps_foldlM {body : γ → β → EStateM ε σ γ} (items : List β) (init : γ)
    (step : ∀ acc, ∀ b ∈ items, Keeps R (body acc b)) : Keeps R (items.foldlM body init) := by
  induction items generalizing init with
  | nil => exact keeps_pure init
  | cons item rest ih =>
    rw [foldlM_cons]
    refine (step init item (by simp)).bind fun acc => ?_
    exact ih acc fun acc b mem => step acc b (mem_cons_of_mem item mem)

end Keeps

theorem keeps_zoom {τ : Type} {S : τ → τ → Prop} {R : σ → σ → Prop} {getter : σ → τ}
    {setter : τ → σ → σ} {x : EStateM ε τ α} (keeps : Keeps S x)
    (lift : ∀ s t, S (getter s) t → R s (setter t s)) : Keeps R (zoom getter setter x) := by
  intro s
  rw [sat_zoom]
  exact (keeps (getter s)).mono (fun _ t => lift s t) (fun _ t => lift s t)

section Results

variable {a : α} {b : β}

theorem ok_of_bind {x : Except ε α} {rest : α → Except ε β} (ok : (x >>= rest) = .ok b) :
    ∃ a, x = .ok a ∧ rest a = .ok b := by
  cases x with
  | error e => cases ok
  | ok a => exact ⟨a, rfl, ok⟩

theorem ok_of_guard {stop : Prop} [Decidable stop] {e : ε} {after : PUnit → Except ε α}
    {rest : Except ε α} (ok : (if stop then throw e >>= after else rest) = .ok a) :
    ¬stop ∧ rest = .ok a := by
  by_cases stops : stop
  · rw [if_pos stops] at ok
    cases ok
  · rw [if_neg stops] at ok
    exact ⟨stops, ok⟩

theorem some_of_guard {stop : Prop} [Decidable stop] {rest : Except ε (Option α)}
    (ok : (if stop then pure none else rest) = .ok (some a)) : ¬stop ∧ rest = .ok (some a) := by
  by_cases stops : stop
  · rw [if_pos stops] at ok
    cases ok
  · rw [if_neg stops] at ok
    exact ⟨stops, ok⟩

end Results

end Outcome
