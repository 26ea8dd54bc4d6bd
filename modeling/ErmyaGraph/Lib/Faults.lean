import ErmyaGraph.Lib.Outcome

/-! # Kinds of failures

A computation whose failures are all of one kind, whatever the state it runs in. -/

namespace Outcome

variable {ε σ τ α β : Type}

def Fails (kind : ε → Prop) (r : Except ε α) : Prop := ∀ e, r = .error e → kind e

def Errs (kind : ε → Prop) (x : EStateM ε σ α) : Prop :=
  ∀ s, Sat x s (fun _ _ => True) fun e _ => kind e

section Rules

variable {kind : ε → Prop}

theorem fails_ok (a : α) : Fails kind (.ok a) := nofun

theorem fails_error {e : ε} (held : kind e) : Fails kind (.error e : Except ε α) := by
  rintro _ ⟨⟩
  exact held

variable {r : Except ε α}

theorem Fails.bind {f : α → Except ε β} (first : Fails kind r) (next : ∀ a, Fails kind (f a)) :
    Fails kind (r >>= f) := by
  cases r with
  | ok a => exact next a
  | error e => exact fails_error (first e rfl)

theorem fails_ite {p : Prop} [Decidable p] {left right : Except ε α} (yes : p → Fails kind left)
    (no : ¬p → Fails kind right) : Fails kind (if p then left else right) := by
  split
  · next held => exact yes held
  · next held => exact no held

theorem errs_pure (a : α) : Errs kind (pure a : EStateM ε σ α) := fun _ => trivial

theorem errs_get : Errs kind (get : EStateM ε σ σ) := fun _ => trivial

theorem errs_set (s : σ) : Errs kind (set s : EStateM ε σ PUnit) := fun _ => trivial

theorem errs_modify (f : σ → σ) : Errs kind (modify f : EStateM ε σ PUnit) := fun _ => trivial

theorem errs_throw {e : ε} (held : kind e) : Errs kind (throw e : EStateM ε σ α) := fun _ => held

theorem errs_ofResult (fails : Fails kind r) : Errs kind (ofResult r : EStateM ε σ α) := fun _ =>
  (sat_ofResult r).mpr ⟨fun _ _ => trivial, fun e failed => fails e failed⟩

theorem Errs.bind {x : EStateM ε σ α} {f : α → EStateM ε σ β} (first : Errs kind x)
    (next : ∀ a, Errs kind (f a)) : Errs kind (x >>= f) := fun s =>
  (sat_bind f).mpr ((first s).mono (fun a s' _ => next a s') fun _ _ => id)

theorem errs_ite {p : Prop} [Decidable p] {x y : EStateM ε σ α}
    (yes : p → Errs kind x) (no : ¬p → Errs kind y) : Errs kind (if p then x else y) := by
  split
  · next held => exact yes held
  · next held => exact no held

theorem Errs.zoom {x : EStateM ε τ α} (getter : σ → τ) (setter : τ → σ → σ) (errs : Errs kind x) :
    Errs kind (zoom getter setter x) := fun s => (sat_zoom getter setter x).mpr (errs (getter s))

theorem errs_forM {body : α → EStateM ε σ PUnit} (each : ∀ a, Errs kind (body a))
    (items : List α) : Errs kind (items.forM body) := by
  induction items with
  | nil => exact errs_pure _
  | cons item rest ih => exact (each item).bind fun _ => ih

end Rules

section Answers

variable {x : EStateM ε σ α} {s : σ}

theorem succeeds_iff_sat : succeeds x s ↔ Sat x s (fun _ _ => True) fun _ _ => False := by
  unfold succeeds Sat
  cases x.run s with
  | ok a s' => exact iff_of_true rfl trivial
  | error e s' => exact iff_of_false Bool.false_ne_true id

theorem run_of_answer {e : ε} (failed : answer x s = .error e) :
    x.run s = .error e (final x s) := by
  unfold answer at failed
  unfold final
  cases ran : x.run s with
  | ok a s' =>
    rw [ran] at failed
    cases failed
  | error e' s' =>
    rw [ran] at failed
    rw [Except.error.inj failed]

end Answers

end Outcome
