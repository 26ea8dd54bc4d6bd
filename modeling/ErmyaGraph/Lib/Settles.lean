import Mathlib.Algebra.Order.Ring.Int
import Mathlib.Data.List.Basic

/-! # Computations that may stop

A computation that can stop without a result is an option. It is described by the
value that it has and by the condition under which it has it. -/

namespace Settles

variable {α β : Type}

/-- A computation has a value where a condition holds, and stops everywhere else. -/
structure At (x : Option α) (a : α) (safe : Prop) : Prop where
  value : safe → x = some a
  stops : ¬safe → x = none

namespace At

variable {x : Option α} {a : α} {safe safe' : Prop}

theorem eq_some_iff (settles : At x a safe) : x = some a ↔ safe := by
  refine ⟨fun has => ?_, settles.value⟩
  by_contra unsafely
  rw [settles.stops unsafely] at has
  cases has

theorem pure (a : α) : At (some a) a True := ⟨fun _ => rfl, fun never => absurd trivial never⟩

theorem congr (settles : At x a safe) (same : safe ↔ safe') : At x a safe' :=
  ⟨fun held => settles.value (same.mpr held), fun failed => settles.stops fun held =>
    failed (same.mp held)⟩

theorem map (settles : At x a safe) (f : α → β) : At (x.map f) (f a) safe :=
  ⟨fun held => by rw [settles.value held, Option.map_some],
    fun failed => by rw [settles.stops failed, Option.map_none]⟩

variable {f : α → Option β}

theorem bind (settles : At x a safe) {b : β} (next : At (f a) b safe') :
    At (x.bind f) b (safe ∧ safe') where
  value held := by rw [settles.value held.1, Option.bind_some, next.value held.2]
  stops failed := by
    by_cases held : safe
    · rw [settles.value held, Option.bind_some, next.stops fun later => failed ⟨held, later⟩]
    · rw [settles.stops held, Option.bind_none]

theorem mapM {g : α → β} {safe : α → Prop} {items : List α}
    (each : ∀ a ∈ items, At (f a) (g a) (safe a)) :
    At (items.mapM f) (items.map g) (∀ a ∈ items, safe a) := by
  induction items with
  | nil => exact (pure []).congr (iff_of_true trivial nofun)
  | cons item rest ih =>
    rw [List.mapM_cons, List.map_cons]
    have later := ih fun a mem => each a (List.mem_cons_of_mem item mem)
    have both := (each item List.mem_cons_self).bind (f := fun b =>
      (rest.mapM f).map (b :: ·)) (later.map (g item :: ·))
    apply At.congr _ List.forall_mem_cons.symm
    convert both using 1
    cases f item with
    | none => rfl
    | some b => cases rest.mapM f <;> rfl

theorem foldlM {f : β → α → Option β} {g : β → α → β} {inv : β → Prop} {safe : β → α → Prop}
    {safely : β → List α → Prop} (nil : ∀ b, safely b [])
    (cons : ∀ b a rest, inv b → (safely b (a :: rest) ↔ safe b a ∧ safely (g b a) rest))
    (step : ∀ b a, inv b → At (f b a) (g b a) (safe b a))
    (keeps : ∀ b a, inv b → safe b a → inv (g b a)) {b : β} (here : inv b) (items : List α) :
    At (items.foldlM f b) (items.foldl g b) (safely b items) := by
  induction items generalizing b with
  | nil => exact (pure b).congr (iff_of_true trivial (nil b))
  | cons a rest ih =>
    rw [List.foldlM_cons, List.foldl_cons]
    apply At.congr _ (cons b a rest here).symm
    by_cases fine : safe b a
    · rw [(step b a here).value fine]
      exact (ih (keeps b a here fine)).congr ⟨fun later => ⟨fine, later⟩, fun both => both.2⟩
    · rw [(step b a here).stops fine]
      exact ⟨fun both => absurd both.1 fine, fun _ => rfl⟩

end At

end Settles
