import Mathlib.Algebra.Order.Ring.Int
import Mathlib.Order.Nat
import Mathlib.Data.List.Basic
import Mathlib.Order.BoundedOrder.Lattice
import Mathlib.Order.Lattice.Nat

/-! # Redoing a log

What a log determines of a state, seen through one observation at a time: each
entry overwrites the observed value, raises it, or leaves it. Redoing the log
where some of its entries were done before ends as doing it once. -/

namespace Redo

open List

variable {σ α V : Type} {step : σ → α → σ}

section Overwritten

variable (observe : σ → V) {effect : α → Option V}

theorem observe_foldl (observes : ∀ s a, observe (step s a) = (effect a).getD (observe s))
    (entries : List α) (s : σ) :
    observe (entries.foldl step s) = (entries.reverse.findSome? effect).getD (observe s) := by
  induction entries generalizing s with
  | nil => rfl
  | cons a rest ih =>
    rw [foldl_cons, ih, reverse_cons, List.findSome?_append, observes]
    cases rest.reverse.findSome? effect with
    | some value => rfl
    | none => cases found : effect a <;> simp [found]

theorem observe_redo (observes : ∀ s a, observe (step s a) = (effect a).getD (observe s))
    {entries : List α} {k : Nat} {s s' : σ}
    (saved : observe s' = observe ((entries.take k).foldl step s)) :
    observe (entries.foldl step s') = observe (entries.foldl step s) := by
  rw [observe_foldl observe observes, observe_foldl observe observes]
  cases last : entries.reverse.findSome? effect with
  | some value => rfl
  | none =>
    have idle : (entries.take k).reverse.findSome? effect = none := by
      rw [List.findSome?_eq_none_iff] at last ⊢
      intro a mem
      exact last a (mem_reverse.mpr (mem_of_mem_take (mem_reverse.mp mem)))
    rw [Option.getD_none, Option.getD_none, saved, observe_foldl observe observes, idle]
    rfl

end Overwritten

section Raised

variable [SemilatticeSup V] [OrderBot V] (observe : σ → V) {bound : α → V}

def level (bound : α → V) (entries : List α) : V := (entries.map bound).foldr (· ⊔ ·) ⊥

theorem observe_foldl_sup (observes : ∀ s a, observe (step s a) = observe s ⊔ bound a)
    (entries : List α) (s : σ) :
    observe (entries.foldl step s) = observe s ⊔ level bound entries := by
  induction entries generalizing s with
  | nil => exact (sup_bot_eq (observe s)).symm
  | cons a rest ih =>
    rw [foldl_cons, ih, observes, sup_assoc]
    rfl

variable {entries : List α}

theorem level_le_iff {limit : V} :
    level bound entries ≤ limit ↔ ∀ a ∈ entries, bound a ≤ limit := by
  induction entries with
  | nil => exact ⟨fun _ _ mem => absurd mem not_mem_nil, fun _ => bot_le⟩
  | cons a rest ih =>
    rw [forall_mem_cons, ← ih]
    exact sup_le_iff

theorem level_take_le (entries : List α) (k : Nat) :
    level bound (entries.take k) ≤ level bound entries :=
  level_le_iff.mpr fun _ mem => level_le_iff.mp le_rfl _ (mem_of_mem_take mem)

theorem observe_redo_sup (observes : ∀ s a, observe (step s a) = observe s ⊔ bound a) {k : Nat}
    {s s' : σ} (saved : observe s' = observe ((entries.take k).foldl step s)) :
    observe (entries.foldl step s') = observe (entries.foldl step s) := by
  rw [observe_foldl_sup observe observes, observe_foldl_sup observe observes, saved, observe_foldl_sup observe observes,
    sup_assoc, sup_eq_right.mpr (level_take_le entries k)]

end Raised

end Redo
