import Mathlib.Algebra.Order.Ring.Int
import Mathlib.Data.List.Basic

/-! # Walks over the parts of a value

A walk rebuilds a value from what it puts in the place of each of its parts. It fails where a
part cannot be replaced. A walk is described by the parts it visits and by what is left to visit
in its result. -/

namespace Walks

open List

variable {κ κ' α α' γ β ε : Type}

/-- A walk visits these parts, each for itself. What the replacements leave to visit is what its
result has. -/
structure At (out : κ → β → List κ') (walk : (κ → Except ε β) → Except ε α) (parts : List κ)
    (left : α → List κ') : Prop where
  done : ∀ visit, (∃ a, walk visit = .ok a) ↔ ∀ part ∈ parts, ∃ b, visit part = .ok b
  reads : ∀ visit visit', (∀ part ∈ parts, visit part = visit' part) → walk visit = walk visit'
  leaves : ∀ visit a, walk visit = .ok a → ∃ filled : List (κ × β), filled.map Prod.fst = parts ∧
    (∀ one ∈ filled, visit one.1 = .ok one.2) ∧ left a = filled.flatMap fun one => out one.1 one.2

namespace At

variable {out : κ → β → List κ'} {walk : (κ → Except ε β) → Except ε α}
  {walk' : (κ → Except ε β) → Except ε α'} {parts parts' : List κ} {left : α → List κ'}
  {left' : α' → List κ'} {g : γ → List κ'}

theorem still {a : α} (none_left : left a = []) :
    At out (fun _ : κ → Except ε β => Except.ok a) [] left where
  done _ := ⟨fun _ _ part => absurd part not_mem_nil, fun _ => ⟨a, rfl⟩⟩
  reads _ _ _ := rfl
  leaves _ _ result := by
    obtain rfl := Except.ok.inj result
    exact ⟨[], rfl, nofun, none_left⟩

theorem part (part : κ) {left : β → List κ'} (leaves : ∀ b, left b = out part b) :
    At out (fun visit : κ → Except ε β => visit part) [part] left where
  done _ := by simp only [forall_mem_singleton]
  reads _ _ same := same part mem_cons_self
  leaves visit b result := by
    refine ⟨[(part, b)], rfl, ?_, ?_⟩
    · rintro one mem
      obtain rfl := mem_singleton.mp mem
      exact result
    · rw [leaves, flatMap_singleton]

section

variable (walks : At out walk parts left)
include walks

theorem congr {same : (κ → Except ε β) → Except ε α}
    (agree : ∀ visit, same visit = walk visit) : At out same parts left := by
  rwa [show same = walk from funext agree]

theorem renamed {κ₂ : Type} {o : κ₂ → β → List κ'}
    (name : κ → κ₂) (same : ∀ part b, o (name part) b = out part b) :
    At o (fun visit => walk fun part => visit (name part)) (parts.map name) left where
  done visit := by rw [walks.done, forall_mem_map]
  reads visit visit' agree := walks.reads _ _ fun part mem => agree _ (mem_map_of_mem mem)
  leaves visit a result := by
    obtain ⟨filled, ofParts, visited, rest⟩ := walks.leaves _ a result
    refine ⟨filled.map fun one => (name one.1, one.2), ?_, ?_, ?_⟩
    · rw [map_map, ← ofParts, map_map]
      rfl
    · exact forall_mem_map.mpr visited
    · rw [rest, flatMap_map]
      exact flatMap_congr fun one _ => (same one.1 one.2).symm

theorem map {f : α → γ} (same : ∀ a, g (f a) = left a) :
    At out (fun visit => do let a ← walk visit; return f a) parts g where
  done visit := by
    rw [← walks.done visit]
    cases walk visit <;> simp [bind, Except.bind, pure, Except.pure]
  reads visit visit' agree := by rw [walks.reads visit visit' agree]
  leaves visit c result := by
    cases first : walk visit with
    | error e => simp [first, bind, Except.bind] at result
    | ok a =>
      obtain rfl : f a = c := by
        simpa [first, bind, Except.bind, pure, Except.pure] using result
      rw [same]
      exact walks.leaves visit a first

theorem both (walks' : At out walk' parts' left')
    {f : α → α' → γ} (same : ∀ a a', g (f a a') = left a ++ left' a') :
    At out (fun visit => do let a ← walk visit; let a' ← walk' visit; return f a a')
      (parts ++ parts') g where
  done visit := by
    rw [forall_mem_append, ← walks.done visit, ← walks'.done visit]
    cases walk visit <;> cases walk' visit <;> simp [bind, Except.bind, pure, Except.pure]
  reads visit visit' agree := by
    rw [forall_mem_append] at agree
    rw [walks.reads visit visit' agree.1, walks'.reads visit visit' agree.2]
  leaves visit c result := by
    cases first : walk visit with
    | error e => simp [first, bind, Except.bind] at result
    | ok a =>
      cases second : walk' visit with
      | error e => simp [first, second, bind, Except.bind] at result
      | ok a' =>
        obtain rfl : f a a' = c := by
          simpa [first, second, bind, Except.bind, pure, Except.pure] using result
        obtain ⟨filled, ofParts, visited, rest⟩ := walks.leaves visit a first
        obtain ⟨filled', ofParts', visited', rest'⟩ := walks'.leaves visit a' second
        refine ⟨filled ++ filled', ?_, forall_mem_append.mpr ⟨visited, visited'⟩, ?_⟩
        · rw [map_append, ofParts, ofParts']
        · rw [same, rest, rest', flatMap_append]

theorem pair (walks' : At out walk' parts' left') :
    At out (fun visit => do let a ← walk visit; let a' ← walk' visit; return (a, a'))
      (parts ++ parts') fun both => left both.1 ++ left' both.2 :=
  walks.both walks' fun _ _ => rfl

end

section Many

variable {walks : (κ → Except ε β) → α → Except ε α'} {partsOf : α → List κ}

theorem mapM {items : List α}
    (each : ∀ a ∈ items, At out (fun visit => walks visit a) (partsOf a) left') :
    At out (fun visit => items.mapM (walks visit)) (items.flatMap partsOf)
      (fun results => results.flatMap left') := by
  induction items with
  | nil => exact still rfl
  | cons item rest ih =>
    have here := each item mem_cons_self
    have later := ih fun a mem => each a (mem_cons_of_mem item mem)
    have joined := here.both later (f := List.cons)
      (g := fun results => results.flatMap left') fun a results => flatMap_cons
    simp only [mapM_cons, flatMap_cons]
    exact joined

theorem optional {item : Option α}
    (each : ∀ a ∈ item, At out (fun visit => walks visit a) (partsOf a) left') :
    At out (fun visit => item.mapM (walks visit)) (item.toList.flatMap partsOf)
      (fun result => result.toList.flatMap left') := by
  cases item with
  | none => exact still rfl
  | some a =>
    have here := each a rfl
    have mapped := here.map (f := some) (g := fun result => result.toList.flatMap left')
      fun b => flatMap_singleton ..
    rw [Option.toList_some, flatMap_singleton]
    exact mapped

end Many

end At

end Walks
