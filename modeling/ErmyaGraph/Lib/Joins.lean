import Mathlib.Algebra.Order.Ring.Int
import Mathlib.Data.List.Nodup
import Mathlib.Data.List.ReduceOption

/-! # Joins of lists

A nested loop over several lists visits every choice of one element of each, in
lexicographic order, and visits none twice if no list repeats an element. -/

namespace Joins

open List

variable {α β : Type}

def choices : List (List α) → List (List α)
  | [] => [[]]
  | items :: rest => items.flatMap fun a => (choices rest).map (a :: ·)

variable {picks : List α} {lists : List (List α)}

theorem mem_choices : picks ∈ choices lists ↔ List.Forall₂ (· ∈ ·) picks lists := by
  induction lists generalizing picks with
  | nil => simp [choices]
  | cons items rest ih =>
    simp only [choices, mem_flatMap, mem_map, ih]
    constructor
    · rintro ⟨a, mem, others, chosen, rfl⟩
      exact .cons mem chosen
    · intro chosen
      cases chosen with
      | cons mem others => exact ⟨_, mem, _, others, rfl⟩

theorem nodup_choices (distinct : ∀ items ∈ lists, items.Nodup) : (choices lists).Nodup := by
  induction lists with
  | nil => simp [choices]
  | cons items rest ih =>
    have others := ih fun list mem => distinct list (mem_cons_of_mem items mem)
    refine nodup_flatMap.mpr ⟨fun a _ => others.map cons_injective, ?_⟩
    refine (distinct items mem_cons_self).imp fun ne => ?_
    rw [Function.onFun_apply, disjoint_left]
    intro picks left right
    obtain ⟨_, _, rfl⟩ := mem_map.mp left
    obtain ⟨_, _, same⟩ := mem_map.mp right
    exact ne (List.cons.inj same).1.symm

theorem nodup_of_choices (chosen : picks ∈ choices lists) (distinct : (choices lists).Nodup) :
    ∀ items ∈ lists, items.Nodup := by
  induction lists generalizing picks with
  | nil => exact fun _ mem => absurd mem not_mem_nil
  | cons items rest ih =>
    cases mem_choices.mp chosen with
    | @cons first others _ _ mem others' =>
      have some := mem_choices.mpr others'
      rw [choices, nodup_flatMap] at distinct
      intro list here
      cases mem_cons.mp here with
      | inl same =>
        rw [same]
        refine distinct.2.imp fun apart => ?_
        rintro rfl
        exact disjoint_left.mp apart (mem_map_of_mem some) (mem_map_of_mem some)
      | inr later => exact ih some (List.Nodup.of_map _ (distinct.1 first mem)) list later

theorem foldl_join (combine : β → α → β) (lists : List (List α)) (start : List β) :
    lists.foldl (fun joined items => joined.flatMap fun b => items.map (combine b)) start =
      start.flatMap fun b => (choices lists).map fun picks => picks.foldl combine b := by
  induction lists generalizing start with
  | nil => simp [choices]
  | cons items rest ih =>
    rw [foldl_cons, ih]
    simp [choices, flatMap_assoc, flatMap_map, map_flatMap, Function.comp_def]

theorem choices_map {γ : Type} (lists : List γ) (items : γ → List α) (f : γ → α → β) :
    choices (lists.map fun c => (items c).map (f c)) =
      (choices (lists.map items)).map fun picks => List.zipWith f lists picks := by
  induction lists with
  | nil => rfl
  | cons c rest ih =>
    simp only [map_cons, choices, ih, flatMap_map, map_flatMap, map_map,
      Function.comp_def, zipWith_cons_cons]

section Results

variable {ε : Type} {f : α → Except ε β} {items : List α}

theorem mapM_of_ok {g : α → β} (each : ∀ a ∈ items, f a = .ok (g a)) :
    items.mapM f = .ok (items.map g) := by
  induction items with
  | nil => rfl
  | cons a rest ih =>
    have later := ih fun b mem => each b (mem_cons_of_mem a mem)
    rw [mapM_cons, each a mem_cons_self, later]
    rfl

theorem mapM_shared {γ : Type} (nonempty : items ≠ []) (start : Except ε γ) (g : α → γ → β)
    (each : ∀ a ∈ items, f a = start.map (g a)) :
    items.mapM f = start.map fun c => items.map fun a => g a c := by
  cases start with
  | ok c => exact mapM_of_ok each
  | error e =>
    cases items with
    | nil => exact absurd rfl nonempty
    | cons first others =>
      rw [mapM_cons, each first mem_cons_self]
      rfl

theorem foldlM_congr {f g : β → α → Except ε β} (same : ∀ acc, ∀ a ∈ items, f acc a = g acc a)
    (init : β) : items.foldlM f init = items.foldlM g init := by
  induction items generalizing init with
  | nil => rfl
  | cons a rest ih =>
    rw [foldlM_cons, foldlM_cons, same init a mem_cons_self]
    exact congrArg _ (funext fun acc =>
      ih (fun acc b mem => same acc b (mem_cons_of_mem a mem)) acc)

variable {results : List β}

theorem mapM_cons_eq_ok {a : α} :
    (a :: items).mapM f = .ok results ↔
      ∃ b others, f a = .ok b ∧ items.mapM f = .ok others ∧ results = b :: others := by
  rw [mapM_cons]
  cases first : f a with
  | error e => exact ⟨nofun, fun ⟨_, _, done, _⟩ => nomatch done⟩
  | ok b =>
    cases later : items.mapM f with
    | error e => exact ⟨nofun, fun ⟨_, _, _, done, _⟩ => nomatch done⟩
    | ok others =>
      constructor
      · intro ran
        cases ran
        exact ⟨b, others, rfl, rfl, rfl⟩
      · rintro ⟨_, _, done, done', rfl⟩
        cases done
        cases done'
        rfl

theorem ok_of_mem_mapM (ran : items.mapM f = .ok results) {a : α} (mem : a ∈ items) :
    ∃ b, f a = .ok b := by
  induction items generalizing results with
  | nil => exact absurd mem not_mem_nil
  | cons first rest ih =>
    obtain ⟨b, others, done, later, _⟩ := mapM_cons_eq_ok.mp ran
    cases mem_cons.mp mem with
    | inl same => exact ⟨b, same ▸ done⟩
    | inr there => exact ih later there

theorem eq_map_of_mapM {g : α → β} (ran : items.mapM f = .ok results)
    (each : ∀ a ∈ items, ∀ b, f a = .ok b → b = g a) : results = items.map g := by
  induction items generalizing results with
  | nil =>
    cases ran
    rfl
  | cons a rest ih =>
    obtain ⟨b, others, done, later, rfl⟩ := mapM_cons_eq_ok.mp ran
    rw [map_cons, each a mem_cons_self b done,
      ih later fun c mem => each c (mem_cons_of_mem a mem)]

theorem exists_of_mem_mapM (ran : items.mapM f = .ok results) {b : β} (mem : b ∈ results) :
    ∃ a ∈ items, f a = .ok b := by
  induction items generalizing results with
  | nil =>
    cases ran
    exact absurd mem not_mem_nil
  | cons first rest ih =>
    obtain ⟨c, others, done, later, rfl⟩ := mapM_cons_eq_ok.mp ran
    rcases mem_cons.mp mem with rfl | there
    · exact ⟨first, .head _, done⟩
    · obtain ⟨a, inside, done⟩ := ih later there
      exact ⟨a, .tail _ inside, done⟩

variable {δ : Type}

/-- A loop that counts its hits counts what a loop that finds them finds, and fails with it. -/
theorem foldlM_count {find : α → Except ε (Option β)} {hit : α → Except δ Bool} (lift : δ → ε)
    (same : ∀ a ∈ items, (hit a).mapError lift = (find a).map Option.isSome) (total : Nat) :
    (items.foldlM (fun total a => do if ← hit a then return total + 1 else return total)
        total).mapError lift =
      (items.mapM find).map fun found => total + found.reduceOption.length := by
  induction items generalizing total with
  | nil => rfl
  | cons a rest ih =>
    have here := same a mem_cons_self
    have later := ih fun b mem => same b (.tail _ mem)
    rw [foldlM_cons, mapM_cons]
    cases found : find a with
    | error e =>
      rw [found] at here
      cases hits : hit a with
      | error e' =>
        rw [hits] at here
        exact congrArg Except.error (Except.error.inj here)
      | ok one =>
        rw [hits] at here
        cases here
    | ok one =>
      rw [found] at here
      cases hits : hit a with
      | error e' =>
        rw [hits] at here
        cases here
      | ok hits? =>
        rw [hits] at here
        cases Except.ok.inj here
        cases one with
        | none =>
          refine (later total).trans ?_
          cases rest.mapM find <;> rfl
        | some b =>
          refine (later (total + 1)).trans ?_
          cases rest.mapM find with
          | error e => rfl
          | ok others =>
            refine congrArg Except.ok ?_
            simp only [reduceOption_cons_of_some, length_cons]
            omega

/-- A loop that adds up lengths comes to the length of what the lists flatten to. -/
theorem foldlM_lengths {γ : Type} {yields : γ → Except ε (List β)} {add : Nat → α → Except δ Nat}
    (lift : δ → ε) {others : List γ}
    (same : List.Forall₂ (fun a c => ∀ total, (add total a).mapError lift =
      (yields c).map fun found => total + found.length) items others) (total : Nat) :
    (items.foldlM add total).mapError lift =
      (others.mapM yields).map fun found => total + found.flatten.length := by
  induction same generalizing total with
  | nil => rfl
  | @cons a c items others here _ ih =>
    have here := here total
    rw [foldlM_cons, mapM_cons]
    cases yielded : yields c with
    | error e =>
      rw [yielded] at here
      cases added : add total a with
      | error e' =>
        rw [added] at here
        exact congrArg Except.error (Except.error.inj here)
      | ok n =>
        rw [added] at here
        cases here
    | ok found =>
      rw [yielded] at here
      cases added : add total a with
      | error e' =>
        rw [added] at here
        cases here
      | ok n =>
        rw [added] at here
        cases Except.ok.inj here
        refine (ih (total + found.length)).trans ?_
        cases others.mapM yields with
        | error e => rfl
        | ok rest =>
          refine congrArg Except.ok ?_
          simp only [flatten_cons, length_append]
          omega

end Results

end Joins
