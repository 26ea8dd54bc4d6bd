import Mathlib.Data.List.Perm.Subperm
import ErmyaGraph.Lib.Joins

/-! # Expanding rows

Rows are expanded one by one, each to a list of rows, and the lists are put
together. A row that will be dropped can be dropped before or after. -/

namespace Expansion

open Joins List

variable {α β ε : Type}

def expandWith (expand : α → Except ε (List α)) (rows : List α) : Except ε (List α) :=
  (rows.mapM expand).map List.flatten

variable {expand expand' : α → Except ε (List α)} {rows rows' results : List α} {keeps : α → Bool}

theorem expandWith_cons (row : α) (rows : List α) : expandWith expand (row :: rows) =
    (expand row).bind fun first => (expandWith expand rows).map (first ++ ·) := by
  rw [expandWith, expandWith, mapM_cons]
  cases expand row with
  | error e => rfl
  | ok first =>
    cases rows.mapM expand with
    | error e => rfl
    | ok lists => rfl

theorem expandWith_cons_eq_ok {row : α} :
    expandWith expand (row :: rows) = .ok results ↔
      ∃ first others, expand row = .ok first ∧ expandWith expand rows = .ok others ∧
        results = first ++ others := by
  rw [expandWith_cons]
  cases expand row with
  | error e => simp [Except.bind]
  | ok first =>
    cases expandWith expand rows with
    | error e => simp [Except.bind, Except.map]
    | ok others => simp [Except.bind, Except.map, eq_comm]

theorem expandWith_filter
    (passed : ∀ row ∈ rows, ∀ found, expand row = .ok found → ∀ r ∈ found, keeps r = keeps row)
    (ran : expandWith expand rows = .ok results) :
    expandWith expand (rows.filter keeps) = .ok (results.filter keeps) := by
  induction rows generalizing results with
  | nil =>
    cases ran
    rfl
  | cons row rows ih =>
    obtain ⟨first, others, here, later, rfl⟩ := expandWith_cons_eq_ok.mp ran
    have rest := ih (fun r mem => passed r (mem_cons_of_mem row mem)) later
    have own := passed row mem_cons_self first here
    rw [filter_append]
    by_cases kept : keeps row
    · have all : first.filter keeps = first :=
        filter_eq_self.mpr fun r mem => (own r mem).trans kept
      rw [filter_cons_of_pos kept, all]
      exact expandWith_cons_eq_ok.mpr ⟨first, _, here, rest, rfl⟩
    · have none : first.filter keeps = [] :=
        filter_eq_nil_iff.mpr fun r mem => by rwa [own r mem]
      rw [filter_cons_of_neg kept, none]
      exact rest

theorem expandWith_narrowed
    (narrowed : ∀ row ∈ rows, ∀ found, expand row = .ok found →
      expand' row = .ok (found.filter keeps)) (ran : expandWith expand rows = .ok results) :
    expandWith expand' rows = .ok (results.filter keeps) := by
  induction rows generalizing results with
  | nil =>
    cases ran
    rfl
  | cons row rows ih =>
    obtain ⟨first, others, here, later, rfl⟩ := expandWith_cons_eq_ok.mp ran
    rw [filter_append]
    exact expandWith_cons_eq_ok.mpr ⟨_, _, narrowed row mem_cons_self first here,
      ih (fun r mem => narrowed r (mem_cons_of_mem row mem)) later, rfl⟩

theorem expandWith_perm (perm : rows.Perm rows') (ran : expandWith expand rows = .ok results) :
    ∃ results', expandWith expand rows' = .ok results' ∧ results.Perm results' := by
  induction perm generalizing results with
  | nil => exact ⟨results, ran, .refl _⟩
  | cons row _ ih =>
    obtain ⟨first, others, here, later, rfl⟩ := expandWith_cons_eq_ok.mp ran
    obtain ⟨others', later', same⟩ := ih later
    exact ⟨_, expandWith_cons_eq_ok.mpr ⟨first, others', here, later', rfl⟩, same.append_left first⟩
  | swap row row' rows =>
    obtain ⟨first, others, here, later, rfl⟩ := expandWith_cons_eq_ok.mp ran
    obtain ⟨second, rest, there, last, rfl⟩ := expandWith_cons_eq_ok.mp later
    refine ⟨second ++ (first ++ rest), ?_, ?_⟩
    · exact expandWith_cons_eq_ok.mpr ⟨second, _, there,
        expandWith_cons_eq_ok.mpr ⟨first, rest, here, last, rfl⟩, rfl⟩
    · rw [← append_assoc, ← append_assoc]
      exact perm_append_comm.append_right rest
  | trans _ _ ih ih' =>
    obtain ⟨middle, between, same⟩ := ih ran
    obtain ⟨results', last, same'⟩ := ih' between
    exact ⟨results', last, same.trans same'⟩

theorem forall_of_expandWith {holds : α → Prop} (here : ∀ row ∈ rows, holds row)
    (keep : ∀ row, holds row → ∀ found, expand row = .ok found → ∀ r ∈ found, holds r)
    (ran : expandWith expand rows = .ok results) : ∀ r ∈ results, holds r := by
  induction rows generalizing results with
  | nil =>
    cases ran
    exact fun _ mem => absurd mem not_mem_nil
  | cons row rows ih =>
    obtain ⟨first, others, found, later, rfl⟩ := expandWith_cons_eq_ok.mp ran
    intro r mem
    rcases mem_append.mp mem with own | other
    · exact keep row (here row mem_cons_self) first found r own
    · exact ih (fun r mem => here r (mem_cons_of_mem row mem)) later r other

theorem flatMap_filter {f : α → List β} {keeps' : β → Bool} (items : List α)
    (same : ∀ a ∈ items, ∀ b ∈ f a, keeps' b = keeps a) :
    (items.filter keeps).flatMap f = (items.flatMap f).filter keeps' := by
  induction items with
  | nil => rfl
  | cons a items ih =>
    have rest := ih fun a mem => same a (.tail _ mem)
    have own := same a mem_cons_self
    rw [flatMap_cons, filter_append, ← rest]
    by_cases kept : keeps a
    · have all : (f a).filter keeps' = f a :=
        filter_eq_self.mpr fun b mem => (own b mem).trans kept
      rw [filter_cons_of_pos kept, flatMap_cons, all]
    · have none : (f a).filter keeps' = [] :=
        filter_eq_nil_iff.mpr fun b mem => by rwa [own b mem]
      rw [filter_cons_of_neg kept, none, nil_append]

theorem perm_filter_iff {left right : α → Bool} (weaker : ∀ row ∈ rows, left row → right row) :
    (rows.filter left).Perm (rows.filter right) ↔ ∀ row ∈ rows, right row → left row := by
  constructor
  · intro perm row mem holds
    have kept : row ∈ rows.filter right := mem_filter.mpr ⟨mem, holds⟩
    exact (mem_filter.mp (perm.mem_iff.mpr kept)).2
  · intro stronger
    have same : rows.filter left = rows.filter right :=
      filter_congr fun row mem =>
        Bool.eq_iff_iff.mpr ⟨weaker row mem, stronger row mem⟩
    rw [same]

end Expansion
