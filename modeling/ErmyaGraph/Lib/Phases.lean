import Mathlib.Algebra.Order.Ring.Int
import Mathlib.Data.List.Nodup

/-! # Work in two phases

A client looks at a shared state and later changes it by what it found. Other
clients may have changed the state in between. -/

namespace Phases

open List Function

variable {ι σ φ α : Type}

/-- Looking finds what the change works from, or gives the answer already. -/
structure Client (σ φ α : Type) where
  look : σ → φ ⊕ α
  change : φ → σ → α × σ

/-- Both phases with nothing in between. -/
def Client.alone (client : Client σ φ α) (s : σ) : α × σ :=
  match client.look s with
  | .inl found => client.change found s
  | .inr answer => (answer, s)

inductive Stage (φ α : Type) where
  | waiting
  | holding (found : φ)
  | answered (answer : α)

/-- A shared state, how far every client is, and the answers in the order in which they came. -/
structure Config (ι σ φ α : Type) where
  state : σ
  stages : ι → Stage φ α
  answers : List (ι × α)

def start (s : σ) : Config ι σ φ α := ⟨s, fun _ => .waiting, []⟩

section Order

variable (clients : ι → Client σ φ α)

/-- The clients one after the other. -/
def serially : List ι → σ → List (ι × α) × σ
  | [], s => ([], s)
  | i :: rest, s =>
    let first := (clients i).alone s
    let others := serially rest first.2
    ((i, first.1) :: others.1, others.2)

variable {clients}

theorem serially_concat (order : List ι) (i : ι) (s : σ) :
    serially clients (order ++ [i]) s =
      ((serially clients order s).1 ++ [(i, ((clients i).alone (serially clients order s).2).1)],
        ((clients i).alone (serially clients order s).2).2) := by
  induction order generalizing s with
  | nil => rfl
  | cons first rest ih => simp only [cons_append, serially, ih]

theorem serially_keeps {keeps : σ → Prop} {order : List ι}
    (each : ∀ i ∈ order, ∀ s, keeps s → keeps ((clients i).alone s).2) {s : σ} (here : keeps s) :
    keeps (serially clients order s).2 := by
  induction order generalizing s with
  | nil => exact here
  | cons first rest ih =>
    exact ih (fun i mem => each i (mem_cons_of_mem first mem))
      (each first mem_cons_self s here)

/-- The answers came as from clients one after the other. -/
structure Config.Serial (clients : ι → Client σ φ α) (s : σ) (config : Config ι σ φ α) : Prop where
  alone : serially clients (config.answers.map Prod.fst) s = (config.answers, config.state)
  once : (config.answers.map Prod.fst).Nodup
  answered : ∀ i answer, config.stages i = .answered answer ↔ (i, answer) ∈ config.answers

theorem serial_start (s : σ) : (start s : Config ι σ φ α).Serial clients s where
  alone := rfl
  once := nodup_nil
  answered _ _ := ⟨nofun, nofun⟩

end Order

section Runs

variable [DecidableEq ι]

def Config.hold (config : Config ι σ φ α) (i : ι) (found : φ) : Config ι σ φ α :=
  { config with stages := update config.stages i (.holding found) }

def Config.answer (config : Config ι σ φ α) (i : ι) (outcome : α × σ) : Config ι σ φ α where
  state := outcome.2
  stages := update config.stages i (.answered outcome.1)
  answers := config.answers ++ [(i, outcome.1)]

variable (clients : ι → Client σ φ α)

/-- A client goes through its next phase. -/
def Config.next (config : Config ι σ φ α) (i : ι) : Config ι σ φ α :=
  match config.stages i with
  | .waiting =>
    match (clients i).look config.state with
    | .inl found => config.hold i found
    | .inr answer => config.answer i (answer, config.state)
  | .holding found => config.answer i ((clients i).change found config.state)
  | .answered _ => config

def Config.run (config : Config ι σ φ α) (schedule : List ι) : Config ι σ φ α :=
  schedule.foldl (Config.next clients) config

/-- A client about to change the state would still find there what it holds. -/
def Config.Current (config : Config ι σ φ α) (i : ι) : Prop :=
  ∀ found, config.stages i = .holding found → (clients i).look config.state = .inl found

/-- Whenever a client changes the state, what it found still stands. -/
def Config.Undisturbed : Config ι σ φ α → List ι → Prop
  | _, [] => True
  | config, i :: rest => config.Current clients i ∧ (config.next clients i).Undisturbed rest

variable {clients} {s : σ} {config : Config ι σ φ α} {i : ι}

theorem Config.Serial.hold (serial : config.Serial clients s)
    (pending : ∀ answer, config.stages i ≠ .answered answer) (found : φ) :
    (config.hold i found).Serial clients s where
  alone := serial.alone
  once := serial.once
  answered j answer := by
    refine Iff.trans ?_ (serial.answered j answer)
    change update config.stages i (.holding found) j = _ ↔ _
    by_cases same : j = i
    · subst same
      rw [update_self]
      exact ⟨nofun, fun answered => absurd answered (pending answer)⟩
    · rw [update_of_ne same]

theorem Config.Serial.answer (serial : config.Serial clients s)
    (pending : ∀ answer, config.stages i ≠ .answered answer) {outcome : α × σ}
    (alone : (clients i).alone config.state = outcome) :
    (config.answer i outcome).Serial clients s := by
  have fresh : ∀ answer, (i, answer) ∉ config.answers := fun answer mem =>
    pending answer ((serial.answered i answer).mpr mem)
  constructor
  · rw [Config.answer, map_append, map_singleton, serially_concat, serial.alone, alone]
  · rw [Config.answer, map_append, map_singleton]
    refine serial.once.append (nodup_singleton i) ?_
    rw [disjoint_singleton]
    intro mem
    obtain ⟨⟨j, answer⟩, there, rfl⟩ := mem_map.mp mem
    exact fresh answer there
  · intro j answer
    simp only [Config.answer, mem_append, mem_singleton, Prod.mk.injEq]
    by_cases same : j = i
    · subst same
      rw [update_self]
      constructor
      · intro answered
        exact .inr ⟨rfl, (Stage.answered.inj answered).symm⟩
      · rintro (mem | ⟨-, rfl⟩)
        · exact absurd mem (fresh answer)
        · rfl
    · rw [update_of_ne same, serial.answered j answer]
      exact ⟨.inl, fun either => either.elim id fun last => absurd last.1 same⟩

theorem Config.Serial.next (serial : config.Serial clients s) (current : config.Current clients i) :
    (config.next clients i).Serial clients s := by
  rw [Config.next]
  cases stage : config.stages i with
  | waiting =>
    have pending : ∀ answer, config.stages i ≠ .answered answer := by
      intro answer answered
      rw [stage] at answered
      cases answered
    cases looked : (clients i).look config.state with
    | inl found => exact serial.hold pending found
    | inr answer =>
      refine serial.answer pending ?_
      rw [Client.alone, looked]
  | holding found =>
    have pending : ∀ answer, config.stages i ≠ .answered answer := by
      intro answer answered
      rw [stage] at answered
      cases answered
    refine serial.answer pending ?_
    rw [Client.alone, current found stage]
  | answered answer => exact serial

theorem Config.Serial.run (serial : config.Serial clients s) {schedule : List ι}
    (undisturbed : config.Undisturbed clients schedule) :
    (config.run clients schedule).Serial clients s := by
  induction schedule generalizing config with
  | nil => exact serial
  | cons i rest ih => exact ih (serial.next undisturbed.1) undisturbed.2

theorem undisturbed_twice {rest : List ι} (waiting : config.stages i = .waiting)
    (others : ((config.next clients i).next clients i).Undisturbed clients rest) :
    config.Undisturbed clients (i :: i :: rest) := by
  refine ⟨?_, ?_, others⟩
  · intro found holding
    rw [waiting] at holding
    cases holding
  · intro found holding
    rw [Config.next, waiting] at holding ⊢
    cases looked : (clients i).look config.state with
    | inl kept =>
      simp only [looked, Config.hold, update_self, Stage.holding.injEq] at holding ⊢
      rw [holding]
    | inr answer =>
      simp only [looked, Config.answer, update_self] at holding
      cases holding

end Runs

end Phases
