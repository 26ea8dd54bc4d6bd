import ErmyaGraph.Query.ShortestPath

/-! # The shortest path of a pattern

A clause matches every edge of a hop against the whole edge pattern, and takes walks within its
bounds. A shortest path inside of an expression takes the first label, the direction and the upper
bound from the pattern, and nothing else. -/

namespace ErmyaGraph.Query

open Gql Search

/-- The bounds of a hop, with those that a clause fills in. -/
def minHops (ep : EdgePattern) : Nat :=
  match ep.length with
  | .fixed => 1
  | .variable min _ => min.elim 0 UInt32.toNat

def maxHops (ep : EdgePattern) : Nat :=
  match ep.length with
  | .fixed => 1
  | .variable _ max => max.elim variableHopSafetyCap UInt32.toNat

/-- A walk that a clause matches with the hop. -/
structure Fitting (contents : Contents) (ep : EdgePattern) (start goal : Nat)
    (steps : List (Edge × Nat)) : Prop where
  walk : Walk (Leads contents ep) start steps goal
  min : minHops ep ≤ steps.length
  max : steps.length ≤ maxHops ep

/-- A value is the nodes of a shortest walk that a clause matches, or null if there is none. -/
structure AgreesWithMatch (contents : Contents) (ep : EdgePattern) (start goal : Nat)
    (value : GqlValue) : Prop where
  found_iff : value ≠ .null ↔ ∃ steps, Fitting contents ep start goal steps
  least : value ≠ .null → ∃ steps, Fitting contents ep start goal steps ∧
    (∀ other, Fitting contents ep start goal other → steps.length ≤ other.length) ∧
    value = idsValue (some (walkNodes start steps))

/-- What the search follows: the first label and the direction. -/
abbrev Followed (contents : Contents) (ep : EdgePattern) : Nat → Nat → Nat → Prop :=
  Allowed contents ep.direction ep.labels.head?

/-- The steps of a walk are over edges that carry the properties of the pattern. -/
def Carried (contents : Contents) (ep : EdgePattern) (steps : List (Nat × Nat)) : Prop :=
  ∀ step ∈ steps, ∀ edge, contents.edges step.1 = some edge →
    literalPropsMatch edge.properties ep.props

/-- No walk of the fewest steps that the search can follow is too short for the pattern, or takes
an edge without its properties. -/
def LeastFits (contents : Contents) (ep : EdgePattern) (start goal : Nat) : Prop :=
  ∀ steps, Shortest (Followed contents ep) start goal steps → steps.length ≤ maxHops ep →
    minHops ep ≤ steps.length ∧ Carried contents ep steps

section Walks

variable {contents : Contents} {ep : EdgePattern} {start goal : Nat}

theorem followed_of_leads {source target : Nat} {edge : Edge}
    (leads : Leads contents ep source edge target) :
    Followed contents ep source edge.id target := by
  have admits := leads.admits
  rw [edgeMatchesPattern, Bool.and_eq_true] at admits
  refine ⟨edge, leads.there, fun label first => ?_, leads.joins⟩
  have labelled := admits.1
  rw [Option.mem_def.mp first] at labelled
  simpa using labelled

theorem walk_followed {steps : List (Edge × Nat)}
    (walk : Walk (Leads contents ep) start steps goal) :
    Walk (Followed contents ep) start (steps.map fun step => (step.1.id, step.2)) goal := by
  induction steps generalizing start with
  | nil => exact walk
  | cons step rest ih => exact ⟨followed_of_leads walk.1, ih walk.2⟩

theorem exists_walk_leads {steps : List (Nat × Nat)}
    (walk : Walk (Followed contents ep) start steps goal) (carried : Carried contents ep steps) :
    ∃ taken, Walk (Leads contents ep) start taken goal ∧
      taken.map Prod.snd = steps.map Prod.snd := by
  induction steps generalizing start with
  | nil => exact ⟨[], walk, rfl⟩
  | cons step rest ih =>
    obtain ⟨⟨edge, there, labelled, joins⟩, later⟩ := walk
    obtain ⟨taken, walk', same⟩ := ih later fun other mem =>
      carried other (.tail _ mem)
    have admits : edgeMatchesPattern edge ep := by
      rw [edgeMatchesPattern, carried step List.mem_cons_self edge there, Bool.and_true]
      cases first : ep.labels.head? with
      | none => rfl
      | some label => simpa using labelled label first
    have id := contents.edge_id there
    exact ⟨(edge, step.2) :: taken, ⟨⟨id ▸ there, admits, joins⟩, walk'⟩,
      congrArg (step.2 :: ·) same⟩

theorem idsValue_ne_null (ids : List Nat) : idsValue (some ids) ≠ .null := nofun

end Walks

section Served

variable {graph : GraphAccess} {contents : Contents} (serves : graph.Serves contents)
include serves
variable {ep : EdgePattern}

theorem evalShortestPathPattern_finds {start final : Node} {np sp : NodePattern}
    {row : PatternMatch} (first : sp.var.bind row.nodes = some start)
    (last : np.var.bind row.nodes = some final) (present : (contents.nodes start.id).isSome) :
    ∃ answer, evalShortestPathPattern graph ⟨sp, [(ep, np)]⟩ row = idsValue answer ∧
      FindsShortest (Followed contents ep) (some (maxHops ep)) start.id final.id
        (walkNodes start.id) answer := by
  let max : Option UInt32 := ep.length.casesOn (some 1) fun _ max => max
  have bound : maxHops ep = max.elim variableHopSafetyCap UInt32.toNat := by
    simp only [max, maxHops]
    cases ep.length <;> rfl
  refine ⟨shortestPathBfsConstrained graph start.id final.id max ep.labels.head? ep.direction,
    ?_, ?_⟩
  · simp only [evalShortestPathPattern, first, last, max]
    cases ep.length <;> rfl
  · rw [bound]
    exact shortestPathBfsConstrained_finds serves present final.id max _ _

variable {answer : Option (List Nat)}

omit serves in
theorem agrees_of_leastFits {start goal : Nat}
    (finds : FindsShortest (Followed contents ep) (some (maxHops ep)) start goal
      (walkNodes start) answer) (fits : LeastFits contents ep start goal) :
    AgreesWithMatch contents ep start goal (idsValue answer) := by
  have short {steps : List (Edge × Nat)} (fitting : Fitting contents ep start goal steps) :
      ∃ other, Walk (Followed contents ep) start other goal ∧ other.length = steps.length :=
    ⟨_, walk_followed fitting.walk, List.length_map ..⟩
  cases answer with
  | none =>
    refine ⟨iff_of_false (fun found => found rfl) ?_, fun found => absurd rfl found⟩
    rintro ⟨steps, fitting⟩
    obtain ⟨other, walk, length⟩ := short fitting
    have found := finds.isSome_iff.mpr
      ⟨other, walk, fun l isMax => Option.some.inj isMax ▸ length ▸ fitting.max⟩
    cases found
  | some ids =>
    obtain ⟨steps, shortest, rfl⟩ := finds.shortest _ rfl
    obtain ⟨other, walk, within⟩ := finds.isSome_iff.mp rfl
    have max := (shortest.least other walk).trans (within _ rfl)
    obtain ⟨min, carried⟩ := fits steps shortest max
    obtain ⟨taken, walk', same⟩ := exists_walk_leads shortest.walk carried
    have length : taken.length = steps.length := by
      simpa using congrArg List.length same
    have fitting : Fitting contents ep start goal taken := ⟨walk', length ▸ min, length ▸ max⟩
    refine ⟨iff_of_true (idsValue_ne_null _) ⟨taken, fitting⟩, fun _ =>
      ⟨taken, fitting, fun other' fitting' => ?_, by rw [walkNodes, walkNodes, same]⟩⟩
    obtain ⟨other'', walk'', length'⟩ := short fitting'
    exact length ▸ length' ▸ shortest.least other'' walk''

omit serves in
theorem fitting_of_agrees {start goal n : Nat}
    (finds : FindsShortest (Followed contents ep) (some (maxHops ep)) start goal
      (walkNodes start) answer) (agrees : AgreesWithMatch contents ep start goal (idsValue answer))
    (far : Distance (Followed contents ep) start n goal) (near : n ≤ maxHops ep) :
    ∃ steps, Fitting contents ep start goal steps ∧ steps.length = n := by
  obtain ⟨walked, walk, rfl⟩ := far.reach.walk
  obtain ⟨ids, rfl⟩ := Option.isSome_iff_exists.mp (finds.isSome_iff.mpr
    ⟨walked, walk, fun l isMax => Option.some.inj isMax ▸ near⟩)
  obtain ⟨steps, shortest, rfl⟩ := finds.shortest _ rfl
  obtain ⟨taken, fitting, -, same⟩ := agrees.least (idsValue_ne_null _)
  refine ⟨taken, fitting, ?_⟩
  have values := GqlValue.list.inj same
  have lengths : steps.length = taken.length := by
    simpa [walkNodes] using congrArg List.length values
  rw [← lengths]
  exact le_antisymm (shortest.least walked walk) (far.least _ shortest.walk.reach)

/-- **A shortest path is one of a clause where the least walks fit.** The search agrees with a
clause if no least walk along the label and the direction is too short or lacks the properties; it
agrees only if one of the least walks fits. -/
theorem evalShortestPathPattern_agrees {start final : Node} {np sp : NodePattern}
    {ep : EdgePattern} {row : PatternMatch} (first : sp.var.bind row.nodes = some start)
    (last : np.var.bind row.nodes = some final) (present : (contents.nodes start.id).isSome)
    (_away : start.id ≠ final.id) :
    (LeastFits contents ep start.id final.id → AgreesWithMatch contents ep start.id final.id
        (evalShortestPathPattern graph ⟨sp, [(ep, np)]⟩ row)) ∧
    (AgreesWithMatch contents ep start.id final.id
        (evalShortestPathPattern graph ⟨sp, [(ep, np)]⟩ row) →
      ∀ n, Distance (Followed contents ep) start.id n final.id → n ≤ maxHops ep →
        ∃ steps, Fitting contents ep start.id final.id steps ∧ steps.length = n) := by
  obtain ⟨answer, same, finds⟩ := evalShortestPathPattern_finds serves first last present
  rw [same]
  exact ⟨agrees_of_leastFits finds, fun agrees n far near => fitting_of_agrees finds agrees far near⟩

end Served

/-- Two edges at least, to a neighbour of the start. -/
def twoApart : PathPattern :=
  ⟨{ var := some "a" }, [({ length := .variable (some 2) (some 3) }, { var := some "b" })]⟩

def firstTwo : PatternMatch :=
  (PatternMatch.bindNode {} "a" ⟨0, "N", .empty, {}⟩).bindNode "b" ⟨1, "N", .empty, {}⟩

theorem lowerBound_ignored :
    evalShortestPathPattern detour.access twoApart firstTwo = idsValue (some [0, 1]) ∧
      ¬ AgreesWithMatch detour.contents { length := .variable (some 2) (some 3) } 0 1
        (idsValue (some [0, 1])) := by
  refine ⟨rfl, fun agrees => ?_⟩
  obtain ⟨steps, fitting, -, same⟩ := agrees.least (idsValue_ne_null _)
  have length : [0, 1].length = (walkNodes 0 steps).length := by
    simpa using congrArg List.length (GqlValue.list.inj same)
  have long := fitting.min
  simp [walkNodes, minHops] at length long
  omega

theorem evalShortestPathPattern_agrees_detour :
    AgreesWithMatch detour.contents { length := .variable (some 1) (some 3) } 0 1
      (evalShortestPathPattern detour.access
        ⟨{ var := some "a" }, [({ length := .variable (some 1) (some 3) }, { var := some "b" })]⟩
        firstTwo) := by
  refine (@evalShortestPathPattern_agrees _ _ detour.serves ⟨0, "N", .empty, {}⟩
    ⟨1, "N", .empty, {}⟩ _ _ _ firstTwo (by decide) (by decide) (by decide) (by decide)).1 ?_
  intro steps shortest _
  refine ⟨?_, fun _ _ _ _ => rfl⟩
  cases steps with
  | nil => exact absurd shortest.walk (by decide : ¬ (0 : Nat) = 1)
  | cons step rest => exact Nat.succ_le_succ (Nat.zero_le _)

end ErmyaGraph.Query
