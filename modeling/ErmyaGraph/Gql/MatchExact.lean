import ErmyaGraph.Gql.Assignments

/-! # When a clause finds its assignments

Patterns are matched one by one, and where two matches bind one variable the
later binding wins. The rows are the satisfying assignments where the matches of
the patterns agree. -/

namespace ErmyaGraph.Gql

variable {ms : List PathMatch}

open Joins List

section Rows

variable {graph : GraphAccess} {contents : Contents} {mc : MatchClause}

theorem mem_choices_matchesOf (serves : graph.Serves contents) :
    ms ∈ choices (mc.patterns.map fun pp => matchesOf graph (segmentOf pp)) ↔
      Found contents mc.patterns ms := by
  have each (m : PathMatch) (pp : PathPattern) :
      m ∈ matchesOf graph (segmentOf pp) ↔ (segmentOf pp).Holds contents m := mem_matchesOf serves
  rw [mem_choices, forall₂_map_right_iff]
  exact ⟨fun chosen => (chosen.imp fun m pp => (each m pp).mp).flip,
    fun found => (found.imp fun pp m => (each m pp).mpr).flip⟩

theorem shows_joinedRow (checked : ∀ pp ∈ mc.patterns, validateUniqueVars (segmentOf pp) = .ok ())
    (found : Found contents mc.patterns ms)
    (agree : ∀ var ∈ mc.variables, ∀ left right, (var, left) ∈ foundBindings mc.patterns ms →
      (var, right) ∈ foundBindings mc.patterns ms → left = right) :
    Shows mc ms (joinedRow mc.patterns ms) := by
  intro var mem entity
  rw [binds_joinedRow found checked (agree var mem)]
  refine ⟨fun bound => ?_, fun bound => clauseBindings_subset _ _ bound⟩
  obtain ⟨other, named⟩ := (mem_clauseBindings found.lengths).mpr mem
  rw [agree var mem entity other bound (clauseBindings_subset _ _ named)]
  exact named

variable {entity : Entity}

theorem mem_variables (found : Found contents mc.patterns ms) {var : String}
    (bound : (var, entity) ∈ clauseBindings mc.patterns ms) : var ∈ mc.variables :=
  (mem_clauseBindings found.lengths).mp ⟨entity, bound⟩

theorem eq_of_shows (named : mc.AllNamed) {ms' : List PathMatch}
    (found : Found contents mc.patterns ms) (found' : Found contents mc.patterns ms')
    (functional : Functional (clauseBindings mc.patterns ms')) {row : PatternMatch}
    (shows' : Shows mc ms row) (shows : Shows mc ms' row) : ms = ms' := by
  refine clauseBindings_inj named found.lengths found'.lengths functional ?_ fun _ bound => bound
  rintro ⟨var, entity⟩ bound
  have mem := mem_variables found bound
  exact (shows var mem entity).mp ((shows' var mem entity).mpr bound)

theorem eq_of_binds {left right : PatternMatch}
    (same : ∀ var entity, left.Binds var entity ↔ right.Binds var entity) : left = right := by
  obtain ⟨nodes, edges⟩ := left
  obtain ⟨nodes', edges'⟩ := right
  have nodesEq : nodes = nodes' := by
    funext var
    exact Option.ext fun node => same var (.node node)
  have edgesEq : edges = edges' := by
    funext var
    exact Option.ext fun edge => same var (.edge edge)
  rw [nodesEq, edgesEq]

theorem mem_variables_of_binds (named : mc.AllNamed)
    (checked : ∀ pp ∈ mc.patterns, validateUniqueVars (segmentOf pp) = .ok ())
    (found : Found contents mc.patterns ms) {var : String}
    (binds : (joinedRow mc.patterns ms).Binds var entity) : var ∈ mc.variables := by
  obtain ⟨row, mem, here⟩ := binds_of_foldl_merge binds
  rcases mem_cons.mp mem with rfl | later
  · cases entity <;> cases here
  · have bound := (binds_rows found checked).mp ⟨row, later, here⟩
    exact mem_variables found (foundBindings_subset named ms bound)

variable (serves : graph.Serves contents) {late : Nat → Bool} {rows : List PatternMatch}
  (fixed : ∀ pp ∈ mc.patterns, hasVariableLengthHop pp = false) (nonempty : mc.patterns ≠ [])
  (ran : compileMatch graph late mc = .ok rows)
include serves fixed nonempty ran

theorem exact_of_separable (separable : Separable contents mc) : Exact contents mc rows := by
  obtain ⟨checked, rfl⟩ := compileMatch_ok serves fixed nonempty ran
  have solves {ms : List PathMatch} (found : Found contents mc.patterns ms) :
      Solution contents mc.patterns ms := by
    refine ⟨separable.fits ms found, fun var left right here there => ?_⟩
    exact separable.agree ms found var (mem_variables found here) left right
      (clauseBindings_subset _ _ here) (clauseBindings_subset _ _ there)
  have shown {ms : List PathMatch} (found : Found contents mc.patterns ms) :=
    shows_joinedRow checked found (separable.agree ms found)
  constructor
  · intro row mem
    obtain ⟨ms, chosen, rfl⟩ := mem_map.mp mem
    have found := (mem_choices_matchesOf serves).mp chosen
    exact ⟨ms, solves found, shown found⟩
  · intro ms solution
    have found := separable.found ms solution
    exact ⟨_, mem_map_of_mem ((mem_choices_matchesOf serves).mpr found), shown found⟩
  · intro named
    by_cases none : ∃ ms, Found contents mc.patterns ms
    · obtain ⟨some, there⟩ := none
      have distinct : (choices (mc.patterns.map fun pp => matchesOf graph (segmentOf pp))).Nodup := by
        refine nodup_choices fun items mem => ?_
        obtain ⟨pp, here, rfl⟩ := mem_map.mp mem
        exact (nodup_matchesOf_iff serves).mpr (separable.loopFree named some there pp here)
      refine distinct.map_on fun ms chosen ms' chosen' same => ?_
      have found := (mem_choices_matchesOf serves).mp chosen
      have found' := (mem_choices_matchesOf serves).mp chosen'
      have shows' := shown found'
      rw [← same] at shows'
      exact eq_of_shows named found found' (solves found').functional (shown found) shows'
    · have empty : choices (mc.patterns.map fun pp => matchesOf graph (segmentOf pp)) = [] := by
        rw [eq_nil_iff_forall_not_mem]
        exact fun ms chosen => none ⟨ms, (mem_choices_matchesOf serves).mp chosen⟩
      rw [empty]
      exact nodup_nil

theorem separable_of_exact (named : mc.AllNamed)
    (all : ∀ ms, Solution contents mc.patterns ms → Found contents mc.patterns ms)
    (exact : Exact contents mc rows) : Separable contents mc := by
  obtain ⟨checked, rfl⟩ := compileMatch_ok serves fixed nonempty ran
  have distinct := exact.once named
  have agree {ms : List PathMatch} (solution : Solution contents mc.patterns ms) :
      ∀ var ∈ mc.variables, ∀ left right, (var, left) ∈ foundBindings mc.patterns ms →
        (var, right) ∈ foundBindings mc.patterns ms → left = right :=
    fun var _ left right here there => solution.functional var left right
      (foundBindings_subset named ms here) (foundBindings_subset named ms there)
  -- A choice merges to the row of some solution, which merges to that row itself.
  have solves : ∀ ms, Found contents mc.patterns ms → Solution contents mc.patterns ms := by
    intro ms found
    have chosen := (mem_choices_matchesOf serves).mpr found
    obtain ⟨ms', solution, shows⟩ := exact.sound _ (mem_map_of_mem chosen)
    have found' := all ms' solution
    have chosen' := (mem_choices_matchesOf serves).mpr found'
    have shows' := shows_joinedRow checked found' (agree solution)
    have same : joinedRow mc.patterns ms = joinedRow mc.patterns ms' := by
      refine eq_of_binds fun var entity => ?_
      by_cases mem : var ∈ mc.variables
      · exact (shows var mem entity).trans (shows' var mem entity).symm
      · exact iff_of_false
          (fun binds => mem (mem_variables_of_binds named checked found binds))
          (fun binds => mem (mem_variables_of_binds named checked found' binds))
    rw [inj_on_of_nodup_map distinct chosen chosen' same]
    exact solution
  refine ⟨all, fun ms found => (solves ms found).fits, fun ms found => agree (solves ms found), ?_⟩
  intro _ ms found pp mem
  have chosen := (mem_choices_matchesOf serves).mpr found
  have each := nodup_of_choices chosen distinct.of_map
  exact (nodup_matchesOf_iff serves).mp (each _ (mem_map_of_mem mem))

/-- The rows of a clause are its satisfying assignments where the matches of its patterns agree,
and with all positions named only there. -/
theorem compileMatch_exact :
    (Separable contents mc → Exact contents mc rows) ∧
      (mc.AllNamed → (∀ ms, Solution contents mc.patterns ms → Found contents mc.patterns ms) →
        Exact contents mc rows → Separable contents mc) :=
  ⟨exact_of_separable serves fixed nonempty ran, separable_of_exact serves fixed nonempty ran⟩

end Rows

/-- Two nodes with different labels. -/
def twoLabels : PropertyGraph where
  nodes := [⟨1, "A", .empty, {}⟩, ⟨2, "B", .empty, {}⟩]
  edges := []
  nodes_nodup := by decide
  edges_nodup := nodup_nil
  ends := nofun

def labelled (label : String) : PathPattern := ⟨{ var := some "a", labels := [label] }, []⟩

variable {contents : Contents} {label : String}

theorem fits_labelled {m : PathMatch} :
    (labelled label).Fits contents m ↔
      contents.nodes m.start.id = some m.start ∧ m.start.label = label ∧ m.steps = [] := by
  constructor
  · intro fits
    refine ⟨fits.start, fits.admits.label label mem_cons_self, ?_⟩
    have hops := fits.hops
    cases steps : m.steps with
    | nil => rfl
    | cons step steps =>
      rw [steps] at hops
      exact hops.elim
  · rintro ⟨start, carries, none⟩
    refine ⟨start, ⟨fun other mem => ?_, fun _ mem => absurd mem not_mem_nil⟩, ?_⟩
    · rw [mem_singleton.mp mem, carries]
    · rw [none]
      trivial

theorem holds_labelled {m : PathMatch} :
    (segmentOf (labelled label)).Holds contents m ↔
      contents.nodes m.start.id = some m.start ∧ m.start.label = label ∧ m.steps = [] := by
  constructor
  · intro holds
    have labelled := holds.startMatches
    rw [nodeMatches, Bool.and_eq_true] at labelled
    refine ⟨holds.start, of_decide_eq_true labelled.1, ?_⟩
    exact length_eq_zero_iff.mp holds.follows.length_eq.symm
  · rintro ⟨start, carries, none⟩
    refine ⟨start, ?_, fun _ _ mem => absurd mem not_mem_nil, ?_⟩
    · rw [nodeMatches, Bool.and_eq_true]
      exact ⟨decide_eq_true carries, rfl⟩
    · rw [none]
      trivial

/-- One pattern finds the node with the label. -/
theorem compileMatch_exact_single : ∃ rows,
    compileMatch twoLabels.access (fun _ => false) ⟨[labelled "A"], none⟩ = .ok rows ∧
      Exact twoLabels.contents ⟨[labelled "A"], none⟩ rows := by
  have ok : (compileMatch twoLabels.access (fun _ => false) ⟨[labelled "A"], none⟩).isOk := by
    decide +kernel
  cases ran : compileMatch twoLabels.access (fun _ => false) ⟨[labelled "A"], none⟩ with
  | error e =>
    rw [ran] at ok
    cases ok
  | ok rows =>
    have same (m : PathMatch) : (labelled "A").Fits twoLabels.contents m ↔
        (segmentOf (labelled "A")).Holds twoLabels.contents m :=
      fits_labelled.trans holds_labelled.symm
    refine ⟨rows, rfl, (compileMatch_exact twoLabels.serves ?_ (by simp) ran).1 ⟨?_, ?_, ?_, ?_⟩⟩
    · exact fun pp member => by rw [mem_singleton.mp member]; rfl
    · rintro ms ⟨fits, _⟩
      cases fits with
      | cons first rest =>
        cases rest
        exact .cons ((same _).mp first) .nil
    · intro ms found
      cases found with
      | cons first rest =>
        cases rest
        exact .cons ((same _).mpr first) .nil
    · intro ms found var _ left right here there
      cases found with
      | cons first rest =>
        cases rest
        have hops : (segmentOf (labelled "A")).hops = [] := rfl
        simp only [foundBindings, Segment.bindings, zipWith_cons_cons, zipWith_nil_left,
          flatten_cons, flatten_nil, hops, segmentHopBindings, append_nil,
          mem_singleton] at here there
        exact (Prod.mk.inj here).2.trans (Prod.mk.inj there).2.symm
    · intro _ _ _ pp member m _
      rw [mem_singleton.mp member]
      trivial

/-- With the variable in two patterns, the label of the first one is lost. -/
theorem shared_variable_not_exact : ∃ rows,
    compileMatch twoLabels.access (fun _ => false) ⟨[labelled "A", labelled "B"], none⟩ = .ok rows ∧
      ¬Exact twoLabels.contents ⟨[labelled "A", labelled "B"], none⟩ rows := by
  have one : (compileMatch twoLabels.access (fun _ => false)
      ⟨[labelled "A", labelled "B"], none⟩).toOption.map List.length = some 1 := by
    decide +kernel
  cases ran : compileMatch twoLabels.access (fun _ => false)
      ⟨[labelled "A", labelled "B"], none⟩ with
  | error e =>
    rw [ran] at one
    cases one
  | ok rows =>
    refine ⟨rows, rfl, fun exact => ?_⟩
    rw [ran] at one
    obtain ⟨row, single⟩ := length_eq_one_iff.mp (Option.some.inj one)
    obtain ⟨ms, ⟨fits, functional⟩, _⟩ := exact.sound row (single ▸ .head _)
    cases fits with
    | @cons _ m _ _ first rest =>
      cases rest with
      | @cons _ m' _ _ second rest =>
        cases rest
        have starts := functional "a" (.node m.start) (.node m'.start) (by
          simp [clauseBindings, PathPattern.bindings, labelled]) (by
          simp [clauseBindings, PathPattern.bindings, labelled])
        have left := (fits_labelled.mp first).2.1
        rw [Entity.node.inj starts, (fits_labelled.mp second).2.1] at left
        exact absurd left (by decide)

end ErmyaGraph.Gql
