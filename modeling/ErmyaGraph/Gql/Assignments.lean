import ErmyaGraph.Lib.Outcome
import ErmyaGraph.Gql.Matches
import ErmyaGraph.Gql.MatchClause

/-! # Assignments of a clause

What a clause of fixed hops asks for, variable by variable, beside what joining
the rows of its patterns yields. -/

namespace ErmyaGraph.Gql

variable {steps : List (Edge × Node)} {var : String} {pp : PathPattern} {rows : List PatternMatch}
  {late : Nat → Bool} {patterns : List PathPattern} {ms : List PathMatch}
  {hops : List (EdgePattern × NodePattern)}

open Joins List PatternMatch

inductive Entity where
  | node (node : Node)
  | edge (edge : Edge)

variable {entity : Entity}

/-- The properties of an entity equal the values that a pattern states; null and lists equal none. -/
def Carries (properties : Properties) (props : List (String × Literal)) : Prop :=
  ∀ entry ∈ props, ∃ expected actual, literalToProperty entry.2 = some expected ∧
    properties.get? entry.1 = some actual ∧ propertyEq actual expected

structure NodePattern.Admits (np : NodePattern) (node : Node) : Prop where
  label : ∀ label ∈ np.labels, node.label = label
  props : Carries node.properties np.props

structure EdgePattern.Admits (ep : EdgePattern) (edge : Edge) : Prop where
  label : ∀ label ∈ ep.labels, edge.label = label
  props : Carries edge.properties ep.props

/-- Steps satisfy the hops of a pattern, one each. -/
def Satisfies (contents : Contents) : (source : Nat) → List (EdgePattern × NodePattern) →
    List (Edge × Node) → Prop
  | _, [], [] => True
  | source, (ep, np) :: hops, (edge, node) :: steps =>
    contents.edges edge.id = some edge ∧ contents.nodes node.id = some node ∧
      ep.direction.Joins edge source node.id ∧ ep.Admits edge ∧ np.Admits node ∧
        Satisfies contents node.id hops steps
  | _, _, _ => False

/-- Entities of the graph in the positions of a pattern satisfy it. -/
structure PathPattern.Fits (contents : Contents) (pp : PathPattern) (m : PathMatch) : Prop where
  start : contents.nodes m.start.id = some m.start
  admits : pp.start.Admits m.start
  hops : Satisfies contents m.start.id pp.hops m.steps

def hopBindings :
    List (EdgePattern × NodePattern) → List (Edge × Node) → List (String × Entity)
  | (ep, np) :: hops, (edge, node) :: steps =>
    ep.var.toList.map (·, .edge edge) ++
      (np.var.toList.map (·, .node node) ++ hopBindings hops steps)
  | _, _ => []

/-- What a pattern names, with the entities in the named positions. -/
def PathPattern.bindings (pp : PathPattern) (m : PathMatch) : List (String × Entity) :=
  pp.start.var.toList.map (·, .node m.start) ++ hopBindings pp.hops m.steps

def Functional (bindings : List (String × Entity)) : Prop :=
  ∀ var left right, (var, left) ∈ bindings → (var, right) ∈ bindings → left = right

def clauseBindings (patterns : List PathPattern) (ms : List PathMatch) : List (String × Entity) :=
  (List.zipWith PathPattern.bindings patterns ms).flatten

/-- Entities for all positions of a clause, such that all its patterns hold under one
assignment. -/
structure Solution (contents : Contents) (patterns : List PathPattern) (ms : List PathMatch) :
    Prop where
  fits : List.Forall₂ (PathPattern.Fits contents) patterns ms
  functional : Functional (clauseBindings patterns ms)

def PatternMatch.Binds (row : PatternMatch) (var : String) : Entity → Prop
  | .node node => row.nodes var = some node
  | .edge edge => row.edges var = some edge

def PathPattern.variables (pp : PathPattern) : List String :=
  pp.start.var.toList ++ pp.hops.flatMap fun hop => hop.1.var.toList ++ hop.2.var.toList

def MatchClause.variables (mc : MatchClause) : List String :=
  mc.patterns.flatMap PathPattern.variables

/-- A row assigns the variables of a clause as a solution does. -/
def Shows (mc : MatchClause) (ms : List PathMatch) (row : PatternMatch) : Prop :=
  ∀ var ∈ mc.variables, ∀ entity,
    row.Binds var entity ↔ (var, entity) ∈ clauseBindings mc.patterns ms

def PathPattern.AllNamed (pp : PathPattern) : Prop :=
  pp.start.var.isSome ∧ ∀ hop ∈ pp.hops, hop.1.var.isSome ∧ hop.2.var.isSome

def MatchClause.AllNamed (mc : MatchClause) : Prop := ∀ pp ∈ mc.patterns, pp.AllNamed

/-- The rows are the satisfying assignments; with all positions named each is there once. -/
structure Exact (contents : Contents) (mc : MatchClause) (rows : List PatternMatch) : Prop where
  sound : ∀ row ∈ rows, ∃ ms, Solution contents mc.patterns ms ∧ Shows mc ms row
  complete : ∀ ms, Solution contents mc.patterns ms → ∃ row ∈ rows, Shows mc ms row
  once : mc.AllNamed → rows.Nodup

def segmentHops : List (EdgePattern × NodePattern) → (anonCounter : Nat) → List Hop
  | [], _ => []
  | (ep, np) :: rest, anonCounter =>
    let compiled := compileNodeToBuilder np anonCounter
    ⟨compileEdgeToBuilder ep, compiled.1⟩ :: segmentHops rest compiled.2

/-- The segment that the steps of a pattern are parsed to. -/
def segmentOf (pp : PathPattern) : Segment :=
  let compiled := compileNodeToBuilder pp.start 0
  ⟨compiled.1, segmentHops pp.hops compiled.2⟩

def segmentHopBindings : List Hop → List (Edge × Node) → List (String × Entity)
  | hop :: hops, step :: steps =>
    hop.edge.var.toList.map (·, .edge step.1) ++
      ((hop.node.var, .node step.2) :: segmentHopBindings hops steps)
  | _, _ => []

/-- What the row of a match binds, generated names included. -/
def Segment.bindings (segment : Segment) (m : PathMatch) : List (String × Entity) :=
  (segment.node.var, .node m.start) :: segmentHopBindings segment.hops m.steps

/-- Every pattern is found by itself: by its first label, by its constraints other than null and
lists, and a labelled start node by the stored form of its properties. -/
def Found (contents : Contents) (patterns : List PathPattern) (ms : List PathMatch) : Prop :=
  List.Forall₂ (fun pp m => (segmentOf pp).Holds contents m) patterns ms

def foundBindings (patterns : List PathPattern) (ms : List PathMatch) : List (String × Entity) :=
  (List.zipWith (fun pp m => (segmentOf pp).bindings m) patterns ms).flatten

/-- What is found pattern by pattern fits together. -/
structure Separable (contents : Contents) (mc : MatchClause) : Prop where
  found : ∀ ms, Solution contents mc.patterns ms → Found contents mc.patterns ms
  fits : ∀ ms, Found contents mc.patterns ms →
    List.Forall₂ (PathPattern.Fits contents) mc.patterns ms
  agree : ∀ ms, Found contents mc.patterns ms → ∀ var ∈ mc.variables, ∀ left right,
    (var, left) ∈ foundBindings mc.patterns ms → (var, right) ∈ foundBindings mc.patterns ms →
      left = right
  loopFree : mc.AllNamed → ∀ ms, Found contents mc.patterns ms → ∀ pp ∈ mc.patterns, ∀ m,
    (segmentOf pp).Holds contents m → LoopFree (segmentOf pp).hops m.steps

def PatternMatch.BoundIn (row : PatternMatch) (names : List String) : Prop :=
  ∀ var entity, row.Binds var entity → var ∈ names

theorem binds_bindNode {row : PatternMatch} {var : String} {node : Node}
    (fresh : ∀ entity, ¬row.Binds var entity) {other : String} {entity : Entity} :
    (row.bindNode var node).Binds other entity ↔
      row.Binds other entity ∨ (other, entity) = (var, .node node) := by
  cases entity with
  | edge edge => simp [PatternMatch.Binds, bindNode]
  | node found =>
    by_cases same : other = var
    · subst same
      have unbound : row.nodes other ≠ some found := fresh (.node found)
      simp [PatternMatch.Binds, bindNode, unbound, eq_comm]
    · simp [PatternMatch.Binds, bindNode, same]

theorem binds_bindEdge {row : PatternMatch} {var : String} {edge : Edge}
    (fresh : ∀ entity, ¬row.Binds var entity) {other : String} {entity : Entity} :
    (row.bindEdge (some var) edge).Binds other entity ↔
      row.Binds other entity ∨ (other, entity) = (var, .edge edge) := by
  cases entity with
  | node node => simp [PatternMatch.Binds, bindEdge]
  | edge found =>
    by_cases same : other = var
    · subst same
      have unbound : row.edges other ≠ some found := fresh (.edge found)
      simp [PatternMatch.Binds, bindEdge, unbound, eq_comm]
    · simp [PatternMatch.Binds, bindEdge, same]

/-- Checked hops bind what they name beside what was bound before. -/
theorem binds_bindHops {hops : List Hop} {seen : List String} {row : PatternMatch}
    (length : hops.length = steps.length) (checked : validateHopVars seen hops = .ok ())
    (within : row.BoundIn seen) :
    (row.bindHops hops steps).Binds var entity ↔
      row.Binds var entity ∨ (var, entity) ∈ segmentHopBindings hops steps := by
  induction hops generalizing seen row steps with
  | nil => simp [bindHops, segmentHopBindings]
  | cons hop hops ih =>
    cases steps with
    | nil => cases length
    | cons step steps =>
      rw [validateHopVars] at checked
      split at checked
      · cases checked
      · next freshNode =>
          have unboundNode (entity : Entity) : ¬row.Binds hop.node.var entity :=
            fun bound => freshNode (within _ _ bound)
          have node (other : String) (found : Entity) :=
            @binds_bindNode row hop.node.var step.2 unboundNode other found
          cases named : hop.edge.var with
          | none =>
            rw [named] at checked
            have bound : (row.bindHop hop step).BoundIn (hop.node.var :: seen) := by
              intro other found binds
              rw [bindHop, named] at binds
              rcases (node other found).mp binds with before | same
              · exact .tail _ (within _ _ before)
              · cases same
                exact mem_cons_self
            refine (ih (Nat.succ.inj length) checked bound).trans ?_
            rw [bindHop, segmentHopBindings, named]
            simp only [bindEdge, node, Option.toList_none, map_nil,
              nil_append, mem_cons, or_assoc]
          | some name =>
            rw [named] at checked
            dsimp only at checked
            split at checked
            · cases checked
            · next freshEdge =>
                have unboundEdge (entity : Entity) :
                    ¬(row.bindNode hop.node.var step.2).Binds name entity := by
                  intro bound
                  rcases (node name entity).mp bound with before | same
                  · exact freshEdge (.tail _ (within _ _ before))
                  · cases same
                    exact freshEdge mem_cons_self
                have edge (other : String) (found : Entity) :=
                  @binds_bindEdge _ name step.1 unboundEdge other found
                have bound : (row.bindHop hop step).BoundIn (name :: hop.node.var :: seen) := by
                  intro other found binds
                  rw [bindHop, named] at binds
                  rcases (edge other found).mp binds with binds | same
                  · rcases (node other found).mp binds with before | same
                    · exact .tail _ (.tail _ (within _ _ before))
                    · cases same
                      exact .tail _ mem_cons_self
                  · cases same
                    exact mem_cons_self
                refine (ih (Nat.succ.inj length) checked bound).trans ?_
                rw [bindHop, segmentHopBindings, named]
                simp only [edge, node, Option.toList_some, map_cons, map_nil,
                  cons_append, nil_append, mem_cons, or_assoc]
                grind

theorem Follows.length_eq {contents : Contents} {source : Nat} {hops : List Hop}
    (follows : Follows contents source hops steps) : hops.length = steps.length := by
  induction hops generalizing source steps with
  | nil =>
    cases steps with
    | nil => rfl
    | cons => exact follows.elim
  | cons hop hops ih =>
    cases steps with
    | nil => exact follows.elim
    | cons step steps => exact congrArg Nat.succ (ih follows.2)

theorem binds_row {contents : Contents} {segment : Segment} {m : PathMatch}
    (checked : validateUniqueVars segment = .ok ()) (holds : segment.Holds contents m)
    {var : String} {entity : Entity} :
    (segment.row m).Binds var entity ↔ (var, entity) ∈ segment.bindings m := by
  have blank (var : String) (entity : Entity) : ¬PatternMatch.Binds {} var entity := by
    cases entity <;> exact nofun
  have start (var : String) (entity : Entity) :=
    @binds_bindNode {} segment.node.var m.start (blank _) var entity
  have within : (bindNode {} segment.node.var m.start).BoundIn [segment.node.var] := by
    intro var entity bound
    rcases (start var entity).mp bound with before | same
    · exact absurd before (blank var entity)
    · cases same
      exact mem_cons_self
  refine (binds_bindHops holds.follows.length_eq checked within).trans ?_
  rw [start, Segment.bindings, mem_cons, or_iff_right (blank var entity)]

theorem propsMatch_compileProps (properties : Properties) (props : List (String × Literal)) :
    propsMatch properties (compileProps props) = literalPropsMatch properties props := by
  induction props with
  | nil => rfl
  | cons entry rest ih =>
    unfold propsMatch compileProps literalPropsMatch at *
    rw [filterMap_cons, all_cons, ← ih]
    cases literalToProperty entry.2 <;> simp

theorem nodeMatches_compile (node : Node) (np : NodePattern) (anonCounter : Nat) :
    nodeMatches node (compileNodeToBuilder np anonCounter).1 = nodeMatchesPattern node np := by
  unfold compileNodeToBuilder nodeMatches nodeMatchesPattern
  cases np.var <;> simp only [propsMatch_compileProps]

theorem parseHops_compileHops (hops : List (EdgePattern × NodePattern)) (anonCounter : Nat) :
    parseHops (compileHops hops anonCounter) = .ok (segmentHops hops anonCounter) := by
  induction hops generalizing anonCounter with
  | nil => rfl
  | cons hop hops ih =>
    obtain ⟨ep, np⟩ := hop
    simp only [compileHops, parseHops, segmentHops, ih]
    rfl

theorem parseSegment_compileSteps (pp : PathPattern) :
    parseSegment (compileSteps pp) = .ok (some (segmentOf pp)) := by
  simp only [compileSteps, parseSegment, parseHops_compileHops]
  rfl

def joinedRow (patterns : List PathPattern) (ms : List PathMatch) : PatternMatch :=
  (List.zipWith (fun pp m => (segmentOf pp).row m) patterns ms).foldl merge {}

section Rows

variable {graph : GraphAccess} {contents : Contents} (serves : graph.Serves contents)
include serves

theorem compilePathPatternFixed_ok (ran : compilePathPatternFixed graph pp = .ok rows) :
    validateUniqueVars (segmentOf pp) = .ok () ∧
      rows = (matchesOf graph (segmentOf pp)).map (segmentOf pp).row := by
  have parsed := parseSegment_compileSteps pp
  unfold compilePathPatternFixed at ran
  cases named : validateNoEmptyVars (compileSteps pp) with
  | error e =>
    rw [execute, named] at ran
    cases ran
  | ok =>
    cases unique : validateUniqueVars (segmentOf pp) with
    | error e =>
      simp only [execute, named, parsed, unique, bind, Except.bind] at ran
      cases ran
    | ok =>
      rw [execute_ok serves named parsed unique] at ran
      exact ⟨rfl, (Except.ok.inj ran).symm⟩

omit serves in
theorem joinRows_ok {counter : Nat} {pairs : List (PatternMatch × PatternMatch)}
    (ran : joinRows late counter pairs = .ok rows) :
    rows = pairs.map fun entry => entry.1.merge entry.2 := by
  have merged : rows = pairs.zipIdx.map fun entry => entry.1.1.merge entry.1.2 := by
    refine eq_map_of_mapM ran fun entry _ row done => ?_
    cases checked : checkDeadline late (counter + entry.2) with
    | error e =>
      rw [checked] at done
      cases done
    | ok =>
      rw [checked] at done
      exact (Except.ok.inj done).symm
  have firsts := zipIdx_map_fst 0 pairs
  rw [merged]
  conv_rhs => rw [← firsts, map_map]
  rfl

omit serves in
theorem crossJoin_ok {counter : Nat} {joined : List PatternMatch} {sets : List (List PatternMatch)}
    (ran : crossJoin late counter joined sets = .ok rows) :
    rows = sets.foldl (fun joined right => joined.flatMap fun left => right.map left.merge)
      joined := by
  induction sets generalizing counter joined with
  | nil =>
    cases ran
    rfl
  | cons right rest ih =>
    rw [crossJoin] at ran
    obtain ⟨next, first, ran⟩ := Outcome.ok_of_bind ran
    have later := ih ran
    rw [joinRows_ok first] at later
    rw [later, foldl_cons]
    simp only [map_flatMap, map_map, Function.comp_def]

omit serves in
@[simp]
theorem merge_empty (row : PatternMatch) : PatternMatch.merge {} row = row := by
  obtain ⟨nodes, edges⟩ := row
  simp [PatternMatch.merge]

variable {mc : MatchClause}

omit serves in
theorem compileMatch_single (single : mc.patterns = [pp]) :
    compileMatch graph late mc = compilePathPattern graph late pp := by
  rw [compileMatch, single, mapM_cons]
  cases compilePathPattern graph late pp <;> rfl

omit serves in
theorem compilePathPatternFixed_eq (named : validateNoEmptyVars (compileSteps pp) = .ok ())
    (unique : validateUniqueVars (segmentOf pp) = .ok ()) :
    compilePathPatternFixed graph pp = (initialCandidates graph (segmentOf pp).node).bind
      fun candidates => expandHops graph (segmentOf pp).node.var (segmentOf pp).hops
        (candidates.map fun node => bindNode {} (segmentOf pp).node.var node) := by
  simp only [compilePathPatternFixed, execute, named, parseSegment_compileSteps, unique, bind,
    Except.bind]

/-- A clause of fixed hops yields a row for every choice of one match for each pattern. -/
theorem compileMatch_ok (fixed : ∀ pp ∈ mc.patterns, hasVariableLengthHop pp = false)
    (nonempty : mc.patterns ≠ []) (ran : compileMatch graph late mc = .ok rows) :
    (∀ pp ∈ mc.patterns, validateUniqueVars (segmentOf pp) = .ok ()) ∧
      rows = (choices (mc.patterns.map fun pp => matchesOf graph (segmentOf pp))).map
        (joinedRow mc.patterns) := by
  unfold compileMatch at ran
  cases each : mc.patterns.mapM (compilePathPattern graph late) with
  | error e =>
    rw [each] at ran
    cases ran
  | ok sets =>
    have compiled {pp : PathPattern} (mem : pp ∈ mc.patterns) {set : List PatternMatch}
        (done : compilePathPattern graph late pp = .ok set) :=
      have ran : compilePathPatternFixed graph pp = .ok set := by
        rw [compilePathPattern, fixed pp mem] at done
        exact done
      compilePathPatternFixed_ok serves ran
    have listed : sets = mc.patterns.map fun pp =>
        (matchesOf graph (segmentOf pp)).map (segmentOf pp).row :=
      eq_map_of_mapM each fun pp mem set done => (compiled mem done).2
    refine ⟨fun pp mem => ?_, ?_⟩
    · obtain ⟨set, done⟩ := ok_of_mem_mapM each mem
      exact (compiled mem done).1
    · rw [each] at ran
      cases sets with
      | nil => exact absurd (map_eq_nil_iff.mp listed.symm) nonempty
      | cons first rest =>
        have joined := crossJoin_ok ran
        have merged (a : PatternMatch) (picks : List PatternMatch) :
            (a :: picks).foldl merge {} = picks.foldl merge a := by
          rw [foldl_cons, merge_empty]
        rw [joined, foldl_join]
        have whole : (choices (first :: rest)).map (fun picks => picks.foldl merge {}) =
            first.flatMap fun a => (choices rest).map fun picks =>
              picks.foldl merge a := by
          simp only [choices, map_flatMap, map_map, Function.comp_def, merged]
        rw [← whole, listed, choices_map, map_map]
        rfl

end Rows

theorem binds_of_merge {left right : PatternMatch} (binds : (left.merge right).Binds var entity) :
    left.Binds var entity ∨ right.Binds var entity := by
  cases entity with
  | node node => exact (Option.or_eq_some_iff.mp binds).symm.imp And.right id
  | edge edge => exact (Option.or_eq_some_iff.mp binds).symm.imp And.right id

theorem or_eq_some_of_agree {α : Type} {left right : Option α} {a : α}
    (either : left = some a ∨ right = some a) (agrees : ∀ b, right = some b → b = a) :
    right.or left = some a := by
  cases right with
  | none => exact either.resolve_right nofun
  | some b => rw [Option.some_or, agrees b rfl]

theorem binds_merge {left right : PatternMatch}
    (either : left.Binds var entity ∨ right.Binds var entity)
    (agrees : ∀ other, right.Binds var other → other = entity) :
    (left.merge right).Binds var entity := by
  cases entity with
  | node node =>
    exact or_eq_some_of_agree either fun other found => Entity.node.inj (agrees (.node other) found)
  | edge edge =>
    exact or_eq_some_of_agree either fun other found => Entity.edge.inj (agrees (.edge other) found)

variable {start : PatternMatch}

theorem binds_of_foldl_merge (binds : (rows.foldl merge start).Binds var entity) :
    ∃ row ∈ start :: rows, row.Binds var entity := by
  induction rows generalizing start with
  | nil => exact ⟨start, .head _, binds⟩
  | cons row rest ih =>
    obtain ⟨found, mem, here⟩ := ih binds
    cases mem_cons.mp mem with
    | inl same =>
      rw [same] at here
      rcases binds_of_merge here with left | right
      · exact ⟨start, mem_cons_self, left⟩
      · exact ⟨row, mem_cons_of_mem _ mem_cons_self, right⟩
    | inr later => exact ⟨found, mem_cons_of_mem _ (mem_cons_of_mem _ later), here⟩

theorem binds_foldl_merge (bound : ∃ row ∈ start :: rows, row.Binds var entity)
    (agree : ∀ row ∈ start :: rows, ∀ other, row.Binds var other → other = entity) :
    (rows.foldl merge start).Binds var entity := by
  induction rows generalizing start with
  | nil =>
    obtain ⟨row, mem, here⟩ := bound
    rw [mem_singleton] at mem
    exact mem ▸ here
  | cons row rest ih =>
    have agrees := agree row (mem_cons_of_mem _ mem_cons_self)
    apply ih
    · obtain ⟨found, mem, here⟩ := bound
      rcases mem_cons.mp mem with rfl | mem
      · exact ⟨_, .head _, binds_merge (.inl here) agrees⟩
      · rcases mem_cons.mp mem with rfl | later
        · exact ⟨_, .head _, binds_merge (.inr here) agrees⟩
        · exact ⟨found, .tail _ later, here⟩
    · intro found mem other here
      rcases mem_cons.mp mem with rfl | later
      · rcases binds_of_merge here with left | right
        · exact agree start mem_cons_self other left
        · exact agrees other right
      · exact agree found (.tail _ (.tail _ later)) other here

theorem binds_rows {contents : Contents} {patterns : List PathPattern} {ms : List PathMatch}
    (found : Found contents patterns ms)
    (checked : ∀ pp ∈ patterns, validateUniqueVars (segmentOf pp) = .ok ()) {var : String}
    {entity : Entity} :
    (∃ row ∈ List.zipWith (fun pp m => (segmentOf pp).row m) patterns ms,
      row.Binds var entity) ↔ (var, entity) ∈ foundBindings patterns ms := by
  induction found with
  | nil => simp [foundBindings]
  | @cons pp m rest ms' holds _ ih =>
    have later := ih fun pp mem => checked pp (mem_cons_of_mem _ mem)
    have first := @binds_row contents (segmentOf pp) m (checked pp mem_cons_self) holds var
      entity
    rw [zipWith_cons_cons, exists_mem_cons_iff, later, first]
    simp only [foundBindings, zipWith_cons_cons, flatten_cons, mem_append]

theorem binds_joinedRow {contents : Contents} (found : Found contents patterns ms)
    (checked : ∀ pp ∈ patterns, validateUniqueVars (segmentOf pp) = .ok ())
    (agree : ∀ left right, (var, left) ∈ foundBindings patterns ms →
      (var, right) ∈ foundBindings patterns ms → left = right) :
    (joinedRow patterns ms).Binds var entity ↔ (var, entity) ∈ foundBindings patterns ms := by
  have rows (other : Entity) := @binds_rows contents patterns ms found checked var other
  have blank (other : Entity) : ¬PatternMatch.Binds {} var other := by
    cases other <;> exact nofun
  constructor
  · intro binds
    obtain ⟨row, mem, here⟩ := binds_of_foldl_merge binds
    rcases mem_cons.mp mem with rfl | later
    · exact absurd here (blank entity)
    · exact (rows entity).mp ⟨row, later, here⟩
  · intro bound
    obtain ⟨row, mem, here⟩ := (rows entity).mpr bound
    refine binds_foldl_merge ⟨row, .tail _ mem, here⟩ ?_
    intro other there another binds
    rcases mem_cons.mp there with rfl | later
    · exact absurd binds (blank another)
    · exact agree another entity ((rows another).mp ⟨other, later, binds⟩) bound

theorem compileNode_var {np : NodePattern} (named : np.var = some var) (anonCounter : Nat) :
    (compileNodeToBuilder np anonCounter).1.var = var := by
  rw [compileNodeToBuilder, named]

theorem hopBindings_subset (hops : List (EdgePattern × NodePattern)) (anonCounter : Nat)
    (steps : List (Edge × Node)) :
    hopBindings hops steps ⊆ segmentHopBindings (segmentHops hops anonCounter) steps := by
  induction hops generalizing anonCounter steps with
  | nil => simp [hopBindings]
  | cons hop hops ih =>
    cases steps with
    | nil => simp [hopBindings]
    | cons step steps =>
      intro binding mem
      obtain ⟨ep, np⟩ := hop
      simp only [hopBindings, mem_append] at mem
      simp only [segmentHops, segmentHopBindings, mem_append, mem_cons]
      rcases mem with edge | node | later
      · exact .inl edge
      · refine .inr (.inl ?_)
        obtain ⟨var, named, rfl⟩ := mem_map.mp node
        rw [compileNode_var (Option.mem_toList.mp named)]
      · exact .inr (.inr (ih _ steps later))

theorem bindings_subset (pp : PathPattern) (m : PathMatch) :
    pp.bindings m ⊆ (segmentOf pp).bindings m := by
  intro binding mem
  rw [PathPattern.bindings, mem_append] at mem
  rcases mem with start | hops
  · obtain ⟨var, named, rfl⟩ := mem_map.mp start
    rw [Segment.bindings, segmentOf, compileNode_var (Option.mem_toList.mp named)]
    exact mem_cons_self
  · exact .tail _ (hopBindings_subset _ _ _ hops)

theorem segmentHopBindings_subset (named : ∀ hop ∈ hops, hop.1.var.isSome ∧ hop.2.var.isSome)
    (anonCounter : Nat) (steps : List (Edge × Node)) :
    segmentHopBindings (segmentHops hops anonCounter) steps ⊆ hopBindings hops steps := by
  induction hops generalizing anonCounter steps with
  | nil => simp [segmentHops, segmentHopBindings]
  | cons hop hops ih =>
    cases steps with
    | nil => simp [segmentHopBindings]
    | cons step steps =>
      intro binding mem
      obtain ⟨ep, np⟩ := hop
      obtain ⟨var, here⟩ := Option.isSome_iff_exists.mp (named _ mem_cons_self).2
      simp only [segmentHops, segmentHopBindings, mem_append, mem_cons,
        compileNode_var here] at mem
      simp only [hopBindings, mem_append]
      rcases mem with edge | rfl | later
      · exact .inl edge
      · exact .inr (.inl (mem_map_of_mem (Option.mem_toList.mpr here)))
      · exact .inr (.inr (ih (fun hop later => named hop (.tail _ later)) _ steps later))

theorem segment_bindings_subset (named : pp.AllNamed) (m : PathMatch) :
    (segmentOf pp).bindings m ⊆ pp.bindings m := by
  intro binding mem
  obtain ⟨var, here⟩ := Option.isSome_iff_exists.mp named.1
  rw [Segment.bindings, segmentOf, compileNode_var here, mem_cons] at mem
  rw [PathPattern.bindings, mem_append]
  rcases mem with rfl | hops
  · exact .inl (mem_map_of_mem (Option.mem_toList.mpr here))
  · exact .inr (segmentHopBindings_subset named.2 _ _ hops)

theorem flatten_zipWith_subset {left right : PathPattern → PathMatch → List (String × Entity)}
    (each : ∀ pp ∈ patterns, ∀ m, left pp m ⊆ right pp m) (ms : List PathMatch) :
    (List.zipWith left patterns ms).flatten ⊆ (List.zipWith right patterns ms).flatten := by
  induction patterns generalizing ms with
  | nil => simp
  | cons pp rest ih =>
    cases ms with
    | nil => simp
    | cons m ms =>
      simp only [zipWith_cons_cons, flatten_cons]
      have later := ih (fun pp mem => each pp (.tail _ mem)) ms
      exact append_subset.mpr
        ⟨subset_append_of_subset_left _ (each pp mem_cons_self m),
          subset_append_of_subset_right _ later⟩

theorem clauseBindings_subset (patterns : List PathPattern) (ms : List PathMatch) :
    clauseBindings patterns ms ⊆ foundBindings patterns ms :=
  flatten_zipWith_subset (fun pp _ m => bindings_subset pp m) ms

theorem foundBindings_subset (named : ∀ pp ∈ patterns, pp.AllNamed) (ms : List PathMatch) :
    foundBindings patterns ms ⊆ clauseBindings patterns ms :=
  flatten_zipWith_subset (fun pp mem m => segment_bindings_subset (named pp mem) m) ms

theorem length_segmentHops (hops : List (EdgePattern × NodePattern)) (anonCounter : Nat) :
    (segmentHops hops anonCounter).length = hops.length := by
  induction hops generalizing anonCounter with
  | nil => rfl
  | cons hop hops ih => exact congrArg Nat.succ (ih _)

theorem length_hops_of_holds {contents : Contents} {m : PathMatch}
    (holds : (segmentOf pp).Holds contents m) : pp.hops.length = m.steps.length :=
  (length_segmentHops pp.hops _).symm.trans holds.follows.length_eq

theorem Found.lengths {contents : Contents} (found : Found contents patterns ms) :
    List.Forall₂ (fun pp m => pp.hops.length = m.steps.length) patterns ms :=
  List.Forall₂.imp (fun _ _ => length_hops_of_holds) found

theorem mem_hopBindings (length : hops.length = steps.length) :
    (∃ entity, (var, entity) ∈ hopBindings hops steps) ↔
      var ∈ hops.flatMap fun hop => hop.1.var.toList ++ hop.2.var.toList := by
  induction hops generalizing steps with
  | nil => simp [hopBindings]
  | cons hop hops ih =>
    cases steps with
    | nil => cases length
    | cons step steps =>
      obtain ⟨ep, np⟩ := hop
      simp only [hopBindings, mem_append, exists_or, ih (Nat.succ.inj length), flatMap_cons]
      simp [or_assoc]

theorem mem_clauseBindings
    (lengths : List.Forall₂ (fun pp m => pp.hops.length = m.steps.length) patterns ms) :
    (∃ entity, (var, entity) ∈ clauseBindings patterns ms) ↔
      var ∈ patterns.flatMap PathPattern.variables := by
  induction lengths with
  | nil => simp [clauseBindings]
  | @cons pp m rest ms' length _ ih =>
    have first : (∃ entity, (var, entity) ∈ pp.bindings m) ↔ var ∈ pp.variables := by
      simp only [PathPattern.bindings, PathPattern.variables, mem_append, exists_or,
        mem_hopBindings length]
      simp
    rw [flatMap_cons, mem_append, ← first, ← ih, ← exists_or]
    simp only [clauseBindings, zipWith_cons_cons, flatten_cons, mem_append]

theorem hopBindings_inj (named : ∀ hop ∈ hops, hop.1.var.isSome ∧ hop.2.var.isSome)
    {steps' : List (Edge × Node)} (length : hops.length = steps.length)
    (length' : hops.length = steps'.length) {bindings : List (String × Entity)}
    (functional : Functional bindings) (within : hopBindings hops steps ⊆ bindings)
    (within' : hopBindings hops steps' ⊆ bindings) : steps = steps' := by
  induction hops generalizing steps steps' with
  | nil => rw [length_eq_zero_iff.mp length.symm, length_eq_zero_iff.mp length'.symm]
  | cons hop hops ih =>
    cases steps with
    | nil => cases length
    | cons step steps =>
      cases steps' with
      | nil => cases length'
      | cons step' steps' =>
        obtain ⟨ep, np⟩ := hop
        obtain ⟨edgeNamed, nodeNamed⟩ := named _ mem_cons_self
        obtain ⟨edgeVar, edgeHere⟩ := Option.isSome_iff_exists.mp edgeNamed
        obtain ⟨nodeVar, nodeHere⟩ := Option.isSome_iff_exists.mp nodeNamed
        dsimp only at edgeHere nodeHere
        simp only [hopBindings, edgeHere, nodeHere, Option.toList_some, map_cons,
          map_nil, cons_append, nil_append, cons_subset] at within within'
        have edges := Entity.edge.inj (functional _ _ _ within.1 within'.1)
        have nodes := Entity.node.inj (functional _ _ _ within.2.1 within'.2.1)
        rw [Prod.ext edges nodes, ih (fun hop later => named hop (.tail _ later))
          (Nat.succ.inj length) (Nat.succ.inj length') within.2.2 within'.2.2]

theorem clauseBindings_inj (named : ∀ pp ∈ patterns, pp.AllNamed) {ms' : List PathMatch}
    (lengths : List.Forall₂ (fun pp m => pp.hops.length = m.steps.length) patterns ms)
    (lengths' : List.Forall₂ (fun pp m => pp.hops.length = m.steps.length) patterns ms')
    {bindings : List (String × Entity)} (functional : Functional bindings)
    (within : clauseBindings patterns ms ⊆ bindings)
    (within' : clauseBindings patterns ms' ⊆ bindings) : ms = ms' := by
  induction lengths generalizing ms' with
  | nil =>
    cases lengths'
    rfl
  | @cons pp m rest ms length _ ih =>
    cases lengths' with
    | @cons _ m' _ ms' length' lengths' =>
      simp only [clauseBindings, zipWith_cons_cons, flatten_cons, append_subset] at within within'
      obtain ⟨startNamed, hopsNamed⟩ := named pp mem_cons_self
      obtain ⟨var, here⟩ := Option.isSome_iff_exists.mp startNamed
      have first := within.1
      have first' := within'.1
      simp only [PathPattern.bindings, here, Option.toList_some, map_cons, map_nil,
        cons_append, nil_append, cons_subset] at first first'
      have starts := Entity.node.inj (functional _ _ _ first.1 first'.1)
      have steps := hopBindings_inj hopsNamed length length' functional first.2 first'.2
      have same : m = m' := by
        cases m
        cases m'
        simp only at starts steps
        rw [starts, steps]
      rw [same, ih (fun pp mem => named pp (.tail _ mem)) lengths' within.2
        within'.2]

end ErmyaGraph.Gql
