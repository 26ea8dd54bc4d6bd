import ErmyaGraph.Gql.Agreement
import ErmyaGraph.Gql.InlineVariable

/-! # The names in a row

A row binds names that its patterns have and names that are made up for nodes
without one. -/

namespace ErmyaGraph.Gql

open List Outcome

variable {prevVar : String} {rows : List PatternMatch}

/-- A name that neither a clause nor the names made up for its nodes have. -/
structure MatchClause.Unnamed (mc : MatchClause) (x : String) : Prop where
  unbound : x ∉ collectBoundVars mc
  notMadeUp : ∀ n : Nat, x ≠ s!"_anon_{n}"

structure PathPattern.Unnamed (pp : PathPattern) (x : String) : Prop where
  start : pp.start.var ≠ some x
  hops : ∀ hop ∈ pp.hops, hop.1.var ≠ some x ∧ hop.2.var ≠ some x

variable {x : String} {mc : MatchClause}

theorem MatchClause.Unnamed.pattern (unnamed : mc.Unnamed x) {pp : PathPattern}
    (member : pp ∈ mc.patterns) : pp.Unnamed x := by
  have apart : x ∉ pp.start.var.toList ++
      pp.hops.flatMap fun hop => hop.1.var.toList ++ hop.2.var.toList := by
    intro named
    exact unnamed.unbound (mem_append_right _ (mem_flatMap.mpr ⟨pp, member, named⟩))
  refine ⟨fun same => apart ?_, fun hop hops => ⟨fun same => apart ?_, fun same => apart ?_⟩⟩
  · exact mem_append_left _ (Option.mem_toList.mpr same)
  · exact mem_append_right _ (mem_flatMap.mpr
      ⟨hop, hops, mem_append_left _ (Option.mem_toList.mpr same)⟩)
  · exact mem_append_right _ (mem_flatMap.mpr
      ⟨hop, hops, mem_append_right _ (Option.mem_toList.mpr same)⟩)

theorem compileNode_ne {np : NodePattern} (named : np.var ≠ some x)
    (notMadeUp : ∀ n : Nat, x ≠ s!"_anon_{n}") (anonCounter : Nat) :
    x ≠ (compileNodeToBuilder np anonCounter).1.var := by
  unfold compileNodeToBuilder
  cases is : np.var with
  | none => exact notMadeUp anonCounter
  | some var => exact fun same => named (is.trans (congrArg some same.symm))

namespace PatternMatch

variable {row : PatternMatch}

theorem free_empty : PatternMatch.Free {} x := ⟨rfl, rfl⟩

theorem Free.bindNode (free : row.Free x) {var : String} (other : x ≠ var) (node : Node) :
    (row.bindNode var node).Free x :=
  ⟨(Function.update_of_ne other _ _).trans free.nodes, free.edges⟩

theorem Free.bindEdge (free : row.Free x) {var : Option String} (other : var ≠ some x)
    (edge : Edge) : (row.bindEdge var edge).Free x := by
  cases var with
  | none => exact free
  | some var =>
    refine ⟨free.nodes, ?_⟩
    exact (Function.update_of_ne (fun same => other (congrArg some same.symm)) _ _).trans
      free.edges

theorem Free.merge (free : row.Free x) {right : PatternMatch} (free' : right.Free x) :
    (row.merge right).Free x := by
  refine ⟨?_, ?_⟩
  · simp only [PatternMatch.merge, free'.nodes, Option.none_or, free.nodes]
  · simp only [PatternMatch.merge, free'.edges, Option.none_or, free.edges]

theorem Free.arrive (free : row.Free x) {endVar : String} {edgeVar : Option String}
    (node : x ≠ endVar) (edge : edgeVar ≠ some x) (arrival : Node × Option Edge) :
    (row.arrive endVar edgeVar arrival).Free x := by
  obtain ⟨end_, edge?⟩ := arrival
  cases edge? with
  | none => exact free.bindNode node end_
  | some taken => exact (free.bindNode node end_).bindEdge edge taken

end PatternMatch

section Matching

variable {graph : GraphAccess} (notMadeUp : ∀ n : Nat, x ≠ s!"_anon_{n}")
include notMadeUp
variable {hops : List (EdgePattern × NodePattern)} {current : List PatternMatch}

theorem expandPatternHops_free (named : ∀ hop ∈ hops, hop.1.var ≠ some x ∧ hop.2.var ≠ some x)
    {anonCounter : Nat} (free : ∀ row ∈ current, row.Free x)
    (ran : expandPatternHops graph inTime prevVar anonCounter hops current = .ok rows) :
    ∀ row ∈ rows, row.Free x := by
  induction hops generalizing prevVar anonCounter current with
  | nil =>
    cases ran
    exact free
  | cons hop rest ih =>
    obtain ⟨ep, np⟩ := hop
    obtain ⟨edge, node⟩ := named (ep, np) mem_cons_self
    rw [expandPatternHops_cons] at ran
    obtain ⟨next, expanded, ran⟩ := ok_of_bind ran
    refine ih (fun hop member => named hop (.tail _ member)) ?_ ran
    refine Expansion.forall_of_expandWith free (fun row free found ran r member => ?_) expanded
    obtain ⟨arrival, rfl⟩ := mem_hopRow ran member
    exact free.arrive (compileNode_ne node notMadeUp anonCounter) edge arrival

theorem seedStartNode_free {np : NodePattern} (named : np.var ≠ some x) :
    ∀ row ∈ (seedStartNode graph np).1, row.Free x := by
  intro row member
  obtain ⟨id, -, found⟩ := mem_filterMap.mp member
  split at found
  · split at found
    · cases found
      exact PatternMatch.free_empty.bindNode (compileNode_ne named notMadeUp 0) _
    · cases found
  · cases found

theorem segmentHops_ne (named : ∀ hop ∈ hops, hop.1.var ≠ some x ∧ hop.2.var ≠ some x)
    (anonCounter : Nat) :
    ∀ hop ∈ segmentHops hops anonCounter, x ≠ hop.node.var ∧ hop.edge.var ≠ some x := by
  induction hops generalizing anonCounter with
  | nil => exact fun _ member => absurd member not_mem_nil
  | cons hop rest ih =>
    obtain ⟨ep, np⟩ := hop
    obtain ⟨edge, node⟩ := named (ep, np) mem_cons_self
    intro hop member
    rcases mem_cons.mp member with rfl | member
    · exact ⟨compileNode_ne node notMadeUp anonCounter, edge⟩
    · exact ih (fun hop member => named hop (.tail _ member)) _ hop member

omit notMadeUp in
theorem expandRow_free {hop : Hop} (node : x ≠ hop.node.var) (edge : hop.edge.var ≠ some x)
    {row : PatternMatch} (free : row.Free x) {found : List PatternMatch}
    (ran : expandRow graph prevVar hop row = .ok found) : ∀ r ∈ found, r.Free x := by
  unfold expandRow at ran
  split at ran
  · obtain ⟨edges, _, ran⟩ := ok_of_bind ran
    obtain ⟨arrived, _, ran⟩ := ok_of_bind ran
    cases ran
    intro r member
    obtain ⟨step, _, rfl⟩ := mem_map.mp member
    exact (free.bindNode node step.2).bindEdge edge step.1
  · cases ran

omit notMadeUp in
theorem expandHops_free {hops : List Hop}
    (named : ∀ hop ∈ hops, x ≠ hop.node.var ∧ hop.edge.var ≠ some x)
    (free : ∀ row ∈ current, row.Free x) (ran : expandHops graph prevVar hops current = .ok rows) :
    ∀ row ∈ rows, row.Free x := by
  induction hops generalizing prevVar current with
  | nil =>
    cases ran
    exact free
  | cons hop rest ih =>
    obtain ⟨node, edge⟩ := named hop mem_cons_self
    rw [expandHops] at ran
    obtain ⟨next, expanded, ran⟩ := ok_of_bind ran
    refine ih (fun hop member => named hop (.tail _ member)) ?_ ran
    intro r member
    obtain ⟨found, inside, member⟩ := mem_flatten.mp member
    obtain ⟨row, here, ran⟩ := Joins.exists_of_mem_mapM expanded inside
    exact expandRow_free node edge (free row here) ran r member

theorem compilePathPattern_free {pp : PathPattern} (unnamed : pp.Unnamed x)
    (ran : compilePathPattern graph inTime pp = .ok rows) : ∀ row ∈ rows, row.Free x := by
  unfold compilePathPattern at ran
  split at ran
  · exact expandPatternHops_free notMadeUp unnamed.hops
      (seedStartNode_free notMadeUp unnamed.start) ran
  · unfold compilePathPatternFixed execute at ran
    rw [parseSegment_compileSteps] at ran
    obtain ⟨_, _, ran⟩ := ok_of_bind ran
    obtain ⟨_, parsed, ran⟩ := ok_of_bind ran
    cases parsed
    obtain ⟨_, _, ran⟩ := ok_of_bind ran
    obtain ⟨candidates, _, ran⟩ := ok_of_bind ran
    refine expandHops_free (segmentHops_ne notMadeUp unnamed.hops _) ?_ ran
    intro row member
    obtain ⟨node, _, rfl⟩ := mem_map.mp member
    exact PatternMatch.free_empty.bindNode (compileNode_ne unnamed.start notMadeUp 0) node

omit notMadeUp in
theorem crossJoin_free {sets : List (List PatternMatch)}
    (others : ∀ set ∈ sets, ∀ row ∈ set, row.Free x) {counter : Nat} {joined : List PatternMatch}
    (free : ∀ row ∈ joined, row.Free x) (ran : crossJoin inTime counter joined sets = .ok rows) :
    ∀ row ∈ rows, row.Free x := by
  induction sets generalizing counter joined with
  | nil =>
    cases ran
    exact free
  | cons right rest ih =>
    rw [crossJoin] at ran
    obtain ⟨next, merged, ran⟩ := ok_of_bind ran
    refine ih (fun set member => others set (.tail _ member)) ?_ ran
    intro row member
    rw [joinRows_ok merged] at member
    obtain ⟨pair, paired, rfl⟩ := mem_map.mp member
    obtain ⟨left, first, second⟩ := mem_flatMap.mp paired
    obtain ⟨last, there, rfl⟩ := mem_map.mp second
    exact (free left first).merge (others right mem_cons_self last there)

end Matching

theorem compileMatch_free {graph : GraphAccess} (unnamed : mc.Unnamed x)
    (ran : compileMatch graph inTime mc = .ok rows) : ∀ row ∈ rows, row.Free x := by
  unfold compileMatch at ran
  obtain ⟨sets, matched, ran⟩ := ok_of_bind ran
  have each : ∀ set ∈ sets, ∀ row ∈ set, row.Free x := by
    intro set member
    obtain ⟨pp, inside, ran⟩ := Joins.exists_of_mem_mapM matched member
    exact compilePathPattern_free unnamed.notMadeUp (unnamed.pattern inside) ran
  cases sets with
  | nil =>
    cases ran
    exact fun _ member => absurd member not_mem_nil
  | cons first rest =>
    exact crossJoin_free (fun set member => each set (mem_cons_of_mem _ member))
      (each first mem_cons_self) ran

end ErmyaGraph.Gql
