import ErmyaGraph.Gql.Accumulators
import ErmyaGraph.Gql.Assignments

/-! # When aggregates need no rows

Aggregating the candidates for the start node comes to what aggregating the rows
comes to, where everything that the shorter way does not look at holds. -/

namespace ErmyaGraph.Gql

variable {expr : Expr} {nodes : List Node} {items : List ReturnItem} {ep : EdgePattern}
  {np : NodePattern} {node : Node} {query : GqlQuery}

open Joins List Function

/-- A read of a node answers with its id and its label. -/
structure GraphAccess.Agrees (graph : GraphAccess) : Prop where
  node_id : ∀ {id node}, graph.node id = .ok node → node.id = id
  nodeLabel : ∀ id, graph.nodeLabel id = (graph.node id).map Node.label

def GraphAccess.NoFloats (graph : GraphAccess) : Prop :=
  ∀ id node, graph.node id = .ok node → ∀ key bits, node.properties.get? key ≠ some (.f64 bits)

def PathPattern.nodeVars (pp : PathPattern) : List String :=
  pp.start.var.toList ++ pp.hops.flatMap fun hop => hop.2.var.toList

/-- An aggregate that counts the rows. -/
inductive Expr.CountsRows (pp : PathPattern) : Expr → Prop
  | star : Expr.CountsRows pp (.aggregate .count none)
  | var {var : String} (named : var ∈ pp.nodeVars) :
      Expr.CountsRows pp (.aggregate .count (some (.var var)))

/-- An aggregate of a property of the start node, over the nodes given. Sums stay in range. -/
inductive Expr.FoldsStart (pp : PathPattern) (nodes : List Node) : Expr → Prop
  | prop {func : AggFunc} {var prop : String} (named : pp.start.var = some var)
      (fits : func = .sum →
        StaysInRange 0 (nodes.map fun node => propertyValue node.properties prop)) :
      Expr.FoldsStart pp nodes (.aggregate func (some (.propAccess var prop)))

section Candidates

variable (graph : GraphAccess) (pp : PathPattern)

def startConstraint : NodeConstraint := (compileNodeToBuilder pp.start 0).1

def candidates : List Nat := narrowCandidates graph (startConstraint pp)

/-- A candidate that is read and found to match. -/
structure Confirmed (id : Nat) (node : Node) : Prop where
  loads : graph.node id = .ok node
  admits : nodeMatches node (startConstraint pp)

def candidateNodes : List Node := (candidates graph pp).filterMap fun id =>
  if graph.nodeVisible id then (graph.node id).toOption else none

/-- An edge passes its pattern, and what is behind it passes unless its label is wrong. -/
structure EdgeConfirmed (ep : EdgePattern) (np : NodePattern) (id : Nat) (edge : Edge) :
    Prop where
  admits : edgeMatches edge (compileEdgeToBuilder ep)
  endAdmits : (∀ label ∈ np.labels.head?, graph.nodeLabel (neighborId id edge) = .ok label) →
    ∃ node, graph.node (neighborId id edge) = .ok node ∧ nodeMatchesPattern node np

/-- What aggregating the candidates takes for granted. -/
structure Confirms (items : List ReturnItem) : Prop where
  named : validateNoEmptyVars (compileSteps pp) = .ok ()
  unique : validateUniqueVars (segmentOf pp) = .ok ()
  aggregates : ∀ item ∈ items, item.expr.CountsRows pp ∨
    pp.hops = [] ∧ item.expr.FoldsStart pp (candidateNodes graph pp)
  visible : ∀ id ∈ candidates graph pp,
    pp.hops ≠ [] ∨ (∃ item ∈ items, ¬item.expr.CountsRows pp) → graph.nodeVisible id
  starts : ∀ id ∈ candidates graph pp, graph.nodeVisible id → ∃ node, Confirmed graph pp id node
  edges : ∀ ep np, (ep, np) ∈ pp.hops → ∀ id ∈ candidates graph pp, graph.nodeExists id ∧
    ∀ edges, listEdges graph id ep.direction ep.labels.head? = .ok edges →
      ∀ edge ∈ edges, EdgeConfirmed graph ep np id edge

end Candidates

section Rows

variable {graph : GraphAccess} {pp : PathPattern} {ids : List Nat}

/-- The rows of the start node are those of the visible candidates. -/
theorem initialCandidates_confirmed
    (starts : ∀ id ∈ ids, graph.nodeVisible id → ∃ node, Confirmed graph pp id node) :
    ∃ nodes, (ids.mapM (loadCandidate graph (startConstraint pp))).map List.reduceOption =
        .ok nodes ∧
      nodes = (ids.filterMap fun id =>
        if graph.nodeVisible id then (graph.node id).toOption else none) ∧
      List.Forall₂ (Confirmed graph pp) (ids.filter graph.nodeVisible) nodes := by
  induction ids with
  | nil => exact ⟨[], rfl, rfl, .nil⟩
  | cons id rest ih =>
    obtain ⟨nodes, loaded, listed, confirmed⟩ :=
      ih fun id mem => starts id (.tail _ mem)
    obtain ⟨loads, others, loaded⟩ := Outcome.ok_of_bind loaded
    have same : loads.reduceOption = nodes := Except.ok.inj loaded
    rw [mapM_cons, others, filter_cons, filterMap_cons]
    by_cases visible : graph.nodeVisible id
    · obtain ⟨node, here⟩ := starts id mem_cons_self visible
      refine ⟨node :: nodes, ?_, ?_, ?_⟩
      · rw [loadCandidate, if_pos visible, here.loads]
        simp only [liftGraph, Except.mapError, bind, Except.bind, here.admits, if_true]
        exact congrArg Except.ok (congrArg (node :: ·) same)
      · simp only [visible, if_true, here.loads, Except.toOption]
        exact congrArg (node :: ·) listed
      · rw [if_pos visible]
        exact .cons here confirmed
    · refine ⟨nodes, ?_, ?_, ?_⟩
      · rw [loadCandidate, if_neg visible]
        exact congrArg Except.ok same
      · simp only [visible, Bool.false_eq_true, if_false]
        exact listed
      · rw [if_neg visible]
        exact confirmed

/-- A row with a value for every item. -/
def rowOf (evaluation : Evaluation) (items : List ReturnItem) (value : ReturnItem → GqlValue) :
    GqlRow :=
  items.foldl (fun row item =>
    update row (columnName evaluation item) (some (value item))) fun _ => none

variable {evaluation : Evaluation}

theorem foldlM_of_ok {α β ε : Type} {f : β → α → Except ε β} {g : β → α → β} {items : List α}
    (each : ∀ a ∈ items, ∀ b, f b a = .ok (g b a)) (b : β) :
    items.foldlM f b = .ok (items.foldl g b) := by
  induction items generalizing b with
  | nil => rfl
  | cons a rest ih =>
    rw [foldlM_cons, each a mem_cons_self]
    exact ih (fun c mem => each c (.tail _ mem)) (g b a)

variable {rows : List PatternMatch}

theorem applyAggregation_ok {items : List ReturnItem} {value : ReturnItem → GqlValue}
    (each : ∀ item ∈ items, evalAggregate evaluation rows item.expr = .ok (value item)) :
    applyAggregation evaluation rows items = .ok (rowOf evaluation items value) :=
  foldlM_of_ok (fun item mem row => by rw [each item mem]; rfl) _

theorem evalAggregate_counts (counts : expr.CountsRows pp)
    (bound : ∀ row ∈ rows, ∀ var ∈ pp.nodeVars, (row.nodes var).isSome) :
    evalAggregate evaluation rows expr = .ok (.int rows.length) := by
  cases counts with
  | star => rfl
  | @var var named =>
    rw [evalAggregate]
    simp only [Option.elim_some, Option.isNone_some, evalAggregateCore, Bool.false_eq_true,
      if_false]
    have all : (rows.map fun row => evalExpr evaluation row (.var var)).filter
        (fun value => !value.isNull) =
          rows.map fun row => evalExpr evaluation row (.var var) := by
      rw [filter_eq_self]
      intro value mem
      obtain ⟨row, inside, rfl⟩ := mem_map.mp mem
      obtain ⟨node, here⟩ := Option.isSome_iff_exists.mp (bound row inside var named)
      rw [evalExpr, here]
      rfl
    rw [all, length_map]

def fedKey (item : ReturnItem) : Option String := (aggregateTarget item.expr).bind Prod.snd

def aggregateFunc : Expr → AggFunc
  | .aggregate func _ => func
  | _ => .count

variable {item : ReturnItem}

theorem columnOf_ok (target : (aggregateTarget item.expr).isSome) :
    columnOf evaluation item =
      .ok (columnName evaluation item, .fromFunc (aggregateFunc item.expr), fedKey item) := by
  unfold columnOf fedKey aggregateFunc
  unfold aggregateTarget at *
  split at target <;> simp_all

theorem foldl_feedColumns (nodes : List Node) (columns : List Column) :
    nodes.foldl (fun columns node => feedColumns evaluation node columns) columns =
      columns.map fun column => (column.1, (nodes.map (fedValue · column.2.2)).foldl
          (fun accum value => AggAccum.feed evaluation value accum) column.2.1, column.2.2) := by
  induction nodes generalizing columns with
  | nil => simp
  | cons node rest ih =>
    rw [foldl_cons, ih, feedColumns, map_map]
    rfl

theorem pushdownWithNodeLoad_ok
    (loads : List.Forall₂ (fun id node => graph.node id = .ok node) ids nodes)
    (targets : ∀ item ∈ items, (aggregateTarget item.expr).isSome) :
    pushdownWithNodeLoad evaluation graph ids items =
      .ok [rowOf evaluation items fun item => AggAccum.finalize evaluation
        ((nodes.map (fedValue · (fedKey item))).foldl
          (fun accum value => AggAccum.feed evaluation value accum)
            (.fromFunc (aggregateFunc item.expr)))] := by
  have columns := mapM_of_ok (f := columnOf evaluation) fun item mem =>
    columnOf_ok (targets item mem)
  have fed (columns : List Column) : (ids.foldlM (fun columns id => do
      let node ← liftGraph (graph.node id)
      return feedColumns evaluation node columns) columns : Except GqlError _) =
        .ok (nodes.foldl (fun columns node => feedColumns evaluation node columns) columns) := by
    induction loads generalizing columns with
    | nil => rfl
    | cons here _ ih =>
      rw [foldlM_cons, here, foldl_cons]
      exact ih _
  unfold pushdownWithNodeLoad
  simp only [columns, bind, Except.bind] at fed ⊢
  rw [fed, foldl_feedColumns, map_map]
  simp only [foldl_map, Function.comp_def]
  rfl

theorem initialCandidates_eq (confirms : Confirms graph pp items) :
    initialCandidates graph (startConstraint pp) = .ok (candidateNodes graph pp) ∧
      List.Forall₂ (Confirmed graph pp) ((candidates graph pp).filter graph.nodeVisible)
        (candidateNodes graph pp) := by
  obtain ⟨nodes, loaded, rfl, confirmed⟩ := initialCandidates_confirmed confirms.starts
  refine ⟨Eq.trans ?_ loaded, confirmed⟩
  unfold initialCandidates candidates
  cases (narrowCandidates graph (startConstraint pp)).mapM
    (loadCandidate graph (startConstraint pp)) <;> rfl

def startRow (pp : PathPattern) (node : Node) : PatternMatch :=
  PatternMatch.bindNode {} (startConstraint pp).var node

theorem compile_noHop (confirms : Confirms graph pp items) (hops : pp.hops = []) :
    compilePathPatternFixed graph pp = .ok ((candidateNodes graph pp).map (startRow pp)) := by
  have none : (segmentOf pp).hops = [] := by
    rw [segmentOf, hops]
    rfl
  rw [compilePathPatternFixed_eq confirms.named confirms.unique, none]
  exact congrArg (Except.bind · _) (initialCandidates_eq confirms).1

/-- A hop finds something exactly behind the edges that are counted. -/
theorem hopAlong_confirmed (agrees : graph.Agrees) {ep : EdgePattern} {np : NodePattern}
    {anonCounter id : Nat} {edge : Edge} (confirmed : EdgeConfirmed graph ep np id edge) :
    (endHasLabel graph id np.labels.head? edge).mapError .graph =
      (hopAlong graph id ⟨compileEdgeToBuilder ep, (compileNodeToBuilder np anonCounter).1⟩
        edge).map Option.isSome := by
  have label : (compileNodeToBuilder np anonCounter).1.label = np.labels.head? := by
    unfold compileNodeToBuilder
    cases np.var <;> rfl
  have admitted (node : Node) : nodeMatches node (compileNodeToBuilder np anonCounter).1 =
      nodeMatchesPattern node np := nodeMatches_compile node np anonCounter
  generalize (compileNodeToBuilder np anonCounter).1 = constraint at label admitted
  have confirm := confirmed.endAdmits
  rw [hopAlong, if_pos confirmed.admits]
  unfold labelAdmits endHasLabel
  dsimp only
  rw [label]
  cases wanted : np.labels.head? with
  | none =>
    rw [wanted] at confirm
    obtain ⟨node, loads, passes⟩ := confirm nofun
    simp only [liftGraph, Except.mapError, bind, Except.bind, loads, admitted, passes, if_true]
    rfl
  | some required =>
    have byLabel := agrees.nodeLabel (neighborId id edge)
    cases loads : graph.node (neighborId id edge) with
    | error e =>
      rw [loads] at byLabel
      cases constraint.props <;>
        simp only [byLabel, liftGraph, Except.map, Except.mapError, bind, Except.bind, if_true]
    | ok node =>
      rw [loads] at byLabel
      by_cases same : node.label = required
      · obtain ⟨node', loads', passes⟩ := confirm fun other given => by
          rw [byLabel]
          rw [wanted] at given
          cases given
          exact congrArg Except.ok same
        cases loads.symm.trans loads'
        cases constraint.props <;>
          simp [byLabel, liftGraph, Except.map, Except.mapError, bind, Except.bind, same,
            admitted, passes, pure, Except.pure]
      · have fails : nodeMatches node constraint = false := by
          rw [nodeMatches, label, wanted]
          simp [same]
        cases constraint.props <;>
          simp [byLabel, liftGraph, Except.map, Except.mapError, bind, Except.bind, same,
            fails, pure, Except.pure]

theorem countHop_eq (agrees : graph.Agrees) (confirms : Confirms graph pp items)
    (hop : (ep, np) ∈ pp.hops) {id anonCounter : Nat} (candidate : id ∈ candidates graph pp)
    (row : PatternMatch) (total : Nat) :
    (countHop graph ep np total id).mapError .graph =
      (expandHop graph id ⟨compileEdgeToBuilder ep, (compileNodeToBuilder np anonCounter).1⟩
        row).map fun found => total + found.length := by
  obtain ⟨there, confirmed⟩ := confirms.edges ep np hop id candidate
  have listed : neighborEdges graph id (compileEdgeToBuilder ep).direction
      (compileEdgeToBuilder ep).label = listEdges graph id ep.direction ep.labels.head? :=
    if_pos there
  unfold expandHop countHop
  dsimp only
  rw [listed]
  cases edges : listEdges graph id ep.direction ep.labels.head? with
  | error e => rfl
  | ok found =>
    refine (foldlM_count GqlError.graph (fun edge mem => @hopAlong_confirmed graph agrees ep
      np anonCounter id edge (confirmed found edges edge mem)) total).trans ?_
    simp only [liftGraph, Except.mapError, bind, Except.bind]
    cases found.mapM (hopAlong graph id
      ⟨compileEdgeToBuilder ep, (compileNodeToBuilder np anonCounter).1⟩) with
    | error e => rfl
    | ok arrived => simp [Except.map, pure, Except.pure]

theorem startRow_bound {var : String} (named : pp.start.var = some var) :
    (startRow pp node).nodes var = some node := by
  rw [startRow, startConstraint, compileNode_var named]
  exact update_self ..

/-- One hop from the candidates counts the rows, and the rows bind the nodes of the pattern. -/
theorem compile_oneHop (agrees : graph.Agrees) (confirms : Confirms graph pp items)
    (hops : pp.hops = [(ep, np)]) :
    ((candidates graph pp).foldlM (countHop graph ep np) 0).mapError .graph =
        (compilePathPatternFixed graph pp).map List.length ∧
      ∀ rows, compilePathPatternFixed graph pp = .ok rows → ∀ row ∈ rows, ∀ var ∈ pp.nodeVars,
        (row.nodes var).isSome := by
  obtain ⟨loaded, confirmed⟩ := initialCandidates_eq confirms
  have all : (candidates graph pp).filter graph.nodeVisible = candidates graph pp :=
    filter_eq_self.mpr fun id mem => confirms.visible id mem (.inl (by simp [hops]))
  rw [all] at confirmed
  generalize hopIs : (⟨compileEdgeToBuilder ep,
    (compileNodeToBuilder np (compileNodeToBuilder pp.start 0).2).1⟩ : Hop) = hop
  have compiled : compilePathPatternFixed graph pp =
      (((candidateNodes graph pp).map (startRow pp)).mapM
        (expandRow graph (startConstraint pp).var hop)).map List.flatten := by
    have single : (segmentOf pp).hops = [hop] := by
      rw [segmentOf, hops, ← hopIs]
      rfl
    rw [compilePathPatternFixed_eq confirms.named confirms.unique, single]
    refine (congrArg (Except.bind · _) loaded).trans ?_
    simp only [Except.bind, expandHops]
    change (do
      let next ← ((candidateNodes graph pp).map (startRow pp)).mapM
        (expandRow graph (startConstraint pp).var hop)
      Except.ok next.flatten) = _
    cases ((candidateNodes graph pp).map (startRow pp)).mapM
      (expandRow graph (startConstraint pp).var hop) <;> rfl
  constructor
  · rw [compiled, mapM_map]
    have inside : ∀ id ∈ candidates graph pp, id ∈ candidates graph pp := fun _ => id
    have same : List.Forall₂ (fun id node => ∀ total,
        (countHop graph ep np total id).mapError GqlError.graph =
          (expandRow graph (startConstraint pp).var hop (startRow pp node)).map
            fun found => total + found.length)
        (candidates graph pp) (candidateNodes graph pp) := by
      refine (forall₂_and_left (p := (· ∈ candidates graph pp)) _ _).mpr
        ⟨inside, confirmed⟩ |>.imp fun id node here total => ?_
      have bound : (startRow pp node).nodes (startConstraint pp).var = some node := update_self ..
      rw [expandRow, bound]
      dsimp only
      rw [agrees.node_id here.2.loads, ← hopIs]
      exact countHop_eq agrees confirms (by rw [hops]; exact .head _) here.1 _ total
    refine (foldlM_lengths GqlError.graph same 0).trans ?_
    change ((candidateNodes graph pp).mapM
      (expandRow graph (startConstraint pp).var hop ∘ startRow pp)).map _ = _
    cases (candidateNodes graph pp).mapM
        (expandRow graph (startConstraint pp).var hop ∘ startRow pp) with
    | error e => rfl
    | ok found => exact congrArg Except.ok (Nat.zero_add _)
  · intro rows ran row mem var named
    rw [compiled] at ran
    obtain ⟨lists, expanded, ran⟩ := Outcome.ok_of_bind ran
    cases ran
    obtain ⟨list, listed, inside⟩ := mem_flatten.mp mem
    obtain ⟨before, started, arrives⟩ := exists_of_mem_mapM expanded listed
    obtain ⟨node, _, rfl⟩ := mem_map.mp started
    have bound : (startRow pp node).nodes (startConstraint pp).var = some node := update_self ..
    rw [expandRow, bound] at arrives
    dsimp only [expandHop] at arrives
    obtain ⟨step, rfl⟩ : ∃ step, row = (startRow pp node).bindHop hop step := by
      revert arrives
      cases liftGraph (neighborEdges graph node.id hop.edge.direction hop.edge.label) with
      | error e => rintro ⟨⟩
      | ok edges =>
        simp only [bind, Except.bind]
        cases edges.mapM (hopAlong graph node.id hop) with
        | error e => rintro ⟨⟩
        | ok arrived =>
          intro arrives
          cases arrives
          obtain ⟨step, _, rfl⟩ := mem_map.mp inside
          exact ⟨step, rfl⟩
    rw [nodes_bindHop]
    by_cases last : var = hop.node.var
    · subst last
      exact Option.isSome_of_eq_some (update_self ..)
    · rw [update_of_ne last]
      rw [PathPattern.nodeVars, hops, mem_append] at named
      rcases named with first | second
      · exact Option.isSome_of_eq_some (startRow_bound (Option.mem_toList.mp first))
      · have ending : np.var = some var := by simpa using second
        refine absurd ?_ last
        rw [← hopIs, compileNode_var ending]

theorem isFloat_propertyValue {properties : Properties} {key : String}
    (noFloat : ∀ bits, properties.get? key ≠ some (.f64 bits)) :
    (propertyValue properties key).isFloat = false := by
  unfold propertyValue
  cases found : properties.get? key with
  | none => rfl
  | some value =>
    cases value with
    | f64 bits => exact absurd found (noFloat bits)
    | _ => rfl

theorem startRows_bound (hops : pp.hops = []) :
    ∀ row ∈ nodes.map (startRow pp), ∀ var ∈ pp.nodeVars, (row.nodes var).isSome := by
  intro row mem var named
  obtain ⟨node, _, rfl⟩ := mem_map.mp mem
  rw [PathPattern.nodeVars, hops, flatMap_nil, append_nil] at named
  exact Option.isSome_of_eq_some (startRow_bound (Option.mem_toList.mp named))

/-- A fed aggregate is the aggregate of the rows. -/
theorem evalAggregate_fed (hops : pp.hops = [])
    (noFloat : ∀ node ∈ nodes, ∀ key bits, node.properties.get? key ≠ some (.f64 bits))
    (aggregate : item.expr.CountsRows pp ∨ item.expr.FoldsStart pp nodes) :
    evalAggregate evaluation (nodes.map (startRow pp)) item.expr =
      .ok (AggAccum.finalize evaluation ((nodes.map (fedValue · (fedKey item))).foldl
        (fun accum value => AggAccum.feed evaluation value accum)
          (.fromFunc (aggregateFunc item.expr)))) := by
  have keyOf : fedKey item = (aggregateTarget item.expr).bind Prod.snd := rfl
  generalize fedKey item = key at keyOf
  generalize item.expr = expr at keyOf aggregate
  rcases aggregate with counts | folds
  · have byCount : key = none ∧ aggregateFunc expr = .count := by
      cases counts <;> exact ⟨keyOf, rfl⟩
    have all : (nodes.map (fedValue · none)).filter (fun value => !value.isNull) =
        nodes.map (fedValue · none) := by
      rw [filter_eq_self]
      intro value mem
      obtain ⟨node, _, rfl⟩ := mem_map.mp mem
      rfl
    rw [evalAggregate_counts counts (startRows_bound hops), byCount.1, byCount.2, AggAccum.fromFunc,
      foldl_feed_count, all, length_map, length_map, Int.zero_add]
    rfl
  · cases folds with
    | @prop func var prop named fits =>
      have values : (nodes.map (startRow pp)).map
          (fun row => evalExpr evaluation row (.propAccess var prop)) =
            nodes.map (fedValue · (some prop)) := by
        rw [map_map]
        refine map_congr_left fun node _ => ?_
        rw [Function.comp_apply, evalExpr, startRow_bound named]
        rfl
      rw [keyOf, evalAggregate]
      simp only [Option.elim_some, Option.isNone_some, values]
      refine congrArg Except.ok (finalize_foldl_feed func _ fun sums => ⟨?_, fits sums⟩).symm
      intro value mem
      obtain ⟨node, inside, rfl⟩ := mem_map.mp mem
      exact isFloat_propertyValue (noFloat node inside prop)

theorem candidateNodes_loaded (mem : node ∈ candidateNodes graph pp) :
    ∃ id, graph.node id = .ok node := by
  obtain ⟨id, _, loaded⟩ := mem_filterMap.mp mem
  split at loaded
  · cases read : graph.node id with
    | error e =>
      rw [read] at loaded
      cases loaded
    | ok found =>
      rw [read] at loaded
      cases loaded
      exact ⟨id, read⟩
  · cases loaded

theorem aggregateTarget_counts (counts : expr.CountsRows pp) :
    ∃ var, aggregateTarget expr = some (var, none) := by
  cases counts with
  | star => exact ⟨"*", rfl⟩
  | @var var _ => exact ⟨var, rfl⟩

theorem aggregateTarget_folds (folds : expr.FoldsStart pp nodes) :
    ∃ target prop, aggregateTarget expr = some (target, some prop) := by
  cases folds with
  | @prop _ var prop _ _ => exact ⟨var, prop, rfl⟩

theorem applyAggregation_counts (counts : ∀ item ∈ items, item.expr.CountsRows pp)
    (bound : ∀ row ∈ rows, ∀ var ∈ pp.nodeVars, (row.nodes var).isSome) :
    applyAggregation evaluation rows items = .ok (countRow evaluation items rows.length) :=
  applyAggregation_ok fun item mem => evalAggregate_counts (counts item mem) bound

theorem isPushdownEligible_hops (eligible : isPushdownEligible query)
    (single : query.matchClause.patterns = [pp]) :
    pp.hops = [] ∨ ∃ ep np, pp.hops = [(ep, np)] ∧ ep.length = .fixed := by
  rw [isPushdownEligible, single] at eligible
  cases hops : pp.hops with
  | nil => exact .inl rfl
  | cons hop rest =>
    obtain ⟨ep, np⟩ := hop
    cases rest with
    | nil =>
      simp only [hops, Bool.and_eq_true, decide_eq_true_eq] at eligible
      exact .inr ⟨ep, np, rfl, eligible.2.1⟩
    | cons => simp [hops] at eligible

theorem matchAndAggregate_eq (eligible : isPushdownEligible query)
    (single : query.matchClause.patterns = [pp]) (late : Nat → Bool) :
    matchAndAggregate evaluation graph late query = (compilePathPatternFixed graph pp).bind
      fun rows => (applyAggregation evaluation rows query.returnClause.items).map fun row =>
        [row] := by
  have fixed : hasVariableLengthHop pp = false := by
    rcases isPushdownEligible_hops eligible single with none | ⟨ep, np, one, length⟩
    · simp [hasVariableLengthHop, none]
    · simp [hasVariableLengthHop, one, length]
  rw [matchAndAggregate, compileMatch_single single, compilePathPattern, fixed]
  cases compilePathPatternFixed graph pp with
  | error e => rfl
  | ok rows => cases applied : applyAggregation evaluation rows query.returnClause.items <;>
      simp [applied, bind, Except.bind, Except.map, pure, Except.pure]

theorem pushdown_oneHop (agrees : graph.Agrees) (confirms : Confirms graph pp items)
    (hops : pp.hops = [(ep, np)]) :
    (liftGraph ((candidates graph pp).foldlM (countHop graph ep np) 0)).map
        (fun total => [countRow evaluation items total]) =
      (compilePathPatternFixed graph pp).bind fun rows =>
        (applyAggregation evaluation rows items).map fun row => [row] := by
  have counts : ∀ item ∈ items, item.expr.CountsRows pp := by
    intro item mem
    refine (confirms.aggregates item mem).resolve_right fun folds => ?_
    rw [hops] at folds
    cases folds.1
  obtain ⟨total, bound⟩ := compile_oneHop agrees confirms hops
  rw [liftGraph, total]
  cases rows : compilePathPatternFixed graph pp with
  | error e => rfl
  | ok rows => simp only [Except.map, Except.bind, applyAggregation_counts counts (bound _ rows)]

theorem pushdown_noHop_counts (confirms : Confirms graph pp items) (hops : pp.hops = [])
    (needs : ¬items.any fun item => (aggregateTarget item.expr).any fun t => t.2.isSome) :
    .ok [countRow evaluation items ((candidates graph pp).countP fun id => graph.nodeVisible id)] =
      (compilePathPatternFixed graph pp).bind fun rows =>
        (applyAggregation evaluation rows items).map fun row => [row] := by
  have counts : ∀ item ∈ items, item.expr.CountsRows pp := by
    intro item mem
    refine (confirms.aggregates item mem).resolve_right fun folds => needs ?_
    obtain ⟨_, _, target⟩ := aggregateTarget_folds folds.2
    exact any_eq_true.mpr ⟨item, mem, by rw [target]; rfl⟩
  have visible : (candidates graph pp).countP (fun id => graph.nodeVisible id) =
      ((candidateNodes graph pp).map (startRow pp)).length := by
    rw [length_map, ← (initialCandidates_eq confirms).2.length_eq, countP_eq_length_filter]
  rw [compile_noHop confirms hops, visible]
  simp only [Except.bind, applyAggregation_counts counts (startRows_bound hops)]
  rfl

theorem pushdown_noHop_loads (noFloats : graph.NoFloats) (confirms : Confirms graph pp items)
    (hops : pp.hops = []) (targets : ∀ item ∈ items, (aggregateTarget item.expr).isSome)
    (needs : items.any fun item => (aggregateTarget item.expr).any fun t => t.2.isSome) :
    pushdownWithNodeLoad evaluation graph (candidates graph pp) items =
      (compilePathPatternFixed graph pp).bind fun rows =>
        (applyAggregation evaluation rows items).map fun row => [row] := by
  obtain ⟨_, confirmed⟩ := initialCandidates_eq confirms
  obtain ⟨item, mem, loads⟩ := any_eq_true.mp needs
  have all : (candidates graph pp).filter graph.nodeVisible = candidates graph pp := by
    refine filter_eq_self.mpr fun id inside => ?_
    refine confirms.visible id inside (.inr ⟨item, mem, fun counts => ?_⟩)
    obtain ⟨var, target⟩ := aggregateTarget_counts counts
    rw [target] at loads
    cases loads
  rw [all] at confirmed
  have noFloat : ∀ node ∈ candidateNodes graph pp, ∀ key bits,
      node.properties.get? key ≠ some (.f64 bits) := by
    intro node inside
    obtain ⟨id, loaded⟩ := candidateNodes_loaded inside
    exact noFloats id node loaded
  have aggregated := @applyAggregation_ok evaluation _ items _ fun item mem =>
    evalAggregate_fed hops noFloat ((confirms.aggregates item mem).imp_right And.right)
  rw [compile_noHop confirms hops]
  simp only [Except.bind, aggregated]
  exact pushdownWithNodeLoad_ok (confirmed.imp fun id node here => here.loads) targets

theorem tryAggregatePushdown_eq (agrees : graph.Agrees) (noFloats : graph.NoFloats)
    (single : query.matchClause.patterns = [pp])
    (confirms : Confirms graph pp query.returnClause.items) {answer : Except GqlError (List GqlRow)}
    (pushed : tryAggregatePushdown evaluation graph query = some answer) (late : Nat → Bool) :
    answer = matchAndAggregate evaluation graph late query := by
  unfold tryAggregatePushdown at pushed
  split at pushed
  · next eligible =>
      rw [matchAndAggregate_eq eligible single]
      rw [single] at pushed
      dsimp only at pushed
      split at pushed
      · next targets =>
          rcases isPushdownEligible_hops eligible single with none | ⟨ep, np, one, _⟩
          · simp only [none] at pushed
            split at pushed
            · next needs =>
                cases pushed
                exact pushdown_noHop_loads noFloats confirms none (all_eq_true.mp targets)
                  needs
            · next needs =>
                cases pushed
                exact pushdown_noHop_counts confirms none needs
          · simp only [one] at pushed
            split at pushed
            · cases pushed
            · cases pushed
              refine Eq.trans ?_ (pushdown_oneHop agrees confirms one)
              unfold candidates startConstraint
              cases liftGraph ((narrowCandidates graph (compileNodeToBuilder pp.start 0).1).foldlM
                (countHop graph ep np) 0) <;> rfl
      · cases pushed
  · cases pushed

/-- Without rows the aggregates are those of the rows, where what is not looked at holds. -/
theorem pushdown_eq_rows (agrees : graph.Agrees) (noFloats : graph.NoFloats) {query : GqlQuery}
    (single : query.matchClause.patterns = [pp])
    (confirms : Confirms graph pp query.returnClause.items) {answer : Except GqlError (List GqlRow)}
    (pushed : tryAggregatePushdown evaluation graph query = some answer) (late : Nat → Bool) :
    answer = matchAndAggregate evaluation graph late query :=
  tryAggregatePushdown_eq agrees noFloats single confirms pushed late

end Rows

theorem GraphAccess.Serves.agrees {graph : GraphAccess} {contents : Contents}
    (serves : graph.Serves contents) : graph.Agrees where
  node_id found := contents.node_id (serves.node_eq_ok.mp found)
  nodeLabel := serves.nodeLabel

/-- One node without properties. -/
def singleNode : PropertyGraph where
  nodes := [⟨1, "N", .empty, {}⟩]
  edges := []
  nodes_nodup := by decide
  edges_nodup := nodup_nil
  ends := nofun

/-- An evaluation for queries that name their columns and see no floating point. -/
def integral : Evaluation where
  float := ⟨fun _ => 0, fun _ _ => 0, fun _ _ => 0⟩
  surfaceName _ := ""
  scalar _ _ := .null

def countNodes (np : NodePattern) : GqlQuery where
  matchClause := ⟨[⟨np, []⟩], none⟩
  returnClause := { items := [⟨.aggregate .count (some (.var "n")), some "count"⟩] }

def ofLabel : NodePattern := { var := some "n", labels := ["N"] }

def ofProperty : NodePattern := { var := some "n", props := [("x", .int 1)] }

theorem singleNode_eq {id : Nat} (found : singleNode.access.node id = .ok node) :
    node = ⟨1, "N", .empty, {}⟩ :=
  mem_singleton.mp
    (PropertyGraph.findNode_eq_some.mp (singleNode.serves.node_eq_ok.mp found)).1

theorem candidates_ofLabel : candidates singleNode.access ⟨ofLabel, []⟩ = [1] := by
  decide +kernel

theorem ofLabel_confirms :
    Confirms singleNode.access ⟨ofLabel, []⟩ (countNodes ofLabel).returnClause.items where
  named := by decide
  unique := by decide
  aggregates item mem := by
    rw [mem_singleton.mp mem]
    exact .inl (.var (mem_singleton.mpr rfl))
  visible id mem _ := by
    rw [candidates_ofLabel, mem_singleton] at mem
    rw [mem]
    decide
  starts id mem _ := by
    rw [candidates_ofLabel, mem_singleton] at mem
    rw [mem]
    exact ⟨⟨1, "N", .empty, {}⟩, by decide, by decide⟩
  edges _ _ mem := nomatch mem

/-- With the label alone the candidates are the matches. -/
theorem pushdown_eq_rows_labelled :
    Except.ok [countRow integral (countNodes ofLabel).returnClause.items 1] =
      matchAndAggregate integral singleNode.access (fun _ => false) (countNodes ofLabel) := by
  refine pushdown_eq_rows singleNode.serves.agrees ?_ rfl ofLabel_confirms ?_ _
  · intro id node found key bits
    rw [singleNode_eq found]
    exact nofun
  · have one : (candidates singleNode.access ⟨ofLabel, []⟩).countP
        (fun id => singleNode.access.nodeVisible id) = 1 := by decide +kernel
    rw [← one]
    rfl

def countedIn (rows : Except GqlError (List GqlRow)) : Option Int :=
  match rows with
  | .ok [row] =>
    match row "count" with
    | some (.int n) => some n
    | _ => none
  | _ => none

/-- Without a label every node is a candidate, and none of them has the property. -/
theorem pushdown_counts_unmatched :
    (tryAggregatePushdown integral singleNode.access (countNodes ofProperty)).map countedIn =
        some (some 1) ∧
      countedIn (matchAndAggregate integral singleNode.access (fun _ => false)
        (countNodes ofProperty)) = some 0 := by
  decide +kernel

end ErmyaGraph.Gql
