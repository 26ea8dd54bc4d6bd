import ErmyaGraph.Gql.PipelineSet

/-! # Pipelines

A pipeline is read as a MATCH, the WITH and UNWIND stages after it and its last
clause. An UNWIND in front becomes a stage before the MATCH, and a MATCH takes
rows only as the first stage. -/

namespace ErmyaGraph.Gql

variable {whereClause : Option Expr} {tokens left : List SpannedToken}

open Outcome

inductive PipelineStage where
  | matching (clause : MatchClause) (whereClause : Option Expr)
  | unwinding (clause : UnwindClause)
  | withStage (clause : WithClause)

inductive PipelineTerminal where
  | ret (clause : ReturnClause) (orderBy : Option (List OrderItem)) (skip limit : Option Nat)
  | set (clause : SetClause)
  | create (clause : CreateClause)
  | delete (clause : DeleteClause)

structure PipelineQuery where
  stages : List PipelineStage
  terminal : PipelineTerminal

variable {query : PipelineQuery}

section Parsing

variable {Pipeline : Type} (grammar : Grammar Pipeline)

def parseSkipClause : Parser (Option Nat) := do
  if (← peek) ≠ .kwSkip then return none
  else
    advance
    let raw ← expectInt grammar
    if raw.toInt < 0 then syntaxError "SKIP value must be a non-negative integer"
    else return some raw.toInt.toNat

def parseWithClause : Parser WithClause := do
  expect grammar .kwWith
  let clause ← parseReturnItemsAfterKeyword grammar
  let whereClause ← parseWhereClause grammar
  let orderBy ← parseOrderByClause grammar
  let skip ← parseSkipClause grammar
  let limit ← parseLimitClause grammar
  return { distinct := clause.distinct, items := clause.items, whereClause, orderBy, skip, limit }

/-- WITH and UNWIND stages. Every round takes a keyword, and there are no more of them than
tokens. -/
def furtherStages : (fuel : Nat) → Parser (List PipelineStage)
  | 0 => return []
  | fuel + 1 => do
      match ← peek with
      | .kwWith => do
          let clause ← parseWithClause grammar
          let rest ← furtherStages fuel
          return .withStage clause :: rest
      | .kwUnwind => do
          let clause ← parseUnwindBody grammar
          let rest ← furtherStages fuel
          return .unwinding clause :: rest
      | _ => return []

def parsePipelineTerminal : Parser PipelineTerminal := do
  match ← peek with
  | .kwReturn => do
      let clause ← parseReturnClause grammar
      let orderBy ← parseOrderByClause grammar
      let skip ← parseSkipClause grammar
      let limit ← parseLimitClause grammar
      return .ret clause orderBy skip limit
  | .kwSet => return .set (← parseSetClause grammar)
  | .kwCreate => return .create (← parseCreateClause grammar)
  | .kwDelete | .kwDetach => return .delete (← parseDeleteClause grammar)
  | found =>
    syntaxError ("expected RETURN, SET, CREATE, or DELETE after pipeline, found " ++
      found.display grammar.floatText)

/-- A pipeline from its first WITH on. The UNWIND in front of its MATCH is its first stage. -/
def parsePipelineAfterMatch (leadingUnwind : Option UnwindClause) (matchClause : MatchClause)
    (matchWhere : Option Expr) : Parser PipelineQuery := do
  let first ← parseWithClause grammar
  let rest ← furtherStages grammar (← get).length
  let terminal ← parsePipelineTerminal grammar
  expectEnd "pipeline terminal"
  return ⟨leadingUnwind.toList.map .unwinding ++
    .matching matchClause matchWhere :: .withStage first :: rest, terminal⟩

/-- The statements of a grammar of expressions and path patterns, with these pipelines. -/
def pipelineGrammar : Grammar PipelineQuery where
  floatText := grammar.floatText
  parseExpr := grammar.parseExpr
  parsePathPattern := grammar.parsePathPattern
  parsePipelineAfterMatch := fun leadingUnwind matchClause matchWhere tokens =>
    (parsePipelineAfterMatch grammar leadingUnwind matchClause matchWhere tokens).map fun found =>
      (found.1, tokens.length - found.2.length)

end Parsing

section Executing

variable (evaluators : Evaluators)

/-- What a stage may refer to after another, if that may refer to what it does. -/
def stageScope (bound : List String) : PipelineStage → Except GqlError (List String)
  | .matching clause whereClause => do
      checkScope (whereClause.elim [] collectExprVars) (collectBoundVars clause)
      return collectBoundVars clause
  | .unwinding clause => do
      checkScope (collectExprVars clause.expr) bound
      return clause.var :: bound
  | .withStage clause => do
      checkScope (clause.items.flatMap fun item => collectExprVars item.expr) bound
      let projected := clause.items.map (columnName evaluators.rowwise)
      checkScope (clause.whereClause.elim [] collectExprVars) projected
      checkScope (clause.orderBy.elim [] fun order =>
        order.flatMap fun item => collectExprVars item.expr) projected
      return projected

def createPatternVars : CreatePattern → List String
  | .node _ _ props _ => props.flatMap fun entry => collectExprVars entry.2
  | .edge sourceVar _ relProps targetVar =>
    sourceVar :: targetVar :: relProps.flatMap fun entry => collectExprVars entry.2

/-- The ORDER BY after a RETURN may also refer to its columns. -/
def terminalScope (bound : List String) : PipelineTerminal → Except GqlError Unit
  | .ret clause orderBy _ _ => do
      checkScope (orderBy.elim [] fun order => order.flatMap fun item => collectExprVars item.expr)
        (bound ++ clause.items.map (columnName evaluators.rowwise))
      checkScope (clause.items.flatMap fun item => collectExprVars item.expr) bound
  | .set clause => checkScope (clause.assignments.flatMap fun assignment =>
    setAssignmentVar assignment :: collectExprVars assignment.value) bound
  | .create clause => checkScope (clause.patterns.flatMap createPatternVars) bound
  | .delete clause => checkScope clause.vars bound

def validatePipelineScope (query : PipelineQuery) : Except GqlError Unit := do
  let bound ← query.stages.foldlM (stageScope evaluators) []
  terminalScope evaluators bound query.terminal

variable (graph : GraphAccess) (edgeOf : Nat → Except Error Edge) (clock : Clock)

/-- A row for every element of a list. What is no list has none. -/
def executeUnwindStage (clause : UnwindClause) (incoming : List Binding) : List Binding :=
  incoming.flatMap fun b =>
    match evalOnBinding evaluators b clause.expr with
    | .list items => items.map (b.bindValue clause.var)
    | _ => []

def matchNotFirst : GqlError :=
  .gqlCompileError "MATCH must be the first pipeline stage and receive the empty seed binding"

/-- A MATCH wants a single row without values, under any of the names that stages before it may
have bound. -/
def executeMatchStage (names : List String) (clause : MatchClause) (whereClause : Option Expr)
    (incoming : List Binding) : Except GqlError (List Binding) := do
  match incoming with
  | [seed] =>
    if names.all fun name => (seed.vals name).isNone then
      let matched ← compileMatch graph clock.matching clause
      let filtered := whereClause.elim matched fun predicate => matched.filter fun row =>
        (evalAlong evaluators (fun _ => none) row predicate).isTrue
      if whereClause.isSome && clock.filterAborted then .error timeoutError
      else return filtered.map fun row => { pm := row }
    else .error matchNotFirst
  | _ => .error matchNotFirst

/-- The names that a stage binds values under. -/
def stageNames : PipelineStage → List String
  | .matching _ _ => []
  | .unwinding clause => [clause.var]
  | .withStage clause => clause.items.map (columnName evaluators.rowwise)

def executeStage (names : List String) (incoming : List Binding) :
    PipelineStage → Except GqlError (List Binding)
  | .matching clause whereClause =>
    executeMatchStage evaluators graph clock names clause whereClause incoming
  | .unwinding clause => .ok (executeUnwindStage evaluators clause incoming)
  | .withStage clause => .ok (executeWithStage evaluators graph edgeOf clause incoming)

/-- Stage after stage, with the names that they have bound values under. -/
def executeStages : (names : List String) → (incoming : List Binding) → List PipelineStage →
    Except GqlError (List Binding)
  | _, incoming, [] => .ok incoming
  | names, incoming, stage :: rest => do
      let outgoing ← executeStage evaluators graph edgeOf clock names incoming stage
      executeStages (names ++ stageNames evaluators stage) outgoing rest

/-- Run a pipeline that reads, from a single row without values. -/
def executePipeline (query : PipelineQuery) : Except MutationError (List GqlRow) := do
  (validatePipelineScope evaluators query).mapError MutationError.gql
  let bindings ←
    (executeStages evaluators graph edgeOf clock [] [{}] query.stages).mapError MutationError.gql
  match query.terminal with
  | .ret clause orderBy skip limit =>
    return executePipelineReturn evaluators graph edgeOf clause orderBy skip limit bindings
  | .set _ | .create _ | .delete _ => .error (.unsupported
      "pipeline mutation terminals are not yet implemented (Phase 9)")

theorem executeMatchStage_unwound (names : List String) (clause : MatchClause)
    (whereClause : Option Expr) (var : String) (items : List GqlValue) :
    executeMatchStage evaluators graph clock (names ++ [var]) clause whereClause
      (items.map (Binding.bindValue {} var)) = .error matchNotFirst := by
  match items with
  | [] => rfl
  | [item] =>
    have bound : ((names ++ [var]).all fun name =>
        ((Binding.bindValue {} var item).vals name).isNone) = false := by
      refine List.all_eq_false.mpr
        ⟨var, List.mem_append_right _ (List.mem_singleton_self var), ?_⟩
      simp only [Binding.bindValue, Function.update_self, Option.isNone_some, Bool.false_eq_true,
        not_false_eq_true]
    simp only [executeMatchStage, List.map_cons, List.map_nil, bound, Bool.false_eq_true, if_false]
  | _ :: _ :: _ => rfl

theorem executeStages_unwound (unwind : UnwindClause) (clause : MatchClause)
    (whereClause : Option Expr) (rest : List PipelineStage) :
    executeStages evaluators graph edgeOf clock [] [{}]
      (.unwinding unwind :: .matching clause whereClause :: rest) = .error matchNotFirst := by
  have rows : ∃ items : List GqlValue, executeUnwindStage evaluators unwind [{}] =
      items.map (Binding.bindValue {} unwind.var) := by
    unfold executeUnwindStage
    rw [List.flatMap_singleton]
    split
    · next items _ => exact ⟨items, rfl⟩
    · exact ⟨[], rfl⟩
  obtain ⟨items, rows⟩ := rows
  have refused := executeMatchStage_unwound evaluators graph clock [] clause whereClause unwind.var
    items
  simp only [executeStages, executeStage, rows, stageNames, refused, bind, Except.bind]

end Executing

section Parsed

variable {Pipeline : Type} {grammar : Grammar Pipeline}

theorem parseAfterMatch_not_pipeline {base : Grammar Pipeline} {matchClause : MatchClause}
    {query : Pipeline} :
    parseAfterMatch base matchClause whereClause tokens ≠ .ok (.pipeline query, left) := by
  intro ok
  replace ok := ok_of_peek ok
  generalize tokenAt 0 tokens = next at ok
  cases next with
  | kwReturn =>
    obtain ⟨returnClause, _, -, ok⟩ := ok_of_parse ok
    obtain ⟨groupBy, _, -, ok⟩ := ok_of_parse ok
    obtain ⟨orderBy, _, -, ok⟩ := ok_of_parse ok
    obtain ⟨limit, _, -, ok⟩ := ok_of_parse ok
    obtain ⟨_, _, -, ok⟩ := ok_of_parse ok
    cases ok
  | kwDelete | kwDetach =>
    obtain ⟨delete, _, -, ok⟩ := ok_of_parse ok
    obtain ⟨_, _, -, ok⟩ := ok_of_parse ok
    cases ok
  | kwSet | kwCreate =>
    obtain ⟨clause, _, -, ok⟩ := ok_of_parse ok
    obtain ⟨returnClause, _, -, ok⟩ := ok_of_parse ok
    obtain ⟨_, _, -, ok⟩ := ok_of_parse ok
    cases ok
  | _ => exact (not_ok_of_syntaxError ok).elim

/-- What a pipeline with a list in front of its MATCH begins with. -/
structure PipelineQuery.Unwinds (query : PipelineQuery) : Prop where
  begins : ∃ unwind clause whereClause rest,
    query.stages = .unwinding unwind :: .matching clause whereClause :: rest

variable {unwind : UnwindClause} {clause : MatchClause}

theorem unwinds_of_parsePipeline
    (ok : parsePipelineAfterMatch grammar (some unwind) clause whereClause tokens =
      .ok (query, left)) : query.Unwinds := by
  obtain ⟨first, _, -, ok⟩ := ok_of_parse ok
  obtain ⟨_, _, -, ok⟩ := ok_of_parse ok
  obtain ⟨rest, _, -, ok⟩ := ok_of_parse ok
  obtain ⟨terminal, _, -, ok⟩ := ok_of_parse ok
  obtain ⟨_, _, -, ok⟩ := ok_of_parse ok
  cases ok
  exact ⟨unwind, clause, whereClause, _, rfl⟩

theorem unwinds_of_run
    (ok : ((pipelineGrammar grammar).parsePipelineAfterMatch (some unwind) clause whereClause).run
      tokens = .ok (query, left)) : query.Unwinds := by
  unfold Reader.run at ok
  cases ran : parsePipelineAfterMatch grammar (some unwind) clause whereClause tokens with
  | error e =>
    simp only [pipelineGrammar, ran] at ok
    cases ok
  | ok answer =>
    simp only [pipelineGrammar, ran] at ok
    cases ok
    exact unwinds_of_parsePipeline ran

theorem injectUnwind_eq_pipeline {result : GqlStatement Pipeline} {unwind : Option UnwindClause}
    {query : Pipeline} (injected : injectUnwind result unwind = .pipeline query) :
    result = .pipeline query := by
  unfold injectUnwind at injected
  split at injected
  · exact injected
  · cases result with
    | pipeline inner => exact injected
    | query inner => cases injected
    | mutation inner => cases injected
    | constReturn inner => cases injected

/-- A statement that begins with UNWIND and is a pipeline has its list in front of its MATCH. -/
theorem unwinds_of_parse
    (parsed : parseStatement (pipelineGrammar grammar) tokens = .ok (.pipeline query))
    (begins : tokenAt 0 tokens = .kwUnwind) : query.Unwinds := by
  obtain ⟨⟨result, last⟩, ok, same⟩ := ok_of_bind parsed
  cases same
  split at ok
  · obtain ⟨unwind, _, unwound, ok⟩ := ok_of_parse ok
    replace unwound := ok_of_peek unwound
    rw [begins, if_neg (fun differs => differs rfl)] at unwound
    obtain ⟨unwind, _, -, unwound⟩ := ok_of_parse unwound
    cases unwound
    replace ok := ok_of_peek ok
    generalize tokenAt 0 _ = next at ok
    cases next with
    | kwMatch =>
      obtain ⟨found, _, -, ok⟩ := ok_of_parse ok
      replace ok := ok_of_peek ok
      split at ok
      · obtain ⟨query, _, read, ok⟩ := ok_of_parse ok
        cases ok
        exact unwinds_of_run read
      · obtain ⟨result, _, after, ok⟩ := ok_of_parse ok
        have injected : injectUnwind result (some unwind) = .pipeline query :=
          congrArg Prod.fst (Except.ok.inj ok)
        have is := injectUnwind_eq_pipeline injected
        subst is
        exact (parseAfterMatch_not_pipeline after).elim
    | kwCreate =>
      obtain ⟨create, _, -, ok⟩ := ok_of_parse ok
      obtain ⟨returnClause, _, -, ok⟩ := ok_of_parse ok
      obtain ⟨_, _, -, ok⟩ := ok_of_parse ok
      cases ok
    | kwMerge =>
      obtain ⟨merge, _, -, ok⟩ := ok_of_parse ok
      obtain ⟨_, _, -, ok⟩ := ok_of_parse ok
      cases ok
    | _ => exact (not_ok_of_syntaxError ok).elim
  · exact (not_ok_of_syntaxError ok).elim

end Parsed

end ErmyaGraph.Gql
