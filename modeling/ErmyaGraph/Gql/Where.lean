import ErmyaGraph.Gql.Parser
import ErmyaGraph.Gql.Agreement
import ErmyaGraph.Gql.Serial

/-! # The condition of a mutation

A WHERE can stand between the patterns and what is done with their matches. For
a query the parser keeps it; the statement of a mutation has no place for it, and
the mutation goes to every match. -/

namespace ErmyaGraph.Gql

variable {tokens left : List SpannedToken} {matchClause : MatchClause}
  {statement : MutationStatement} {rows : List PatternMatch} {unwind : UnwindClause}
  {clause : CreateClause}

open Outcome List Phases.Client

section Parsing

variable {α β : Type} {found : β × List SpannedToken}

theorem ok_of_parse {first : Parser α} {rest : α → Parser β}
    (ok : (first >>= rest) tokens = .ok found) :
    ∃ a left, first tokens = .ok (a, left) ∧ rest a left = .ok found := by
  obtain ⟨⟨a, left⟩, read, ok⟩ := ok_of_bind ok
  exact ⟨a, left, read, ok⟩

theorem ok_of_peek {rest : Token → Parser β} (ok : (peek >>= rest) tokens = .ok found) :
    rest (tokenAt 0 tokens) tokens = .ok found := ok

theorem not_ok_of_syntaxError {message : String} {found : α × List SpannedToken} :
    (syntaxError message : Parser α) tokens ≠ .ok found := by
  cases tokens with
  | nil => exact nofun
  | cons next rest => exact nofun

variable {Pipeline : Type} (grammar : Grammar Pipeline)

/-- The UNWIND, the patterns and the condition that a statement begins with. -/
def parseRows : Parser (Option UnwindClause × MatchClause × Option Expr) := do
  let unwindClause ← parseUnwindClause grammar
  let (matchClause, whereClause) ← parseMatches grammar
  return (unwindClause, matchClause, whereClause)

/-- A mutation of what patterns match. -/
structure MutationStatement.Mutates (statement : MutationStatement)
    (unwindClause : Option UnwindClause) (matchClause : MatchClause) : Prop where
  unwindClause : statement.unwindClause = unwindClause
  matchClause : statement.matchClause = some matchClause

/-- What a parser of mutations answers with, before an UNWIND is put in front of it. -/
def MatchedOnly (matchClause : MatchClause) : GqlStatement Pipeline → Prop
  | .mutation statement =>
    statement.unwindClause = none ∧ statement.matchClause = some matchClause
  | _ => True

variable {whereClause : Option Expr} {result : GqlStatement Pipeline}

theorem parseAfterMatch_matched
    (ok : parseAfterMatch grammar matchClause whereClause tokens = .ok (result, left)) :
    MatchedOnly matchClause result := by
  replace ok := ok_of_peek ok
  generalize tokenAt 0 tokens = next at ok
  cases next with
  | kwReturn =>
    obtain ⟨returnClause, _, -, ok⟩ := ok_of_parse ok
    obtain ⟨groupBy, _, -, ok⟩ := ok_of_parse ok
    obtain ⟨orderBy, _, -, ok⟩ := ok_of_parse ok
    obtain ⟨limit, _, -, ok⟩ := ok_of_parse ok
    obtain ⟨_, _, -, ok⟩ := ok_of_parse ok
    cases ok
    trivial
  | kwDelete | kwDetach =>
    obtain ⟨delete, _, -, ok⟩ := ok_of_parse ok
    obtain ⟨_, _, -, ok⟩ := ok_of_parse ok
    cases ok
    exact ⟨rfl, rfl⟩
  | kwSet | kwCreate =>
    obtain ⟨clause, _, -, ok⟩ := ok_of_parse ok
    obtain ⟨returnClause, _, -, ok⟩ := ok_of_parse ok
    obtain ⟨_, _, -, ok⟩ := ok_of_parse ok
    cases ok
    exact ⟨rfl, rfl⟩
  | _ => exact (not_ok_of_syntaxError ok).elim

variable {unwindClause : Option UnwindClause}

theorem mutates_of_injectUnwind (matched : MatchedOnly matchClause result)
    (injected : injectUnwind result unwindClause = .mutation statement) :
    statement.Mutates unwindClause matchClause := by
  unfold injectUnwind at injected
  cases unwindClause with
  | none =>
    simp only [Option.isNone_none, if_true] at injected
    subst injected
    exact ⟨matched.1, matched.2⟩
  | some unwind =>
    simp only [Option.isNone_some, Bool.false_eq_true, if_false] at injected
    cases result with
    | mutation inner =>
      cases injected
      exact ⟨rfl, matched.2⟩
    | query inner => cases injected
    | pipeline inner => cases injected
    | constReturn inner => cases injected

theorem tokenAt_of_parseMatches {found : MatchClause × Option Expr}
    (read : parseMatches grammar tokens = .ok (found, left)) : tokenAt 0 tokens = .kwMatch := by
  obtain ⟨_, _, read, -⟩ := ok_of_parse read
  obtain ⟨_, _, read, -⟩ := ok_of_parse read
  replace read := ok_of_peek read
  by_contra other
  rw [if_neg other] at read
  exact not_ok_of_syntaxError read

theorem mutates_of_parse (parsed : parseStatement grammar tokens = .ok (.mutation statement))
    (begins : parseRows grammar tokens = .ok ((unwindClause, matchClause, whereClause), left)) :
    statement.Mutates unwindClause matchClause := by
  obtain ⟨unwind, afterUnwind, unwound, begins⟩ := ok_of_parse begins
  obtain ⟨found, afterMatches, matched, begins⟩ := ok_of_parse begins
  cases begins
  obtain ⟨⟨result, last⟩, ok, same⟩ := ok_of_bind parsed
  cases same
  split at ok
  · obtain ⟨_, _, again, ok⟩ := ok_of_parse ok
    cases unwound.symm.trans again
    replace ok := ok_of_peek ok
    rw [tokenAt_of_parseMatches grammar matched] at ok
    obtain ⟨_, _, again, ok⟩ := ok_of_parse ok
    cases matched.symm.trans again
    replace ok := ok_of_peek ok
    split at ok
    · obtain ⟨_, _, -, ok⟩ := ok_of_parse ok
      cases ok
    · obtain ⟨result, _, after, ok⟩ := ok_of_parse ok
      exact mutates_of_injectUnwind (parseAfterMatch_matched grammar after)
        (congrArg Prod.fst (Except.ok.inj ok))
  · exact (not_ok_of_syntaxError ok).elim

end Parsing

section Executing

variable {σ : Type} (store : GraphStore σ) (runtime : Runtime) (request : MutationRequest)
variable (graph : GraphAccess) (mc : MatchClause) (predicate : Expr)

def holdsIn (row : PatternMatch) : Bool :=
  (evalAlong runtime.evaluators (materialisePathBindings graph mc row) row predicate).isTrue

/-- The condition is true in a row next to an element of the list. -/
def holdsNext (unwindVar : String) (row : PatternMatch) (elem : GqlValue) : Bool :=
  (evalUnwound runtime.evaluators unwindVar row elem predicate).isTrue

def matchRowOf (row : PatternMatch) : MatchRow where
  nodes var := if var ∈ nodeVars mc then (row.nodes var).map Node.id else none
  edges var := if var ∈ edgeVars mc then (row.edges var).map Edge.id else none

def nodeRowOf (row : PatternMatch) : MatchRow := { matchRowOf mc row with edges := fun _ => none }

def unwoundBy (unwind : UnwindClause) : List GqlValue :=
  unwindElements (executeExpr runtime unwind.expr)

def createElement (unwind : UnwindClause) (clause : CreateClause) (elem : GqlValue)
    (stats : GqlMutationResult) (row : MatchRow) : MutationM σ GqlMutationResult := do
  let eval := evalUnwound runtime.evaluators unwind.var {} elem
  let created ← clause.patterns.foldlM (createUnwound store eval row) { stats }
  return created.stats

/-- A mutation of rows without a list in front. -/
def writeRows (rows : List PatternMatch) : MutationM σ MutationOutput :=
  if rows.isEmpty then return ([], {})
  else
    applyMatchMutationBody store runtime request.params request.statement (rows.map (matchRowOf mc))

/-- What a condition should leave of the rows: a mutation goes to those in which it is true. With
a list in front, nodes are made for every element and row in which it is true, and a row is deleted
from where it is true for some element. -/
def writeWhere (rows : List PatternMatch) : MutationM σ MutationOutput :=
  match request.statement.unwindClause, request.statement.mutation with
  | none, _ => writeRows store runtime request mc (rows.filter (holdsIn runtime graph mc predicate))
  | some unwind, .create clause => do
      let stats ← (unwoundBy runtime unwind).foldlM (fun stats elem =>
        ((rows.filter fun row => holdsNext runtime predicate unwind.var row elem).map
          (nodeRowOf mc)).foldlM (createElement store runtime unwind clause elem) stats) {}
      return ([], stats)
  | some unwind, .delete clause => do
      let kept := rows.filter fun row =>
        (unwoundBy runtime unwind).any (holdsNext runtime predicate unwind.var row)
      let stats ← applyUnwindDeleteBody store clause (kept.map (nodeRowOf mc))
      return ([], stats)
  | some _, _ => throw (unsupportedUnwind runtime request)

/-- A mutation of the rows in which a condition is true. -/
def executeWhere (s : σ) : MutationAnswer × σ :=
  if request.statement.unwindClause.isSome && !unwindable request.statement.mutation then
    (.error (unsupportedUnwind runtime request), s)
  else
    match compileMatch (store.access s) request.late mc with
    | .error e => (.error (.gql e), s)
    | .ok rows =>
      (answer (writeWhere store runtime request (store.access s) mc predicate rows) s,
        final (writeWhere store runtime request (store.access s) mc predicate rows) s)

/-- The condition leaves out none of the rows. -/
def Admitted (rows : List PatternMatch) : Prop :=
  match request.statement.unwindClause, request.statement.mutation with
  | none, _ => ∀ row ∈ rows, holdsIn runtime graph mc predicate row
  | some unwind, .create _ =>
    ∀ elem ∈ unwoundBy runtime unwind, ∀ row ∈ rows, holdsNext runtime predicate unwind.var row elem
  | some unwind, .delete _ =>
    unwoundBy runtime unwind ≠ [] → ∀ row ∈ rows, ∃ elem ∈ unwoundBy runtime unwind,
      holdsNext runtime predicate unwind.var row elem
  | some _, _ => True

/-- What the shared lock is left with for rows without a list in front. -/
def handedOver (rows : List PatternMatch) : MutationFound ⊕ MutationAnswer :=
  if rows.isEmpty then .inr (.ok ([], {})) else .inl (.rows (rows.map (matchRowOf mc)))

variable {store runtime request graph mc predicate}

theorem compileMatchRows_eq (late : Nat → Bool) :
    compileMatchRows graph late mc =
      (compileMatch graph late mc).map fun rows => rows.map (matchRowOf mc) := by
  unfold compileMatchRows
  cases compileMatch graph late mc with
  | error e => rfl
  | ok rows => rfl

theorem lookUp_matched (bare : request.statement.unwindClause = none)
    (matched : request.statement.matchClause = some mc)
    (ran : compileMatch graph request.late mc = .ok rows) :
    lookUp runtime request graph = handedOver mc rows := by
  simp only [lookUp, bare, matched, compileMatchRows_eq, ran, Except.map, handedOver, isEmpty_map]

variable {s : σ}

theorem alone_of_handedOver
    (looked : lookUp runtime request (store.access s) = handedOver mc rows) :
    (mutationClient store runtime request).alone s =
      (answer (writeRows store runtime request mc rows) s,
        final (writeRows store runtime request mc rows) s) := by
  by_cases empty : rows.isEmpty
  · simp only [alone, mutationClient, looked, handedOver, empty, if_true, writeRows]
    rfl
  · simp only [alone, mutationClient, looked, handedOver, empty, if_false,
      Bool.false_eq_true, writeFound, writeRows]

theorem executeWhere_bare (bare : request.statement.unwindClause = none)
    (ran : compileMatch (store.access s) request.late mc = .ok rows) :
    executeWhere store runtime request mc predicate s = (answer (writeRows store runtime request mc
          (rows.filter (holdsIn runtime (store.access s) mc predicate))) s,
        final (writeRows store runtime request mc
          (rows.filter (holdsIn runtime (store.access s) mc predicate))) s) := by
  simp only [executeWhere, bare, Option.isSome_none, Bool.false_and, Bool.false_eq_true, if_false,
    ran, writeWhere]

section

variable (unwound : request.statement.unwindClause = some unwind)
include unwound

theorem lookUp_unwound (matched : request.statement.matchClause = some mc)
    (able : unwindable request.statement.mutation)
    (ran : compileMatch graph request.late mc = .ok rows) : lookUp runtime request graph =
      if (unwoundBy runtime unwind).isEmpty || rows.isEmpty then .inr (.ok ([], {}))
      else .inl (.elements unwind (unwoundBy runtime unwind) (rows.map (nodeRowOf mc))) := by
  simp only [lookUp, unwound, matched, able, if_true, unwindRows, compileMatchRows_eq, ran,
    Except.map, isEmpty_map, map_map, unwoundBy]
  rfl

theorem writeWhere_create (creates : request.statement.mutation = .create clause)
    (admitted : Admitted runtime request graph mc predicate rows) :
    writeWhere store runtime request graph mc predicate rows = writeFound store runtime request
        (.elements unwind (unwoundBy runtime unwind) (rows.map (nodeRowOf mc))) := by
  simp only [Admitted, unwound, creates] at admitted
  simp only [writeWhere, unwound, creates, writeFound, applyUnwindCreateBody]
  refine congrArg (· >>= _) (foldlM_congr_mem (fun elem mem stats => ?_) _)
  rw [filter_eq_self.mpr (admitted elem mem)]
  rfl

theorem writeWhere_delete {clause : DeleteClause} 
    (deletes : request.statement.mutation = .delete clause) (some : unwoundBy runtime unwind ≠ [])
    (admitted : Admitted runtime request graph mc predicate rows) :
    writeWhere store runtime request graph mc predicate rows = writeFound store runtime request
        (.elements unwind (unwoundBy runtime unwind) (rows.map (nodeRowOf mc))) := by
  simp only [Admitted, unwound, deletes] at admitted
  have all := fun row mem => any_eq_true.mpr (admitted some row mem)
  simp only [writeWhere, unwound, deletes, writeFound, filter_eq_self.mpr all]

theorem writeWhere_empty (able : unwindable request.statement.mutation)
    (empty : (unwoundBy runtime unwind).isEmpty || rows.isEmpty) :
    writeWhere store runtime request graph mc predicate rows = pure ([], {}) := by
  rw [Bool.or_eq_true, List.isEmpty_iff, List.isEmpty_iff] at empty
  cases mutation : request.statement.mutation with
  | create clause =>
    simp only [writeWhere, unwound, mutation]
    rcases empty with empty | empty
    · rw [empty, foldlM_nil, pure_bind]
    · rw [empty]
      simp only [filter_nil, map_nil, foldlM_nil, foldlM_pure, foldl_fixed, pure_bind]
  | delete clause =>
    have kept : (rows.filter fun row => (unwoundBy runtime unwind).any
        (holdsNext runtime predicate unwind.var row)) = [] := by
      rcases empty with empty | empty
      · simp only [empty, any_nil, filter_false]
      · simp only [empty, filter_nil]
    simp only [writeWhere, unwound, mutation, kept, map_nil, applyUnwindDeleteBody,
      foldlM_nil, pure_bind]
  | set clause => simp only [mutation, unwindable, Bool.false_eq_true] at able
  | merge clause => simp only [mutation, unwindable, Bool.false_eq_true] at able

end

/-- A condition that leaves out no row can as well be forgotten. -/
theorem alone_eq_executeWhere (matched : request.statement.matchClause = some mc)
    (admitted : ∀ rows, compileMatch (store.access s) request.late mc = .ok rows →
      Admitted runtime request (store.access s) mc predicate rows) :
    (mutationClient store runtime request).alone s =
      executeWhere store runtime request mc predicate s := by
  cases unwound : request.statement.unwindClause with
  | none =>
    cases ran : compileMatch (store.access s) request.late mc with
    | error e =>
      simp only [executeWhere, unwound, Option.isSome_none, Bool.false_and, Bool.false_eq_true,
        if_false, ran, alone, mutationClient, lookUp, matched,
        compileMatchRows_eq, Except.map]
    | ok rows =>
      have all := admitted rows ran
      simp only [Admitted, unwound] at all
      rw [alone_of_handedOver (lookUp_matched unwound matched ran),
        executeWhere_bare unwound ran, filter_eq_self.mpr all]
  | some unwind =>
    unfold executeWhere
    by_cases able : unwindable request.statement.mutation
    · simp only [able, Bool.not_true, Bool.and_false, Bool.false_eq_true, if_false]
      cases ran : compileMatch (store.access s) request.late mc with
      | error e =>
        simp only [alone, mutationClient, lookUp, unwound, matched, able, if_true,
          unwindRows, compileMatchRows_eq, ran, Except.map]
      | ok rows =>
        have all := admitted rows ran
        by_cases empty : (unwoundBy runtime unwind).isEmpty || rows.isEmpty
        · simp only [alone, mutationClient,
            lookUp_unwound unwound matched able ran, empty, if_true,
            writeWhere_empty unwound able empty]
          rfl
        · have same : writeWhere store runtime request (store.access s) mc predicate rows =
              writeFound store runtime request (.elements unwind (unwoundBy runtime unwind)
                (rows.map (nodeRowOf mc))) := by
            cases mutation : request.statement.mutation with
            | create clause => exact writeWhere_create unwound mutation all
            | delete clause =>
              refine writeWhere_delete unwound mutation (fun none => ?_) all
              rw [none, isEmpty_nil, Bool.true_or] at empty
              exact empty rfl
            | set clause => simp only [mutation, unwindable, Bool.false_eq_true] at able
            | merge clause => simp only [mutation, unwindable, Bool.false_eq_true] at able
          simp only [alone, mutationClient,
            lookUp_unwound unwound matched able ran, empty, if_false, Bool.false_eq_true, same]
    · simp only [alone, mutationClient, lookUp, unwound, able]
      rfl

def GqlMutationResult.created (stats : GqlMutationResult) : Nat :=
  stats.nodesCreated + stats.edgesCreated

theorem sat_written {α : Type} (x : EStateM Error σ α) (s : σ) {post : α → σ → Prop}
    (holds : ∀ a s', post a s') : Sat (onGraph x) s post fun _ _ => True :=
  sat_onGraph.mpr (sat_iff.mpr ⟨fun a s' _ => holds a s', fun _ _ _ => trivial⟩)

theorem createMatched_created (row : MatchRow) (created : Created) (pattern : CreatePattern)
    (s : σ) : Sat (createMatched store runtime row created pattern) s
      (fun after _ => after.stats.created = created.stats.created + 1) fun _ _ => True := by
  cases pattern with
  | node var label props propMap =>
    simp only [createMatched, sat_bind]
    refine sat_written _ s fun id s' => ?_
    simp only [sat_pure, Created.withNode, GqlMutationResult.created]
    omega
  | edge sourceVar relLabel relProps targetVar =>
    cases sourceIs : row.nodes sourceVar with
    | none => simp only [createMatched, sourceIs, sat_throw]
    | some source =>
      cases targetIs : row.nodes targetVar with
      | none => simp only [createMatched, sourceIs, targetIs, sat_throw]
      | some target =>
        simp only [createMatched, sourceIs, targetIs, sat_bind]
        refine sat_written _ s fun id s' => ?_
        simp only [sat_pure, Created.withEdge, GqlMutationResult.created]
        omega

theorem applyMatchMutationBody_created (creates : statement.mutation = .create clause)
    (params : Params) (rows : List MatchRow) (s : σ) :
    Sat (applyMatchMutationBody store runtime params statement rows) s
      (fun output _ => output.2.created = clause.patterns.length * rows.length)
      fun _ _ => True := by
  simp only [applyMatchMutationBody, creates]
  refine sat_ite.mpr ⟨fun _ => trivial, fun _ => ?_⟩
  rw [sat_bind]
  have each (stats : GqlMutationResult) (row : MatchRow) (s : σ) :
      Sat (createRow store runtime clause stats row) s
        (fun after _ => after.created = stats.created + clause.patterns.length)
        fun _ _ => True := by
    unfold createRow
    rw [sat_bind]
    refine (sat_foldlM_count (fun created : Created => created.stats.created) 1
      (createMatched_created row) clause.patterns { stats } s).loose (fun created _ total => ?_)
    rw [sat_pure, total, Nat.one_mul]
  refine (sat_foldlM_count GqlMutationResult.created _ each rows {} s).loose
    (fun stats _ total => ?_)
  rw [sat_pure, total]
  exact Nat.zero_add _

theorem handedOver_inj {others : List PatternMatch}
    (same : handedOver mc rows = handedOver mc others) : rows.length = others.length := by
  unfold handedOver at same
  cases rows with
  | nil =>
    cases others with
    | nil => rfl
    | cons other rest => cases same
  | cons row rest =>
    cases others with
    | nil => cases same
    | cons other rest' =>
      simp only [isEmpty_cons, Bool.false_eq_true, if_false, Sum.inl.injEq,
        MutationFound.rows.injEq] at same
      simpa only [length_map] using congrArg List.length same

theorem all_of_length_filter {α : Type} {p : α → Bool} {items : List α}
    (same : (items.filter p).length = items.length) : ∀ a ∈ items, p a :=
  filter_eq_self.mp (filter_sublist.eq_of_length same)

theorem lookUp_handedOver_iff (bare : request.statement.unwindClause = none)
    (matched : request.statement.matchClause = some mc)
    (ran : compileMatch graph request.late mc = .ok rows) :
    lookUp runtime request graph =
        handedOver mc (rows.filter (holdsIn runtime graph mc predicate)) ↔
      ∀ row ∈ rows, holdsIn runtime graph mc predicate row := by
  rw [lookUp_matched bare matched ran]
  constructor
  · intro same
    exact all_of_length_filter (handedOver_inj same).symm
  · intro all
    rw [filter_eq_self.mpr all]

variable {output : MutationOutput}

theorem created_of_answer (creates : request.statement.mutation = .create clause)
    (ok : answer (writeRows store runtime request mc rows) s = .ok output) :
    output.2.created = clause.patterns.length * rows.length := by
  have counted : Sat (writeRows store runtime request mc rows) s
      (fun output _ => output.2.created = clause.patterns.length * rows.length)
      fun _ _ => True := by
    refine sat_ite.mpr ⟨fun empty => ?_, fun _ => ?_⟩
    · rw [List.isEmpty_iff.mp empty]
      exact rfl
    · have sized : (rows.map (matchRowOf mc)).length = rows.length := length_map _
      rw [← sized]
      exact applyMatchMutationBody_created creates _ _ s
  exact counted.outcome.1 output ok

theorem create_eq_executeWhere_iff (bare : request.statement.unwindClause = none)
    (matched : request.statement.matchClause = some mc)
    (creates : request.statement.mutation = .create clause) (some : clause.patterns ≠ [])
    (ran : compileMatch (store.access s) request.late mc = .ok rows)
    (ok : ((mutationClient store runtime request).alone s).1 = .ok output) :
    (mutationClient store runtime request).alone s =
        executeWhere store runtime request mc predicate s ↔
      ∀ row ∈ rows, holdsIn runtime (store.access s) mc predicate row := by
  constructor
  · intro same
    have whole := ok
    rw [alone_of_handedOver (lookUp_matched bare matched ran)] at whole
    rw [same, executeWhere_bare bare ran] at ok
    have equal := (created_of_answer creates ok).symm.trans (created_of_answer creates whole)
    exact all_of_length_filter
      (Nat.eq_of_mul_eq_mul_left (length_pos_iff.mpr some) equal)
  · intro all
    refine alone_eq_executeWhere matched fun rows' ran' => ?_
    cases ran.symm.trans ran'
    simpa only [Admitted, bare] using all

/-- What is parsed and executed is the mutation of all matches. It is the mutation of those in
which the condition is true where the condition leaves out none. -/
theorem mutation_where {Pipeline : Type} {grammar : Grammar Pipeline}
    {tokens left : List SpannedToken} {unwindClause : Option UnwindClause}
    (parsed : parseStatement grammar tokens = .ok (.mutation request.statement))
    (begins : parseRows grammar tokens = .ok ((unwindClause, mc, some predicate), left)) (s : σ) :
    ((∀ rows, compileMatch (store.access s) request.late mc = .ok rows →
        Admitted runtime request (store.access s) mc predicate rows) →
      (mutationClient store runtime request).alone s =
        executeWhere store runtime request mc predicate s) ∧
    (unwindClause = none → ∀ rows, compileMatch (store.access s) request.late mc = .ok rows →
      ((lookUp runtime request (store.access s) =
          handedOver mc (rows.filter (holdsIn runtime (store.access s) mc predicate)) ↔
        ∀ row ∈ rows, holdsIn runtime (store.access s) mc predicate row) ∧
      ∀ clause output, request.statement.mutation = .create clause → clause.patterns ≠ [] →
        ((mutationClient store runtime request).alone s).1 = .ok output →
        ((mutationClient store runtime request).alone s =
            executeWhere store runtime request mc predicate s ↔
          ∀ row ∈ rows, holdsIn runtime (store.access s) mc predicate row))) := by
  have mutates := mutates_of_parse grammar parsed begins
  refine ⟨alone_eq_executeWhere mutates.matchClause, ?_⟩
  rintro rfl rows ran
  refine ⟨lookUp_handedOver_iff mutates.unwindClause mutates.matchClause ran, ?_⟩
  intro clause output creates some ok
  exact create_eq_executeWhere_iff mutates.unwindClause mutates.matchClause creates some ran ok

end Executing

def onlyPerson : ListGraph :=
  ListGraph.empty.addNode "Person" ⟨[("age", .i64 30)], nodup_singleton "age"⟩

def twoPersons : ListGraph := onlyPerson.addNode "Person" ⟨[("age", .i64 40)], by decide⟩

def anyPerson : PathPattern := ⟨{ var := some "n", labels := ["Person"] }, []⟩

def ofAge (age : Int64) : Expr := .binaryOp (.propAccess "n" "age") .eq (.literal (.int age))

/-- Reads `(n:Person)` and `n.age = age`. -/
def personGrammar : Grammar Unit where
  floatText _ := ""
  parseExpr _ tokens :=
    match tokens.map SpannedToken.token with
    | .ident "n" :: .dot :: .ident "age" :: .eq :: .intLit age :: _ => .ok (ofAge age, 5)
    | _ => .error (.gqlSyntaxError 1 1 "")
  parsePathPattern tokens :=
    match tokens.map SpannedToken.token with
    | .lParen :: .ident "n" :: .colon :: .ident "Person" :: .rParen :: _ => .ok (anyPerson, 5)
    | _ => .error (.gqlSyntaxError 1 1 "")
  parsePipelineAfterMatch _ _ _ _ := .error (.gqlSyntaxError 1 1 "")

/-- `MATCH (n:Person) WHERE n.age = age DELETE n` -/
def deletePersons (age : Int64) : List SpannedToken :=
  ([.kwMatch, .lParen, .ident "n", .colon, .ident "Person", .rParen, .kwWhere, .ident "n", .dot,
    .ident "age", .eq, .intLit age, .kwDelete, .ident "n", .eof] : List Token).map fun token =>
      { token }

def integersOnly : Runtime :=
  { literalsOnly with evaluators := integers.evaluators noNodes.access literalsOnly.evaluators }

def deleteRequest : MutationRequest where
  statement := ⟨none, some ⟨[anyPerson], none⟩, .delete ⟨false, ["n"]⟩, none, none⟩
  pick := List.head?
  late _ := false

theorem parse_deletePersons (age : Int64) :
    parseStatement personGrammar (deletePersons age) = .ok (.mutation deleteRequest.statement) :=
  rfl

theorem parseRows_deletePersons (age : Int64) : ∃ left,
    parseRows personGrammar (deletePersons age) =
      .ok ((none, ⟨[anyPerson], none⟩, some (ofAge age)), left) :=
  ⟨_, rfl⟩

/-- Where all persons are of the age that is asked for. -/
theorem mutation_where_person :
    (mutationClient listStore integersOnly deleteRequest).alone onlyPerson =
      executeWhere listStore integersOnly deleteRequest ⟨[anyPerson], none⟩ (ofAge 30)
        onlyPerson := by
  obtain ⟨left, begins⟩ := parseRows_deletePersons 30
  refine (mutation_where (parse_deletePersons 30) begins onlyPerson).1 fun rows ran => ?_
  have all : (compileMatch (listStore.access onlyPerson) deleteRequest.late
      ⟨[anyPerson], none⟩).toOption.map (fun rows => rows.all
        (holdsIn integersOnly (listStore.access onlyPerson) ⟨[anyPerson], none⟩ (ofAge 30))) =
      some true := by
    decide +kernel
  rw [ran] at all
  exact all_eq_true.mp (Option.some.inj all)

/-- The person of 40 years is deleted with the one of 30 that is asked for. -/
theorem delete_ignores_where :
    parseStatement personGrammar (deletePersons 30) = .ok (.mutation deleteRequest.statement) ∧
      ((mutationClient listStore integersOnly deleteRequest).alone
        twoPersons).2.graph.nodes.map Node.id = [] ∧
      (executeWhere listStore integersOnly deleteRequest ⟨[anyPerson], none⟩ (ofAge 30)
        twoPersons).2.graph.nodes.map Node.id = [2] := by
  refine ⟨parse_deletePersons 30, ?_, ?_⟩
  · decide +kernel
  · decide +kernel

end ErmyaGraph.Gql
