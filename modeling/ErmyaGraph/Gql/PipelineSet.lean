import ErmyaGraph.Gql.WriteValues

/-! # SET at the end of a pipeline

A pipeline that passes every variable of its MATCH on sets what the MATCH alone
would set, as long as no value looks up a variable of its row. -/

namespace ErmyaGraph.Gql

variable {mc : MatchClause}

open Outcome List Function

inductive PipelineError where
  | mutation (error : MutationError)
  | gqlMutationError (message : String)

abbrev PipelineM (σ : Type) := EStateM PipelineError σ

/-- A mutation as a part of a pipeline. -/
def ofMutation {σ α : Type} (x : MutationM σ α) : PipelineM σ α := fun s =>
  match x.run s with
  | .ok a s' => .ok a s'
  | .error e s' => .error (.mutation e) s'

def unsupportedMap (var : String) : PipelineError :=
  .mutation (.unsupported ("SET " ++ var ++ " = $map / " ++ var ++
    " += $map is not supported in a WITH-pipeline terminal (use MATCH … SET or MERGE)"))

def checkScope (referenced bound : List String) : Except GqlError Unit :=
  match referenced.find? fun var => var ∉ bound with
  | some var => .error (.gqlCompileError
      ("variable '" ++ var ++ "' is not bound in the current pipeline scope"))
  | none => .ok ()

section Executing

variable {σ : Type} (store : GraphStore σ) (platform : Platform) (rest : Evaluators)

/-- A value that cannot be stored is passed over before its target is looked at. -/
def pipelineAssign (b : Binding) (count : Nat) : SetAssignment → PipelineM σ Nat
  | .property var prop value => do
      let graph := store.access (← get)
      match gqlValueToProperty (platform.evalExprOnBinding graph b value) with
      | none => return count
      | some property =>
        match b.pm.nodes var, b.pm.edges var with
        | some node, _ => ofMutation do
            let current ← readNode store node.id
            onGraph (store.updateNode node.id
              { current with properties := current.properties.insert prop property })
            return count + 1
        | none, some _ => throw (.mutation (.unsupported
            "SET on edge properties in pipeline mutation is not yet implemented"))
        | none, none => throw (.gqlMutationError
            ("SET target variable '" ++ var ++ "' is not bound in the final pipeline stage " ++
              "(may have been dropped by an earlier WITH)"))
  | .entityOverwrite var _ | .entityMerge var _ => throw (unsupportedMap var)

def applyPipelineSet (bindings : List Binding) (clause : SetClause) :
    PipelineM σ GqlMutationResult := do
  let count ← bindings.foldlM (fun count b =>
    clause.assignments.foldlM (pipelineAssign store platform b) count) 0
  return { propertiesSet := count }

def withVars (names : List String) : WithClause where
  items := names.map fun name => { expr := .var name, columnAlias := some name }

/-- The scope of `MATCH … WITH … SET …`. -/
def validateSetScope (mc : MatchClause) (names : List String) (clause : SetClause) :
    Except GqlError Unit := do
  checkScope names (collectBoundVars mc)
  checkScope (clause.assignments.flatMap fun assignment =>
    setAssignmentVar assignment :: collectExprVars assignment.value) names

/-- `MATCH … WITH … SET …`, whose reads are over before it writes. A pipeline has no deadline. -/
def executePipelineMutation (edgeOf : Nat → Except Error Edge) (before : GraphAccess)
    (mc : MatchClause) (names : List String) (clause : SetClause) :
    PipelineM σ GqlMutationResult := do
  ofMutation (ofResult ((validateSetScope mc names clause).mapError MutationError.gql))
  let rows ← ofMutation (ofResult
    ((compileMatch before (fun _ => false) mc).mapError MutationError.gql))
  let bindings := executeWithStage (platform.evaluators before rest) before edgeOf (withVars names)
    (rows.map fun row => { pm := row })
  applyPipelineSet store platform bindings clause

end Executing

/-- Where a projection has come to: the entities of the variables that are not projected yet, and
what is projected. -/
structure Carried (row : PatternMatch) (done : List String) (sofar : PatternMatch × Binding) :
    Prop where
  later : ∀ x ∉ done, sofar.1.nodes x = row.nodes x ∧ sofar.1.edges x = row.edges x
  nodes : ∀ x ∈ done, ∀ node, row.nodes x = some node → sofar.2.pm.nodes x = some node
  free : ∀ x, row.Free x → sofar.2.pm.Free x ∧ (sofar.2.vals x).getD .null = .null

section Projecting

variable (platform : Platform) (rest : Evaluators) (graph : GraphAccess)
variable (edgeOf : Nat → Except Error Edge)
variable {row : PatternMatch} {done : List String} {sofar : PatternMatch × Binding}

theorem carried_projectItem (carried : Carried row done sofar) {name : String}
    (fresh : name ∉ done) :
    Carried row (name :: done) (projectItem (platform.evaluators graph rest) graph edgeOf
      { pm := row } sofar { expr := .var name, columnAlias := some name }) := by
  obtain ⟨sameNode, sameEdge⟩ := carried.later name fresh
  have notDone : ∀ {x}, x ∉ name :: done → x ≠ name ∧ x ∉ done := fun outside =>
    ⟨fun same => outside (same ▸ .head _), fun inside =>
      outside (mem_cons_of_mem name inside)⟩
  cases node : row.nodes name with
  | some node' =>
    have projected : projectItem (platform.evaluators graph rest) graph edgeOf { pm := row }
        sofar { expr := .var name, columnAlias := some name } =
        ({ sofar.1 with nodes := update sofar.1.nodes name none },
          sofar.2.bindNode name node') := by
      simp only [projectItem, columnName, Option.getD_some, sameNode, node]
    rw [projected]
    refine ⟨fun x outside => ?_, fun x inside other has => ?_, fun x free => ?_⟩
    · obtain ⟨ne, outside⟩ := notDone outside
      exact ⟨(update_of_ne ne ..).trans (carried.later x outside).1,
        (carried.later x outside).2⟩
    · by_cases same : x = name
      · subst same
        rw [node] at has
        exact (update_self ..).trans has
      · exact (update_of_ne same ..).trans
          (carried.nodes x ((mem_cons.mp inside).resolve_left same) other has)
    · have ne : x ≠ name := by
        rintro rfl
        rw [free.nodes] at node
        cases node
      obtain ⟨kept, null⟩ := carried.free x free
      exact ⟨⟨(update_of_ne ne ..).trans kept.nodes, kept.edges⟩, null⟩
  | none =>
    have nodesKept : ∀ {b : Binding}, b.pm.nodes = sofar.2.pm.nodes →
        ∀ x ∈ name :: done, ∀ other, row.nodes x = some other → b.pm.nodes x = some other := by
      intro b kept x inside other has
      have ne : x ≠ name := by
        rintro rfl
        rw [node] at has
        cases has
      rw [kept]
      exact carried.nodes x ((mem_cons.mp inside).resolve_left ne) other has
    cases edge : row.edges name with
    | some edge' =>
      have projected : projectItem (platform.evaluators graph rest) graph edgeOf { pm := row }
          sofar { expr := .var name, columnAlias := some name } =
          ({ sofar.1 with edges := update sofar.1.edges name none },
            sofar.2.bindEdge name edge') := by
        simp only [projectItem, columnName, Option.getD_some, sameNode, node, sameEdge, edge]
      rw [projected]
      refine ⟨fun x outside => ?_, nodesKept rfl, fun x free => ?_⟩
      · obtain ⟨ne, outside⟩ := notDone outside
        exact ⟨(carried.later x outside).1,
          (update_of_ne ne ..).trans (carried.later x outside).2⟩
      · have ne : x ≠ name := by
          rintro rfl
          rw [free.edges] at edge
          cases edge
        obtain ⟨kept, null⟩ := carried.free x free
        exact ⟨⟨kept.nodes, (update_of_ne ne ..).trans kept.edges⟩, null⟩
    | none =>
      have value : evalOnBinding (platform.evaluators graph rest) { pm := row } (.var name) =
          .null := by
        rw [Platform.evalOnBinding_evaluators]
        exact Platform.entityValue_of_free ⟨node, edge⟩
      have projected : projectItem (platform.evaluators graph rest) graph edgeOf { pm := row }
          sofar { expr := .var name, columnAlias := some name } =
          (sofar.1, sofar.2.bindValue name .null) := by
        simp only [projectItem, columnName, Option.getD_some, sameNode, node, sameEdge, edge,
          value, bindProjected]
      rw [projected]
      refine ⟨fun x outside => carried.later x (notDone outside).2, nodesKept rfl,
        fun x free => ⟨(carried.free x free).1, ?_⟩⟩
      by_cases same : x = name
      · subst same
        simp only [Binding.bindValue, update_self, Option.getD_some]
      · simp only [Binding.bindValue, update_of_ne same]
        exact (carried.free x free).2

variable (names : List String)

theorem carried_foldl (carried : Carried row done sofar) (distinct : names.Nodup)
    (fresh : ∀ name ∈ names, name ∉ done) :
    Carried row (names.reverse ++ done) ((withVars names).items.foldl
      (projectItem (platform.evaluators graph rest) graph edgeOf { pm := row }) sofar) := by
  induction names generalizing done sofar with
  | nil => exact carried
  | cons name names ih =>
    obtain ⟨apart, distinct⟩ := nodup_cons.mp distinct
    have step := carried_projectItem platform rest graph edgeOf carried
      (fresh name mem_cons_self)
    have onward := ih step distinct fun other mem inside => by
      rcases mem_cons.mp inside with rfl | inside
      · exact apart mem
      · exact fresh other (mem_cons_of_mem name mem) inside
    rw [reverse_cons, append_assoc]
    exact onward

/-- The row that a pipeline has after it passed its variables on. -/
def passedOn (names : List String) (row : PatternMatch) : Binding :=
  projectWithItems (platform.evaluators graph rest) graph edgeOf (withVars names).items
    { pm := row }

theorem carried_passedOn {names : List String} (distinct : names.Nodup) (row : PatternMatch) :
    (∀ x ∈ names, ∀ node, row.nodes x = some node →
        (passedOn platform rest graph edgeOf names row).pm.nodes x = some node) ∧
      ∀ x, row.Free x → Platform.Alike (passedOn platform rest graph edgeOf names row) {} x := by
  have start : Carried row [] (row, {}) :=
    ⟨fun _ _ => ⟨rfl, rfl⟩, nofun, fun _ _ => ⟨⟨rfl, rfl⟩, rfl⟩⟩
  have carried := carried_foldl platform rest graph edgeOf names start distinct nofun
  constructor
  · intro x mem
    exact carried.nodes x (mem_append_left [] (mem_reverse.mpr mem))
  · intro x free
    obtain ⟨kept, null⟩ := carried.free x free
    exact ⟨null, kept, ⟨rfl, rfl⟩⟩

theorem executeWithStage_withVars (rows : List PatternMatch) :
    executeWithStage (platform.evaluators graph rest) graph edgeOf (withVars names)
        (rows.map fun row => { pm := row }) =
      rows.map (passedOn platform rest graph edgeOf names) := by
  have plain : ((withVars names).items.any fun item => exprHasAggregate item.expr) = false := by
    rw [any_eq_false]
    intro item mem
    obtain ⟨name, _, rfl⟩ := mem_map.mp mem
    exact Bool.false_ne_true
  simp only [executeWithStage, projectStage, plain, Bool.false_eq_true, if_false, map_map]
  rfl

end Projecting

section Equal

variable {σ : Type} (store : GraphStore σ) (runtime : Runtime) (params : Params)
variable (platform : Platform) (before now : GraphAccess) (rest : Evaluators)

theorem ofMutation_bind {α β : Type} (x : MutationM σ α) (f : α → MutationM σ β) :
    ofMutation (x >>= f) = ofMutation x >>= fun a => ofMutation (f a) := by
  funext s
  change ofMutation (EStateM.bind x f) s = EStateM.bind (ofMutation x) (fun a => ofMutation (f a)) s
  simp only [ofMutation, EStateM.bind, EStateM.run]
  cases x s <;> rfl

theorem ofMutation_foldlM {α β : Type} (f : α → β → MutationM σ α) (items : List β) (init : α) :
    ofMutation (items.foldlM f init) = items.foldlM (fun acc b => ofMutation (f acc b)) init := by
  induction items generalizing init with
  | nil => rfl
  | cons item rest ih =>
    rw [foldlM_cons, ofMutation_bind, foldlM_cons]
    exact bind_congr fun acc => ih acc

theorem pipelineAssign_eq {row : PatternMatch} {b : Binding} {var prop : String} {value : Expr}
    {node : Node} (listed : var ∈ nodeVars mc) (bound : row.nodes var = some node)
    (carried : b.pm.nodes var = some node) (alike : ∀ x ∈ value.lookups [], Platform.Alike b {} x)
    (count : Nat) :
    pipelineAssign store platform b count (.property var prop value) =
      ofMutation (applyRowAssignment store (onAccess runtime platform now rest) params
        (matchRowOf mc row) count (.property var prop value)) := by
  have same (graph : GraphAccess) : platform.evalExprOnBinding graph b value =
      executeExpr (onAccess runtime platform now rest) value := by
    have noLocals : Platform.SameLocals b {} [] := by simp [Platform.SameLocals]
    rw [executeExpr_onAccess, Platform.evalExpr_noPaths]
    exact platform.evalExprOnBinding_alike graph now value noLocals alike
  have target : (matchRowOf mc row).nodes (setAssignmentVar (.property var prop value)) =
      some node.id := by
    simp only [matchRowOf, setAssignmentVar, if_pos listed, bound, Option.map_some]
  rw [pipelineAssign, applyRowAssignment]
  simp only [same, target, applyOneSetAssignment, assigned, carried]
  cases gqlValueToProperty (executeExpr (onAccess runtime platform now rest) value) with
  | none => rfl
  | some property =>
    have once : (do
          let current ← readNode store node.id
          onGraph (store.updateNode node.id
            { current with properties := current.properties.insert prop property })
          return 1) >>= (fun set => (return count + set : MutationM σ Nat)) = do
        let current ← readNode store node.id
        onGraph (store.updateNode node.id
          { current with properties := current.properties.insert prop property })
        return count + 1 := by
      simp only [bind_assoc, pure_bind]
    exact congrArg ofMutation once.symm

theorem checkScope_ok {referenced bound : List String} (within : ∀ x ∈ referenced, x ∈ bound) :
    checkScope referenced bound = .ok () := by
  have found : referenced.find? (fun var => var ∉ bound) = none := by
    rw [List.find?_eq_none]
    intro x mem
    rw [decide_eq_true_eq, not_not]
    exact within x mem
  rw [checkScope, found]

def setAfterMatch (mc : MatchClause) (clause : SetClause) : Write :=
  .matched (fun _ => false) mc ⟨none, some mc, .set clause, none, none⟩

/-- Single properties are set, of nodes that every row binds, and the values refer to variables of
the MATCH. -/
structure SetsProperties (mc : MatchClause) (clause : SetClause) : Prop where
  property : ∀ assignment ∈ clause.assignments, ∃ var prop value,
    assignment = .property var prop value ∧ var ∈ nodeVars mc ∧
      ∀ x ∈ collectExprVars value, x ∈ collectBoundVars mc
  bound : ∀ rows, compileMatch before (fun _ => false) mc = .ok rows →
    ∀ row ∈ rows, ∀ var ∈ nodeVars mc, (row.nodes var).isSome

theorem mem_collectBoundVars {var : String} (listed : var ∈ nodeVars mc) :
    var ∈ collectBoundVars mc := by
  obtain ⟨pp, mem, named⟩ := mem_flatMap.mp listed
  rw [reduceOption_mem_iff, mem_cons] at named
  apply mem_append_right
  refine mem_flatMap.mpr ⟨pp, mem, mem_append.mpr ?_⟩
  rcases named with start | hop
  · exact .inl (Option.mem_toList.mpr start.symm)
  · obtain ⟨hop, inside, is⟩ := mem_map.mp hop
    refine .inr (mem_flatMap.mpr ⟨hop, inside, mem_append_right _ ?_⟩)
    exact Option.mem_toList.mpr is

variable {before} (edgeOf : Nat → Except Error Edge) {clause : SetClause}

theorem validateSetScope_ok (sets : SetsProperties before mc clause) :
    validateSetScope mc (collectBoundVars mc).dedup clause = .ok () := by
  rw [validateSetScope, checkScope_ok fun x mem => mem_dedup.mp mem]
  apply checkScope_ok
  intro x mem
  rw [mem_dedup]
  obtain ⟨assignment, inside, here⟩ := mem_flatMap.mp mem
  obtain ⟨var, prop, value, rfl, listed, inScope⟩ := sets.property assignment inside
  rcases mem_cons.mp here with rfl | here
  · exact mem_collectBoundVars listed
  · exact inScope x here

/-- A MATCH that passes all its variables on sets what it would set on its own. -/
theorem executePipelineMutation_eq (sets : SetsProperties before mc clause)
    (apart : (setAfterMatch mc clause).Apart before) :
    executePipelineMutation store platform rest edgeOf before mc (collectBoundVars mc).dedup
        clause =
      ofMutation (Prod.snd <$> (setAfterMatch mc clause).execute store
        (onAccess runtime platform now rest) params before) := by
  rw [executePipelineMutation, validateSetScope_ok sets]
  simp only [executeWithStage_withVars, setAfterMatch, Write.execute, compileMatchRows_eq]
  cases found : compileMatch before (fun _ => false) mc with
  | error e => rfl
  | ok rows =>
    have folds : ∀ row ∈ rows, ∀ count : Nat,
        clause.assignments.foldlM (pipelineAssign store platform
          (passedOn platform rest before edgeOf (collectBoundVars mc).dedup row)) count =
        ofMutation (clause.assignments.foldlM (applyRowAssignment store
          (onAccess runtime platform now rest) params (matchRowOf mc row)) count) := by
      intro row mem count
      obtain ⟨carried, alike⟩ := carried_passedOn platform rest before edgeOf
        (nodup_dedup (collectBoundVars mc)) row
      rw [ofMutation_foldlM]
      apply foldlM_congr_mem
      intro assignment inside count
      have away := apart rows found row mem assignment inside
      obtain ⟨var, prop, value, rfl, listed, _⟩ := sets.property assignment inside
      have present := sets.bound rows found row mem var listed
      obtain ⟨node, is⟩ := Option.isSome_iff_exists.mp present
      exact pipelineAssign_eq store runtime params platform now rest listed is
        (carried var (mem_dedup.mpr (mem_collectBoundVars listed)) node is)
        (fun x looked => alike x (away x looked).1) count
    have body : Prod.snd <$> applyMatchMutationBody store (onAccess runtime platform now rest)
        params ⟨none, some mc, .set clause, none, none⟩ (rows.map (matchRowOf mc)) =
        (rows.foldlM (fun count row => clause.assignments.foldlM (applyRowAssignment store
          (onAccess runtime platform now rest) params (matchRowOf mc row)) count) 0 >>=
            fun count => pure { propertiesSet := count } : MutationM σ GqlMutationResult) := by
      simp only [applyMatchMutationBody, foldlM_map, projectReturn, pure_bind, map_bind, map_pure]
    change applyPipelineSet store platform (rows.map (passedOn platform rest before edgeOf
      (collectBoundVars mc).dedup)) clause = ofMutation (Prod.snd <$> applyMatchMutationBody store
        (onAccess runtime platform now rest) params ⟨none, some mc, .set clause, none, none⟩
        (rows.map (matchRowOf mc)))
    rw [body, ofMutation_bind, ofMutation_foldlM, applyPipelineSet, foldlM_map]
    exact congrArg (· >>= _) (foldlM_congr_mem folds 0)

end Equal

def persons : MatchClause := ⟨[anyPerson], none⟩

def setCopy (value : Expr) : SetClause := ⟨[.property "n" "copy" value]⟩

/-- `MATCH (n:Person) CREATE (:Copy $props)` -/
def createCopy : Write :=
  .matched (fun _ => false) persons
    ⟨none, some persons, .create ⟨[.node none "Copy" [] (some (.paramRef (.named "props")))]⟩,
      none, none⟩

def ageParams : Params := fun name =>
  if name = "props" then some (.map [("age", .int 30)]) else none

def noEdge (id : Nat) : Except Error Edge := .error (.edgeNotFound id)

def propertiesUnder (key : String) (s : ListGraph) : List (Option Property) :=
  s.graph.nodes.map fun node => node.properties.get? key

end ErmyaGraph.Gql
