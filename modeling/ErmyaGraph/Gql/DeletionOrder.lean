import ErmyaGraph.Gql.Deletion
import ErmyaGraph.Gql.Serial

/-! # The order in which DELETE names

A statement works off its rows and variables in order. It deletes what they name as
a set where no named node has an edge that is named too. -/

namespace ErmyaGraph.Gql

variable {t : Target} {id : Nat}

open Outcome List

/-- The errors of a stage after WITH. -/
inductive StageError where
  | mutation (error : MutationError)
  | gqlMutationError (message : String)
deriving DecidableEq, Repr

def unboundInStage (var : String) : StageError :=
  .gqlMutationError ("DELETE target variable '" ++ var ++
    "' is not bound in the final pipeline stage (may have been dropped by an earlier WITH)")

section Forms

variable {σ : Type} (store : GraphStore σ)

def stageDeleteVar (detach : Bool) (b : Binding) (deleted : Deleted) (var : String) :
    EStateM StageError σ Deleted :=
  match b.pm.nodes var, b.pm.edges var with
  | some node, _ => (deleteNodeRow store detach deleted node.id).adaptExcept .mutation
  | none, some edge => (deleteEdgeRow store deleted edge.id).adaptExcept .mutation
  | none, none => throw (unboundInStage var)

def applyPipelineDelete (bindings : List Binding) (clause : DeleteClause) :
    EStateM StageError σ Deleted :=
  bindings.foldlM (fun deleted b =>
    clause.vars.foldlM (stageDeleteVar store clause.detach b) deleted) {}

/-- The rows of a MATCH, or the bindings after the last WITH. -/
inductive DeleteRows where
  | matched (rows : List MatchRow)
  | stage (bindings : List Binding)

structure DeleteInput where
  rows : DeleteRows
  vars : List String

namespace DeleteInput

def run (detach : Bool) (input : DeleteInput) : EStateM StageError σ Deleted :=
  match input.rows with
  | .matched rows => (rows.foldlM (deleteRow store ⟨detach, input.vars⟩) {}).adaptExcept .mutation
  | .stage bindings => applyPipelineDelete store bindings ⟨detach, input.vars⟩

end DeleteInput

end Forms

def MatchRow.target (row : MatchRow) (var : String) : Option Target :=
  Gql.target (row.nodes var) (row.edges var)

def Binding.target (b : Binding) (var : String) : Option Target :=
  Gql.target ((b.pm.nodes var).map Node.id) ((b.pm.edges var).map Edge.id)

namespace DeleteInput

/-- What the variables stand for, row after row. -/
def targets (input : DeleteInput) : List (Option Target) :=
  match input.rows with
  | .matched rows => rows.flatMap fun row => input.vars.map row.target
  | .stage bindings => bindings.flatMap fun b => input.vars.map b.target

/-- Every variable is bound, and together they stand for a set. -/
structure Names (input : DeleteInput) (named : List Target) : Prop where
  bound : none ∉ input.targets
  mem_iff : ∀ t, some t ∈ input.targets ↔ t ∈ named

end DeleteInput

section Folds

variable {σ : Type} {store : GraphStore σ} {detach : Bool}

theorem adaptExcept_bind {ε ε' α β : Type} (f : ε → ε') (x : EStateM ε σ α)
    (g : α → EStateM ε σ β) :
    (x >>= g).adaptExcept f = x.adaptExcept f >>= fun a => (g a).adaptExcept f := by
  funext s
  change EStateM.adaptExcept f (EStateM.bind x g) s = EStateM.bind _ _ s
  unfold EStateM.bind EStateM.adaptExcept
  dsimp only
  cases x s with
  | ok a s' => rfl
  | error e s' => rfl

theorem adaptExcept_foldlM {ε ε' α β : Type} (f : ε → ε') (step : α → β → EStateM ε σ α)
    (items : List β) (init : α) :
    (items.foldlM step init).adaptExcept f =
      items.foldlM (fun acc item => (step acc item).adaptExcept f) init := by
  induction items generalizing init with
  | nil => rfl
  | cons item rest ih =>
    rw [foldlM_cons, foldlM_cons, adaptExcept_bind]
    exact bind_congr ih

theorem sat_adaptExcept {ε ε' α : Type} {f : ε → ε'} {x : EStateM ε σ α} {s : σ}
    {post : α → σ → Prop} {fail : ε' → σ → Prop} :
    Sat (x.adaptExcept f) s post fail ↔ Sat x s post fun e => fail (f e) := by
  unfold Sat EStateM.run EStateM.adaptExcept
  dsimp only
  cases x s with
  | ok a s' => rfl
  | error e s' => rfl

/-- The deletion of a target among the errors of a stage. -/
def stageDelete (store : GraphStore σ) (detach : Bool) (deleted : Deleted) (t : Target) :
    EStateM StageError σ Deleted :=
  (deleteTarget store detach deleted t).adaptExcept .mutation

theorem foldlM_targets {α : Type} {step : α → Deleted → String → EStateM StageError σ Deleted}
    {named : α → String → Option Target} (vars : List String)
    (known : ∀ row var t, named row var = some t → ∀ deleted,
      step row deleted var = stageDelete store detach deleted t) (rows : List α)
    (bound : none ∉ rows.flatMap fun row => vars.map (named row)) (deleted : Deleted) :
    rows.foldlM (fun deleted row => vars.foldlM (step row) deleted) deleted =
      ((rows.flatMap fun row => vars.map (named row)).reduceOption).foldlM
        (stageDelete store detach) deleted := by
  have one : ∀ row (vars : List String) (deleted : Deleted), none ∉ vars.map (named row) →
      vars.foldlM (step row) deleted =
        ((vars.map (named row)).reduceOption).foldlM (stageDelete store detach) deleted := by
    intro row vars
    induction vars with
    | nil => exact fun _ _ => rfl
    | cons var rest ih =>
      intro deleted bound
      rw [map_cons, mem_cons, not_or] at bound
      obtain ⟨t, stands⟩ := Option.ne_none_iff_exists'.mp (Ne.symm bound.1)
      rw [map_cons, stands, reduceOption_cons_of_some, foldlM_cons,
        foldlM_cons, known row var t stands]
      exact bind_congr fun deleted' => ih deleted' bound.2
  induction rows generalizing deleted with
  | nil => rfl
  | cons row rest ih =>
    rw [flatMap_cons, mem_append, not_or] at bound
    rw [flatMap_cons, reduceOption_append, foldlM_append, foldlM_cons, one row vars deleted bound.1]
    exact bind_congr fun deleted' => ih bound.2 deleted'

/-- Either form deletes what its variables stand for, one after the other. -/
theorem run_targets {input : DeleteInput} (bound : none ∉ input.targets) :
    input.run store detach = input.targets.reduceOption.foldlM (stageDelete store detach) {} := by
  obtain ⟨rows, vars⟩ := input
  cases rows with
  | matched rows =>
    have rowwise : (rows.foldlM (deleteRow store ⟨detach, vars⟩) {}).adaptExcept .mutation =
        rows.foldlM (fun deleted row => vars.foldlM (fun deleted var =>
          (deleteVar store detach row deleted var).adaptExcept StageError.mutation) deleted)
          {} := by
      rw [adaptExcept_foldlM]
      congr
      funext deleted row
      exact adaptExcept_foldlM _ _ _ _
    refine rowwise.trans (foldlM_targets vars ?_ rows bound {})
    intro row var t stands deleted
    simp only [MatchRow.target, target] at stands
    rw [deleteVar, stageDelete]
    cases node : row.nodes var with
    | some id =>
      rw [node] at stands
      cases stands
      rfl
    | none =>
      cases edge : row.edges var with
      | some id =>
        rw [node, edge] at stands
        cases stands
        rfl
      | none =>
        rw [node, edge] at stands
        cases stands
  | stage bindings =>
    refine foldlM_targets vars ?_ bindings bound {}
    intro b var t stands deleted
    simp only [Binding.target, target] at stands
    rw [stageDeleteVar, stageDelete]
    cases node : b.pm.nodes var with
    | some found =>
      rw [node] at stands
      cases stands
      rfl
    | none =>
      cases edge : b.pm.edges var with
      | some found =>
        rw [node, edge] at stands
        cases stands
        rfl
      | none =>
        rw [node, edge] at stands
        cases stands

end Folds

/-- Named nodes and edges are gone and, with DETACH, the edges of the nodes; and so many are
counted. -/
structure Removed (before : Contents) (detach : Bool) (named : List Target)
    (stats : GqlMutationResult) (after : Contents) : Prop where
  node_iff : ∀ id node, after.nodes id = some node ↔ before.nodes id = some node ∧ .node id ∉ named
  edge_iff : ∀ id edge, after.edges id = some edge ↔
    before.edges id = some edge ∧ ¬(.edge id ∈ named ∨ detach = true ∧ Touched named edge)
  nodesDeleted : Numbers stats.nodesDeleted fun id =>
    (before.nodes id).isSome ∧ after.nodes id = none
  edgesDeleted : Numbers stats.edgesDeleted fun id =>
    (before.edges id).isSome ∧ after.edges id = none

def Encloses (before : Contents) (named : List Target) : Prop :=
  ∀ id edge, before.edges id = some edge → Touched named edge → .edge id ∈ named

/-- All that matters is the set that is named: whether it is deleted, and what is left. -/
structure DeletesSet {σ : Type} (store : GraphStore σ) (contents : σ → Contents) (s : σ)
    (detach : Bool) (named : List Target) : Prop where
  order : ∀ input input' : DeleteInput, input.Names named → input'.Names named →
    succeeds (input.run store detach) s = succeeds (input'.run store detach) s ∧
      contents (final (input.run store detach) s) = contents (final (input'.run store detach) s)
  removed : ∀ input : DeleteInput, input.Names named → ∀ deleted s',
    (input.run store detach).run s = .ok deleted s' →
      Removed (contents s) detach named deleted.stats (contents s')
  plain : detach = false → ∀ input : DeleteInput, input.Names named →
    (succeeds (input.run store detach) s = true ↔ Encloses (contents s) named)

/-- No edge of a named node is named, and without DETACH there is none. -/
def Apart (before : Contents) (detach : Bool) (named : List Target) : Prop :=
  ∀ id edge, before.edges id = some edge → Touched named edge → detach = true ∧ .edge id ∉ named

/-- Only nodes are named, each of which has an edge. -/
def Stuck (before : Contents) (named : List Target) : Prop :=
  ∀ t ∈ named, ∃ id, t = .node id ∧ ∃ e edge, before.edges e = some edge ∧
    (edge.source = id ∨ edge.target = id)

theorem Touched.mono {named named' : List Target} {edge : Edge} (touched : Touched named edge)
    (more : ∀ t ∈ named, t ∈ named') : Touched named' edge :=
  Or.imp (more _) (more _) touched

theorem Fine.first {before : Contents} {detach : Bool} (refused : ¬Fine before detach [] t) :
    detach = false ∧ ∃ id, t = .node id ∧
      ∃ e edge, before.edges e = some edge ∧ (edge.source = id ∨ edge.target = id) := by
  cases t with
  | node id =>
    refine ⟨Bool.eq_false_iff.mpr fun detached => refused (.inr (.inl detached)), id, rfl, ?_⟩
    by_contra isolated
    exact refused (.inr (.inr fun e edge here touches =>
      absurd ⟨e, edge, here, touches⟩ isolated))
  | edge id => exact absurd (.inr fun _ _ touched => by simp [Touched] at touched) refused

section Orders

variable {before : Contents} {detach : Bool} {named : List Target}

theorem Apart.allFine (apart : Apart before detach named) (ts earlier : List Target)
    (sub : ∀ t ∈ ts, t ∈ named) (done : ∀ t ∈ earlier, t ∈ named) :
    AllFine before detach earlier ts := by
  induction ts generalizing earlier with
  | nil => trivial
  | cons t rest ih =>
    have mem := sub t mem_cons_self
    refine ⟨?_, ih (t :: earlier) (fun other later => sub other (mem_cons_of_mem t later))
      (forall_mem_cons.mpr ⟨mem, done⟩)⟩
    cases t with
    | node id =>
      rcases Bool.eq_false_or_eq_true detach with detached | plain
      · exact .inr (.inl detached)
      · refine .inr (.inr fun e edge here touches => ?_)
        rw [(apart e edge here (touched_of_mem mem touches)).1] at plain
        cases plain
    | edge id =>
      exact .inr fun edge here touched =>
        (apart id edge here (touched.mono done)).2 mem

theorem allFine_nodes (nodes : List Nat) (earlier : List Target) :
    AllFine before true earlier (nodes.map .node) := by
  induction nodes generalizing earlier with
  | nil => trivial
  | cons id rest ih => exact ⟨.inr (.inl rfl), ih _⟩

theorem allFine_edges (edges : List Nat) (earlier : List Target)
    (untouched : ∀ edge, ¬Touched earlier edge) :
    AllFine before detach earlier (edges.map .edge) := by
  induction edges generalizing earlier with
  | nil => trivial
  | cons id rest ih =>
    exact ⟨.inr fun edge _ => untouched edge, ih _ fun edge touched =>
      untouched edge (touched_cons_edge.mp touched)⟩

def Target.node? : Target → Option Nat
  | .node id => some id
  | .edge _ => none

def Target.edge? : Target → Option Nat
  | .node _ => none
  | .edge id => some id

theorem Target.node?_eq_some : t.node? = some id ↔ t = .node id := by
  cases t <;> simp [node?]

theorem Target.edge?_eq_some : t.edge? = some id ↔ t = .edge id := by
  cases t <;> simp [edge?]

def edgesFirst (named : List Target) : List Target :=
  (named.filterMap Target.edge?).map .edge ++ (named.filterMap Target.node?).map .node

theorem mem_edgesFirst : t ∈ edgesFirst named ↔ t ∈ named := by
  cases t with
  | node id => simp [edgesFirst, Target.node?_eq_some]
  | edge id => simp [edgesFirst, Target.edge?_eq_some]

theorem allFine_edgesFirst : AllFine before true [] (edgesFirst named) :=
  allFine_append.mpr ⟨allFine_edges _ _ fun _ touched => by simp [Touched] at touched,
    allFine_nodes _ _⟩

end Orders

/-- One row of as many variables as there are targets. -/
def oneRow (ts : List Target) : DeleteInput where
  rows := .matched [{
    nodes := fun var => match ts[var.length]? with
      | some (.node id) => some id
      | _ => none
    edges := fun var => match ts[var.length]? with
      | some (.edge id) => some id
      | _ => none }]
  vars := (List.range ts.length).map fun i => String.ofList (List.replicate i 'x')

theorem targets_oneRow (ts : List Target) : (oneRow ts).targets = ts.map some := by
  apply ext_getElem
  · simp [DeleteInput.targets, oneRow]
  · intro i left right
    have inside : i < ts.length := by simpa using right
    simp only [DeleteInput.targets, oneRow, flatMap_cons, flatMap_nil, append_nil,
      map_map, getElem_map, getElem_range, Function.comp_apply, MatchRow.target,
      String.length_ofList, length_replicate, List.getElem?_eq_getElem inside]
    cases ts[i] with
    | node id => rfl
    | edge id => rfl

theorem names_oneRow (ts named : List Target) (same : ∀ t, t ∈ ts ↔ t ∈ named) :
    (oneRow ts).Names named where
  bound := by
    rw [targets_oneRow]
    simp
  mem_iff t := by
    rw [targets_oneRow, ← same]
    simp

theorem reduceOption_map_some {α : Type} (items : List α) :
    (items.map some).reduceOption = items := by
  induction items with
  | nil => rfl
  | cons item rest ih => rw [map_cons, reduceOption_cons_of_some, ih]

section Exact

variable {σ : Type} {store : GraphStore σ} {contents : σ → Contents} {s : σ} {detach : Bool}
  {named : List Target}

theorem DeleteInput.Names.order {input : DeleteInput} (names : input.Names named) :
    ∃ ts : List Target, (∀ t, t ∈ ts ↔ t ∈ named) ∧
      input.run store detach = ts.foldlM (stageDelete store detach) {} :=
  ⟨input.targets.reduceOption, fun t => reduceOption_mem_iff.trans (names.mem_iff t),
    run_targets names.bound⟩

theorem run_oneRow (ts : List Target) :
    (oneRow ts).run store detach = ts.foldlM (stageDelete store detach) {} := by
  have bound := (names_oneRow ts ts fun _ => Iff.rfl).bound
  rw [run_targets bound, targets_oneRow, reduceOption_map_some]

theorem sat_stageDeletes (removes : store.Removes contents) (detach : Bool) (ts : List Target)
    (there : ∀ t ∈ ts, t.There (contents s)) :
    Sat (ts.foldlM (stageDelete store detach) {}) s
      (fun deleted s' => AllFine (contents s) detach [] ts ∧
        Cut (contents s) ts (contents s') ∧ Tally (contents s) ts deleted)
      (fun _ s' => ¬AllFine (contents s) detach [] ts ∧
        ∃ named', Cut (contents s) named' (contents s')) := by
  have same : ∀ t, t ∈ ts.reverse ++ [] ↔ t ∈ ts := fun t => by simp
  unfold stageDelete
  rw [← adaptExcept_foldlM, sat_adaptExcept]
  refine (sat_deleteTargets removes detach ts (cut_nil _) (tally_nil _) there).mono
    (fun _ _ all => ⟨all.1, all.2.1.congr same, all.2.2.congr same⟩)
    fun _ _ failed => ⟨failed.1, failed.2.imp fun _ left => left.2⟩

theorem sat_first_refused (removes : store.Removes contents) (rest : List Target)
    (there : t.There (contents s)) (refused : ¬Fine (contents s) detach [] t) :
    Sat ((t :: rest).foldlM (stageDelete store detach) {}) s
      (fun _ _ => False) (fun _ s' => contents s' = contents s) := by
  rw [foldlM_cons, sat_bind, stageDelete, sat_adaptExcept]
  apply (sat_deleteTarget removes (cut_nil _) (tally_nil _) there).mono
  · exact fun _ _ done => absurd done.1 refused
  · exact fun _ _ failed => failed.2

theorem sat_first_done (removes : store.Removes contents) (rest : List Target)
    (there : ∀ t' ∈ t :: rest, t'.There (contents s)) (fine : Fine (contents s) detach [] t) :
    Sat ((t :: rest).foldlM (stageDelete store detach) {}) s
      (fun _ s' => ∃ named', t ∈ named' ∧ Cut (contents s) named' (contents s'))
      (fun _ s' => ∃ named', t ∈ named' ∧ Cut (contents s) named' (contents s')) := by
  rw [forall_mem_cons] at there
  rw [foldlM_cons, sat_bind, stageDelete, sat_adaptExcept]
  apply (sat_deleteTarget removes (cut_nil _) (tally_nil _) there.1).mono
  · intro deleted s' done
    have later := sat_deleteTargets removes detach rest done.2.1 done.2.2 there.2
    unfold stageDelete
    rw [← adaptExcept_foldlM, sat_adaptExcept]
    apply later.mono
    · intro _ _ all
      exact ⟨_, mem_append_right _ mem_cons_self, all.2.1⟩
    · intro _ _ failed
      obtain ⟨named', more, cut⟩ := failed.2
      exact ⟨named', more t mem_cons_self, cut⟩
  · intro _ _ failed
    exact absurd fine failed.1

theorem succeeds_iff_of_sat {ε α : Type} {x : EStateM ε σ α} {p : Prop}
    (sat : Sat x s (fun _ _ => p) fun _ _ => ¬p) : succeeds x s = true ↔ p := by
  unfold Sat at sat
  unfold Outcome.succeeds
  cases ran : x.run s with
  | ok a s' =>
    rw [ran] at sat
    exact iff_of_true rfl sat
  | error e s' =>
    rw [ran] at sat
    exact iff_of_false Bool.false_ne_true sat

theorem removed_of_cut {before after : Contents} {deleted : Deleted} (cut : Cut before named after)
    (tally : Tally before named deleted) (covers : detach = false → Encloses before named) :
    Removed before detach named deleted.stats after where
  node_iff := cut.node_iff
  edge_iff id edge := by
    rw [cut.edge_iff]
    refine and_congr_right fun here => not_congr ⟨?_, Or.imp_right And.right⟩
    rintro (mem | touched)
    · exact .inl mem
    · rcases Bool.eq_false_or_eq_true detach with detached | plain
      · exact .inr ⟨detached, touched⟩
      · exact .inl (covers plain id edge here touched)
  nodesDeleted := tally.nodesDeleted.congr fun id => and_congr_right fun there => by
    obtain ⟨node, here⟩ := Option.isSome_iff_exists.mp there
    constructor
    · intro mem
      exact Option.eq_none_iff_forall_ne_some.mpr fun other left =>
        ((cut.node_iff id other).mp left).2 mem
    · intro missing
      by_contra kept
      rw [(cut.node_iff id node).mpr ⟨here, kept⟩] at missing
      cases missing
  edgesDeleted := tally.edgesDeleted.congr fun id => by
    constructor
    · rintro ⟨edge, here, gone⟩
      refine ⟨Option.isSome_of_mem here, Option.eq_none_iff_forall_ne_some.mpr fun other left => ?_⟩
      obtain ⟨here', kept⟩ := (cut.edge_iff id other).mp left
      rw [here] at here'
      exact kept (Option.some.inj here' ▸ gone)
    · rintro ⟨there, missing⟩
      obtain ⟨edge, here⟩ := Option.isSome_iff_exists.mp there
      refine ⟨edge, here, ?_⟩
      by_contra kept
      rw [(cut.edge_iff id edge).mpr ⟨here, kept⟩] at missing
      cases missing

theorem Apart.deletesSet (removes : store.Removes contents)
    (there : ∀ t ∈ named, t.There (contents s)) (apart : Apart (contents s) detach named) :
    DeletesSet store contents s detach named := by
  have runs : ∀ input : DeleteInput, input.Names named → Sat (input.run store detach) s
      (fun deleted s' => Cut (contents s) named (contents s') ∧ Tally (contents s) named deleted)
      (fun _ _ => False) := by
    intro input names
    obtain ⟨ts, same, ran⟩ := names.order
    rw [ran]
    apply (sat_stageDeletes removes detach ts fun t mem => there t ((same t).mp mem)).mono
    · exact fun _ _ all => ⟨all.2.1.congr same, all.2.2.congr same⟩
    · exact fun _ _ failed =>
        failed.1 (apart.allFine ts [] (fun t mem => (same t).mp mem) nofun)
  have covers : detach = false → Encloses (contents s) named := by
    rintro rfl e edge here touched
    cases (apart e edge here touched).1
  have succeed : ∀ input : DeleteInput, input.Names named →
      succeeds (input.run store detach) s = true := fun input names =>
    (succeeds_iff_of_sat ((runs input names).mono (fun _ _ _ => trivial)
      fun _ _ => False.elim)).mpr trivial
  have left : ∀ input : DeleteInput, input.Names named →
      Cut (contents s) named (contents (final (input.run store detach) s)) := fun input names =>
    @Sat.final _ _ _ _ _ (fun s' => Cut (contents s) named (contents s'))
      ((runs input names).mono (fun _ _ done => done.1) fun _ _ => False.elim)
  refine ⟨fun input input' names names' => ⟨?_, ?_⟩, fun input names deleted s' ran => ?_,
    fun plain input names => ?_⟩
  · rw [succeed input names, succeed input' names']
  · exact (left input names).unique (left input' names') fun _ => Iff.rfl
  · have done := (runs input names).of_ok ran
    exact removed_of_cut done.1 done.2 covers
  · exact iff_of_true (succeed input names) (covers plain)

theorem not_fine_connected {before : Contents} {e : Nat} {edge : Edge}
    (here : before.edges e = some edge) (touches : edge.source = id ∨ edge.target = id) :
    ¬Fine before false [] (.node id) := by
  rintro (known | detached | gone)
  · cases known
  · cases detached
  · rcases gone e edge here touches with mem | touched
    · cases mem
    · simp [Touched] at touched

theorem Stuck.deletesSet (removes : store.Removes contents)
    (there : ∀ t ∈ named, t.There (contents s)) (stuck : Stuck (contents s) named)
    (mem : t ∈ named) : DeletesSet store contents s false named := by
  have runs : ∀ input : DeleteInput, input.Names named → Sat (input.run store false) s
      (fun _ _ => False) (fun _ s' => contents s' = contents s) := by
    intro input names
    obtain ⟨ts, same, ran⟩ := names.order
    rw [ran]
    cases ts with
    | nil => exact absurd ((same t).mpr mem) not_mem_nil
    | cons first rest =>
      have named_first := (same first).mp mem_cons_self
      obtain ⟨id, rfl, e, edge, here, touches⟩ := stuck first named_first
      exact sat_first_refused removes rest (there _ named_first) (not_fine_connected here touches)
  have fail : ∀ input : DeleteInput, input.Names named →
      ¬succeeds (input.run store false) s = true := fun input names =>
    (succeeds_iff_of_sat ((runs input names).mono (fun _ _ => False.elim)
      fun _ _ _ => not_false)).not.mpr not_false
  have left : ∀ input : DeleteInput, input.Names named →
      contents (final (input.run store false) s) = contents s := fun input names =>
    @Sat.final _ _ _ _ _ (fun s' => contents s' = contents s)
      ((runs input names).mono (fun _ _ => False.elim) fun _ _ same => same)
  refine ⟨fun input input' names names' => ⟨?_, ?_⟩, fun input names deleted s' ran => ?_,
    fun _ input names => ?_⟩
  · rw [Bool.eq_false_iff.mpr (fail input names), Bool.eq_false_iff.mpr (fail input' names')]
  · rw [left input names, left input' names']
  · exact ((runs input names).of_ok ran).elim
  · refine iff_of_false (fail input names) fun covers => ?_
    obtain ⟨id, rfl, e, edge, here, touches⟩ := stuck t mem
    obtain ⟨other, same, -⟩ := stuck _ (covers e edge here (touched_of_mem mem touches))
    cases same

/-- A statement deletes what it names as a set exactly when the edges of a named node are not
named too and, without DETACH, there are none, or when it deletes nothing since all it names are
nodes with edges. -/
theorem delete_exact (removes : store.Removes contents)
    (there : ∀ t ∈ named, t.There (contents s)) :
    DeletesSet store contents s detach named ↔
      Apart (contents s) detach named ∨ detach = false ∧ Stuck (contents s) named := by
  constructor
  · intro holds
    by_cases apart : Apart (contents s) detach named
    · exact .inl apart
    · simp only [Apart, not_forall] at apart
      obtain ⟨e, edge, here, touched, conflict⟩ := apart
      obtain ⟨id, named_node, touches⟩ : ∃ id, .node id ∈ named ∧
          (edge.source = id ∨ edge.target = id) :=
        touched.elim (fun source => ⟨_, source, .inl rfl⟩) fun target => ⟨_, target, .inr rfl⟩
      cases detach with
      | true =>
        -- the edges first and nothing is missed, the node first and its edge is not found
        have named_edge : .edge e ∈ named := by simpa using conflict
        have names := names_oneRow (edgesFirst named) named fun t => mem_edgesFirst
        have names' := names_oneRow (.node id :: .edge e :: named) named fun t => by
          rw [← mem_cons_of_known (.tail _ named_node), ← mem_cons_of_known named_edge]
        have order := (holds.order _ _ names names').1
        rw [run_oneRow, run_oneRow] at order
        have first := (succeeds_iff_of_sat ((sat_stageDeletes removes true
          (edgesFirst named) fun t member => there t (mem_edgesFirst.mp member)).mono
          (fun _ _ all => all.1) fun _ _ failed => failed.1)).mpr allFine_edgesFirst
        rw [first] at order
        have second := (succeeds_iff_of_sat ((sat_stageDeletes removes true
          (.node id :: .edge e :: named) (forall_mem_cons.mpr ⟨there _ named_node,
            forall_mem_cons.mpr ⟨there _ named_edge, there⟩⟩)).mono
          (fun _ _ all => all.1) fun _ _ failed => failed.1)).mp order.symm
        rcases second.2.1 with known | untouched
        · simp at known
        · exact absurd (touched_cons_node.mpr (.inl touches)) (untouched edge here)
      | false =>
        refine .inr ⟨rfl, fun t member => ?_⟩
        by_contra loose
        have fine : Fine (contents s) false [] t :=
          by_contra fun refused => loose (Fine.first refused).2
        have names := names_oneRow (t :: named) named fun t' =>
          (mem_cons_of_known member t').symm
        have names' := names_oneRow (.node id :: named) named fun t' =>
          (mem_cons_of_known named_node t').symm
        have order := (holds.order _ _ names names').2
        rw [run_oneRow, run_oneRow] at order
        obtain ⟨named', taken, cut⟩ := @Sat.final _ _ _ _ _
          (fun s' => ∃ named', t ∈ named' ∧ Cut (contents s) named' (contents s'))
          (sat_first_done removes named (forall_mem_cons.mpr ⟨there t member, there⟩) fine)
        have kept := @Sat.final _ _ _ _ _ (fun s' => contents s' = contents s)
          ((sat_first_refused removes named (there _ named_node)
            (not_fine_connected here touches)).mono (fun _ _ => False.elim) fun _ _ same => same)
        exact cut.ne taken (there t member) (order.trans kept)
  · rintro (apart | ⟨rfl, stuck⟩)
    · exact apart.deletesSet removes there
    · by_cases empty : ∃ t, t ∈ named
      · obtain ⟨t, member⟩ := empty
        exact stuck.deletesSet removes there member
      · have apart : Apart (contents s) false named := fun _ _ _ touched =>
          absurd (touched.elim (fun member => ⟨_, member⟩) fun member => ⟨_, member⟩) empty
        exact apart.deletesSet removes there

end Exact

/-- The lists remove what they are told to. -/
theorem removes_listStore : listStore.Removes fun s => s.graph.contents where
  serves s := s.graph.serves
  removeNode id s := by
    unfold Sat
    simp only [listStore, EStateM.run]
    cases found : s.graph.findNode id with
    | none => exact ⟨found, rfl⟩
    | some node =>
      refine ⟨Option.isSome_of_mem found, fun other node' => ?_, fun e edge => ?_⟩
      · refine PropertyGraph.findNode_eq_some.trans ?_
        change _ ↔ s.graph.findNode other = some node' ∧ _
        rw [PropertyGraph.findNode_eq_some]
        simp only [ListGraph.removeNode, mem_filter, decide_eq_true_eq, mem_singleton,
          Target.node.injEq]
        constructor
        · rintro ⟨⟨mem, apart⟩, rfl⟩
          exact ⟨⟨mem, rfl⟩, apart⟩
        · rintro ⟨⟨mem, rfl⟩, apart⟩
          exact ⟨⟨mem, apart⟩, rfl⟩
      · refine PropertyGraph.findEdge_eq_some.trans ?_
        change _ ↔ s.graph.findEdge e = some edge ∧ _
        rw [PropertyGraph.findEdge_eq_some]
        simp only [ListGraph.removeNode, mem_filter, decide_eq_true_eq, mem_singleton,
          Target.node.injEq, reduceCtorEq, false_or, Touched, not_or]
        tauto
  removeEdge id s := by
    unfold Sat
    simp only [listStore, EStateM.run]
    cases found : s.graph.findEdge id with
    | none => exact ⟨found, rfl⟩
    | some edge =>
      refine ⟨Option.isSome_of_mem found, fun other node => ?_, fun e edge' => ?_⟩
      · change s.graph.findNode other = some node ↔ s.graph.findNode other = some node ∧ _
        simp
      · refine PropertyGraph.findEdge_eq_some.trans ?_
        change _ ↔ s.graph.findEdge e = some edge' ∧ _
        rw [PropertyGraph.findEdge_eq_some]
        simp only [ListGraph.removeEdge, mem_filter, decide_eq_true_eq, mem_singleton,
          Target.edge.injEq, reduceCtorEq, Touched, or_false]
        constructor
        · rintro ⟨⟨mem, apart⟩, rfl⟩
          exact ⟨⟨mem, rfl⟩, apart⟩
        · rintro ⟨⟨mem, rfl⟩, apart⟩
          exact ⟨⟨mem, apart⟩, rfl⟩

theorem one_two_nodup : [1, 2].Nodup := by decide

/-- `(:A)-[:T]->(:B)` -/
def joinedPair : ListGraph where
  graph := ⟨[⟨1, "A", .empty, {}⟩, ⟨2, "B", .empty, {}⟩], [⟨1, "T", 1, 2, .empty⟩],
    one_two_nodup, by decide, by decide⟩
  nextNode := 3
  nextEdge := 2
  nodes_lt := by decide
  edges_lt := by decide

def eachEdge : MatchClause where
  patterns := [⟨{ var := some "n" }, [({ var := some "r" }, { var := some "m" })]⟩]

/-- `MATCH (n)-[r]->(m) DELETE` of some variables -/
def deleteMatched (vars : List String) : DeleteInput where
  rows := .matched
    ((compileMatchRows (listStore.access joinedPair) (fun _ => false) eachEdge).toOption.getD [])
  vars := vars

theorem there_joinedPair (t : Target) (mem : t ∈ [Target.node 1, .edge 1]) :
    t.There joinedPair.graph.contents := by
  rcases mem_pair.mp mem with rfl | rfl
  · exact (rfl : (joinedPair.graph.findNode 1).isSome = true)
  · exact (rfl : (joinedPair.graph.findEdge 1).isSome = true)

/-- With DETACH the node alone is deleted with its edge, but not when the edge is named too. -/
theorem delete_exact_joinedPair :
    DeletesSet listStore (fun s => s.graph.contents) joinedPair true [.node 1] ∧
      ¬DeletesSet listStore (fun s => s.graph.contents) joinedPair true [.node 1, .edge 1] := by
  constructor
  · refine (delete_exact removes_listStore fun t member => ?_).mpr
      (.inl fun _ _ _ _ => ⟨rfl, by simp⟩)
    exact there_joinedPair t (mem_cons.mpr (.inl (mem_singleton.mp member)))
  · rw [delete_exact removes_listStore there_joinedPair]
    rintro (apart | ⟨plain, -⟩)
    · exact (apart 1 ⟨1, "T", 1, 2, .empty⟩ rfl (.inl mem_cons_self)).2 (by simp)
    · cases plain

/-- An edge that is named before its node is deleted with it. Named after it, without DETACH the
node is refused, and with DETACH the node is gone and its edge is not found. -/
theorem node_before_edge :
    (deleteMatched ["r", "n"]).targets = [some (.edge 1), some (.node 1)] ∧
      (deleteMatched ["n", "r"]).targets = [some (.node 1), some (.edge 1)] ∧
      (∀ detach, succeeds ((deleteMatched ["r", "n"]).run listStore detach) joinedPair = true) ∧
      (∀ detach, succeeds ((deleteMatched ["n", "r"]).run listStore detach) joinedPair = false) ∧
      ((final ((deleteMatched ["n", "r"]).run listStore false) joinedPair).graph.nodes.map
        Node.id = [1, 2]) ∧
      (final ((deleteMatched ["n", "r"]).run listStore true) joinedPair).graph.nodes.map
        Node.id = [2] := by
  decide +kernel

end ErmyaGraph.Gql
