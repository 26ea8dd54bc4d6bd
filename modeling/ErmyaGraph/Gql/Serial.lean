import ErmyaGraph.Gql.MergeOnce
import ErmyaGraph.Gql.ListStore

/-! # Clients one after another

Where what every statement found still stands when it writes, clients get what
they would get one after the other. Two clients that both miss a node before
either makes it make two. -/

namespace ErmyaGraph.Gql

open Outcome Phases ListGraph

section Serially

variable {ι σ : Type} {store : GraphStore σ} {runtime : Runtime}

/-- A MERGE with nothing in front of it. -/
structure MutationRequest.Merges (request : MutationRequest) (clause : MergeClause) : Prop where
  unwind : request.statement.unwindClause = none
  matching : request.statement.matchClause = none
  mutation : request.statement.mutation = .merge clause

/-- A MERGE whose later runs find what the first one made. -/
structure MutationRequest.MergesOnce (runtime : Runtime) (request : MutationRequest)
    (clause : MergeClause) : Prop extends request.Merges clause where
  steady : clause.Steady runtime request.params
  picks : Picks request.pick

variable {request : MutationRequest}

theorem alone_merges {clause : MergeClause} (merges : request.Merges clause) (s : σ) :
    (mutationClient store runtime request).alone s =
      let lookup := mergeLookup runtime request.pick (store.access s) clause
      (answer (applyMergeWrite store runtime request.params clause lookup) s,
        final (applyMergeWrite store runtime request.params clause lookup) s) := by
  have looked : lookUp runtime request (store.access s) =
      .inl (.merge clause (mergeLookup runtime request.pick (store.access s) clause)) := by
    rw [lookUp, merges.unwind, merges.matching]
    dsimp only
    rw [merges.mutation]
  rw [Client.alone]
  simp only [mutationClient, looked]
  rfl

variable {contents : σ → Contents} {clause : MergeClause} (writes : store.Writes contents)
include writes

theorem alone_grown (merges : request.MergesOnce runtime clause) {before : Contents}
    (absent : ∀ id, ¬Bears before clause.label (lookupProps runtime clause) id) {id : Nat} {s : σ}
    (grown : Grown before clause.label (lookupProps runtime clause) id (contents s)) :
    Grown before clause.label (lookupProps runtime clause) id
      (contents ((mutationClient store runtime request).alone s).2) := by
  rw [alone_merges merges.toMerges]
  have serves := writes.serves s
  cases found : (mergeLookup runtime request.pick (store.access s) clause).existingId with
  | none => exact absurd found (lookup_of_bears serves merges.picks grown.bears)
  | some other =>
    rw [grown.only absent (bears_of_lookup serves merges.picks found)] at found
    exact (sat_applyMergeWrite_existing writes merges.steady found grown).final

theorem alone_new (merges : request.MergesOnce runtime clause) {s : σ}
    (absent : ∀ id, ¬Bears (contents s) clause.label (lookupProps runtime clause) id) :
    let last := (mutationClient store runtime request).alone s
    (∃ id, Grown (contents s) clause.label (lookupProps runtime clause) id (contents last.2)) ∨
      contents last.2 = contents s ∧ ∀ output, last.1 ≠ .ok output := by
  rw [alone_merges merges.toMerges]
  have missing : (mergeLookup runtime request.pick (store.access s) clause).existingId = none := by
    by_contra found
    obtain ⟨id, found⟩ := Option.ne_none_iff_exists'.mp found
    exact absent id (bears_of_lookup (writes.serves s) merges.picks found)
  obtain ⟨done, failed⟩ := (sat_applyMergeWrite_new writes merges.steady missing rfl).outcome
  cases answered : answer (applyMergeWrite store runtime request.params clause
      (mergeLookup runtime request.pick (store.access s) clause)) s with
  | ok output => exact .inl (done output answered)
  | error e => exact (failed e answered).symm.imp_right fun same =>
    ⟨same, fun output wrong => by cases answered.symm.trans wrong⟩

theorem serially_merges {requests : ι → MutationRequest}
    (merges : ∀ i, (requests i).MergesOnce runtime clause) {s : σ}
    (absent : ∀ id, ¬Bears (contents s) clause.label (lookupProps runtime clause) id)
    (order : List ι) :
    let last := serially (fun i => mutationClient store runtime (requests i)) order s
    (∃ id, Grown (contents s) clause.label (lookupProps runtime clause) id (contents last.2)) ∨
      contents last.2 = contents s ∧ ∀ i output, (i, .ok output) ∉ last.1 := by
  induction order generalizing s with
  | nil => exact .inr ⟨rfl, fun _ _ => List.not_mem_nil⟩
  | cons first rest ih =>
    rcases alone_new writes (merges first) absent with ⟨id, grown⟩ | ⟨same, failed⟩
    · refine .inl ⟨id, ?_⟩
      let keeps (s' : σ) : Prop :=
        Grown (contents s) clause.label (lookupProps runtime clause) id (contents s')
      have each : ∀ i ∈ rest, ∀ s', keeps s' →
          keeps ((mutationClient store runtime (requests i)).alone s').2 :=
        fun i _ s' held => alone_grown writes (merges i) absent held
      exact serially_keeps each grown
    · rw [← same] at absent ⊢
      refine (ih absent).imp_right fun kept => ⟨kept.1, fun i output mem => ?_⟩
      rcases List.mem_cons.mp mem with here | later
      · exact failed output (congrArg Prod.snd here).symm
      · exact kept.2 i output later

end Serially

/-- Where what every statement found still stands when it writes, clients get what they get one
after the other, and however many send one MERGE, it makes one node where it succeeds. -/
theorem mutations_serial {ι σ : Type} [DecidableEq ι] {store : GraphStore σ} {runtime : Runtime}
    (requests : ι → MutationRequest) (s : σ) (schedule : List ι)
    (undisturbed : (start s).Undisturbed (fun i => mutationClient store runtime (requests i))
      schedule) :
    let clients := fun i => mutationClient store runtime (requests i)
    let last := (start s).run clients schedule
    last.Serial clients s ∧
      ∀ (contents : σ → Contents) (clause : MergeClause), store.Writes contents →
        (∀ i, (requests i).MergesOnce runtime clause) →
        (∀ id, ¬Bears (contents s) clause.label (lookupProps runtime clause) id) →
        (∃ id, Grown (contents s) clause.label (lookupProps runtime clause) id
          (contents last.state)) ∨
          contents last.state = contents s ∧ ∀ i output, last.stages i ≠ .answered (.ok output) := by
  have serial := (serial_start s).run undisturbed
  refine ⟨serial, fun contents clause writes merges absent => ?_⟩
  have made := serially_merges writes merges absent
    (((start s).run (fun i => mutationClient store runtime (requests i)) schedule).answers.map
      Prod.fst)
  rw [serial.alone] at made
  refine made.imp_right fun kept => ⟨kept.1, fun i output answered => ?_⟩
  exact kept.2 i output ((serial.answered i (.ok output)).mp answered)

theorem writes_listStore : listStore.Writes fun s => s.graph.contents where
  serves s := s.graph.serves
  addNode label props s := by
    refine ⟨?_, rfl, s.newNode label props, rfl, rfl, s.findNode_addNode label props⟩
    refine Option.eq_none_iff_forall_not_mem.mpr fun node here => ?_
    obtain ⟨mem, named⟩ := PropertyGraph.findNode_eq_some.mp here
    exact s.newNode_fresh (List.mem_map.mpr ⟨node, mem, named⟩)
  updateNode id node s := by
    rintro rfl
    unfold Sat
    simp only [listStore, EStateM.run]
    split
    · next done =>
        split at done
        · next here =>
            cases done
            exact ⟨rfl, s.findNode_updateNode here⟩
        · cases done
    · next failed =>
        split at failed
        · cases failed
        · cases failed
          rfl

/-- Expressions of which only literals have values. -/
def literalsOnly : Runtime where
  evaluators := {
    float := ⟨fun _ => 0, fun _ _ => 0, fun _ _ => 0⟩
    surfaceName := fun _ => ""
    scalar := fun _ expr _ =>
      match expr with
      | .literal value => compileLiteral value
      | _ => .null
    binary := fun _ _ _ => .null
    unary := fun _ _ => .null
    debugValues := fun _ => ""
    debugRow := fun _ => ""
    onBinding := fun _ _ => .null
    aggregateOverBindings := fun _ _ => .null
    sliceKey := fun _ => ""
    bindingKey := fun _ => "" }
  debugClause _ := ""
  debugValue _ := ""

/-- `MERGE (n:Person {name: 'Ada'})` -/
def mergeAda : MergeClause where
  var := some "n"
  label := "Person"
  props := [("name", .literal (.str "Ada"))]
  onCreate := none
  onMatch := none
  returnVar := none

def mergeRequest : MutationRequest where
  statement := ⟨none, none, .merge mergeAda, none, none⟩
  pick := List.head?
  late _ := false

theorem mergeRequest_once : mergeRequest.MergesOnce literalsOnly mergeAda where
  unwind := rfl
  matching := rfl
  mutation := rfl
  steady := ⟨List.nodup_singleton _, nofun, nofun⟩
  picks := ⟨List.mem_of_head?, List.head?_eq_none_iff.mp⟩

theorem empty_absent (id : Nat) :
    ¬Bears empty.graph.contents mergeAda.label (lookupProps literalsOnly mergeAda) id :=
  fun ⟨_, here, _⟩ => nomatch here

/-- In turn, two clients make one node. -/
theorem mutations_serial_in_turn :
    let clients := fun _ : Bool => mutationClient listStore literalsOnly mergeRequest
    let last := (start empty).run clients [false, false, true, true]
    last.Serial clients empty ∧
      ((∃ id, Grown empty.graph.contents mergeAda.label (lookupProps literalsOnly mergeAda)
        id last.state.graph.contents) ∨
        last.state.graph.contents = empty.graph.contents ∧
          ∀ i output, last.stages i ≠ .answered (.ok output)) := by
  have undisturbed : (start empty).Undisturbed
      (fun _ : Bool => mutationClient listStore literalsOnly mergeRequest)
      [false, false, true, true] :=
    undisturbed_twice rfl (undisturbed_twice rfl trivial)
  obtain ⟨serial, once⟩ := mutations_serial (fun _ : Bool => mergeRequest) empty
    [false, false, true, true] undisturbed
  exact ⟨serial, once (fun s => s.graph.contents) mergeAda writes_listStore
    (fun _ => mergeRequest_once) empty_absent⟩

theorem length_lt_two {graph : PropertyGraph} (id : Nat)
    (others : ∀ other, other ≠ id → graph.contents.nodes other = none) :
    graph.nodes.length < 2 := by
  have within : graph.nodes.map Node.id ⊆ [id] := by
    intro other mem
    obtain ⟨node, here, rfl⟩ := List.mem_map.mp mem
    rw [List.mem_singleton]
    by_contra apart
    have there : graph.contents.nodes node.id = some node :=
      PropertyGraph.findNode_eq_some.mpr ⟨here, rfl⟩
    rw [others node.id apart] at there
    cases there
  have few := (graph.nodes_nodup.subperm within).length_le
  rw [List.length_map] at few
  exact Nat.lt_succ_of_le few

/-- With both lookups before both writes, two clients make two nodes, which they make in no order
one after the other. -/
theorem mutations_not_serial :
    let clients := fun _ : Bool => mutationClient listStore literalsOnly mergeRequest
    let last := (start empty).run clients [false, true, false, true]
    (last.answers.map fun (i, answer) =>
        (i, answer.toOption.map fun output => output.2.nodesCreated)) =
        [(false, some 1), (true, some 1)] ∧
      last.state.graph.nodes.length = 2 ∧
      ∀ order, (serially clients order empty).2.graph.nodes.length < 2 := by
  refine ⟨by decide, by decide, fun order => ?_⟩
  rcases serially_merges writes_listStore (fun _ : Bool => mergeRequest_once) empty_absent order with
    ⟨id, grown⟩ | ⟨same, -⟩
  · exact length_lt_two id grown.others
  · refine length_lt_two 0 fun other _ => ?_
    rw [same]
    rfl

end ErmyaGraph.Gql
