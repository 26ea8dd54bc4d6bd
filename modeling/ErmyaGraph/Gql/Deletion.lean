import ErmyaGraph.Gql.MergeOnce

/-! # What DELETE removes

A clause takes what its variables stand for one after the other. A node goes with
its edges, so that an edge named after its node is no longer found, and without
DETACH a node named before its edges is refused. -/

namespace ErmyaGraph.Gql

variable {id : Nat} {before : Contents}

open Outcome List

def Numbers (count : Nat) (holds : Nat → Prop) : Prop :=
  ∃ items, Enumerates items holds ∧ items.length = count

theorem Enumerates.congr {α : Type} {items : List α} {holds holds' : α → Prop}
    (listed : Enumerates items holds) (same : ∀ a, holds a ↔ holds' a) : Enumerates items holds' :=
  ⟨listed.nodup, fun a => (listed.mem_iff a).trans (same a)⟩

namespace Numbers

variable {count : Nat} {holds holds' : Nat → Prop}

theorem zero (never : ∀ id, ¬holds id) : Numbers 0 holds :=
  ⟨[], ⟨nodup_nil, fun id => by simp [never id]⟩, rfl⟩

theorem congr (numbers : Numbers count holds) (same : ∀ id, holds id ↔ holds' id) :
    Numbers count holds' := by
  obtain ⟨items, listed, length⟩ := numbers
  exact ⟨items, listed.congr same, length⟩

theorem append (numbers : Numbers count holds) {items : List Nat}
    (listed : Enumerates items holds') (apart : ∀ id, holds' id → ¬holds id) :
    Numbers (count + items.length) fun id => holds id ∨ holds' id := by
  obtain ⟨earlier, before, rfl⟩ := numbers
  refine ⟨earlier ++ items, ⟨before.nodup.append listed.nodup ?_, fun id => ?_⟩, length_append⟩
  · intro id left right
    exact apart id ((listed.mem_iff id).mp right) ((before.mem_iff id).mp left)
  · rw [mem_append, before.mem_iff, listed.mem_iff]

theorem succ (numbers : Numbers count holds) (fresh : ¬holds id) :
    Numbers (count + 1) fun other => holds other ∨ other = id :=
  numbers.append ⟨nodup_singleton id, fun _ => mem_singleton⟩ fun _ same held =>
    fresh (same ▸ held)

end Numbers

inductive Target where
  | node (id : Nat)
  | edge (id : Nat)
deriving DecidableEq, Repr

variable {named : List Target} {t : Target}

def target (node edge : Option Nat) : Option Target :=
  (node.map Target.node).or (edge.map Target.edge)

def Target.There (contents : Contents) : Target → Prop
  | .node id => (contents.nodes id).isSome
  | .edge id => (contents.edges id).isSome

def Touched (named : List Target) (edge : Edge) : Prop :=
  .node edge.source ∈ named ∨ .node edge.target ∈ named

theorem touched_cons_node {edge : Edge} :
    Touched (.node id :: named) edge ↔
      (edge.source = id ∨ edge.target = id) ∨ Touched named edge := by
  simp only [Touched, mem_cons, Target.node.injEq]
  constructor
  · rintro ((source | mem) | (target | mem))
    exacts [.inl (.inl source), .inr (.inl mem), .inl (.inr target), .inr (.inr mem)]
  · rintro ((source | target) | (mem | mem))
    exacts [.inl (.inl source), .inr (.inl target), .inl (.inr mem), .inr (.inr mem)]

theorem touched_of_mem {edge : Edge} (mem : .node id ∈ named)
    (touches : edge.source = id ∨ edge.target = id) : Touched named edge := by
  rcases touches with rfl | rfl
  · exact .inl mem
  · exact .inr mem

theorem touched_cons_edge {edge : Edge} :
    Touched (.edge id :: named) edge ↔ Touched named edge := by
  simp [Touched]

/-- An edge goes when it is named or an end of it is. -/
def Gone (before : Contents) (named : List Target) (id : Nat) : Prop :=
  ∃ edge, before.edges id = some edge ∧ (.edge id ∈ named ∨ Touched named edge)

/-- What is left when the named nodes and edges are gone, and the edges of the nodes with them. -/
structure Cut (before : Contents) (named : List Target) (after : Contents) : Prop where
  node_iff : ∀ id node, after.nodes id = some node ↔ before.nodes id = some node ∧ .node id ∉ named
  edge_iff : ∀ id edge, after.edges id = some edge ↔
    before.edges id = some edge ∧ ¬(.edge id ∈ named ∨ Touched named edge)

/-- What is taken away is what an account has of it. -/
structure Tally (before : Contents) (named : List Target) (deleted : Deleted) : Prop where
  nodes : ∀ id, id ∈ deleted.nodes ↔ .node id ∈ named
  edges : ∀ id, id ∈ deleted.edges ↔ .edge id ∈ named
  nodesDeleted : Numbers deleted.stats.nodesDeleted fun id =>
    (before.nodes id).isSome ∧ .node id ∈ named
  edgesDeleted : Numbers deleted.stats.edgesDeleted (Gone before named)

theorem cut_nil (before : Contents) : Cut before [] before where
  node_iff _ _ := by simp
  edge_iff _ _ := by simp [Touched]

theorem tally_nil (before : Contents) : Tally before [] {} where
  nodes _ := by simp
  edges _ := by simp
  nodesDeleted := .zero fun _ named => absurd named.2 not_mem_nil
  edgesDeleted := .zero fun _ ⟨_, _, gone⟩ => by simp [Touched] at gone

variable {after : Contents} {named' : List Target}

theorem Cut.unique {after' : Contents} (cut : Cut before named after)
    (cut' : Cut before named' after') (same : ∀ t, t ∈ named ↔ t ∈ named') : after = after' := by
  have nodes : after.nodes = after'.nodes := by
    funext id
    refine Option.ext fun node => ?_
    rw [cut.node_iff, cut'.node_iff, same]
  have edges : after.edges = after'.edges := by
    funext id
    refine Option.ext fun edge => ?_
    rw [cut.edge_iff, cut'.edge_iff, same]
    simp only [Touched, same]
  cases after
  cases after'
  congr

theorem Cut.ne (cut : Cut before named after) (mem : t ∈ named) (there : t.There before) :
    after ≠ before := by
  rintro rfl
  cases t with
  | node id =>
    obtain ⟨node, here⟩ := Option.isSome_iff_exists.mp there
    exact ((cut.node_iff id node).mp here).2 mem
  | edge id =>
    obtain ⟨edge, here⟩ := Option.isSome_iff_exists.mp there
    exact ((cut.edge_iff id edge).mp here).2 (.inl mem)

/-- A removal takes away what is there, a node with its edges, and fails on what is not. -/
structure GraphStore.Removes {σ : Type} (store : GraphStore σ) (contents : σ → Contents) :
    Prop where
  serves : ∀ s, (store.access s).Serves (contents s)
  removeNode : ∀ id s, Sat (store.removeNode id) s
    (fun _ s' => ((contents s).nodes id).isSome ∧ Cut (contents s) [.node id] (contents s'))
    (fun _ s' => (contents s).nodes id = none ∧ contents s' = contents s)
  removeEdge : ∀ id s, Sat (store.removeEdge id) s
    (fun _ s' => ((contents s).edges id).isSome ∧ Cut (contents s) [.edge id] (contents s'))
    (fun _ s' => (contents s).edges id = none ∧ contents s' = contents s)

theorem Cut.trans {between : Contents} (first : Cut before named between)
    (second : Cut between [t] after) :
    Cut before (t :: named) after where
  node_iff id node := by
    rw [second.node_iff, first.node_iff, and_assoc]
    simp only [mem_cons, not_mem_nil, or_false, not_or]
    exact and_congr_right' and_comm
  edge_iff id edge := by
    rw [second.edge_iff, first.edge_iff, and_assoc, ← not_or]
    refine and_congr_right fun _ => not_congr ?_
    simp only [Touched, mem_cons, not_mem_nil, or_false]
    tauto

section Store

variable {σ : Type} {store : GraphStore σ} {contents : σ → Contents}
  (removes : store.Removes contents)

include removes

theorem sat_incidentEdgeIds {s : σ} (present : ((contents s).nodes id).isSome) :
    Sat (incidentEdgeIds store id) s
      (fun ids s' => s' = s ∧ Enumerates ids fun e => ∃ edge, (contents s).edges e = some edge ∧
        (edge.source = id ∨ edge.target = id))
      (fun _ _ => False) := by
  obtain ⟨outgoing, left, leaves⟩ := (removes.serves s).outgoingEdges id present
  obtain ⟨incoming, right, arrives⟩ := (removes.serves s).incomingEdges id present
  unfold incidentEdgeIds
  simp only [sat_bind, sat_get, ofGraph, left, right, Except.mapError, sat_ofResult_ok, sat_pure,
    true_and]
  refine ⟨nodup_dedup _, fun e => ?_⟩
  rw [mem_dedup, mem_mergeSort, mem_map]
  constructor
  · rintro ⟨edge, mem, rfl⟩
    rcases mem_append.mp mem with out | inc
    · obtain ⟨here, source⟩ := (leaves.mem_iff edge).mp out
      exact ⟨edge, here, .inl source⟩
    · obtain ⟨here, target⟩ := (arrives.mem_iff edge).mp inc
      exact ⟨edge, here, .inr target⟩
  · rintro ⟨edge, here, touches⟩
    have named := (contents s).edge_id here
    rw [← named] at here
    refine ⟨edge, mem_append.mpr (touches.imp (fun source => ?_) fun target => ?_), named⟩
    · exact (leaves.mem_iff edge).mpr ⟨here, source⟩
    · exact (arrives.mem_iff edge).mpr ⟨here, target⟩

end Store

section Steps

variable {σ : Type} (store : GraphStore σ)

def deleteTarget (detach : Bool) (deleted : Deleted) : Target → MutationM σ Deleted
  | .node id => deleteNodeRow store detach deleted id
  | .edge id => deleteEdgeRow store deleted id

end Steps

/-- After others, a node takes its edges along or has lost them, and an edge did not go with
a node. -/
def Fine (before : Contents) (detach : Bool) (named : List Target) : Target → Prop
  | .node id => .node id ∈ named ∨ detach = true ∨ ∀ e edge, before.edges e = some edge →
      (edge.source = id ∨ edge.target = id) → .edge e ∈ named ∨ Touched named edge
  | .edge id => .edge id ∈ named ∨ ∀ edge, before.edges id = some edge → ¬Touched named edge

def AllFine (before : Contents) (detach : Bool) : List Target → List Target → Prop
  | _, [] => True
  | named, t :: rest => Fine before detach named t ∧ AllFine before detach (t :: named) rest

theorem allFine_append {detach : Bool} {ts ts' : List Target} :
    AllFine before detach named (ts ++ ts') ↔
      AllFine before detach named ts ∧ AllFine before detach (ts.reverse ++ named) ts' := by
  induction ts generalizing named with
  | nil => simp [AllFine]
  | cons t rest ih =>
    rw [cons_append, AllFine, AllFine, ih, and_assoc, reverse_cons, append_assoc, singleton_append]

theorem Cut.congr (cut : Cut before named after) (same : ∀ t, t ∈ named ↔ t ∈ named') :
    Cut before named' after where
  node_iff id node := by rw [cut.node_iff, same]
  edge_iff id edge := by
    rw [cut.edge_iff, same]
    simp only [Touched, same]

theorem Tally.congr {deleted : Deleted} (tally : Tally before named deleted)
    (same : ∀ t, t ∈ named ↔ t ∈ named') :
    Tally before named' deleted where
  nodes id := (tally.nodes id).trans (same _)
  edges id := (tally.edges id).trans (same _)
  nodesDeleted := tally.nodesDeleted.congr fun id => and_congr_right' (same _)
  edgesDeleted := tally.edgesDeleted.congr fun id => by simp only [Gone, Touched, same]

theorem mem_cons_of_known (known : t ∈ named) (other : Target) :
    other ∈ named ↔ other ∈ t :: named := by
  rw [mem_cons]
  exact ⟨.inr, fun either => either.elim (fun same => same ▸ known) id⟩

section Store

variable {σ : Type} {store : GraphStore σ} {contents : σ → Contents} {detach : Bool}
  {deleted : Deleted} {s : σ}

/-- A node is added to the account with the edges that it has left. -/
theorem Tally.node {after : Contents} (tally : Tally before named deleted)
    (cut : Cut before named after) (there : (before.nodes id).isSome) (fresh : .node id ∉ named)
    {incident : List Nat} (listed : Enumerates incident fun e => ∃ edge, after.edges e = some edge ∧
      (edge.source = id ∨ edge.target = id)) :
    Tally before (.node id :: named) { deleted with
      nodes := id :: deleted.nodes
      stats := { deleted.stats with
        nodesDeleted := deleted.stats.nodesDeleted + 1
        edgesDeleted := deleted.stats.edgesDeleted + incident.length } } where
  nodes other := by simp [tally.nodes]
  edges other := by simp [tally.edges]
  nodesDeleted := (tally.nodesDeleted.succ fun held => fresh held.2).congr fun other => by
    rw [mem_cons, Target.node.injEq]
    constructor
    · rintro (held | rfl)
      · exact ⟨held.1, .inr held.2⟩
      · exact ⟨there, .inl rfl⟩
    · rintro ⟨here, same | mem⟩
      · exact .inr same
      · exact .inl ⟨here, mem⟩
  edgesDeleted := by
    refine (tally.edgesDeleted.append listed ?_).congr fun e => ?_
    · rintro e ⟨edge, here, -⟩ ⟨edge', here', gone⟩
      obtain ⟨there', kept⟩ := (cut.edge_iff e edge).mp here
      rw [there'] at here'
      exact kept (Option.some.inj here' ▸ gone)
    · simp only [Gone, touched_cons_node, mem_cons, reduceCtorEq, false_or]
      constructor
      · rintro (⟨edge, here, gone⟩ | ⟨edge, here, touches⟩)
        · exact ⟨edge, here, gone.imp_right .inr⟩
        · exact ⟨edge, ((cut.edge_iff e edge).mp here).1, .inr (.inl touches)⟩
      · rintro ⟨edge, here, gone⟩
        by_cases earlier : .edge e ∈ named ∨ Touched named edge
        · exact .inl ⟨edge, here, earlier⟩
        · have touches : edge.source = id ∨ edge.target = id := by tauto
          exact .inr ⟨edge, (cut.edge_iff e edge).mpr ⟨here, earlier⟩, touches⟩

theorem Tally.edge (tally : Tally before named deleted) (there : (before.edges id).isSome)
    (fresh : ¬Gone before named id) :
    Tally before (.edge id :: named) { deleted with
      edges := id :: deleted.edges
      stats := { deleted.stats with edgesDeleted := deleted.stats.edgesDeleted + 1 } } where
  nodes other := by simp [tally.nodes]
  edges other := by simp [tally.edges]
  nodesDeleted := tally.nodesDeleted.congr fun other => by simp
  edgesDeleted := (tally.edgesDeleted.succ fresh).congr fun e => by
    obtain ⟨edge, here⟩ := Option.isSome_iff_exists.mp there
    simp only [Gone, touched_cons_edge, mem_cons, Target.edge.injEq]
    constructor
    · rintro (⟨edge, here, gone⟩ | rfl)
      · exact ⟨edge, here, gone.imp_left .inr⟩
      · exact ⟨edge, here, .inl (.inl rfl)⟩
    · rintro ⟨edge, here, (same | mem) | touched⟩
      exacts [.inr same, .inl ⟨edge, here, .inl mem⟩, .inl ⟨edge, here, .inr touched⟩]

/-- A deletion succeeds where it is fine, and then has one name more to its account. -/
theorem sat_deleteTarget (removes : store.Removes contents) (cut : Cut before named (contents s))
    (tally : Tally before named deleted) (there : t.There before) :
    Sat (deleteTarget store detach deleted t) s
      (fun deleted' s' => Fine before detach named t ∧ Cut before (t :: named) (contents s') ∧
        Tally before (t :: named) deleted')
      (fun _ s' => ¬Fine before detach named t ∧ contents s' = contents s) := by
  cases t with
  | node id =>
    simp only [deleteTarget, deleteNodeRow, sat_ite, sat_pure]
    refine ⟨fun known => ?_, fun unknown => ?_⟩
    · have mem := (tally.nodes id).mp known
      exact ⟨.inl mem, cut.congr (mem_cons_of_known mem),
        tally.congr (mem_cons_of_known mem)⟩
    · have fresh : .node id ∉ named := fun mem => unknown ((tally.nodes id).mpr mem)
      obtain ⟨node, here⟩ := Option.isSome_iff_exists.mp there
      have present := (cut.node_iff id node).mpr ⟨here, fresh⟩
      rw [sat_bind]
      refine (sat_incidentEdgeIds removes (Option.isSome_of_mem present)).mono ?_
        fun _ _ => False.elim
      rintro incident _ ⟨rfl, listed⟩
      rw [sat_ite]
      refine ⟨fun refused => ?_, fun accepted => ?_⟩
      · simp only [Bool.and_eq_true, Bool.not_eq_true', isEmpty_eq_false_iff_exists_mem]
          at refused
        obtain ⟨plain, e, mem⟩ := refused
        obtain ⟨edge, left, touches⟩ := (listed.mem_iff e).mp mem
        obtain ⟨held, kept⟩ := (cut.edge_iff e edge).mp left
        refine ⟨?_, rfl⟩
        rintro (known | detached | gone)
        · exact fresh known
        · rw [plain] at detached
          cases detached
        · exact kept (gone e edge held touches)
      · rw [sat_bind, sat_onGraph]
        refine (removes.removeNode id _).mono (fun _ s' removed => ⟨?_, ?_, ?_⟩)
          fun _ _ missing => ?_
        · rcases Bool.eq_false_or_eq_true detach with detached | plain
          · exact .inr (.inl detached)
          · refine .inr (.inr fun e edge held touches => ?_)
            by_contra kept
            have mem := (listed.mem_iff e).mpr
              ⟨edge, (cut.edge_iff e edge).mpr ⟨held, kept⟩, touches⟩
            exact accepted (by simpa [plain] using ne_nil_of_mem mem)
        · exact cut.trans removed.2
        · exact tally.node cut there fresh listed
        · rw [present] at missing
          cases missing.1
  | edge id =>
    simp only [deleteTarget, deleteEdgeRow, sat_ite, sat_pure]
    refine ⟨fun known => ?_, fun unknown => ?_⟩
    · have mem := (tally.edges id).mp known
      exact ⟨.inl mem, cut.congr (mem_cons_of_known mem),
        tally.congr (mem_cons_of_known mem)⟩
    · have fresh : .edge id ∉ named := fun mem => unknown ((tally.edges id).mpr mem)
      obtain ⟨edge, here⟩ := Option.isSome_iff_exists.mp there
      rw [sat_bind, sat_onGraph]
      refine (removes.removeEdge id s).mono (fun _ s' removed => ?_) fun _ _ missing => ?_
      · obtain ⟨found, left⟩ := Option.isSome_iff_exists.mp removed.1
        obtain ⟨held, kept⟩ := (cut.edge_iff id found).mp left
        have only : ∀ other, before.edges id = some other → other = found := by
          intro other other_here
          rw [held] at other_here
          exact (Option.some.inj other_here).symm
        refine ⟨.inr fun other other_here touched => ?_, cut.trans removed.2, tally.edge there ?_⟩
        · rw [only other other_here] at touched
          exact kept (.inr touched)
        · rintro ⟨other, other_here, gone⟩
          rw [only other other_here] at gone
          exact kept gone
      · refine ⟨?_, missing.2⟩
        rintro (known | apart)
        · exact fresh known
        · have left := (cut.edge_iff id edge).mpr ⟨here, fun gone =>
            gone.elim fresh (apart edge here)⟩
          rw [missing.1] at left
          cases left

theorem sat_deleteTargets (removes : store.Removes contents) (detach : Bool) (ts : List Target)
    (cut : Cut before named (contents s)) (tally : Tally before named deleted)
    (there : ∀ t ∈ ts, t.There before) :
    Sat (ts.foldlM (deleteTarget store detach) deleted) s
      (fun deleted' s' => AllFine before detach named ts ∧
        Cut before (ts.reverse ++ named) (contents s') ∧
        Tally before (ts.reverse ++ named) deleted')
      (fun _ s' => ¬AllFine before detach named ts ∧
        ∃ named', (∀ t ∈ named, t ∈ named') ∧ Cut before named' (contents s')) := by
  induction ts generalizing named deleted s with
  | nil => exact ⟨trivial, cut, tally⟩
  | cons t rest ih =>
    rw [foldlM_cons, sat_bind]
    refine (sat_deleteTarget removes cut tally (there t mem_cons_self)).mono ?_ ?_
    · rintro deleted' s' ⟨fine, cut', tally'⟩
      rw [reverse_cons, append_assoc, singleton_append]
      refine (ih cut' tally' fun other mem => there other (mem_cons_of_mem t mem)).mono
        (fun _ _ all => ⟨⟨fine, all.1⟩, all.2⟩) fun _ _ failed => ?_
      obtain ⟨named', more, cut''⟩ := failed.2
      exact ⟨fun all => failed.1 all.2, named',
        fun other mem => more other (mem_cons_of_mem t mem), cut''⟩
    · rintro _ s' ⟨refused, same⟩
      exact ⟨fun all => refused all.1, named, fun _ mem => mem, same ▸ cut⟩

end Store

end ErmyaGraph.Gql
