import ErmyaGraph.Gql.Aggregate

/-! # Statements

A statement queries the graph or changes it. A mutation may start from matches
of patterns and from the elements of a list. -/

namespace ErmyaGraph.Gql

inductive CreatePattern where
  | node (var : Option String) (label : String) (props : List (String × Expr))
      (propMap : Option Expr)
  | edge (sourceVar relLabel : String) (relProps : List (String × Expr)) (targetVar : String)

def CreatePattern.var : CreatePattern → Option String
  | .node var _ _ _ => var
  | .edge _ _ _ _ => none

structure CreateClause where
  patterns : List CreatePattern

inductive SetAssignment where
  | property (var prop : String) (value : Expr)
  | entityOverwrite (var : String) (mapExpr : Expr)
  | entityMerge (var : String) (mapExpr : Expr)

structure SetClause where
  assignments : List SetAssignment

structure DeleteClause where
  detach : Bool
  vars : List String

structure MergeClause where
  var : Option String
  label : String
  props : List (String × Expr)
  onCreate : Option SetClause
  onMatch : Option SetClause
  returnVar : Option String

inductive MutationClause where
  | create (clause : CreateClause)
  | set (clause : SetClause)
  | delete (clause : DeleteClause)
  | merge (clause : MergeClause)

structure MutationStatement where
  unwindClause : Option UnwindClause
  matchClause : Option MatchClause
  mutation : MutationClause
  setClause : Option SetClause
  returnClause : Option ReturnClause

structure ConstReturnQuery where
  items : List ReturnItem
  distinct : Bool
  limit : Option Expr
  skip : Option Expr

/-- What the statement parser can answer with, for some form of pipelines. -/
inductive GqlStatement (Pipeline : Type) where
  | query (query : GqlQuery)
  | mutation (statement : MutationStatement)
  | pipeline (query : Pipeline)
  | constReturn (query : ConstReturnQuery)

/-- The UNWIND in front of a statement belongs to what follows it. -/
def injectUnwind {Pipeline : Type} (stmt : GqlStatement Pipeline) (unwind : Option UnwindClause) :
    GqlStatement Pipeline :=
  if unwind.isNone then stmt
  else
    match stmt with
    | .query q => .query { q with unwindClause := unwind }
    | .mutation m => .mutation { m with unwindClause := unwind }
    | .pipeline p => .pipeline p
    | .constReturn c => .constReturn c

end ErmyaGraph.Gql
