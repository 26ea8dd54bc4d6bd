import ErmyaGraph.Gql.Assignments
import ErmyaGraph.Gql.Aggregate

/-! # Constraints inside of a pattern

A value for a property can be asked for inside of a pattern or in a WHERE. Where
all hops are fixed, a constraint inside keeps those matches whose node or edge
has the property as it is stored. -/

namespace ErmyaGraph.Gql

variable {key : String} {lit : Literal} {properties : Properties}

/-- Equality of the values that properties and literals can have. Null equals nothing, and an
integer is compared with a float as a float. -/
def gqlValueEq (float : FloatArith) : GqlValue → GqlValue → Bool
  | .int i, .float bits | .float bits, .int i => propertyEq (.f64 (float.ofInt i)) (.f64 bits)
  | .int left, .int right => left = right
  | .float left, .float right => propertyEq (.f64 left) (.f64 right)
  | .str left, .str right => left = right
  | .bool left, .bool right => left = right
  | _, _ => false

def whereEq (evaluation : Evaluation) (var key : String) (lit : Literal) (row : PatternMatch) :
    Bool :=
  gqlValueEq evaluation.float (evalExpr evaluation row (.propAccess var key)) (compileLiteral lit)

/-- One pattern asks for a property where another one does not. -/
inductive Constrained (var key : String) (lit : Literal) : PathPattern → PathPattern → Prop
  | start (np : NodePattern) (hops : List (EdgePattern × NodePattern)) (named : np.var = some var)
      (free : np.props = []) :
      Constrained var key lit ⟨np, hops⟩ ⟨{ np with props := [(key, lit)] }, hops⟩
  | node (start : NodePattern) (before after : List (EdgePattern × NodePattern)) (ep : EdgePattern)
      (np : NodePattern) (named : np.var = some var) (free : np.props = []) :
      Constrained var key lit ⟨start, before ++ (ep, np) :: after⟩
        ⟨start, before ++ (ep, { np with props := [(key, lit)] }) :: after⟩
  | edge (start : NodePattern) (before after : List (EdgePattern × NodePattern)) (ep : EdgePattern)
      (np : NodePattern) (named : ep.var = some var) (free : ep.props = [])
      (fixed : ep.length = .fixed) :
      Constrained var key lit ⟨start, before ++ (ep, np) :: after⟩
        ⟨start, before ++ ({ ep with props := [(key, lit)] }, np) :: after⟩

def Literal.Simple : Literal → Prop
  | .float _ | .list _ => False
  | .int _ | .str _ | .bool _ | .null => True

/-- The properties of what a variable stands for. -/
def PatternMatch.propertiesOf (row : PatternMatch) (var : String) : Option Properties :=
  match row.nodes var with
  | some node => some node.properties
  | none => (row.edges var).map Edge.properties

/-- Whether properties have a value as a pattern asks for it. -/
def inlineHolds (key : String) (lit : Literal) (properties : Properties) : Bool :=
  literalPropsMatch properties [(key, lit)]

def inlineEq (var key : String) (lit : Literal) (row : PatternMatch) : Bool :=
  (row.propertiesOf var).any (inlineHolds key lit)

/-- Both ways to ask give the same answer for a stored value: null is not asked for, and no float
equals an integer that is. -/
def SameEitherWay (float : FloatArith) (stored : Option Property) : Literal → Prop
  | .null => False
  | .int i => ∀ bits, stored = some (.f64 bits) →
      propertyEq (.f64 (float.ofInt i.toInt)) (.f64 bits) = false
  | .float _ | .str _ | .bool _ | .list _ => True

theorem whereEq_eq (evaluation : Evaluation) (var key : String) (lit : Literal)
    (row : PatternMatch) : whereEq evaluation var key lit row =
      (row.propertiesOf var).any fun properties =>
        gqlValueEq evaluation.float (propertyValue properties key) (compileLiteral lit) := by
  rw [whereEq, evalExpr, PatternMatch.propertiesOf]
  cases row.nodes var with
  | some node => rfl
  | none =>
    cases row.edges var with
    | some edge => rfl
    | none => cases lit <;> rfl

theorem inlineHolds_eq (key : String) (lit : Literal) (properties : Properties) :
    inlineHolds key lit properties =
      match literalToProperty lit with
      | some expected => (properties.get? key).any fun actual => propertyEq actual expected
      | none => true := by
  cases asked : literalToProperty lit <;> simp [inlineHolds, literalPropsMatch, asked]

theorem inlineHolds_iff (simple : lit.Simple) {value : Property}
    (asked : literalToProperty lit = some value) :
    inlineHolds key lit properties ↔ properties.get? key = some value := by
  rw [inlineHolds_eq, asked]
  cases stored : properties.get? key with
  | none => simp
  | some actual =>
    cases lit with
    | float | list => exact simple.elim
    | null => cases asked
    | int | str | bool =>
      cases asked
      cases actual <;> simp [propertyEq]

variable {float : FloatArith}

theorem gqlValueEq_of_inline (simple : lit.Simple) (asked : lit ≠ .null)
    (holds : inlineHolds key lit properties) :
    gqlValueEq float (propertyValue properties key) (compileLiteral lit) := by
  cases lit with
  | float | list => exact simple.elim
  | null => exact absurd rfl asked
  | int | str | bool =>
    have stored := (inlineHolds_iff simple rfl).mp holds
    simp [propertyValue, stored, gqlValueFromProperty, compileLiteral, gqlValueEq]

theorem inline_of_gqlValueEq (simple : lit.Simple) (asked : lit ≠ .null) :
    (gqlValueEq float (propertyValue properties key) (compileLiteral lit) →
      inlineHolds key lit properties) ↔ SameEitherWay float (properties.get? key) lit := by
  cases lit with
  | float | list => exact simple.elim
  | null => exact absurd rfl asked
  | int i =>
    rw [inlineHolds_iff simple rfl, propertyValue]
    cases properties.get? key with
    | none => simp [gqlValueEq, compileLiteral, SameEitherWay]
    | some actual =>
      cases actual <;>
        simp [gqlValueFromProperty, gqlValueEq, compileLiteral, SameEitherWay, Int64.toInt_inj]
  | str | bool =>
    rw [inlineHolds_iff simple rfl, propertyValue]
    cases properties.get? key with
    | none => simp [gqlValueEq, compileLiteral, SameEitherWay]
    | some actual =>
      cases actual <;> simp [gqlValueFromProperty, gqlValueEq, compileLiteral, SameEitherWay]

end ErmyaGraph.Gql
