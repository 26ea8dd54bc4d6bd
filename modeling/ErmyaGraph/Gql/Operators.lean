import ErmyaGraph.Gql.Execute

/-! # Operators and functions

The operators and functions of expressions, on values. Null is neither equal to
anything nor ordered, and a connective knows it as an open truth value. -/

namespace ErmyaGraph.Gql

/-- What values are computed with: floating point, and the case of the letters of all scripts. -/
structure Platform extends FloatArith where
  sub : UInt64 → UInt64 → UInt64
  mul : UInt64 → UInt64 → UInt64
  toLowercase : String → String
  toUppercase : String → String

def sameScalar : GqlValue → GqlValue → Bool
  | .null, .null => true
  | .bool left, .bool right => left = right
  | .int left, .int right => left = right
  | .float left, .float right => propertyEq (.f64 left) (.f64 right)
  | .str left, .str right => left = right
  | _, _ => false

def propertiesToGqlMap (properties : Properties) : List (String × GqlValue) :=
  properties.entries.map fun entry => (entry.1, gqlValueFromProperty entry.2)

/-- Properties are compared by the values that they are read as. -/
def sameProperties (left right : Properties) : Bool :=
  left.len = right.len && left.entries.all fun entry =>
    (right.get? entry.1).any fun other =>
      sameScalar (gqlValueFromProperty entry.2) (gqlValueFromProperty other)

def sameNode (left right : Node) : Bool :=
  left.id = right.id && left.label = right.label && sameProperties left.properties right.properties

def sameEdge (left right : Edge) : Bool :=
  left.id = right.id && left.source = right.source && left.target = right.target &&
    left.label = right.label && sameProperties left.properties right.properties

def samePath (left right : GqlPath) : Bool :=
  left.nodes.length = right.nodes.length && left.rels.length = right.rels.length &&
    ((left.nodes.zip right.nodes).all fun pair => sameNode pair.1 pair.2) &&
    (left.rels.zip right.rels).all fun pair => sameEdge pair.1 pair.2

mutual

def sameValue : GqlValue → GqlValue → Bool
  | .list left, .list right => sameValues left right
  | .map left, .map right => left.length = right.length && sameEntries left right
  | .node left, .node right => sameNode left right
  | .relationship left, .relationship right => sameEdge left right
  | .path left, .path right => samePath left right
  | left, right => sameScalar left right

def sameValues : List GqlValue → List GqlValue → Bool
  | [], [] => true
  | left :: lefts, right :: rights => sameValue left right && sameValues lefts rights
  | _, _ => false

/-- Every entry is in another map. -/
def sameEntries : List (String × GqlValue) → List (String × GqlValue) → Bool
  | [], _ => true
  | (key, value) :: rest, entries =>
    (match entries.lookup key with
    | some other => sameValue value other
    | none => false) && sameEntries rest entries

end

/-- Equality in an expression. An integer is compared with a float as a float. -/
def valueEq (float : FloatArith) : GqlValue → GqlValue → Bool
  | .null, _ | _, .null => false
  | .int i, .float bits | .float bits, .int i => propertyEq (.f64 (float.ofInt i)) (.f64 bits)
  | left, right => sameValue left right

def evalAsTribool : GqlValue → Option Bool
  | .bool value => some value
  | _ => none

def evalAnd : Option Bool → Option Bool → GqlValue
  | some false, _ | _, some false => .bool false
  | some true, some true => .bool true
  | _, _ => .null

def evalOr : Option Bool → Option Bool → GqlValue
  | some true, _ | _, some true => .bool true
  | some false, some false => .bool false
  | _, _ => .null

/-- Integers wrap around. The quotient of the least one by -1 is not computed by the source, which
stops there. -/
def evalIntArithmetic (left : Int) (op : BinOp) (right : Int) : GqlValue :=
  match op with
  | .add => .int (wrappingAdd left right)
  | .sub => .int (Int64.ofInt (left - right)).toInt
  | .mul => .int (Int64.ofInt (left * right)).toInt
  | .div => if right = 0 then .null else .int (Int64.ofInt (left.tdiv right)).toInt
  | _ => .null

section Platform

variable (platform : Platform)

def evalFloatArithmetic (left : UInt64) (op : BinOp) (right : UInt64) : GqlValue :=
  match op with
  | .add => .float (platform.add left right)
  | .sub => .float (platform.sub left right)
  | .mul => .float (platform.mul left right)
  | .div =>
    if propertyEq (.f64 right) (.f64 0) then .null else .float (platform.div left right)
  | _ => .null

def evalArithmetic (left : GqlValue) (op : BinOp) (right : GqlValue) : GqlValue :=
  match left, right with
  | .int left, .int right => evalIntArithmetic left op right
  | .float left, .float right => evalFloatArithmetic platform left op right
  | .int left, .float right => evalFloatArithmetic platform (platform.ofInt left) op right
  | .float left, .int right => evalFloatArithmetic platform left op (platform.ofInt right)
  | _, _ => .null

/-- Comparing values looks at nothing but floating point. -/
def Platform.comparing : Evaluation := ⟨platform.toFloatArith, fun _ => "", fun _ _ => .null⟩

def evalComparison (left : GqlValue) (holds : Ordering → Bool) (right : GqlValue) : GqlValue :=
  (gqlValueCmp platform.comparing left right).elim .null fun compared => .bool (holds compared)

def evalOnStrings (holds : List Char → List Char → Bool) : GqlValue → GqlValue → GqlValue
  | .str left, .str right => .bool (holds left.toList right.toList)
  | _, _ => .null

def evalBinaryOp (op : BinOp) (left right : GqlValue) : GqlValue :=
  match op with
  | .and => evalAnd (evalAsTribool left) (evalAsTribool right)
  | .or => evalOr (evalAsTribool left) (evalAsTribool right)
  | .eq => .bool (valueEq platform.toFloatArith left right)
  | .notEq => .bool (!valueEq platform.toFloatArith left right)
  | .lt => evalComparison platform left Ordering.isLT right
  | .gt => evalComparison platform left Ordering.isGT right
  | .ltEq => evalComparison platform left Ordering.isLE right
  | .gtEq => evalComparison platform left Ordering.isGE right
  | .add | .sub | .mul | .div => evalArithmetic platform left op right
  | .startsWith => evalOnStrings (fun text start => start.isPrefixOf text) left right
  | .endsWith => evalOnStrings (fun text tail => tail.isSuffixOf text) left right
  | .contains => evalOnStrings (fun text part => text.tails.any part.isPrefixOf) left right
  | .inList =>
    match right with
    | .list items => .bool (items.any (valueEq platform.toFloatArith left))
    | _ => .null

/-- The opposite of the least integer is none. -/
def evalUnaryOp (op : UnaryOp) (value : GqlValue) : GqlValue :=
  match op, value with
  | .not, value => (evalAsTribool value).elim .null fun truth => .bool !truth
  | .neg, .int i => if i = -2 ^ 63 then .null else .int (-i)
  | .neg, .float bits => .float (bits ^^^ 0x8000000000000000)
  | .neg, _ => .null

end Platform

/-- A negative index is out of bounds. -/
def evalSubscript (list index : GqlValue) : GqlValue :=
  match list, index with
  | .list items, .int i => if i < 0 then .null else items[i.toNat]?.getD .null
  | _, _ => .null

/-- What a list predicate says of the elements for which a condition holds; a condition that has
no truth value does not hold. -/
def applyListQuantifier (kind : ListPredKind) (items : List GqlValue)
    (predicateOf : GqlValue → Option Bool) : GqlValue :=
  let matched := items.countP fun item => predicateOf item = some true
  let failed := items.countP fun item => predicateOf item ≠ some true
  match kind with
  | .all => .bool (failed = 0)
  | .any => .bool (0 < matched)
  | .none => .bool (matched = 0)
  | .single => .bool (matched = 1)

def rangeMaxElements : Int := 1000000

/-- The integers from one to another, unless they are too many. -/
def computeRange (first last : GqlValue) : GqlValue :=
  match first, last with
  | .int first, .int last =>
    if last < first then .list []
    else if rangeMaxElements < saturatingAdd (saturatingAdd last (-first)) 1 then .null
    else .list ((List.range (last - first + 1).toNat).map fun (i : Nat) => .int (first + i))
  | _, _ => .null

def computeRangeOf : List GqlValue → GqlValue
  | [first, last] => computeRange first last
  | _ => .null

theorem computeRangeOf_of_length {values : List GqlValue} (unequal : values.length ≠ 2) :
    computeRangeOf values = .null := by
  unfold computeRangeOf
  split
  · simp only [List.length_cons, List.length_nil, ne_eq, not_true_eq_false] at unequal
  · rfl

def computeSize : GqlValue → GqlValue
  | .list items => .int items.length
  | .str value => .int value.length
  | _ => .null

def computeToLower (platform : Platform) : GqlValue → GqlValue
  | .str value => .str (platform.toLowercase value)
  | _ => .null

def computeToUpper (platform : Platform) : GqlValue → GqlValue
  | .str value => .str (platform.toUppercase value)
  | _ => .null

def computeCoalesce (args : List GqlValue) : GqlValue :=
  (args.find? fun value => !value.isNull).getD .null

def computeProperties (properties : Properties) : GqlValue := .map (propertiesToGqlMap properties)

def computePathFunction (name : String) (path : GqlPath) : GqlValue :=
  match name with
  | "nodes" => .list (path.nodes.map .node)
  | "relationships" => .list (path.rels.map .relationship)
  | "length" => .int path.rels.length
  | _ => .null

end ErmyaGraph.Gql
