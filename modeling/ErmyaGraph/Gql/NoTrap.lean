import ErmyaGraph.Gql.Traps

/-! # What stops an evaluation

The evaluation of an expression stops on one quotient, and an aggregate on a sum
that leaves the range of its integers where overflow is checked. Sums of
candidates saturate instead of wrapping around. -/

namespace ErmyaGraph.Gql

variable {sum : Int}

open Settles List

instance (n : Int) : Decidable (InRange n) := inferInstanceAs (Decidable (_ ∧ _))

/-- An addition of a debug build stops where it overflows. -/
def addChecked (debug : Bool) (left right : Int) : Option Int :=
  if debug = true ∧ ¬InRange (left + right) then none else some (wrappingAdd left right)

def addIntChecked (debug : Bool) (sum : Int) : GqlValue → Option Int
  | .int i => addChecked debug sum i
  | _ => some sum

def aggregateSum? (evaluation : Evaluation) (debug : Bool) (values : List GqlValue) :
    Option GqlValue :=
  if values.all GqlValue.isNull then some .null
  else if values.any GqlValue.isFloat then
    some (.float (values.foldl (addFloat evaluation) 0))
  else (values.foldlM (addIntChecked debug) 0).map .int

def evalAggregateCore? (evaluation : Evaluation) (debug : Bool) (func : AggFunc)
    (values : List GqlValue) (rowCount : Nat) (argIsNone : Bool) : Option GqlValue :=
  match func with
  | .sum => aggregateSum? evaluation debug values
  | func => some (evalAggregateCore evaluation func values rowCount argIsNone)

theorem inRange_zero : InRange 0 := by decide

theorem settles_addChecked (debug : Bool) (left right : Int) :
    At (addChecked debug left right) (wrappingAdd left right)
      (debug = true → InRange (left + right)) := by
  unfold addChecked
  by_cases stops : debug = true ∧ ¬InRange (left + right)
  · rw [if_pos stops]
    exact ⟨fun safe => absurd (safe stops.1) stops.2, fun _ => rfl⟩
  · rw [if_neg stops]
    exact (At.pure _).congr (iff_of_true trivial (by tauto))

theorem addInt_of_inRange {value : GqlValue} (fits : InRange (sum + value.asInt)) :
    addInt sum value = sum + value.asInt := by
  cases value with
  | int i => exact wrappingAdd_of_inRange fits
  | _ => exact (Int.add_zero sum).symm

theorem settles_addIntChecked {debug : Bool} (here : InRange sum) (value : GqlValue) :
    At (addIntChecked debug sum value) (addInt sum value)
      (debug = true → InRange (sum + value.asInt)) := by
  cases value with
  | int i => exact settles_addChecked debug sum i
  | _ => exact (At.pure _).congr (iff_of_true trivial fun _ => (Int.add_zero sum).symm ▸ here)

theorem settles_sumOfInts (values : List GqlValue) (here : InRange sum) :
    At (values.foldlM (addIntChecked true) sum) (values.foldl addInt sum)
      (StaysInRange sum values) := by
  apply @At.foldlM _ _ _ _ InRange (fun sum value => InRange (sum + value.asInt)) StaysInRange
    (fun _ => trivial) _ _ _ _ here
  · intro sum value rest _
    rw [StaysInRange]
    exact and_congr_right fun fits => by rw [addInt_of_inRange fits]
  · intro sum value here
    exact (settles_addIntChecked here value).congr ⟨fun safe => safe rfl, fun safe _ => safe⟩
  · intro sum value _ fits
    exact (addInt_of_inRange fits).symm ▸ fits

theorem addIntChecked_false (sum : Int) (value : GqlValue) :
    addIntChecked false sum value = pure (addInt sum value) := by
  cases value <;> rfl

theorem settles_checkedSum (debug : Bool) (values : List GqlValue) :
    At (values.foldlM (addIntChecked debug) 0) (values.foldl addInt 0)
      (debug = true → StaysInRange 0 values) := by
  cases debug with
  | true =>
    exact (settles_sumOfInts values inRange_zero).congr
      ⟨fun safe _ => safe, fun safe => safe rfl⟩
  | false =>
    rw [funext₂ addIntChecked_false, foldlM_pure]
    exact (At.pure _).congr (iff_of_true trivial nofun)

/-- One float makes a sum one of floats, which is not checked. -/
def SumSafe (debug : Bool) (values : List GqlValue) : Prop :=
  values.all GqlValue.isNull = true ∨ values.any GqlValue.isFloat = true ∨
    (debug = true → StaysInRange 0 values)

theorem settles_aggregateSum? (evaluation : Evaluation) (debug : Bool) (values : List GqlValue) :
    At (aggregateSum? evaluation debug values) (aggregateSum evaluation values)
      (SumSafe debug values) := by
  unfold aggregateSum? aggregateSum SumSafe
  by_cases nulls : values.all GqlValue.isNull = true
  · rw [if_pos nulls, if_pos nulls]
    exact (At.pure _).congr (iff_of_true trivial (.inl nulls))
  · rw [if_neg nulls, if_neg nulls]
    by_cases float : values.any GqlValue.isFloat = true
    · rw [if_pos float, if_pos float]
      exact (At.pure _).congr (iff_of_true trivial (.inr (.inl float)))
    · rw [if_neg float, if_neg float]
      exact ((settles_checkedSum debug values).map GqlValue.int).congr (by tauto)

namespace Platform

variable (platform : Platform) (graph : GraphAccess) (rest : Evaluators) (debug : Bool)

def addToTotal? (total : Int × UInt64 × Bool) : GqlValue → Option (Int × UInt64 × Bool)
  | .int i => (addChecked debug total.1 i).map fun sum => (sum, total.2)
  | .float bits => some (total.1, platform.add total.2.1 bits, true)
  | _ => some total

def sumOfValues? (values : List GqlValue) : Option GqlValue :=
  (values.foldlM (platform.addToTotal? debug) (0, 0, false)).map fun total =>
    if total.2.2 then .float (platform.add total.2.1 (platform.ofInt total.1)) else .int total.1

def aggregateOfValues? (func : AggFunc) (values : List GqlValue) : Option GqlValue :=
  match func with
  | .sum => platform.sumOfValues? debug values
  | func => some (aggregateOfValues platform graph rest func values)

theorem addToTotal_fst {total : Int × UInt64 × Bool} {value : GqlValue}
    (fits : InRange (total.1 + value.asInt)) :
    (addToTotal platform total value).1 = total.1 + value.asInt := by
  cases value with
  | int i => exact wrappingAdd_of_inRange fits
  | _ => exact (Int.add_zero total.1).symm

theorem settles_addToTotal? {total : Int × UInt64 × Bool} (here : InRange total.1)
    (value : GqlValue) :
    At (platform.addToTotal? debug total value) (addToTotal platform total value)
      (debug = true → InRange (total.1 + value.asInt)) := by
  cases value with
  | int i => exact (settles_addChecked debug total.1 i).map fun sum => (sum, total.2)
  | _ =>
    exact (At.pure _).congr
      (iff_of_true trivial fun _ => (Int.add_zero total.1).symm ▸ here)

variable (values : List GqlValue)

theorem settles_totalOfValues {total : Int × UInt64 × Bool} (here : InRange total.1) :
    At (values.foldlM (platform.addToTotal? true) total)
      (values.foldl (addToTotal platform) total) (StaysInRange total.1 values) := by
  apply @At.foldlM GqlValue (Int × UInt64 × Bool) _ _ (fun total => InRange total.1)
    (fun total value => InRange (total.1 + value.asInt)) (fun total => StaysInRange total.1)
    (fun _ => trivial) _ _ _ _ here
  · intro total value rest _
    rw [StaysInRange]
    exact and_congr_right fun fits => by rw [platform.addToTotal_fst fits]
  · intro total value here
    exact (platform.settles_addToTotal? true here value).congr
      ⟨fun safe => safe rfl, fun safe _ => safe⟩
  · intro total value _ fits
    exact (platform.addToTotal_fst fits).symm ▸ fits

theorem addToTotal?_false (total : Int × UInt64 × Bool) (value : GqlValue) :
    platform.addToTotal? false total value = pure (addToTotal platform total value) := by
  cases value <;> rfl

theorem settles_sumOfValues? :
    At (platform.sumOfValues? debug values) (sumOfValues platform values)
      (debug = true → StaysInRange 0 values) := by
  apply At.map
  cases debug with
  | true =>
    exact (platform.settles_totalOfValues values inRange_zero).congr
      ⟨fun safe _ => safe, fun safe => safe rfl⟩
  | false =>
    rw [funext₂ platform.addToTotal?_false, foldlM_pure]
    exact (At.pure _).congr (iff_of_true trivial nofun)

end Platform

/-- The integers that a sum over candidates has added up. -/
def AggAccum.total : AggAccum → Int
  | .sum intSum _ _ _ => intSum
  | _ => 0

def pushdownTotal (evaluation : Evaluation) (accum : AggAccum) (values : List GqlValue) : Int :=
  (values.foldl (fun accum value => AggAccum.feed evaluation value accum) accum).total

theorem saturatingAdd_eq_wrappingAdd {left right : Int} (here : InRange left)
    (fits : InRange right) :
    saturatingAdd left right = wrappingAdd left right ↔ InRange (left + right) := by
  refine ⟨fun same => ?_, fun inside => ?_⟩
  · have size : (Int64.size : Int) = 2 ^ 64 := rfl
    unfold saturatingAdd wrappingAdd at same
    rw [Int64.toInt_ofInt, Int.bmod_def, size] at same
    unfold InRange at here fits ⊢
    omega
  · rw [saturatingAdd_of_inRange inside, wrappingAdd_of_inRange inside]

theorem addInt_eq (here : InRange sum) (value : GqlValue) :
    addInt sum value = wrappingAdd sum value.asInt := by
  have held : InRange (sum + 0) := (Int.add_zero sum).symm ▸ here
  have same : sum = wrappingAdd sum 0 := by rw [wrappingAdd_of_inRange held, Int.add_zero]
  cases value with
  | int i => rfl
  | _ => exact same

theorem feed_sum {evaluation : Evaluation} {sum : Int} {floats : UInt64} {float any : Bool}
    (here : InRange sum) (value : GqlValue) :
    ∃ floats' float' any', AggAccum.feed evaluation value (.sum sum floats float any) =
        .sum (saturatingAdd sum value.asInt) floats' float' any' := by
  have same : saturatingAdd sum 0 = sum := by
    have held : InRange (sum + 0) := (Int.add_zero sum).symm ▸ here
    rw [saturatingAdd_of_inRange held, Int.add_zero]
  cases value with
  | null => exact ⟨floats, float, any, congrArg (AggAccum.sum · floats float any) same.symm⟩
  | int i => exact ⟨floats, float, true, rfl⟩
  | float bits =>
    exact ⟨_, true, true, congrArg (AggAccum.sum · _ true true) same.symm⟩
  | _ => exact ⟨floats, float, true, congrArg (AggAccum.sum · floats float true) same.symm⟩

/-- A saturating sum is the wrapping sum all the way through where it stays in range. -/
theorem pushdownTotal_follows {evaluation : Evaluation} {values : List GqlValue} {floats : UInt64}
    {float any : Bool} (here : InRange sum) (fits : ∀ value ∈ values, InRange value.asInt) :
    (∀ read, read <+: values →
        pushdownTotal evaluation (.sum sum floats float any) read = read.foldl addInt sum) ↔
      StaysInRange sum values := by
  induction values generalizing sum floats float any with
  | nil =>
    refine iff_of_true (fun read first => ?_) trivial
    rw [prefix_nil.mp first]
    rfl
  | cons value rest ih =>
    have small := fits value mem_cons_self
    have later : ∀ value ∈ rest, InRange value.asInt :=
      fun value mem => fits value (.tail _ mem)
    obtain ⟨floats', float', any', fed⟩ := @feed_sum evaluation sum floats float any here value
    have unfolded (read : List GqlValue) :
        pushdownTotal evaluation (.sum sum floats float any) (value :: read) =
          pushdownTotal evaluation (.sum (saturatingAdd sum value.asInt) floats' float' any')
            read := congrArg (fun accum => pushdownTotal evaluation accum read) fed
    have follows : saturatingAdd sum value.asInt = addInt sum value ↔
        InRange (sum + value.asInt) := by
      rw [addInt_eq here]
      exact saturatingAdd_eq_wrappingAdd here small
    rw [StaysInRange]
    constructor
    · intro every
      have inside := follows.mp ((unfolded []).symm.trans (every [value] ⟨rest, rfl⟩))
      have next := addInt_of_inRange inside
      rw [saturatingAdd_of_inRange inside] at unfolded
      refine ⟨inside, (@ih _ floats' float' any' inside later).mp fun read first => ?_⟩
      have along := every (value :: read) (cons_prefix_cons.mpr ⟨rfl, first⟩)
      rw [unfolded, foldl_cons, next] at along
      exact along
    · rintro ⟨inside, onward⟩ read first
      have next := addInt_of_inRange inside
      rw [saturatingAdd_of_inRange inside] at unfolded
      cases read with
      | nil => rfl
      | cons other read =>
        obtain ⟨rfl, further⟩ := cons_prefix_cons.mp first
        rw [unfolded, foldl_cons, next]
        exact (ih inside later).mpr onward read further

/-- What a query asks to be evaluated: an expression in a row of a match, of a pipeline or next to
an unwound element, an aggregate of rows of either kind, and a sum over candidates, whose integers
are 64-bit integers. -/
inductive Request where
  | inRow (row : PatternMatch) (paths : PathBindings) (expr : Expr)
  | inStage (b : Binding) (expr : Expr)
  | unwound (row : PatternMatch) (unwindVar : String) (elem : GqlValue) (expr : Expr)
  | aggregate (func : AggFunc) (values : List GqlValue) (rowCount : Nat) (argIsNone : Bool)
  | stageAggregate (func : AggFunc) (values : List GqlValue)
  | pushdownSum (values : List GqlValue) (fits : ∀ value ∈ values, InRange value.asInt)

namespace Platform

variable (platform : Platform) (graph : GraphAccess) (rest : Evaluators) (debug : Bool)

/-- The evaluation comes to an end, with the value of the wrapping rule. -/
def Follows : Request → Prop
  | .inRow row paths expr =>
    platform.evalExpr? graph debug row paths expr = some (platform.evalExpr graph row paths expr)
  | .inStage b expr =>
    platform.evalExprOnBinding? graph debug b expr = some (platform.evalExprOnBinding graph b expr)
  | .unwound row unwindVar elem expr =>
    platform.evalExprWithUnwindVar? graph debug row unwindVar elem expr =
      some (platform.evalExprWithUnwindVar graph row unwindVar elem expr)
  | .aggregate func values rowCount argIsNone =>
    evalAggregateCore? (platform.evaluators graph rest).rowwise debug func values rowCount
        argIsNone =
      some (evalAggregateCore (platform.evaluators graph rest).rowwise func values rowCount
        argIsNone)
  | .stageAggregate func values =>
    platform.aggregateOfValues? graph rest debug func values =
      some (aggregateOfValues platform graph rest func values)
  | .pushdownSum values _ =>
    ∀ read, read <+: values →
      pushdownTotal (platform.evaluators graph rest).rowwise (.fromFunc .sum) read =
        read.foldl addInt 0

/-- No division that is come to overflows, and no sum leaves its range where that is looked at. -/
def Safe : Request → Prop
  | .inRow row paths expr => platform.SafeOnRow graph debug row paths expr
  | .inStage b expr => platform.SafeOnBinding graph debug b expr
  | .unwound row unwindVar elem expr => platform.SafeUnwound graph debug row unwindVar elem expr
  | .aggregate func values _ _ => func = .sum → SumSafe debug values
  | .stageAggregate func values => func = .sum → debug = true → StaysInRange 0 values
  | .pushdownSum values _ => StaysInRange 0 values

theorem settles_evalAggregateCore? (evaluation : Evaluation) (func : AggFunc)
    (values : List GqlValue) (rowCount : Nat) (argIsNone : Bool) :
    At (evalAggregateCore? evaluation debug func values rowCount argIsNone)
      (evalAggregateCore evaluation func values rowCount argIsNone)
      (func = .sum → SumSafe debug values) := by
  cases func with
  | sum =>
    exact (settles_aggregateSum? evaluation debug values).congr
      ⟨fun safe _ => safe, fun safe => safe rfl⟩
  | _ => exact (At.pure _).congr (iff_of_true trivial nofun)

theorem settles_aggregateOfValues? (func : AggFunc) (values : List GqlValue) :
    At (platform.aggregateOfValues? graph rest debug func values)
      (aggregateOfValues platform graph rest func values)
      (func = .sum → debug = true → StaysInRange 0 values) := by
  cases func with
  | sum =>
    exact (platform.settles_sumOfValues? debug values).congr
      ⟨fun safe _ => safe, fun safe => safe rfl⟩
  | _ => exact (At.pure _).congr (iff_of_true trivial nofun)

/-- An evaluation follows the wrapping rule where it is safe, and it stops or has another value
everywhere else. -/
theorem evaluates_iff (request : Request) :
    platform.Follows graph rest debug request ↔ platform.Safe graph debug request := by
  cases request with
  | inRow row paths expr => exact (platform.settles_onRow graph debug row paths expr).eq_some_iff
  | inStage b expr => exact (platform.settles_onBinding graph debug expr b).eq_some_iff
  | unwound row unwindVar elem expr =>
    exact (platform.settles_unwound graph debug row unwindVar elem expr).eq_some_iff
  | aggregate func values rowCount argIsNone =>
    exact (settles_evalAggregateCore? debug _ func values rowCount argIsNone).eq_some_iff
  | stageAggregate func values =>
    exact (platform.settles_aggregateOfValues? graph rest debug func values).eq_some_iff
  | pushdownSum values fits => exact pushdownTotal_follows inRange_zero fits

end Platform

/-- A node whose `x` is the least number. -/
def leastNumber : PatternMatch where
  nodes name :=
    if name = "n" then some ⟨1, "Person", Properties.empty.insert "x" (.i64 Int64.minValue), {}⟩
    else none

def leastNegated : Expr :=
  .binaryOp (.propAccess "n" "x") .div (.unaryOp .neg (.literal (.int 1)))

def oneTooMany : List GqlValue := [.int (2 ^ 63 - 1), .int 1]

/-- The quotient stops every build and the sums a debug build, and a sum over candidates does not
wrap around. -/
theorem least_number_stops :
    (∀ debug, integers.evalExpr? noNodes.access debug leastNumber (fun _ => none)
      leastNegated = none) ∧
      evalAggregateCore? (integers.evaluators noNodes.access variablesOnly).rowwise true .sum
        oneTooMany 2 false = none ∧
      integers.aggregateOfValues? noNodes.access variablesOnly true .sum oneTooMany = none ∧
      pushdownTotal (integers.evaluators noNodes.access variablesOnly).rowwise (.fromFunc .sum)
        oneTooMany = 2 ^ 63 - 1 ∧
      oneTooMany.foldl addInt 0 = -2 ^ 63 ∧
      ∀ debug, ¬integers.Follows noNodes.access variablesOnly debug
        (.inRow leastNumber (fun _ => none) leastNegated) := by
  have stops (debug : Bool) : integers.evalExpr? noNodes.access debug leastNumber (fun _ => none)
      leastNegated = none := by
    cases debug <;> rfl
  refine ⟨stops, rfl, rfl, by decide, by decide, fun debug follows => ?_⟩
  cases (stops debug).symm.trans follows

end ErmyaGraph.Gql
