import ErmyaGraph.Gql.Aggregate

/-! # Accumulators and aggregates

An accumulator that is fed value after value ends at the aggregate of the
values, as long as a sum of integers stays in their range. -/

namespace ErmyaGraph.Gql

open List GqlValue

variable {values : List GqlValue}

def InRange (n : Int) : Prop := -2 ^ 63 ≤ n ∧ n < 2 ^ 63

theorem wrappingAdd_of_inRange {left right : Int} (fits : InRange (left + right)) :
    wrappingAdd left right = left + right := Int64.toInt_ofInt_of_le fits.1 fits.2

theorem saturatingAdd_of_inRange {left right : Int} (fits : InRange (left + right)) :
    saturatingAdd left right = left + right := by
  obtain ⟨low, high⟩ := fits
  unfold saturatingAdd
  omega

def GqlValue.asInt : GqlValue → Int
  | .int value => value
  | _ => 0

/-- The integers among values, added up from the left, stay in range at every value. -/
def StaysInRange : (sum : Int) → List GqlValue → Prop
  | _, [] => True
  | sum, value :: rest => InRange (sum + value.asInt) ∧ StaysInRange (sum + value.asInt) rest

def sumFrom (sum : Int) (values : List GqlValue) : Int :=
  values.foldl (fun sum value => sum + value.asInt) sum

section Feeding

variable {evaluation : Evaluation}

theorem foldl_addInt {sum : Int} (fits : StaysInRange sum values) :
    values.foldl addInt sum = sumFrom sum values := by
  induction values generalizing sum with
  | nil => rfl
  | cons value rest ih =>
    obtain ⟨here, later⟩ := fits
    rw [sumFrom, foldl_cons, foldl_cons]
    cases value with
    | int i =>
      have next : addInt sum (.int i) = sum + i := wrappingAdd_of_inRange here
      rw [next]
      exact ih later
    | _ =>
      simp only [asInt, Int.add_zero] at later ⊢
      exact ih later

theorem aggregateSum_of_inRange (noFloat : ∀ value ∈ values, value.isFloat = false)
    (fits : StaysInRange 0 values) :
    aggregateSum evaluation values =
      if values.all isNull then .null else .int (sumFrom 0 values) := by
  have none : values.any isFloat = false := by
    rw [any_eq_false]
    intro value mem
    rw [noFloat value mem]
    exact Bool.false_ne_true
  rw [aggregateSum, none, foldl_addInt fits]
  rfl

theorem foldl_feed_count (n : Int) (values : List GqlValue) :
    values.foldl (fun accum value => AggAccum.feed evaluation value accum) (.count n) =
      .count (n + (values.filter fun value => !value.isNull).length) := by
  induction values generalizing n with
  | nil => simp
  | cons value rest ih =>
    rw [foldl_cons, AggAccum.feed, filter_cons]
    by_cases null : value.isNull
    · simp only [null, if_true, Bool.not_true, Bool.false_eq_true, if_false]
      exact ih n
    · simp only [null, Bool.false_eq_true, if_false, Bool.not_false, if_true]
      rw [ih, length_cons]
      congr 1
      omega

theorem foldl_feed_collect (items values : List GqlValue) :
    values.foldl (fun accum value => AggAccum.feed evaluation value accum) (.collect items) =
      .collect (items ++ values.filter fun value => !value.isNull) := by
  induction values generalizing items with
  | nil => simp
  | cons value rest ih =>
    rw [foldl_cons, AggAccum.feed, filter_cons]
    by_cases null : value.isNull
    · simp only [null, if_true, Bool.not_true, Bool.false_eq_true, if_false]
      exact ih items
    · simp only [null, Bool.false_eq_true, if_false, Bool.not_false, if_true]
      rw [ih, append_assoc]
      rfl

theorem foldl_feed_avg (sofar : UInt64 × Nat) (values : List GqlValue) :
    values.foldl (fun accum value => AggAccum.feed evaluation value accum)
        (.avg sofar.1 sofar.2) =
      .avg (values.foldl (addToAverage evaluation) sofar).1
        (values.foldl (addToAverage evaluation) sofar).2 := by
  induction values generalizing sofar with
  | nil => rfl
  | cons value rest ih =>
    rw [foldl_cons, AggAccum.feed, foldl_cons]
    cases value with
    | null => exact ih sofar
    | _ => exact ih _

/-- The values kept so far, of those in an order. -/
def kept (evaluation : Evaluation) (wanted : Ordering) (current : Option GqlValue)
    (values : List GqlValue) : Option GqlValue :=
  (values.filter fun value => !value.isNull).foldl
    (fun current value => some (current.elim value fun kept => better evaluation wanted kept value))
    current

theorem kept_some (wanted : Ordering) (first : GqlValue) (values : List GqlValue) :
    values.foldl (fun current value =>
        some (current.elim value fun kept => better evaluation wanted kept value)) (some first) =
      some (values.foldl (better evaluation wanted) first) := by
  induction values generalizing first with
  | nil => rfl
  | cons value rest ih => exact ih _

variable (current : Option GqlValue)

theorem foldl_feed_min (values : List GqlValue) :
    values.foldl (fun accum value => AggAccum.feed evaluation value accum) (.min current) =
      .min (kept evaluation .lt current values) := by
  induction values generalizing current with
  | nil => rfl
  | cons value rest ih =>
    rw [foldl_cons, AggAccum.feed, kept, filter_cons]
    by_cases null : value.isNull
    · simp only [null, if_true, Bool.not_true, Bool.false_eq_true, if_false]
      exact ih current
    · simp only [null, Bool.false_eq_true, if_false, Bool.not_false, if_true]
      exact ih _

theorem foldl_feed_max (values : List GqlValue) :
    values.foldl (fun accum value => AggAccum.feed evaluation value accum) (.max current) =
      .max (kept evaluation .gt current values) := by
  induction values generalizing current with
  | nil => rfl
  | cons value rest ih =>
    rw [foldl_cons, AggAccum.feed, kept, filter_cons]
    by_cases null : value.isNull
    · simp only [null, if_true, Bool.not_true, Bool.false_eq_true, if_false]
      exact ih current
    · simp only [null, Bool.false_eq_true, if_false, Bool.not_false, if_true]
      exact ih _

theorem aggregateMinMax_eq (values : List GqlValue) (isMax : Bool) :
    aggregateMinMax evaluation values isMax =
      (kept evaluation (if isMax then .gt else .lt) none values).getD .null := by
  unfold aggregateMinMax kept
  cases values.filter fun value => !value.isNull with
  | nil => rfl
  | cons first rest =>
    rw [foldl_cons]
    exact (congrArg (·.getD .null) (kept_some _ first rest)).symm

theorem foldl_feed_sum {sum : Int} (floats : UInt64) (any : Bool)
    (noFloat : ∀ value ∈ values, value.isFloat = false) (fits : StaysInRange sum values) :
    values.foldl (fun accum value => AggAccum.feed evaluation value accum)
        (.sum sum floats false any) =
      .sum (sumFrom sum values) floats false (any || !values.all isNull) := by
  induction values generalizing sum any with
  | nil => simp [sumFrom]
  | cons value rest ih =>
    obtain ⟨here, later⟩ := fits
    have noFloat' : ∀ value ∈ rest, value.isFloat = false :=
      fun value mem => noFloat value (.tail _ mem)
    rw [foldl_cons, sumFrom, foldl_cons, all_cons]
    cases value with
    | null =>
      have same : sum + GqlValue.null.asInt = sum := Int.add_zero sum
      rw [same] at later ⊢
      exact ih any noFloat' later
    | int i =>
      have here : InRange (sum + i) := here
      have later : StaysInRange (sum + i) rest := later
      have fed : AggAccum.feed evaluation (.int i) (.sum sum floats false any) =
          .sum (sum + i) floats false true := by
        rw [← saturatingAdd_of_inRange here]
        rfl
      rw [fed, ih true noFloat' later]
      simp [isNull, sumFrom, asInt]
    | float => cases noFloat _ mem_cons_self
    | bool | str | list | map | node | relationship | path =>
      simp only [asInt, Int.add_zero] at later
      refine (ih true noFloat' later).trans ?_
      simp [isNull, sumFrom, asInt]

theorem finalize_foldl_feed (func : AggFunc) (rowCount : Nat)
    (sums : func = .sum → (∀ value ∈ values, value.isFloat = false) ∧ StaysInRange 0 values) :
    AggAccum.finalize evaluation
        (values.foldl (fun accum value => AggAccum.feed evaluation value accum) (.fromFunc func)) =
      evalAggregateCore evaluation func values rowCount false := by
  cases func with
  | count =>
    rw [AggAccum.fromFunc, foldl_feed_count, AggAccum.finalize, Int.zero_add]
    rfl
  | sum =>
    obtain ⟨noFloat, fits⟩ := sums rfl
    rw [AggAccum.fromFunc, foldl_feed_sum 0 false noFloat fits, AggAccum.finalize,
      evalAggregateCore, aggregateSum_of_inRange noFloat fits]
    cases values.all isNull <;> rfl
  | avg => exact congrArg (AggAccum.finalize evaluation) (foldl_feed_avg (0, 0) values)
  | min =>
    rw [AggAccum.fromFunc, foldl_feed_min, evalAggregateCore, aggregateMinMax_eq]
    rfl
  | max =>
    rw [AggAccum.fromFunc, foldl_feed_max, evalAggregateCore, aggregateMinMax_eq]
    rfl
  | collect => exact congrArg (AggAccum.finalize evaluation) (foldl_feed_collect [] values)

end Feeding

end ErmyaGraph.Gql
