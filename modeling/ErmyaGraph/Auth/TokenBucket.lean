import Mathlib.Algebra.Order.Ring.Int
import Mathlib.Data.List.Pairwise

/-! # The token bucket

Instants and periods are in nanoseconds. A refill earns whole tokens only. What is left of the time
since the anchor is kept if it earns none, and is lost if it earns some. -/

namespace ErmyaGraph.Auth

structure TokenBucket where
  rate : Nat
  refillPeriod : Nat
  tokens : Nat
  lastRefill : Option Nat
deriving DecidableEq

/-- The largest value of so many bits, where a value goes beyond it. -/
def saturate (bits value : Nat) : Nat := min value (2 ^ bits - 1)

namespace TokenBucket

def capacity (rate : Nat) : Nat := saturate 64 (rate * 2)

def new (cap refillPeriod : Nat) : TokenBucket := ⟨cap, refillPeriod, capacity cap, none⟩

def earned (rate refillPeriod elapsed : Nat) : Nat :=
  saturate 128 (elapsed * rate) / refillPeriod

def refill (bucket : TokenBucket) (now : Nat) : TokenBucket :=
  match bucket.lastRefill with
  | none => { bucket with lastRefill := some now }
  | some last =>
    if now - last = 0 then bucket
    else
      let earned := earned bucket.rate bucket.refillPeriod (now - last)
      if earned = 0 then bucket
      else { bucket with
        tokens := min (saturate 64 (bucket.tokens + saturate 64 earned)) (capacity bucket.rate)
        lastRefill := some now }

def tryTake (bucket : TokenBucket) (n now : Nat) : Bool × TokenBucket :=
  if bucket.rate = 0 then (true, bucket)
  else
    let bucket := bucket.refill now
    if n ≤ bucket.tokens then (true, { bucket with tokens := bucket.tokens - n })
    else (false, bucket)

def available (bucket : TokenBucket) (now : Nat) : Nat × TokenBucket :=
  if bucket.rate = 0 then (0, bucket)
  else ((bucket.refill now).tokens, bucket.refill now)

/-- The tokens that are there are taken. The result is the time to sleep for the others. -/
def take (bucket : TokenBucket) (n now : Nat) : Nat × TokenBucket :=
  if bucket.rate = 0 then (0, bucket)
  else
    let bucket := bucket.refill now
    if n ≤ bucket.tokens then (0, { bucket with tokens := bucket.tokens - n })
    else
      (saturate 64 (saturate 128 ((n - bucket.tokens) * bucket.refillPeriod) / bucket.rate),
        { bucket with tokens := 0 })

inductive Call where
  | tryTake (n now : Nat)
  | available (now : Nat)
  | take (n now : Nat)

def Call.now : Call → Nat
  | tryTake _ now | available now | take _ now => now

/-- The tokens that a call of `tryTake` grants, and the bucket after the call. -/
def step (bucket : TokenBucket) : Call → Nat × TokenBucket
  | .tryTake n now =>
    let (granted, bucket) := bucket.tryTake n now
    (if granted then n else 0, bucket)
  | .available now => (0, (bucket.available now).2)
  | .take n now => (0, (bucket.take n now).2)

def run (bucket : TokenBucket) : List Call → Nat × TokenBucket
  | [] => (0, bucket)
  | call :: calls =>
    let (granted, bucket) := bucket.step call
    let (more, bucket) := run bucket calls
    (granted + more, bucket)

/-- The calls come in the order of their instants, none before the given one. -/
def InOrder (start : Nat) (calls : List Call) : Prop :=
  (start :: calls.map Call.now).Pairwise (· ≤ ·)

/-- No call takes anything. -/
def Idle : TokenBucket → List Call → Prop
  | _, [] => True
  | bucket, call :: calls =>
    (bucket.step call).2 = bucket.refill call.now ∧ Idle (bucket.refill call.now) calls

/-- At this instant a full bucket has no time left over that is worth less than a token. -/
def Punctual (bucket : TokenBucket) (now : Nat) : Prop :=
  bucket.tokens = capacity bucket.rate → ∀ last, bucket.lastRefill = some last →
    now - last = 0 ∨ earned bucket.rate bucket.refillPeriod (now - last) ≠ 0

/-- What refills at these instants earn, and the credit that is lost at them or left at the end, as
parts of a token by the period. -/
def earnings (rate refillPeriod anchor now : Nat) : List Nat → Nat × Nat
  | [] => (0, (now - anchor) * rate)
  | instant :: instants =>
    let tokens := earned rate refillPeriod (instant - anchor)
    if tokens = 0 then earnings rate refillPeriod anchor instant instants
    else
      let (more, left) := earnings rate refillPeriod instant instant instants
      (tokens + more, (instant - anchor) * rate - tokens * refillPeriod + left)

section Steps

variable {bucket : TokenBucket} {now last : Nat}

theorem earned_le (rate refillPeriod elapsed : Nat) :
    earned rate refillPeriod elapsed * refillPeriod ≤ elapsed * rate :=
  Nat.le_trans (Nat.div_mul_le_self ..) (Nat.min_le_left ..)

/-- A refill with an anchor adds what is earned, up to the capacity, and moves the anchor if that is
something. -/
theorem refill_of (anchored : bucket.lastRefill = some last)
    (fits : bucket.tokens ≤ capacity bucket.rate) :
    bucket.refill now =
      if earned bucket.rate bucket.refillPeriod (now - last) = 0 then bucket
      else { bucket with
        tokens := min (bucket.tokens + earned bucket.rate bucket.refillPeriod (now - last))
          (capacity bucket.rate)
        lastRefill := some now } := by
  have small : capacity bucket.rate ≤ 2 ^ 64 - 1 := Nat.min_le_right ..
  simp only [refill, anchored]
  split
  next here => simp [here, earned, saturate]
  next =>
    split
    · rfl
    · congr 1
      simp only [saturate]
      omega

/-- The state of a bucket at an instant: not over its capacity, and anchored no later than now. -/
structure Valid (rate refillPeriod now : Nat) (bucket : TokenBucket) : Prop where
  rate_eq : bucket.rate = rate
  period_eq : bucket.refillPeriod = refillPeriod
  fits : bucket.tokens ≤ capacity rate
  anchored : ∀ last, bucket.lastRefill = some last → last ≤ now

/-- What the bucket holds, with the time since its anchor, as parts of a token by the period. -/
def credit (bucket : TokenBucket) (now : Nat) : Nat :=
  bucket.tokens * bucket.refillPeriod + bucket.lastRefill.elim 0 (now - ·) * bucket.rate

variable {rate refillPeriod later : Nat}

/-- A refill adds no credit. -/
theorem Valid.refill (valid : Valid rate refillPeriod now bucket) (after : now ≤ later) :
    Valid rate refillPeriod later (bucket.refill later) ∧
      (bucket.refill later).credit later ≤ bucket.credit later := by
  obtain ⟨rfl, rfl, fits, anchored⟩ := valid
  cases isLast : bucket.lastRefill with
  | none =>
    simp only [TokenBucket.refill, isLast]
    exact ⟨⟨rfl, rfl, fits, by simp⟩, by simp [credit, isLast]⟩
  | some last =>
    rw [refill_of isLast fits]
    split
    next =>
      exact ⟨⟨rfl, rfl, fits, fun other same => Nat.le_trans (anchored other same) after⟩,
        Nat.le_refl _⟩
    next =>
      refine ⟨⟨rfl, rfl, Nat.min_le_right .., by simp⟩, ?_⟩
      have here := earned_le bucket.rate bucket.refillPeriod (later - last)
      have atMost : min (bucket.tokens + earned bucket.rate bucket.refillPeriod (later - last))
          (capacity bucket.rate) * bucket.refillPeriod ≤ _ :=
        Nat.mul_le_mul_right _ (Nat.min_le_left ..)
      rw [Nat.add_mul] at atMost
      simp only [credit, isLast, Option.elim_some, Nat.sub_self, Nat.zero_mul, Nat.add_zero]
      omega

/-- A call spends tokens of the bucket as it is refilled, and grants no more than it spends. -/
theorem step_spec (positive : 0 < bucket.rate) (call : Call) :
    ∃ granted spent, granted ≤ spent ∧ spent ≤ (bucket.refill call.now).tokens ∧
      bucket.step call = (granted, { bucket.refill call.now with
        tokens := (bucket.refill call.now).tokens - spent }) := by
  have enabled := Nat.ne_of_gt positive
  cases call with
  | tryTake n now =>
    simp only [step, tryTake, if_neg enabled, Call.now]
    split
    next enough => exact ⟨n, n, Nat.le_refl n, enough, rfl⟩
    next => exact ⟨0, 0, Nat.le_refl 0, Nat.zero_le _, rfl⟩
  | available now =>
    simp only [step, available, if_neg enabled, Call.now]
    exact ⟨0, 0, Nat.le_refl 0, Nat.zero_le _, rfl⟩
  | take n now =>
    simp only [step, take, if_neg enabled, Call.now]
    split
    next enough => exact ⟨0, n, Nat.zero_le n, enough, rfl⟩
    next => exact ⟨0, _, Nat.zero_le _, Nat.le_refl _, by simp⟩

/-- What a call grants comes out of the credit that its refill left. -/
theorem Valid.step (valid : Valid rate refillPeriod now bucket) (positive : 0 < rate) (call : Call)
    (after : now ≤ call.now) :
    Valid rate refillPeriod call.now (bucket.step call).2 ∧
      (bucket.step call).1 * refillPeriod + (bucket.step call).2.credit call.now ≤
        (bucket.refill call.now).credit call.now := by
  obtain ⟨refilled, -⟩ := valid.refill after
  obtain ⟨granted, spent, within, enough, stepped⟩ :=
    step_spec (valid.rate_eq.symm ▸ positive) call
  rw [stepped]
  refine ⟨{ refilled with fits := Nat.le_trans (Nat.sub_le ..) refilled.fits }, ?_⟩
  have paid := Nat.mul_le_mul_right refillPeriod within
  have rest := Nat.sub_mul (bucket.refill call.now).tokens spent refillPeriod
  have covers := Nat.mul_le_mul_right refillPeriod enough
  simp only [credit, refilled.period_eq]
  omega

theorem credit_later (valid : Valid rate refillPeriod now bucket) (after : now ≤ later) :
    bucket.credit later ≤ bucket.credit now + (later - now) * rate := by
  have split_ : ∀ last, bucket.lastRefill = some last →
      (later - last) * rate = (now - last) * rate + (later - now) * rate := fun last isLast => by
    have := valid.anchored last isLast
    rw [← Nat.add_mul]
    congr 1
    omega
  cases isLast : bucket.lastRefill with
  | none => simp [credit, isLast]
  | some last =>
    have := split_ last isLast
    simp only [credit, isLast, Option.elim_some, valid.rate_eq]
    omega

theorem InOrder.step {call : Call} {calls : List Call} (ordered : InOrder now (call :: calls)) :
    now ≤ call.now ∧ InOrder call.now calls := by
  simp only [InOrder, List.map_cons, List.pairwise_cons] at ordered
  exact ⟨ordered.1 _ (.head _), List.pairwise_cons.mpr ordered.2⟩

theorem Valid.run (positive : 0 < rate) : ∀ (calls : List Call) {bucket : TokenBucket} {now : Nat},
    Valid rate refillPeriod now bucket → InOrder now calls → ∀ finish, now ≤ finish →
    (∀ call ∈ calls, call.now ≤ finish) →
    Valid rate refillPeriod finish (bucket.run calls).2 ∧
      (bucket.run calls).1 * refillPeriod ≤ bucket.credit now + (finish - now) * rate
  | [], _, _, valid, _, finish, after, _ =>
    ⟨{ valid with anchored := fun last isLast => Nat.le_trans (valid.anchored last isLast) after },
      by simp [TokenBucket.run]⟩
  | call :: calls, bucket, now, valid, ordered, finish, _, within => by
    obtain ⟨after, rest⟩ := ordered.step
    have before := within call (.head _)
    obtain ⟨next, paid⟩ := valid.step positive call after
    obtain ⟨ends, more⟩ := Valid.run positive calls next rest finish before
      fun other mem => within other (.tail _ mem)
    refine ⟨ends, ?_⟩
    have refilled := (valid.refill after).2
    have waited := credit_later valid after
    have time : (finish - now) * rate = (call.now - now) * rate + (finish - call.now) * rate := by
      rw [← Nat.add_mul]
      congr 1
      omega
    simp only [TokenBucket.run, Nat.add_mul]
    omega

/-- A punctual refill leaves no more credit than a full bucket has. -/
theorem credit_refill_le (valid : Valid rate refillPeriod now bucket)
    (bounded : refillPeriod < 2 ^ 128) (some_period : 0 < refillPeriod)
    (punctual : bucket.Punctual later) :
    (bucket.refill later).credit later ≤ 2 * rate * refillPeriod := by
  have small : capacity rate * refillPeriod ≤ 2 * rate * refillPeriod :=
    Nat.mul_le_mul_right _ (by rw [Nat.mul_comm 2]; exact Nat.min_le_left ..)
  obtain ⟨rfl, rfl, fits, anchored⟩ := valid
  have held := Nat.mul_le_mul_right bucket.refillPeriod fits
  cases isLast : bucket.lastRefill with
  | none =>
    simp only [refill, isLast, credit, Option.elim_some, Nat.sub_self, Nat.zero_mul]
    omega
  | some last =>
    rw [refill_of isLast fits]
    split
    next nothing =>
      simp only [credit, isLast, Option.elim_some]
      rcases Nat.lt_or_eq_of_le fits with under | full
      · have little : (later - last) * bucket.rate < bucket.refillPeriod := by
          have := (Nat.div_eq_zero_iff_lt some_period).mp nothing
          simp only [saturate] at this
          omega
        have := Nat.mul_le_mul_right bucket.refillPeriod (Nat.succ_le_of_lt under)
        rw [Nat.succ_mul] at this
        omega
      · rcases punctual full last isLast with none_left | earns
        · rw [none_left]
          omega
        · exact absurd nothing earns
    next =>
      have := Nat.mul_le_mul_right bucket.refillPeriod (Nat.min_le_right
        (bucket.tokens + earned bucket.rate bucket.refillPeriod (later - last))
        (capacity bucket.rate))
      simp only [credit, Option.elim_some, Nat.sub_self, Nat.zero_mul]
      omega

/-- What the refills earn, and what is left of the time, is what the whole time is worth. -/
theorem earnings_total : ∀ (instants : List Nat) {anchor now : Nat}, anchor ≤ now →
    (now :: instants).Pairwise (· ≤ ·) →
    (earnings rate refillPeriod anchor now instants).1 * refillPeriod +
      (earnings rate refillPeriod anchor now instants).2 =
        (instants.getLastD now - anchor) * rate
  | [], _, _, _, _ => by simp [earnings]
  | instant :: instants, anchor, now, after, ordered => by
    obtain ⟨first, rest⟩ := List.pairwise_cons.mp ordered
    have later := Nat.le_trans after (first instant (List.mem_cons_self ..))
    rw [earnings, List.getLastD_cons]
    split
    next => exact earnings_total instants later rest
    next =>
      have total := earnings_total instants (Nat.le_refl instant) rest
      have here := earned_le rate refillPeriod (instant - anchor)
      have ends : instant ≤ instants.getLastD instant := by
        rw [List.getLastD_eq_getLast?]
        cases isLast : instants.getLast? with
        | none => exact Nat.le_refl _
        | some last => exact (List.pairwise_cons.mp rest).1 last (List.mem_of_getLast? isLast)
      have time : (instants.getLastD instant - anchor) * rate =
          (instant - anchor) * rate + (instants.getLastD instant - instant) * rate := by
        rw [← Nat.add_mul]
        congr 1
        omega
      simp only [Nat.add_mul]
      omega

/-- Calls that take nothing leave what was there and what was earned, up to the capacity. -/
theorem tokens_of_idle : ∀ (calls : List Call) {bucket : TokenBucket} {anchor : Nat} (now : Nat),
    bucket.lastRefill = some anchor → bucket.tokens ≤ capacity bucket.rate →
    bucket.Idle calls →
    (bucket.run calls).2.tokens = min (bucket.tokens +
      (earnings bucket.rate bucket.refillPeriod anchor now (calls.map Call.now)).1)
      (capacity bucket.rate)
  | [], _, _, _, _, fits, _ => by simp [run, earnings, fits]
  | call :: calls, bucket, anchor, _, anchored, fits, ⟨same, idle⟩ => by
    simp only [run, same, List.map_cons, earnings]
    have refilled : bucket.refill call.now = _ := refill_of anchored fits
    split at refilled
    next nothing =>
      rw [refilled] at idle ⊢
      rw [if_pos nothing]
      exact tokens_of_idle calls call.now anchored fits idle
    next something =>
      rw [refilled] at idle ⊢
      rw [if_neg something, tokens_of_idle calls call.now rfl (Nat.min_le_right ..) idle]
      simp only
      omega

end Steps

end TokenBucket

end ErmyaGraph.Auth
