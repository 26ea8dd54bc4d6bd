import Mathlib.Algebra.Order.Ring.Int
import Mathlib.Data.Fintype.Card

/-! # Sorting by a comparison

A stable sort by a comparison that is only known to be consistent among the
elements of the list, and moving the elements of a list along a permutation
cycle by cycle. -/

namespace ErmyaGraph.Sorting

section Insertion

variable {α : Type} (cmp : α → α → Ordering)

/-- Insert an element into a list from its greatest element on, behind its equals. -/
def insertTail (x : α) : List α → List α
  | [] => [x]
  | y :: rest => if cmp x y = .lt then y :: insertTail x rest else x :: y :: rest

def sortBy (l : List α) : List α :=
  (l.foldl (fun sorted x => insertTail cmp x sorted) []).reverse

end Insertion

/-- Among these elements the comparison is a total preorder. -/
def Consistent {α : Type} (cmp : α → α → Ordering) (s : α → Prop) : Prop :=
  Std.TransCmp fun a b : {x // s x} => cmp a b

namespace Consistent

variable {α β : Type} {cmp cmp' : α → α → Ordering} {s : α → Prop}

theorem swap (consistent : Consistent cmp s) {a b : α} (first : s a) (second : s b) :
    cmp b a = (cmp a b).swap :=
  consistent.toOrientedCmp.eq_swap (a := ⟨b, second⟩) (b := ⟨a, first⟩)

theorem trans (consistent : Consistent cmp s) {a b c : α} (first : s a) (second : s b)
    (third : s c) (ab : cmp a b ≠ .gt) (bc : cmp b c ≠ .gt) : cmp a c ≠ .gt :=
  Ordering.isLE_iff_ne_gt.mp (consistent.isLE_trans (a := ⟨a, first⟩) (b := ⟨b, second⟩)
    (c := ⟨c, third⟩) (Ordering.isLE_iff_ne_gt.mpr ab) (Ordering.isLE_iff_ne_gt.mpr bc))

theorem congr (consistent : Consistent cmp s)
    (same : ∀ {a b}, s a → s b → cmp' a b = cmp a b) : Consistent cmp' s := by
  have both : (fun a b : {x // s x} => cmp' a b) = fun a b : {x // s x} => cmp a b :=
    funext fun a => funext fun b => same a.2 b.2
  rw [Consistent, both]
  exact consistent

theorem of_compare [Ord β] [Std.TransOrd β] (f : α → β) :
    Consistent (fun a b => compare (f a) (f b)) s :=
  inferInstanceAs (Std.TransCmp (compareOn fun a : {x // s x} => f a))

theorem comap {t : β → Prop} (consistent : Consistent cmp s) (f : β → α)
    (maps : ∀ {b}, t b → s (f b)) : Consistent (fun a b => cmp (f a) (f b)) t where
  eq_swap {a b} := consistent.swap (maps b.2) (maps a.2)
  isLE_trans {a b c} := consistent.isLE_trans (a := ⟨f a, maps a.2⟩) (b := ⟨f b, maps b.2⟩)
    (c := ⟨f c, maps c.2⟩)

theorem reverse (consistent : Consistent cmp s) : Consistent (fun a b => (cmp a b).swap) s := by
  have opposite : Consistent (fun a b => cmp b a) s :=
    @Std.TransCmp.opposite {x // s x} _ consistent
  exact opposite.congr fun first second => (consistent.swap first second).symm

theorem andThen (first : Consistent cmp s) (second : Consistent cmp' s) :
    Consistent (fun a b => (cmp a b).then (cmp' a b)) s := by
  unfold Consistent at *
  exact inferInstanceAs (Std.TransCmp (compareLex _ _))

end Consistent

section Insertion

open List

variable {α : Type} {cmp : α → α → Ordering}

theorem insertTail_perm (x : α) (l : List α) : (insertTail cmp x l).Perm (x :: l) := by
  induction l with
  | nil => exact .refl _
  | cons y rest ih =>
    rw [insertTail]
    split
    · exact (ih.cons y).trans (.swap x y rest)
    · exact .refl _

theorem foldl_insertTail_perm (l sorted : List α) :
    (l.foldl (fun sorted x => insertTail cmp x sorted) sorted).Perm (l.reverse ++ sorted) := by
  induction l generalizing sorted with
  | nil => exact .refl _
  | cons x rest ih =>
    rw [foldl_cons, reverse_cons, append_assoc]
    exact (ih _).trans ((insertTail_perm x sorted).append_left _)

theorem sortBy_perm (l : List α) : (sortBy cmp l).Perm l :=
  (reverse_perm _).trans
    ((foldl_insertTail_perm l []).trans (by simp))

variable {s : α → Prop}

theorem insertTail_sorted (consistent : Consistent cmp s) {x : α} (inside : s x) {l : List α}
    (all : ∀ y ∈ l, s y) (sorted : l.Pairwise fun later earlier => cmp earlier later ≠ .gt) :
    (insertTail cmp x l).Pairwise fun later earlier => cmp earlier later ≠ .gt := by
  induction l with
  | nil => exact pairwise_singleton _ _
  | cons y rest ih =>
    obtain ⟨greatest, ordered⟩ := pairwise_cons.mp sorted
    have here := all y mem_cons_self
    have others : ∀ z ∈ rest, s z := fun z mem => all z (.tail _ mem)
    rw [insertTail]
    split
    · next before =>
        refine pairwise_cons.mpr ⟨fun z mem => ?_, ih others ordered⟩
        rcases mem_cons.mp ((insertTail_perm x rest).mem_iff.mp mem) with rfl | old
        · rw [before]
          exact nofun
        · exact greatest z old
    · next behind =>
        have last : cmp y x ≠ .gt := by
          rw [consistent.swap inside here]
          intro greater
          exact behind (by simpa using congrArg Ordering.swap greater)
        refine pairwise_cons.mpr ⟨fun z mem => ?_, sorted⟩
        rcases mem_cons.mp mem with rfl | old
        · exact last
        · exact consistent.trans (others z old) here inside (greatest z old) last

theorem sortBy_sorted (consistent : Consistent cmp s) {l : List α} (all : ∀ x ∈ l, s x) :
    (sortBy cmp l).Pairwise fun earlier later => cmp earlier later ≠ .gt := by
  rw [sortBy, pairwise_reverse]
  suffices ∀ sorted : List α, (∀ y ∈ sorted, s y) →
      (sorted.Pairwise fun later earlier => cmp earlier later ≠ .gt) →
      (l.foldl (fun sorted x => insertTail cmp x sorted) sorted).Pairwise
        fun later earlier => cmp earlier later ≠ .gt from this [] nofun .nil
  induction l with
  | nil => exact fun _ _ sorted => sorted
  | cons x rest ih =>
    intro sorted members ordered
    have here := all x mem_cons_self
    refine ih (fun y mem => all y (.tail _ mem)) _ (fun y mem => ?_)
      (insertTail_sorted consistent here members ordered)
    rcases mem_cons.mp ((insertTail_perm x sorted).mem_iff.mp mem) with rfl | old
    · exact here
    · exact members y old

end Insertion

section Map

open List

variable {α β : Type} {cmp cmp' : α → α → Ordering}

theorem insertTail_map {cmp : β → β → Ordering} (f : α → β) (x : α) (l : List α) :
    insertTail cmp (f x) (l.map f) = (insertTail (fun a b => cmp (f a) (f b)) x l).map f := by
  induction l with
  | nil => rfl
  | cons y rest ih =>
    rw [map_cons, insertTail, insertTail, ih]
    split <;> rfl

theorem sortBy_map {cmp : β → β → Ordering} (f : α → β) (l : List α) :
    sortBy cmp (l.map f) = (sortBy (fun a b => cmp (f a) (f b)) l).map f := by
  suffices ∀ sorted : List α,
      (l.map f).foldl (fun sorted x => insertTail cmp x sorted) (sorted.map f) =
        (l.foldl (fun sorted x => insertTail (fun a b => cmp (f a) (f b)) x sorted) sorted).map f by
    rw [sortBy, sortBy, map_reverse]
    exact congrArg List.reverse (this [])
  induction l with
  | nil => exact fun _ => rfl
  | cons x rest ih =>
    intro sorted
    rw [map_cons, foldl_cons, insertTail_map]
    exact ih _

variable {l : List α}

theorem insertTail_congr {x : α} (same : ∀ y ∈ l, cmp x y = cmp' x y) :
    insertTail cmp x l = insertTail cmp' x l := by
  induction l with
  | nil => rfl
  | cons y rest ih =>
    rw [insertTail, insertTail, same y mem_cons_self,
      ih fun z mem => same z (mem_cons_of_mem _ mem)]

theorem sortBy_congr (same : ∀ a ∈ l, ∀ b ∈ l, cmp a b = cmp' a b) :
    sortBy cmp l = sortBy cmp' l := by
  suffices ∀ rest sorted : List α, (∀ x ∈ rest, x ∈ l) → (∀ x ∈ sorted, x ∈ l) →
      rest.foldl (fun sorted x => insertTail cmp x sorted) sorted =
        rest.foldl (fun sorted x => insertTail cmp' x sorted) sorted from
    congrArg List.reverse (this l [] (fun _ => id) nofun)
  intro rest
  induction rest with
  | nil => exact fun _ _ _ => rfl
  | cons x rest ih =>
    intro sorted waiting inside
    have here := waiting x mem_cons_self
    rw [foldl_cons, foldl_cons, insertTail_congr fun y mem => same x here y (inside y mem)]
    refine ih _ (fun y mem => waiting y (.tail _ mem)) fun y mem => ?_
    rcases mem_cons.mp ((insertTail_perm x sorted).mem_iff.mp mem) with rfl | old
    · exact here
    · exact inside y old

theorem sortBy_of_ne_lt (never : ∀ a b, cmp a b ≠ .lt) : sortBy cmp l = l := by
  have inserted (x : α) (sorted : List α) : insertTail cmp x sorted = x :: sorted := by
    cases sorted with
    | nil => rfl
    | cons y rest => rw [insertTail, if_neg (never x y)]
  rw [sortBy]
  simp only [inserted]
  rw [foldl_flip_cons_eq_append', append_nil, reverse_reverse]

end Map

section Cycles

variable {α : Type} {n : Nat} (perm : Fin n → Fin n)

/-- Walk along a cycle from one of its places until it closes; what belongs to a place is
swapped in from the next one. -/
def followCycle (first : Fin n) : (fuel : Nat) → (j : Fin n) → Vector α n →
    (done : Finset (Fin n)) → Vector α n × Finset (Fin n)
  | 0, _, data, done => (data, done)
  | fuel + 1, j, data, done =>
    if perm j = first then (data, insert j done)
    else followCycle first fuel (perm j) (data.swap j (perm j)) (insert j done)

def permuteFrom (moved : Vector α n × Finset (Fin n)) (i : Fin n) : Vector α n × Finset (Fin n) :=
  if i ∈ moved.2 ∨ perm i = i then (moved.1, insert i moved.2)
  else followCycle perm i n i moved.1 moved.2

/-- Move to every place the element that the permutation names for it. -/
def applyPermutation (data : Vector α n) : Vector α n :=
  ((List.finRange n).foldl (permuteFrom perm) (data, ∅)).1

/-- The finished places are whole cycles, and the others are as they were. -/
structure Placed (original data : Vector α n) (done : Finset (Fin n)) : Prop where
  closed : ∀ k, perm k ∈ done ↔ k ∈ done
  moved : ∀ k ∈ done, data[k] = original[perm k]
  kept : ∀ k ∉ done, data[k] = original[k]

/-- On the way along a cycle the first element of it is carried along. -/
structure Walking (original : Vector α n) (first j : Fin n) (data : Vector α n)
    (done : Finset (Fin n)) : Prop where
  here : j ∉ done
  started : j = first ∨ first ∈ done
  entered : j = first ∨ ∃ k ∈ done, perm k = j
  back : ∀ k, perm k ∈ done → perm k = first ∨ k ∈ done
  onward : ∀ k ∈ done, perm k ∈ done ∨ perm k = j
  moved : ∀ k ∈ done, data[k] = original[perm k]
  carried : data[j] = original[first]
  kept : ∀ k ∉ done, k ≠ j → data[k] = original[k]

variable {perm} {original data : Vector α n} {done : Finset (Fin n)} {first j : Fin n}

theorem Placed.walking (placed : Placed perm original data done) (new : first ∉ done) :
    Walking perm original first first data done where
  here := new
  started := .inl rfl
  entered := .inl rfl
  back k inside := .inr ((placed.closed k).mp inside)
  onward k inside := .inl ((placed.closed k).mpr inside)
  moved := placed.moved
  carried := placed.kept first new
  kept k outside _ := placed.kept k outside

theorem Walking.entered_of_eq (walking : Walking perm original first j data done)
    (injective : perm.Injective) {k : Fin n} (leads : perm k = j) : j = first ∨ k ∈ done :=
  walking.entered.imp_right fun ⟨_, inside, leads'⟩ => injective (leads.trans leads'.symm) ▸ inside

theorem Walking.closes (walking : Walking perm original first j data done)
    (injective : perm.Injective) (closes : perm j = first) :
    Placed perm original data (insert j done) where
  closed k := by
    simp only [Finset.mem_insert]
    constructor
    · rintro (here | inside)
      · rcases walking.entered_of_eq injective here with begin | inside
        · exact .inl (injective (here.trans (begin.trans closes.symm)))
        · exact .inr inside
      · exact (walking.back k inside).imp_left fun begin => injective (begin.trans closes.symm)
    · rintro (rfl | inside)
      · rw [closes]
        exact walking.started.imp_left Eq.symm
      · exact (walking.onward k inside).symm
  moved k inside := by
    rcases Finset.mem_insert.mp inside with rfl | inside
    · simp only [walking.carried, closes]
    · exact walking.moved k inside
  kept k outside := by
    rw [Finset.mem_insert, not_or] at outside
    exact walking.kept k outside.2 outside.1

theorem Walking.step (walking : Walking perm original first j data done)
    (injective : perm.Injective) (open? : perm j ≠ first) :
    Walking perm original first (perm j) (data.swap j (perm j)) (insert j done) := by
  have further : perm j ≠ j := by
    intro same
    rcases walking.entered_of_eq injective same with begin | inside
    · exact open? (same.trans begin)
    · exact walking.here inside
  have new : perm j ∉ done := fun inside =>
    (walking.back j inside).elim open? walking.here
  have elsewhere (k : Fin n) (notHere : k ≠ j) (notThere : k ≠ perm j) :
      (data.swap j (perm j))[k] = data[k] := by
    simp [Fin.val_inj, notHere, notThere]
  constructor
  · rw [Finset.mem_insert, not_or]
    exact ⟨further, new⟩
  · exact .inr (Finset.mem_insert.mpr (walking.started.imp_left Eq.symm))
  · exact .inr ⟨j, Finset.mem_insert_self j done, rfl⟩
  · intro k inside
    rcases Finset.mem_insert.mp inside with here | inside
    · exact (walking.entered_of_eq injective here).imp here.trans (Finset.mem_insert_of_mem ·)
    · exact (walking.back k inside).imp_right (Finset.mem_insert_of_mem ·)
  · intro k inside
    rcases Finset.mem_insert.mp inside with rfl | inside
    · exact .inr rfl
    · exact .inl (Finset.mem_insert.mpr (walking.onward k inside).symm)
  · intro k inside
    rcases Finset.mem_insert.mp inside with rfl | inside
    · have arrives : (data.swap k (perm k))[k] = data[perm k] := by simp
      rw [arrives, walking.kept _ new further]
    · rw [elsewhere k (fun same => walking.here (same ▸ inside)) fun same => new (same ▸ inside)]
      exact walking.moved k inside
  · have leaves : (data.swap j (perm j))[perm j] = data[j] := by
      simp
    rw [leaves, walking.carried]
  · intro k outside notThere
    rw [Finset.mem_insert, not_or] at outside
    rw [elsewhere k outside.1 notThere]
    exact walking.kept k outside.2 outside.1

section

variable (injective : perm.Injective)
include injective

theorem followCycle_placed {fuel : Nat}
    (walking : Walking perm original first j data done) (enough : n ≤ fuel + done.card) :
    Placed perm original (followCycle perm first fuel j data done).1
        (followCycle perm first fuel j data done).2 ∧
      insert j done ⊆ (followCycle perm first fuel j data done).2 := by
  induction fuel generalizing j data done with
  | zero =>
    have room := Finset.card_le_univ (insert j done)
    rw [Finset.card_insert_of_notMem walking.here, Fintype.card_fin] at room
    omega
  | succ fuel ih =>
    rw [followCycle]
    split
    · next closes => exact ⟨walking.closes injective closes, subset_rfl⟩
    · next open? =>
        have walking' := walking.step injective open?
        have enough' : n ≤ fuel + (insert j done).card := by
          rw [Finset.card_insert_of_notMem walking.here]
          omega
        obtain ⟨placed, covers⟩ := ih walking' enough'
        exact ⟨placed, (Finset.subset_insert _ _).trans covers⟩

theorem permuteFrom_placed {moved : Vector α n × Finset (Fin n)}
    (placed : Placed perm original moved.1 moved.2) (i : Fin n) :
    Placed perm original (permuteFrom perm moved i).1 (permuteFrom perm moved i).2 ∧
      insert i moved.2 ⊆ (permuteFrom perm moved i).2 := by
  rw [permuteFrom]
  split
  · next skipped =>
      refine ⟨⟨fun k => ?_, fun k inside => ?_, fun k outside => ?_⟩, subset_rfl⟩
      · rcases skipped with inside | fixed
        · rw [Finset.insert_eq_of_mem inside]
          exact placed.closed k
        · rw [Finset.mem_insert, Finset.mem_insert, placed.closed, injective.eq_iff' fixed]
      · rcases Finset.mem_insert.mp inside with rfl | inside
        · rcases skipped with inside | fixed
          · exact placed.moved k inside
          · by_cases inside : k ∈ moved.2
            · exact placed.moved k inside
            · simp only [placed.kept k inside, fixed]
        · exact placed.moved k inside
      · exact placed.kept k fun inside => outside (Finset.mem_insert_of_mem inside)
  · next new =>
      rw [not_or] at new
      exact followCycle_placed injective (placed.walking new.1) (Nat.le_add_right _ _)

theorem foldl_permuteFrom_placed (places : List (Fin n))
    (moved : Vector α n × Finset (Fin n)) (placed : Placed perm original moved.1 moved.2) :
    Placed perm original (places.foldl (permuteFrom perm) moved).1
        (places.foldl (permuteFrom perm) moved).2 ∧
      ∀ i, i ∈ places ∨ i ∈ moved.2 → i ∈ (places.foldl (permuteFrom perm) moved).2 := by
  induction places generalizing moved with
  | nil => exact ⟨placed, fun i inside => inside.resolve_left nofun⟩
  | cons place rest ih =>
    obtain ⟨placed', covers⟩ := permuteFrom_placed injective placed place
    obtain ⟨finished, all⟩ := ih _ placed'
    refine ⟨finished, fun i inside => all i ?_⟩
    rcases inside with listed | old
    · rcases List.mem_cons.mp listed with rfl | later
      · exact .inr (covers (Finset.mem_insert_self _ _))
      · exact .inl later
    · exact .inr (covers (Finset.mem_insert_of_mem old))

theorem applyPermutation_getElem (data : Vector α n) (k : Fin n) :
    (applyPermutation perm data)[k] = data[perm k] := by
  have start : Placed perm data data ∅ := ⟨fun _ => by simp, nofun, fun _ _ => rfl⟩
  obtain ⟨placed, all⟩ := foldl_permuteFrom_placed injective (List.finRange n) (data, ∅) start
  exact placed.moved k (all k (.inl (List.mem_finRange k)))

end

theorem applyPermutation_sortBy (cmp : α → α → Ordering) (l : List α) :
    (applyPermutation (fun i =>
        (sortBy (fun a b : Fin l.length => cmp l[a] l[b]) (List.finRange l.length))[i]?.getD i)
      (⟨l.toArray, rfl⟩ : Vector α l.length)).toList = sortBy cmp l := by
  generalize indicesIs :
    sortBy (fun a b : Fin l.length => cmp l[a] l[b]) (List.finRange l.length) = indices
  have permuted : indices.Perm (List.finRange l.length) := indicesIs ▸ sortBy_perm _
  have length : indices.length = l.length := by rw [permuted.length_eq, List.length_finRange]
  have nodup : indices.Nodup := permuted.nodup_iff.mpr (List.nodup_finRange _)
  have inside (i : Fin l.length) : i.1 < indices.length := by rw [length]; exact i.isLt
  have named (i : Fin l.length) : indices[i]?.getD i = indices.get ⟨i, inside i⟩ := by
    rw [Fin.getElem?_fin, List.getElem?_eq_getElem (inside i)]
    rfl
  have sorted : sortBy cmp l = indices.map l.get := by
    have all : (List.finRange l.length).map l.get = l := by
      rw [← List.ofFn_eq_map, List.ofFn_get]
    conv_lhs => rw [← all, sortBy_map]
    exact congrArg (List.map l.get) indicesIs
  have injective : Function.Injective fun i : Fin l.length => indices[i]?.getD i := by
    intro i j same
    dsimp only at same
    rw [named, named] at same
    exact Fin.ext (Fin.mk.inj (nodup.injective_get same))
  refine List.ext_getElem ?_ fun k first second => ?_
  · rw [sorted, Vector.length_toList, List.length_map, length]
  · rw [Vector.length_toList] at first
    have moved := applyPermutation_getElem injective ⟨l.toArray, rfl⟩ ⟨k, first⟩
    simp only [sorted, List.getElem_map, Vector.getElem_toList]
    refine moved.trans ?_
    simp only [named]
    rfl

end Cycles

end ErmyaGraph.Sorting
