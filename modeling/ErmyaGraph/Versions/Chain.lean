import ErmyaGraph.Mvcc

/-! # What snapshots see of a chain

A reader takes the first delta it can see, from the newest push on. Deltas that
it cannot see may come, be stamped and go without changing its answer. -/

namespace ErmyaGraph

namespace EntitySnapshot

/-- The record of a version, unless it is a deletion. -/
def record? : EntitySnapshot → Option Record
  | live record => some record
  | deleted => none

end EntitySnapshot

namespace DeltaChain

variable {base base' : Option EntitySnapshot} {chain : DeltaChain} {startTs : Nat}
  {reader : Option Nat}
variable {delta : Delta}

theorem applyForRead_cons_visible (seen : delta.visibleTo startTs reader) :
    applyForRead base (delta :: chain) startTs reader = delta.new := by
  simp [applyForRead, seen]

theorem applyForRead_cons_hidden (hidden : delta.visibleTo startTs reader = false) :
    applyForRead base (delta :: chain) startTs reader = applyForRead base chain startTs reader := by
  simp [applyForRead, hidden]

/-- Whether some delta is visible, so that the base does not matter. -/
def sees (chain : DeltaChain) (startTs : Nat) (reader : Option Nat) : Bool :=
  chain.any fun delta => delta.visibleTo startTs reader

theorem applyForRead_of_sees (seen : chain.sees startTs reader) :
    ∃ delta ∈ chain, delta.visibleTo startTs reader ∧
      ∀ base, applyForRead base chain startTs reader = delta.new := by
  induction chain with
  | nil => cases seen
  | cons delta rest ih =>
    by_cases visible : delta.visibleTo startTs reader
    · exact ⟨delta, by simp, visible, fun base => applyForRead_cons_visible visible⟩
    · simp only [Bool.not_eq_true] at visible
      have later : sees rest startTs reader := by
        simpa [sees, visible] using seen
      obtain ⟨found, mem, seen', same⟩ := ih later
      refine ⟨found, List.mem_cons_of_mem delta mem, seen', fun base => ?_⟩
      rw [applyForRead_cons_hidden visible, same]

theorem applyForRead_of_not_sees (blind : chain.sees startTs reader = false) :
    applyForRead base chain startTs reader = base := by
  induction chain with
  | nil => rfl
  | cons delta rest ih =>
    simp only [sees, List.any_cons, Bool.or_eq_false_iff] at blind
    rw [applyForRead_cons_hidden blind.1]
    exact ih blind.2

theorem applyForRead_filter {keep : Delta → Bool}
    (dropped : ∀ delta ∈ chain, keep delta = false → delta.visibleTo startTs reader = false) :
    applyForRead base (chain.filter keep) startTs reader =
      applyForRead base chain startTs reader := by
  induction chain with
  | nil => rfl
  | cons delta rest ih =>
    have later := ih fun other mem => dropped other (List.mem_cons_of_mem delta mem)
    by_cases kept : keep delta
    · rw [List.filter_cons_of_pos kept]
      by_cases visible : delta.visibleTo startTs reader
      · rw [applyForRead_cons_visible visible, applyForRead_cons_visible visible]
      · simp only [Bool.not_eq_true] at visible
        rw [applyForRead_cons_hidden visible, applyForRead_cons_hidden visible, later]
    · simp only [Bool.not_eq_true] at kept
      have hidden := dropped delta (by simp) kept
      rw [List.filter_cons_of_neg (by simp [kept]), applyForRead_cons_hidden hidden, later]

theorem applyForRead_map {f : Delta → Delta}
    (same : ∀ delta ∈ chain, (f delta).new = delta.new ∧
      (f delta).visibleTo startTs reader = delta.visibleTo startTs reader) :
    applyForRead base (chain.map f) startTs reader = applyForRead base chain startTs reader := by
  induction chain with
  | nil => rfl
  | cons delta rest ih =>
    have later := ih fun other mem => same other (List.mem_cons_of_mem delta mem)
    obtain ⟨new, visibility⟩ := same delta (by simp)
    rw [List.map_cons]
    by_cases visible : delta.visibleTo startTs reader
    · rw [applyForRead_cons_visible visible, applyForRead_cons_visible (visibility.trans visible),
        new]
    · simp only [Bool.not_eq_true] at visible
      rw [applyForRead_cons_hidden visible, applyForRead_cons_hidden (visibility.trans visible),
        later]

variable {txn : Nat}

theorem mem_of_newestOfTxn (found : chain.newestOfTxn txn = some delta) :
    delta ∈ chain ∧ delta.txn = txn :=
  ⟨List.mem_of_find?_eq_some found, by simpa using List.find?_some found⟩

/-- When one transaction wrote the whole chain, its newest delta is the head and its oldest the
last one. -/
theorem ends_of_owned (owned : ∀ delta ∈ chain, delta.txn = txn) :
    chain.newestOfTxn txn = chain.head? ∧ chain.oldestOfTxn txn = chain.getLast? := by
  have first {chain : List Delta} (owned : ∀ delta ∈ chain, delta.txn = txn) :
      (chain.find? fun delta => delta.txn = txn) = chain.head? := by
    cases chain with
    | nil => rfl
    | cons delta rest => simp [owned delta (by simp)]
  refine ⟨first owned, ?_⟩
  rw [oldestOfTxn, first (by simpa using owned), List.head?_reverse]

theorem removeTxn_of_absent (absent : ∀ delta ∈ chain, delta.txn ≠ txn) :
    chain.removeTxn txn = chain := by
  rw [removeTxn, List.filter_eq_self]
  simpa using absent

theorem removeTxn_idem (chain : DeltaChain) (txn : Nat) :
    removeTxn (chain.removeTxn txn) txn = chain.removeTxn txn := by
  refine removeTxn_of_absent fun delta mem => ?_
  simpa using (List.mem_filter.mp mem).2

def stampOne (txn ts : Nat) (delta : Delta) : Delta :=
  if delta.txn = txn ∧ delta.commitTs = none then delta.stampCommit ts else delta

theorem stampTxn_eq_map (chain : DeltaChain) (txn ts : Nat) :
    chain.stampTxn txn ts = chain.map (stampOne txn ts) := rfl

section StampOne

variable (txn ts : Nat) (delta : Delta)

@[simp]
theorem stampOne_txn : (stampOne txn ts delta).txn = delta.txn := by
  unfold stampOne
  split <;> rfl

@[simp]
theorem stampOne_new : (stampOne txn ts delta).new = delta.new := by
  unfold stampOne
  split <;> rfl

@[simp]
theorem stampOne_prior : (stampOne txn ts delta).prior = delta.prior := by
  unfold stampOne
  split <;> rfl

@[simp]
theorem stampOne_op : (stampOne txn ts delta).op = delta.op := by
  unfold stampOne
  split <;> rfl

end StampOne

variable {ts : Nat}

theorem stampOne_of_ne (other : delta.txn ≠ txn) :
    stampOne txn ts delta = delta := if_neg fun both => other both.1

theorem stampOne_pending (pending : delta.commitTs = none) :
    (stampOne delta.txn ts delta).commitTs = some ts := by
  rw [stampOne, if_pos ⟨rfl, pending⟩]
  rfl

theorem stampTxn_of_absent (absent : ∀ delta ∈ chain, delta.txn ≠ txn) :
    chain.stampTxn txn ts = chain := by
  rw [stampTxn_eq_map]
  refine (List.map_congr_left fun delta mem => ?_).trans (List.map_id chain)
  exact stampOne_of_ne (absent delta mem)

theorem stampTxn_idem (chain : DeltaChain) (txn ts : Nat) :
    stampTxn (chain.stampTxn txn ts) txn ts = chain.stampTxn txn ts := by
  simp only [stampTxn_eq_map, List.map_map]
  refine List.map_congr_left fun delta _ => ?_
  unfold Function.comp stampOne
  by_cases pending : delta.txn = txn ∧ delta.commitTs = none
  · rw [if_pos pending, if_neg (by simp [Delta.stampCommit])]
  · rw [if_neg pending, if_neg pending]

theorem visibleTo_stampOne (late : startTs ≤ ts) (other : reader ≠ some txn) :
    (stampOne txn ts delta).visibleTo startTs reader = delta.visibleTo startTs reader := by
  unfold stampOne
  by_cases pending : delta.txn = txn ∧ delta.commitTs = none
  · rw [if_pos pending]
    have foreign : reader ≠ some delta.txn := pending.1 ▸ other
    simp [Delta.visibleTo, Delta.stampCommit, pending.2, foreign, Nat.not_lt.mpr late]
  · rw [if_neg pending]

theorem applyForRead_stampTxn (late : startTs ≤ ts) (other : reader ≠ some txn) :
    applyForRead base (chain.stampTxn txn ts) startTs reader =
      applyForRead base chain startTs reader := by
  rw [stampTxn_eq_map]
  exact applyForRead_map fun delta _ => ⟨stampOne_new txn ts delta, visibleTo_stampOne late other⟩

theorem sees_stampTxn (late : startTs ≤ ts) (other : reader ≠ some txn) :
    (chain.stampTxn txn ts).sees startTs reader = chain.sees startTs reader := by
  rw [stampTxn_eq_map, sees, List.any_map]
  exact congrArg chain.any (funext fun delta => visibleTo_stampOne late other)

theorem visibleTo_of_safe {watermark : Option Nat} (safe : delta.safeToVacuum watermark)
    (below : ∀ w, watermark = some w → w ≤ startTs)
    (stamped : ∀ ts, delta.commitTs = some ts → watermark = none → ts < startTs) :
    delta.visibleTo startTs reader := by
  cases committed : delta.commitTs with
  | none => simp [Delta.safeToVacuum, committed] at safe
  | some ts =>
    have early : ts < startTs := by
      cases watermark with
      | none => exact stamped ts committed rfl
      | some w =>
        have smaller : ts < w := by
          simpa [Delta.safeToVacuum, committed] using safe
        exact smaller.trans_le (below w rfl)
    simp [Delta.visibleTo, committed, early]

end DeltaChain

namespace Mvcc

theorem chain_foldl_setChain {f : DeltaChain → DeltaChain} (idem : ∀ chain, f (f chain) = f chain)
    (keys : List EntityKey) (mvcc : Mvcc) (key : EntityKey) :
    (keys.foldl (fun mvcc key => mvcc.setChain key (f (mvcc.chain key))) mvcc).chain key =
      if key ∈ keys then f (mvcc.chain key) else mvcc.chain key := by
  induction keys generalizing mvcc with
  | nil => simp
  | cons first rest ih =>
    rw [List.foldl_cons, ih]
    by_cases same : key = first
    · subst same
      simp [setChain, idem]
    · simp [setChain, same]

variable {state : TxnState}

theorem keysWrittenBy_eq {mvcc : Mvcc} {txn : Nat} (active : mvcc.active txn = some state) :
    mvcc.keysWrittenBy txn = state.written := by
  simp [keysWrittenBy, active]

theorem oldestActiveStartTs_le {mvcc : Mvcc} {txn : Nat} (known : txn < mvcc.nextTxnId)
    (active : mvcc.active txn = some state) :
    ∃ w, mvcc.oldestActiveStartTs = some w ∧ w ≤ state.startTs := by
  have mem : state.startTs ∈ (List.range mvcc.nextTxnId).filterMap mvcc.startTs? := by
    refine List.mem_filterMap.mpr ⟨txn, List.mem_range.mpr known, ?_⟩
    simp [startTs?, active]
  cases least : mvcc.oldestActiveStartTs with
  | none =>
    rw [oldestActiveStartTs, List.min?_eq_none_iff] at least
    rw [least] at mem
    cases mem
  | some w =>
    refine ⟨w, rfl, ?_⟩
    exact (List.min?_eq_some_iff.mp least).2 _ mem

end Mvcc

end ErmyaGraph
