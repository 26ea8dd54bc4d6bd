import ErmyaGraph.Codec.WalRecord

/-! # Reading a journal that ends in the middle of a record

The reader scans for the next offset at which a record can be read. What it finds
behind the last complete record depends on what the torn bytes carry. -/

namespace ErmyaGraph.WalCodec

open Bytes List

/-- Where the reader stands, and how many corrupt regions it has skipped. -/
structure WalRecordIter where
  offset : Nat := 0
  skippedCount : Nat := 0

/-- Scan forward, byte by byte, for a record. -/
def scanFrom (crc : List UInt8 → UInt32) (data : List UInt8) :
    (fuel : Nat) → Nat → Nat × Option WalRecord
  | 0, offset => (offset, none)
  | fuel + 1, offset =>
    if offset < data.length then
      match decode crc (data.drop offset) with
      | .ok (record, consumed) => (offset + consumed, some record)
      | .error _ => scanFrom crc data fuel (offset + 1)
    else (offset, none)

/-- The next record, if the reader finds one. -/
def WalRecordIter.next (crc : List UInt8 → UInt32) (data : List UInt8) (iter : WalRecordIter) :
    Option WalRecord × WalRecordIter :=
  if iter.offset < data.length then
    match decode crc (data.drop iter.offset) with
    | .ok (record, consumed) => (some record, ⟨iter.offset + consumed, iter.skippedCount⟩)
    | .error _ =>
      let (offset, record) := scanFrom crc data (data.length - iter.offset) (iter.offset + 1)
      (record, ⟨offset, iter.skippedCount + 1⟩)
  else (none, iter)

/-- The records that the reader finds from where it stands. -/
def collectFrom (crc : List UInt8 → UInt32) (data : List UInt8) :
    (fuel : Nat) → WalRecordIter → List WalRecord
  | 0, _ => []
  | fuel + 1, iter =>
    match iter.next crc data with
    | (some record, iter) => record :: collectFrom crc data fuel iter
    | (none, _) => []

/-- Every record that the reader finds. Each takes some bytes, so there are no more of them
than bytes. -/
def records (crc : List UInt8 → UInt32) (data : List UInt8) : List WalRecord :=
  collectFrom crc data (data.length + 1) {}

/-- The records that the reader yields, and where it stands once it yields no more. -/
def WalRecordIter.drain (crc : List UInt8 → UInt32) (data : List UInt8) :
    (fuel : Nat) → WalRecordIter → List WalRecord × WalRecordIter
  | 0, iter => ([], iter)
  | fuel + 1, iter =>
    match iter.next crc data with
    | (some record, later) =>
      let (rest, last) := WalRecordIter.drain crc data fuel later
      (record :: rest, last)
    | (none, later) => ([], later)

def readAll (crc : List UInt8 → UInt32) (data : List UInt8) : List WalRecord × WalRecordIter :=
  WalRecordIter.drain crc data (data.length + 1) {}

section Cut

variable {crc : List UInt8 → UInt32}

def encodeAll (crc : List UInt8 → UInt32) (written : List WalRecord) : List UInt8 :=
  written.flatMap (encode crc)

/-- The records whose bytes lie completely inside a prefix. -/
def complete (crc : List UInt8 → UInt32) : Nat → List WalRecord → List WalRecord
  | _, [] => []
  | n, record :: rest =>
    if (encode crc record).length ≤ n then
      record :: complete crc (n - (encode crc record).length) rest
    else []

/-- The bytes that a prefix holds of the first record it does not hold completely. -/
def torn (crc : List UInt8 → UInt32) : Nat → List WalRecord → List UInt8
  | _, [] => []
  | n, record :: rest =>
    if (encode crc record).length ≤ n then torn crc (n - (encode crc record).length) rest
    else (encode crc record).take n

theorem take_encodeAll (n : Nat) (written : List WalRecord) :
    (encodeAll crc written).take n = encodeAll crc (complete crc n written) ++ torn crc n written := by
  induction written generalizing n with
  | nil => simp [encodeAll, complete, torn]
  | cons record rest ih =>
    have split : encodeAll crc (record :: rest) = encode crc record ++ encodeAll crc rest :=
      flatMap_cons
    rw [split, complete, torn]
    by_cases fits : (encode crc record).length ≤ n
    · rw [if_pos fits, if_pos fits, take_append, take_of_length_le fits, ih]
      simp [encodeAll]
    · rw [if_neg fits, if_neg fits, take_append_of_le_length (Nat.le_of_not_le fits)]
      rfl

theorem decode_torn (crc : List UInt8 → UInt32) (n : Nat) (written : List WalRecord) :
    ∃ e, decode crc (torn crc n written) = .error e := by
  induction written generalizing n with
  | nil => exact ⟨_, rfl⟩
  | cons record rest ih =>
    rw [torn]
    by_cases fits : (encode crc record).length ≤ n
    · rw [if_pos fits]
      exact ih _
    · rw [if_neg fits]
      exact decode_take record (Nat.lt_of_not_le fits)

theorem next_encode (crc : List UInt8 → UInt32) (record : WalRecord) (before after : List UInt8)
    (skipped : Nat) :
    WalRecordIter.next crc (before ++ (encode crc record ++ after)) ⟨before.length, skipped⟩ =
      (some record, ⟨(before ++ encode crc record).length, skipped⟩) := by
  have pos := length_encode_pos crc record
  have inside : before.length < (before ++ (encode crc record ++ after)).length := by
    simp only [length_append]
    omega
  have place : (before ++ encode crc record).length = before.length + (encode crc record).length :=
    length_append
  rw [WalRecordIter.next, if_pos inside, drop_left, decode_encode, place]

theorem collectFrom_encodeAll (crc : List UInt8 → UInt32) (written : List WalRecord)
    (before after : List UInt8) (fuel skipped : Nat) :
    collectFrom crc (before ++ (encodeAll crc written ++ after)) (written.length + fuel)
        ⟨before.length, skipped⟩ =
      written ++ collectFrom crc (before ++ (encodeAll crc written ++ after)) fuel
        ⟨before.length + (encodeAll crc written).length, skipped⟩ := by
  induction written generalizing before with
  | nil => simp [encodeAll]
  | cons record rest ih =>
    have split : encodeAll crc (record :: rest) = encode crc record ++ encodeAll crc rest :=
      flatMap_cons
    have next := next_encode crc record before (encodeAll crc rest ++ after) skipped
    rw [← append_assoc before] at next
    have whole : before ++ (encodeAll crc (record :: rest) ++ after) =
        (before ++ encode crc record) ++ (encodeAll crc rest ++ after) := by
      rw [split]
      simp only [append_assoc]
    have fuels : (record :: rest).length + fuel = (rest.length + fuel) + 1 := by
      rw [length_cons]
      omega
    have end_ : before.length + (encodeAll crc (record :: rest)).length =
        (before ++ encode crc record).length + (encodeAll crc rest).length := by
      rw [split, length_append, length_append]
      omega
    rw [whole, fuels, collectFrom, next, end_, cons_append]
    exact congrArg (record :: ·) (ih (before ++ encode crc record))

/-- A scan finds nothing exactly where no offset ahead starts a record. -/
theorem scanFrom_none_iff (crc : List UInt8 → UInt32) (data : List UInt8) {fuel offset : Nat}
    (enough : data.length ≤ offset + fuel) :
    (scanFrom crc data fuel offset).2 = none ↔
      ∀ k, offset ≤ k → k < data.length → ∃ e, decode crc (data.drop k) = .error e := by
  induction fuel generalizing offset with
  | zero =>
    constructor
    · intro _ k lower upper
      omega
    · exact fun _ => rfl
  | succ fuel ih =>
    rw [scanFrom]
    by_cases inside : offset < data.length
    · rw [if_pos inside]
      cases read : decode crc (data.drop offset) with
      | ok found =>
        constructor
        · exact fun no => nomatch no
        · intro none_
          obtain ⟨e, failed⟩ := none_ offset (Nat.le_refl _) inside
          rw [read] at failed
          cases failed
      | error e =>
        simp only
        rw [ih (by omega)]
        constructor
        · intro later k lower upper
          rcases Nat.eq_or_lt_of_le lower with same | more
          · exact ⟨e, by rw [← same, read]⟩
          · exact later k more upper
        · intro all k lower upper
          exact all k (by omega) upper
    · rw [if_neg inside]
      constructor
      · intro _ k lower upper
        omega
      · exact fun _ => rfl

theorem length_le_encodeAll (crc : List UInt8 → UInt32) (written : List WalRecord) :
    written.length ≤ (encodeAll crc written).length := by
  induction written with
  | nil => exact Nat.le_refl 0
  | cons record rest ih =>
    have split : encodeAll crc (record :: rest) = encode crc record ++ encodeAll crc rest :=
      flatMap_cons
    have pos := length_encode_pos crc record
    rw [split, length_append, length_cons]
    omega

theorem next_end (crc : List UInt8 → UInt32) (data : List UInt8) (skipped : Nat) :
    WalRecordIter.next crc data ⟨data.length, skipped⟩ = (none, ⟨data.length, skipped⟩) :=
  if_neg (Nat.lt_irrefl _)

theorem drain_encodeAll (crc : List UInt8 → UInt32) (written : List WalRecord)
    (before : List UInt8) (fuel skipped : Nat) :
    WalRecordIter.drain crc (before ++ encodeAll crc written) (written.length + (fuel + 1))
        ⟨before.length, skipped⟩ =
      (written, ⟨(before ++ encodeAll crc written).length, skipped⟩) := by
  induction written generalizing before with
  | nil =>
    have nothing : before ++ encodeAll crc [] = before := append_nil before
    rw [nothing, length_nil, Nat.zero_add, WalRecordIter.drain, next_end]
  | cons record rest ih =>
    have split : encodeAll crc (record :: rest) = encode crc record ++ encodeAll crc rest :=
      flatMap_cons
    have fuels : (record :: rest).length + (fuel + 1) = (rest.length + (fuel + 1)) + 1 := by
      rw [length_cons]
      omega
    rw [split, fuels, WalRecordIter.drain, next_encode]
    rw [← append_assoc]
    simp only [ih]

/-- What was appended is what a reader yields, with nothing skipped; each record is read back
whatever follows it, and one of an older journal as a record of no transaction. -/
theorem journal_round_trips (crc : List UInt8 → UInt32) :
    (∀ written, readAll crc (encodeAll crc written) =
      (written, ⟨(encodeAll crc written).length, 0⟩)) ∧
    (∀ record rest, decode crc (encode crc record ++ rest) =
      .ok (record, (encode crc record).length)) ∧
    (∀ record rest, ∀ content ∈ legacyBody record, decode crc (frame crc content ++ rest) =
      .ok (withoutTxn record, (frame crc content).length)) := by
  refine ⟨fun written => ?_, decode_encode crc, fun record rest content isLegacy => ?_⟩
  · have few := length_le_encodeAll crc written
    obtain ⟨spare, enough⟩ := Nat.exists_eq_add_of_le few
    have read := drain_encodeAll crc written [] spare 0
    rw [nil_append] at read
    rw [readAll, enough, Nat.add_assoc, ← enough]
    exact read
  · exact decode_legacy crc isLegacy rest

/-- Behind the complete records the reader stops exactly when no part of the torn bytes can
be read as a record. -/
theorem next_torn_iff (n skipped : Nat) (before : List UInt8) (written : List WalRecord) :
    (WalRecordIter.next crc (before ++ torn crc n written) ⟨before.length, skipped⟩).1 = none ↔
      ∀ k, 0 < k → ∃ e, decode crc ((torn crc n written).drop k) = .error e := by
  have length : (before ++ torn crc n written).length =
      before.length + (torn crc n written).length := length_append
  have ahead : ∀ k, (before ++ torn crc n written).drop (before.length + k) =
      (torn crc n written).drop k := by
    intro k
    rw [← drop_drop, drop_left]
  have past : ∀ k, (torn crc n written).length ≤ k →
      ∃ e, decode crc ((torn crc n written).drop k) = .error e := by
    intro k beyond
    rw [drop_of_length_le beyond]
    exact ⟨_, rfl⟩
  obtain ⟨e, cut⟩ := decode_torn crc n written
  have here := ahead 0
  rw [Nat.add_zero, drop_zero] at here
  rw [WalRecordIter.next]
  by_cases inside : before.length < (before ++ torn crc n written).length
  · rw [if_pos inside, here, cut]
    have scan := scanFrom_none_iff crc (before ++ torn crc n written)
      (show (before ++ torn crc n written).length ≤ before.length + 1 +
        ((before ++ torn crc n written).length - before.length) by omega)
    refine scan.trans ⟨?_, ?_⟩
    · intro none_ k pos
      rcases Nat.lt_or_ge k (torn crc n written).length with small | large
      · have found := none_ (before.length + k) (by omega) (by omega)
        rw [ahead] at found
        exact found
      · exact past k large
    · intro none_ k lower upper
      have place : k = before.length + (k - before.length) := by omega
      rw [place, ahead]
      exact none_ (k - before.length) (by omega)
  · rw [if_neg inside]
    constructor
    · exact fun _ k _ => past k (by omega)
    · exact fun _ => rfl

theorem collectFrom_eq_nil_iff (data : List UInt8) (fuel : Nat) (iter : WalRecordIter) :
    collectFrom crc data (fuel + 1) iter = [] ↔ (iter.next crc data).1 = none := by
  rw [collectFrom]
  generalize iter.next crc data = found
  obtain ⟨found, later⟩ := found
  cases found with
  | none => exact ⟨fun _ => rfl, fun _ => rfl⟩
  | some record => exact ⟨fun no => (nomatch no), fun no => (nomatch no)⟩

theorem records_take (crc : List UInt8 → UInt32) (written : List WalRecord) (n : Nat) :
    ∃ fuel, records crc ((encodeAll crc written).take n) = complete crc n written ++
        collectFrom crc (encodeAll crc (complete crc n written) ++ torn crc n written) (fuel + 1)
          ⟨(encodeAll crc (complete crc n written)).length, 0⟩ := by
  have few := length_le_encodeAll crc (complete crc n written)
  rw [take_encodeAll]
  obtain ⟨fuel, enough⟩ : ∃ fuel, (encodeAll crc (complete crc n written) ++
      torn crc n written).length + 1 = (complete crc n written).length + (fuel + 1) := by
    refine ⟨(encodeAll crc (complete crc n written) ++ torn crc n written).length -
      (complete crc n written).length, ?_⟩
    rw [length_append]
    omega
  have run := collectFrom_encodeAll crc (complete crc n written) []
    (torn crc n written) (fuel + 1) 0
  rw [nil_append, length_nil, Nat.zero_add, ← enough] at run
  exact ⟨fuel, run⟩

/-- The reader drops the torn end of a journal exactly when no part of it can be read as a
record. -/
theorem records_take_eq_complete_iff (crc : List UInt8 → UInt32) (written : List WalRecord)
    (n : Nat) :
    records crc ((encodeAll crc written).take n) = complete crc n written ↔
      ∀ k, 0 < k → ∃ e, decode crc ((torn crc n written).drop k) = .error e := by
  obtain ⟨fuel, yields⟩ := records_take crc written n
  rw [yields, append_right_eq_self, collectFrom_eq_nil_iff, next_torn_iff]

theorem length_encode_commit (crc : List UInt8 → UInt32) (lsn txn : UInt64) :
    (encode crc (.commit lsn txn)).length = 25 := by
  rw [encode, length_frame, body, encodeId, length_cons, length_append, length_leBytes,
    length_leBytes]

/-- A page whose bytes contain the record of a commit. -/
def pageWithCommit (crc : List UInt8 → UInt32) : Buf pageSize :=
  ⟨List.replicate 64 0 ++ (encode crc (.commit 0 7) ++ List.replicate 4007 0), by
    rw [length_append, length_append, length_replicate, length_replicate, length_encode_commit]
    rfl⟩

/-- The write of such a page is cut behind those bytes, and the reader yields the commit. -/
theorem torn_page_yields_commit : ¬∃ crc : List UInt8 → UInt32,
    records crc ((encodeAll crc [.writeOverflowPage 0 0 (pageWithCommit crc) none]).take 106) =
      complete crc 106 [.writeOverflowPage 0 0 (pageWithCommit crc) none] := by
  rintro ⟨crc, same⟩
  obtain ⟨fuel, yields⟩ := records_take crc
    [.writeOverflowPage 0 0 (pageWithCommit crc) none] 106
  rw [yields, append_right_eq_self, collectFrom_eq_nil_iff, next_torn_iff] at same
  obtain ⟨e, failed⟩ := same 81 (by decide)
  have size := length_encode_commit crc 0 7
  have whole : encode crc (.writeOverflowPage 0 0 (pageWithCommit crc) none) =
      (leBytes 4 ((body (.writeOverflowPage 0 0 (pageWithCommit crc) none)).length + 4) ++
        (0x08 :: (leBytes 8 (0 : UInt64).toNat ++ (leBytes 4 (0 : UInt32).toNat ++
          List.replicate 64 0)))) ++
        (encode crc (.commit 0 7) ++ (List.replicate 4007 0 ++ (0 :: leBytes 4
          (crc (body (.writeOverflowPage 0 0 (pageWithCommit crc) none))).toNat))) := by
    generalize sum : crc (body (.writeOverflowPage 0 0 (pageWithCommit crc) none)) = sum_
    generalize len : (body (.writeOverflowPage 0 0 (pageWithCommit crc) none)).length = len_
    rw [encode, frame, sum, len, body, encodePage, pageWithCommit]
    simp only [encodeOptTxnId, append_assoc, cons_append, nil_append]
  have longer : ¬(encode crc (.writeOverflowPage 0 0 (pageWithCommit crc) none)).length ≤ 106 := by
    rw [whole]
    simp only [length_append, length_cons, length_replicate, length_leBytes, size]
    omega
  have seen : (torn crc 106 [.writeOverflowPage 0 0 (pageWithCommit crc) none]).drop 81 =
      encode crc (.commit 0 7) := by
    rw [torn, if_neg longer, whole]
    exact span_append _ _ _ (by simp) (by rw [size])
  have read := decode_encode crc (.commit 0 7) []
  rw [append_nil, ← seen, failed] at read
  cases read

end Cut

end ErmyaGraph.WalCodec
