import ErmyaGraph.Codec.PropSlab
import ErmyaGraph.Lib.Checked

/-! # Where a packed property page stops the program

The operations of a packed property page with every index, slice and subtraction
of the payload checked. The directory count is used as it was read: a page has
254 entries at most, and a larger count leads behind its end. A compaction
subtracts the stored lengths one after the other, as if they added up. -/

namespace ErmyaGraph.PropSlabCodec

open Bytes Checked Store

/-- How many directory entries lie inside the payload. -/
def maxDirEntries : Nat := 254

namespace Guarded

def readDirCount (mem : Memory) : Attempt Error Nat := readWithin pagePayloadSize mem 0 2

def readDirEntry (mem : Memory) (index : Nat) : Attempt Error DirEntry := do
  let base := entryAt index
  let id ← readWithin pagePayloadSize mem base 8
  let kind ← byteWithin pagePayloadSize mem (base + 8)
  let offset ← readWithin pagePayloadSize mem (base + 10) 2
  let len ← readWithin pagePayloadSize mem (base + 12) 4
  return ⟨id, kind, offset, len⟩

def writeDirEntry (mem : Memory) (index : Nat) (entry : DirEntry) : Attempt Error Memory := do
  let base := entryAt index
  let mem ← writeWithin pagePayloadSize mem base 8 entry.id
  let mem ← spliceWithin pagePayloadSize mem (base + 8) [entry.kind, 0]
  let mem ← writeWithin pagePayloadSize mem (base + 10) 2 entry.offset
  writeWithin pagePayloadSize mem (base + 12) 4 entry.len

def lower (mem : Memory) (index low : Nat) : Attempt Error Nat := do
  let entry ← readDirEntry mem index
  return if entry.offset < low then entry.offset else low

def blobLowWater (mem : Memory) : Attempt Error Nat := do
  let count ← readDirCount mem
  sweep (lower mem) count 0 pagePayloadSize

def freeSpace (mem : Memory) : Attempt Error Nat := do
  let count ← readDirCount mem
  let low ← blobLowWater mem
  return low - (slabDirCountSize + count * slabDirEntrySize)

/-- A round that counts the live entries and their bytes. -/
def tally (mem : Memory) (index : Nat) (total : Nat × Nat) : Attempt Error (Nat × Nat) := do
  let entry ← readDirEntry mem index
  if entry.kind = kindByte none then return total
  else return (total.1 + 1, total.2 + entry.len)

def freeSpaceAfterCompaction (mem : Memory) : Attempt Error Nat := do
  let count ← readDirCount mem
  let (liveEntries, liveBytes) ← sweep (tally mem) count 0 (0, 0)
  return pagePayloadSize - slabDirCountSize - liveEntries * slabDirEntrySize - liveBytes

/-- Whether a blob and its entry fit, now or after a compaction. -/
def hasRoomFor (mem : Memory) (blobLen : Nat) : Attempt Error Bool := do
  let needed := blobLen + slabDirEntrySize
  if needed ≤ (← freeSpace mem) then return true
  else
    let swept ← freeSpaceAfterCompaction mem
    return decide (needed ≤ swept)

/-- A round that collects a live entry with its bytes; one out of range is dropped. -/
def collect (mem : Memory) (index : Nat) (live : List (DirEntry × List UInt8)) :
    Attempt Error (List (DirEntry × List UInt8)) := do
  let entry ← readDirEntry mem index
  if entry.kind = kindByte none then return live
  else if entry.offset < slabDirCountSize ∨ pagePayloadSize < entry.offset + entry.len then
    return live
  else
    let bytes ← sliceWithin pagePayloadSize mem entry.offset entry.len
    return live ++ [(entry, bytes)]

def layFrom (mem : Memory) : List (DirEntry × List UInt8) → Nat → Nat → Attempt Error Memory
  | [], _, _ => .ok mem
  | (entry, bytes) :: rest, index, writeAt => do
      let offset ← minus writeAt bytes.length
      let mem ← spliceWithin pagePayloadSize mem offset bytes
      let mem ← writeDirEntry mem index ⟨entry.id, entry.kind, offset, bytes.length⟩
      layFrom mem rest (index + 1) offset

def compact (mem : Memory) : Attempt Error Memory := do
  let count ← readDirCount mem
  let live ← sweep (collect mem) count 0 []
  let mem ← layFrom (fun _ => 0) live 0 pagePayloadSize
  writeWithin pagePayloadSize mem 0 2 live.length

/-- A round that marks an entry of an entity as freed. -/
def retire (key : EntityKey) (index : Nat) (mem : Memory) : Attempt Error Memory := do
  let entry ← readDirEntry mem index
  if entry.isFor key then spliceWithin pagePayloadSize mem (entryAt index + 8) [kindByte none]
  else return mem

/-- The page with room for a blob, swept if need be. -/
def makeRoom (mem : Memory) (blobLen : Nat) : Attempt Error Memory := do
  if (← freeSpace mem) < blobLen + slabDirEntrySize then
    let mem ← compact mem
    if (← freeSpace mem) < blobLen + slabDirEntrySize then
      throw (.error (.recordTooLarge blobLen))
    else return mem
  else return mem

def placeBlob (mem : Memory) (key : EntityKey) (blob : List UInt8) : Attempt Error Memory := do
  let count ← readDirCount mem
  let low ← blobLowWater mem
  let offset ← minus low blob.length
  let mem ← spliceWithin pagePayloadSize mem offset blob
  let mem ← writeDirEntry mem count ⟨key.id, kindByte (some key.kind), offset, blob.length⟩
  writeWithin pagePayloadSize mem 0 2 (count + 1)

def writeBlob (mem : Memory) (key : EntityKey) (blob : List UInt8) : Attempt Error Memory := do
  let count ← readDirCount mem
  let mem ← sweep (retire key) count 0 mem
  let mem ← makeRoom mem blob.length
  placeBlob mem key blob

/-- Search the directory from an index on. -/
def readFrom (page : PageId) (mem : Memory) (key : EntityKey) :
    (fuel : Nat) → Nat → Attempt Error (Option (List UInt8))
  | 0, _ => .ok none
  | fuel + 1, index => do
      let entry ← readDirEntry mem index
      if entry.isFor key then
        if entry.offset < slabDirCountSize ∨ pagePayloadSize < entry.offset + entry.len then
          .error (.error (.corruptPage "overflow.db" page
            "property slab entry points outside its page"))
        else
          let bytes ← sliceWithin pagePayloadSize mem entry.offset entry.len
          return some bytes
      else readFrom page mem key fuel (index + 1)

def readBlob (page : PageId) (mem : Memory) (key : EntityKey) :
    Attempt Error (Option (List UInt8)) := do
  let count ← readDirCount mem
  readFrom page mem key count 0

/-- A round that frees an entry of an entity, or notes that another one is live. -/
def release (key : EntityKey) (index : Nat) (freed : Freed) : Attempt Error Freed := do
  let entry ← readDirEntry freed.mem index
  if entry.kind = kindByte none then return freed
  else if entry.isFor key then
    let mem ← spliceWithin pagePayloadSize freed.mem (entryAt index + 8) [kindByte none]
    return ⟨mem, freed.anyLive, true⟩
  else return ⟨freed.mem, true, freed.changed⟩

def freeBlob (mem : Memory) (key : EntityKey) : Attempt Error (Bool × Memory) := do
  let count ← readDirCount mem
  let freed ← sweep (release key) count 0 ⟨mem, false, false⟩
  return (freed.anyLive, if freed.changed then freed.mem else mem)

section Entries

variable {mem : Memory} {index : Nat}

theorem readDirCount_eq : readDirCount mem = .ok (PropSlabCodec.readDirCount mem) := by
  have inside : 0 + 2 ≤ pagePayloadSize := by decide
  exact demand_of inside

theorem entryAt_inside (counted : index < maxDirEntries) :
    entryAt index + 16 ≤ pagePayloadSize := by
  have limit : maxDirEntries = 254 := rfl
  have place : entryAt index = 2 + index * 16 := rfl
  have size : pagePayloadSize = 4080 := rfl
  omega

theorem readDirEntry_eq (counted : index < maxDirEntries) :
    readDirEntry mem index = .ok (PropSlabCodec.readDirEntry mem index) := by
  have inside := entryAt_inside counted
  simp only [readDirEntry, readWithin, byteWithin]
  rw [demand_bind (by omega), demand_bind (by omega), demand_bind (by omega),
    demand_bind (by omega)]
  rfl

theorem readDirEntry_panic : readDirEntry mem maxDirEntries = .error .panic := by
  have place : entryAt maxDirEntries = 4066 := rfl
  have size : pagePayloadSize = 4080 := rfl
  simp only [readDirEntry, readWithin, byteWithin]
  rw [demand_bind (by omega), demand_bind (by omega), demand_bind (by omega), demand_not (by omega)]
  rfl

theorem writeDirEntry_eq (counted : index < maxDirEntries) (entry : DirEntry) :
    writeDirEntry mem index entry = .ok (PropSlabCodec.writeDirEntry mem index entry) := by
  have inside := entryAt_inside counted
  have two : [entry.kind, (0 : UInt8)].length = 2 := rfl
  simp only [writeDirEntry, writeWithin, spliceWithin]
  rw [demand_bind (by omega), demand_bind (by omega), demand_bind (by omega), demand_of (by omega)]
  rfl

theorem round_eq {σ : Type} {rest : DirEntry → Attempt Error σ} {result : DirEntry → σ}
    (goes : ∀ entry, rest entry = .ok (result entry)) (counted : index < maxDirEntries) :
    (readDirEntry mem index >>= rest) = .ok (result (PropSlabCodec.readDirEntry mem index)) := by
  rw [readDirEntry_eq counted]
  exact goes _

theorem round_panic {σ : Type} (rest : DirEntry → Attempt Error σ) :
    (readDirEntry mem maxDirEntries >>= rest) = .error .panic := by
  rw [readDirEntry_panic]
  rfl

end Entries

section Sweeps

variable {mem : Memory} {key : EntityKey}

/-- Whether every entry that is counted lies inside the payload. -/
def Counted (mem : Memory) : Prop := PropSlabCodec.readDirCount mem ≤ maxDirEntries

instance (mem : Memory) : Decidable (Counted mem) := inferInstanceAs (Decidable (_ ≤ _))

theorem sweep_calm_iff {σ : Type} {step : Nat → σ → Attempt Error σ} (next : Nat → σ → σ)
    (loop : Nat → Nat → σ → σ) (steps : ∀ i s, i < maxDirEntries → step i s = .ok (next i s))
    (bad : ∀ s, step maxDirEntries s = .error .panic) (zero : ∀ i s, loop 0 i s = s)
    (succ : ∀ fuel i s, loop (fuel + 1) i s = loop fuel (i + 1) (next i s)) (s : σ) :
    (Counted mem → sweep step (PropSlabCodec.readDirCount mem) 0 s =
        .ok (loop (PropSlabCodec.readDirCount mem) 0 s)) ∧
      (¬Counted mem → sweep step (PropSlabCodec.readDirCount mem) 0 s = .error .panic) := by
  constructor
  · intro counted
    exact sweep_eq steps zero succ (by rw [Nat.zero_add]; exact counted) s
  · intro beyond
    have many : maxDirEntries < 0 + PropSlabCodec.readDirCount mem := by
      rw [Nat.zero_add]
      exact Nat.lt_of_not_le beyond
    exact sweep_panic steps bad (Nat.zero_le _) many s

theorem lower_sweep (low : Nat) :
    (Counted mem → sweep (lower mem) (PropSlabCodec.readDirCount mem) 0 low =
        .ok (lowWaterFrom mem (PropSlabCodec.readDirCount mem) 0 low)) ∧
      (¬Counted mem → sweep (lower mem) (PropSlabCodec.readDirCount mem) 0 low = .error .panic) :=
  sweep_calm_iff _ _ (fun _ _ inside => round_eq (fun _ => rfl) inside) (fun _ => round_panic _)
    (fun _ _ => rfl) (fun _ _ _ => rfl) low

theorem blobLowWater_eq (counted : Counted mem) :
    blobLowWater mem = .ok (PropSlabCodec.blobLowWater mem) := by
  rw [blobLowWater, readDirCount_eq]
  exact (lower_sweep pagePayloadSize).1 counted

theorem blobLowWater_panic (beyond : ¬Counted mem) : blobLowWater mem = .error .panic := by
  rw [blobLowWater, readDirCount_eq]
  exact (lower_sweep pagePayloadSize).2 beyond

theorem freeSpace_eq (counted : Counted mem) :
    freeSpace mem = .ok (PropSlabCodec.freeSpace mem) := by
  rw [freeSpace, readDirCount_eq, blobLowWater_eq counted]
  rfl

theorem freeSpace_panic (beyond : ¬Counted mem) : freeSpace mem = .error .panic := by
  rw [freeSpace, readDirCount_eq, blobLowWater_panic beyond]
  rfl

/-- The live entries from an index on, and their bytes. -/
def tallyFrom (mem : Memory) : (fuel : Nat) → Nat → Nat × Nat → Nat × Nat
  | 0, _, total => total
  | fuel + 1, index, total =>
    tallyFrom mem fuel (index + 1)
      (if (PropSlabCodec.readDirEntry mem index).kind = kindByte none then total
      else (total.1 + 1, total.2 + (PropSlabCodec.readDirEntry mem index).len))

theorem tally_sweep (counted : Counted mem) (total : Nat × Nat) :
    sweep (tally mem) (PropSlabCodec.readDirCount mem) 0 total =
      .ok (tallyFrom mem (PropSlabCodec.readDirCount mem) 0 total) := by
  refine (sweep_calm_iff _ _ (fun i total inside => ?_) (fun _ => round_panic _) (fun _ _ => rfl)
    (fun _ _ _ => rfl) total).1 counted
  rw [tally, readDirEntry_eq inside]
  simp only [bind, Except.bind]
  split <;> rfl

theorem hasRoomFor_calm_iff (blobLen : Nat) : Calm (hasRoomFor mem blobLen) ↔ Counted mem := by
  by_cases counted : Counted mem
  · refine iff_of_true ?_ counted
    rw [hasRoomFor, freeSpace_eq counted]
    refine calm_ite (fun _ => calm_ok _) fun _ => ?_
    rw [freeSpaceAfterCompaction, readDirCount_eq]
    simp only [bind, Except.bind, tally_sweep counted]
    exact calm_ok _
  · refine iff_of_false ?_ counted
    rw [hasRoomFor, freeSpace_panic counted]
    exact fun calm => calm rfl

theorem kind_inside {index : Nat} (inside : index < maxDirEntries) :
    entryAt index + 8 + [kindByte none].length ≤ pagePayloadSize := by
  have last := entryAt_inside inside
  have one : [kindByte none].length = 1 := rfl
  omega

theorem release_sweep (freed : Freed) :
    (Counted mem → sweep (release key) (PropSlabCodec.readDirCount mem) 0 freed =
        .ok (freeFrom key (PropSlabCodec.readDirCount mem) 0 freed)) ∧
      (¬Counted mem →
        sweep (release key) (PropSlabCodec.readDirCount mem) 0 freed = .error .panic) := by
  refine sweep_calm_iff _ _ (fun i freed inside => ?_) (fun _ => round_panic _) (fun _ _ => rfl)
    (fun _ _ _ => rfl) freed
  rw [release, readDirEntry_eq inside]
  simp only [bind, Except.bind, spliceWithin, demand_of (kind_inside inside)]
  split
  · rfl
  · split <;> rfl

theorem freeBlob_calm_iff : Calm (freeBlob mem key) ↔ Counted mem := by
  rw [freeBlob, readDirCount_eq]
  by_cases counted : Counted mem
  · refine iff_of_true ?_ counted
    simp only [bind, Except.bind, (release_sweep _).1 counted]
    exact calm_ok _
  · refine iff_of_false ?_ counted
    simp only [bind, Except.bind, (release_sweep _).2 counted]
    exact fun calm => calm rfl

end Sweeps

section Reading

variable {page : PageId} {mem : Memory} {key : EntityKey}

/-- Searching the directory panics exactly if it leaves the payload before it finds the entity. -/
theorem readFrom_calm_iff {fuel index : Nat} (inside : index ≤ maxDirEntries) :
    Calm (readFrom page mem key fuel index) ↔ index + fuel ≤ maxDirEntries ∨
        ∃ i, index ≤ i ∧ i < maxDirEntries ∧ (PropSlabCodec.readDirEntry mem i).isFor key := by
  induction fuel generalizing index with
  | zero => exact iff_of_true (calm_ok none) (.inl inside)
  | succ fuel ih =>
    rcases Nat.lt_or_ge index maxDirEntries with less | more
    · rw [readFrom, readDirEntry_eq less]
      simp only [bind, Except.bind]
      by_cases wanted : (PropSlabCodec.readDirEntry mem index).isFor key
      · rw [if_pos wanted]
        refine iff_of_true (calm_ite (fun _ => calm_error _) fun fits => ?_)
          (.inr ⟨index, Nat.le_refl _, less, wanted⟩)
        -- The slice was compared with the payload before it is taken.
        have within := not_or.mp fits
        simp only [sliceWithin, demand_of (Nat.le_of_not_lt within.2)]
        exact calm_ok _
      · rw [if_neg wanted, ih less]
        have step : index + 1 + fuel = index + (fuel + 1) := by omega
        rw [step]
        refine or_congr_right ⟨?_, ?_⟩
        · intro ⟨i, above, below, isFor⟩
          exact ⟨i, Nat.le_of_succ_le above, below, isFor⟩
        · intro ⟨i, above, below, isFor⟩
          refine ⟨i, Nat.lt_of_le_of_ne above ?_, below, isFor⟩
          rintro rfl
          exact wanted isFor
    · have at_ : index = maxDirEntries := Nat.le_antisymm inside more
      subst at_
      refine iff_of_false ?_ ?_
      · rw [readFrom, readDirEntry_panic]
        exact fun calm => calm rfl
      · intro either
        rcases either with short | ⟨i, above, below, _⟩
        · omega
        · omega

/-- Reading a blob panics exactly if an entry that is counted lies outside the payload and none
of the entity is found before it. -/
theorem readBlob_calm_iff :
    Calm (readBlob page mem key) ↔
      Counted mem ∨ ∃ i < maxDirEntries, (PropSlabCodec.readDirEntry mem i).isFor key := by
  rw [readBlob, readDirCount_eq]
  have search : Calm (readFrom page mem key (PropSlabCodec.readDirCount mem) 0) ↔ _ :=
    readFrom_calm_iff (Nat.zero_le _)
  simp only [Nat.zero_add, Nat.zero_le, true_and] at search
  exact search

end Reading

section Compacting

variable {mem : Memory} {live : List (DirEntry × List UInt8)}

def blobBytes (live : List (DirEntry × List UInt8)) : Nat :=
  (live.map fun blob => blob.2.length).sum

theorem layFrom_calm {index writeAt : Nat} (fewer : index + live.length ≤ maxDirEntries)
    (inside : writeAt ≤ pagePayloadSize) :
    (blobBytes live ≤ writeAt →
        layFrom mem live index writeAt = .ok (PropSlabCodec.layFrom mem live index writeAt)) ∧
      (writeAt < blobBytes live → layFrom mem live index writeAt = .error .panic) := by
  induction live generalizing mem index writeAt with
  | nil =>
    refine ⟨fun _ => rfl, fun below => ?_⟩
    exact absurd below (Nat.not_lt_zero _)
  | cons blob rest ih =>
    obtain ⟨entry, bytes⟩ := blob
    have total : blobBytes ((entry, bytes) :: rest) = bytes.length + blobBytes rest := rfl
    rw [List.length_cons] at fewer
    rw [total]
    by_cases fits : bytes.length ≤ writeAt
    · obtain ⟨goes, stops⟩ := @ih (PropSlabCodec.writeDirEntry
        (splice mem (writeAt - bytes.length) bytes) index
          ⟨entry.id, entry.kind, writeAt - bytes.length, bytes.length⟩)
        (index + 1) (writeAt - bytes.length) (by omega) (by omega)
      have here : layFrom mem ((entry, bytes) :: rest) index writeAt = layFrom
          (PropSlabCodec.writeDirEntry (splice mem (writeAt - bytes.length) bytes) index
            ⟨entry.id, entry.kind, writeAt - bytes.length, bytes.length⟩) rest (index + 1)
          (writeAt - bytes.length) := by
        simp only [layFrom, minus, spliceWithin]
        rw [demand_bind fits, demand_bind (by omega), writeDirEntry_eq (by omega)]
        rfl
      rw [here]
      exact ⟨fun below => goes (by omega), fun above => stops (by omega)⟩
    · refine ⟨fun below => absurd below (by omega), fun _ => ?_⟩
      simp only [layFrom, minus]
      rw [demand_not fits]
      rfl

theorem collect_sweep (counted : Counted mem) :
    sweep (collect mem) (PropSlabCodec.readDirCount mem) 0 [] =
      .ok (collectFrom mem (PropSlabCodec.readDirCount mem) 0) := by
  refine (sweep_calm_iff (fun index live => live ++ collectFrom mem 1 index)
    (fun fuel index live => live ++ collectFrom mem fuel index) (fun i live inside => ?_)
    (fun _ => round_panic _) (fun _ live => List.append_nil live) (fun fuel i live => ?_) []).1
    counted
  · rw [collect, readDirEntry_eq inside]
    simp only [bind, Except.bind, collectFrom]
    split
    · rw [List.append_nil]
      rfl
    · split
      · rw [List.append_nil]
        rfl
      · next fits =>
          simp only [sliceWithin, demand_of (Nat.le_of_not_lt (not_or.mp fits).2)]
          rfl
  · simp only [collectFrom]
    split
    · rw [List.append_nil]
    · split
      · rw [List.append_nil]
      · rw [List.append_assoc]
        rfl

theorem length_collectFrom (fuel index : Nat) : (collectFrom mem fuel index).length ≤ fuel := by
  induction fuel generalizing index with
  | zero => exact Nat.le_refl 0
  | succ fuel ih =>
    have rest := ih (index + 1)
    simp only [collectFrom]
    split
    · omega
    · split
      · omega
      · rw [List.length_cons]
        omega

theorem compact_calm (counted : Counted mem) :
    (blobBytes (collectFrom mem (PropSlabCodec.readDirCount mem) 0) ≤ pagePayloadSize →
        compact mem = .ok (PropSlabCodec.compact mem)) ∧
      (pagePayloadSize < blobBytes (collectFrom mem (PropSlabCodec.readDirCount mem) 0) →
        compact mem = .error .panic) := by
  have fewer : 0 + (collectFrom mem (PropSlabCodec.readDirCount mem) 0).length ≤ maxDirEntries := by
    rw [Nat.zero_add]
    exact Nat.le_trans (length_collectFrom _ _) counted
  obtain ⟨goes, stops⟩ := @layFrom_calm (fun _ => 0) _ _ _ fewer (Nat.le_refl pagePayloadSize)
  have inside : 0 + 2 ≤ pagePayloadSize := by decide
  rw [compact, readDirCount_eq]
  simp only [bind, Except.bind, collect_sweep counted]
  constructor
  · intro fits
    rw [goes fits]
    exact demand_of inside
  · intro larger
    rw [stops larger]

theorem counted_compact (counted : Counted mem) : Counted (PropSlabCodec.compact mem) := by
  have limit : maxDirEntries = 254 := rfl
  have fewer : (collectFrom mem (PropSlabCodec.readDirCount mem) 0).length ≤ maxDirEntries :=
    Nat.le_trans (length_collectFrom _ _) counted
  unfold Counted PropSlabCodec.compact
  rw [PropSlabCodec.readDirCount, readLe_writeLe _ _ (by omega)]
  exact fewer

end Compacting

section Retiring

variable {mem : Memory} {key : EntityKey} {fuel index : Nat}

theorem retireFrom_other {a : Nat} (other : ∀ i, a ≠ entryAt i + 8) :
    retireFrom key fuel index mem a = mem a := by
  induction fuel generalizing index mem with
  | zero => rfl
  | succ fuel ih =>
    have here := other index
    have one : [kindByte none].length = 1 := rfl
    rw [retireFrom, ih]
    split
    · rw [splice_outside (by omega)]
    · rfl

theorem entryAt_eq (i : Nat) : entryAt i = 2 + i * 16 := rfl

theorem readDirEntry_kind_other {i : Nat} (ne : i ≠ index) :
    PropSlabCodec.readDirEntry (splice mem (entryAt index + 8) [kindByte none]) i =
      PropSlabCodec.readDirEntry mem i := by
  have one : [kindByte none].length = 1 := rfl
  have place := entryAt_eq i
  have place' := entryAt_eq index
  simp only [PropSlabCodec.readDirEntry]
  rw [readLe_splice_of_disjoint (by omega), readLe_splice_of_disjoint (by omega),
    readLe_splice_of_disjoint (by omega), splice_outside (by omega)]

theorem retireFrom_kind {i : Nat} :
    retireFrom key fuel index mem (entryAt i + 8) =
      if (index ≤ i ∧ i < index + fuel) ∧ (PropSlabCodec.readDirEntry mem i).isFor key then
        kindByte none
      else mem (entryAt i + 8) := by
  induction fuel generalizing index mem with
  | zero =>
    rw [if_neg (fun both => by omega)]
    rfl
  | succ fuel ih =>
    have one : [kindByte none].length = 1 := rfl
    rw [retireFrom, ih]
    by_cases at_ : i = index
    · subst at_
      rw [if_neg (fun both => by omega)]
      by_cases wanted : (PropSlabCodec.readDirEntry mem i).isFor key
      · rw [if_pos wanted, if_pos ⟨⟨Nat.le_refl _, by omega⟩, wanted⟩,
          splice_inside (Nat.le_refl _) (by omega), Nat.sub_self]
        rfl
      · rw [if_neg wanted, if_neg (fun both => wanted both.2)]
    · have range : (index + 1 ≤ i ∧ i < index + 1 + fuel) ↔
          (index ≤ i ∧ i < index + (fuel + 1)) := by omega
      by_cases wanted : (PropSlabCodec.readDirEntry mem index).isFor key
      · have place := entryAt_eq i
        have place' := entryAt_eq index
        rw [if_pos wanted, readDirEntry_kind_other at_, splice_outside (by omega)]
        simp only [range]
      · rw [if_neg wanted]
        simp only [range]

theorem readDirEntry_retired {count i : Nat} (counted : i < count) :
    PropSlabCodec.readDirEntry (retireFrom key count 0 mem) i =
      { PropSlabCodec.readDirEntry mem i with
        kind := if (PropSlabCodec.readDirEntry mem i).isFor key then kindByte none
          else (PropSlabCodec.readDirEntry mem i).kind } := by
  have place := entryAt_eq i
  have same : ∀ start width, start + width ≤ entryAt i + 8 ∧ entryAt i ≤ start ∨
      entryAt i + 9 ≤ start ∧ start + width ≤ entryAt i + 16 →
      readLe (retireFrom key count 0 mem) start width = readLe mem start width := by
    intro start width apart
    refine readLe_congr fun a above below => retireFrom_other fun j => ?_
    have place' := entryAt_eq j
    omega
  have within : (0 ≤ i ∧ i < 0 + count) := by omega
  have kind := @retireFrom_kind mem key count 0 i
  simp only [and_iff_right within] at kind
  rw [PropSlabCodec.readDirEntry, same _ _ (by omega), same _ _ (by omega), same _ _ (by omega),
    kind]
  rfl

theorem readDirCount_retired (count : Nat) :
    PropSlabCodec.readDirCount (retireFrom key count 0 mem) = PropSlabCodec.readDirCount mem := by
  refine readLe_congr fun a _ below => retireFrom_other fun j => ?_
  have place := entryAt_eq j
  omega

theorem lowWaterFrom_retired {count : Nat} (inside : index + fuel ≤ count) (low : Nat) :
    lowWaterFrom (retireFrom key count 0 mem) fuel index low = lowWaterFrom mem fuel index low := by
  induction fuel generalizing index low with
  | zero => rfl
  | succ fuel ih =>
    rw [lowWaterFrom, lowWaterFrom, readDirEntry_retired (by omega), ih (by omega)]

theorem freeSpace_retired :
    PropSlabCodec.freeSpace (retireFrom key (PropSlabCodec.readDirCount mem) 0 mem) =
      PropSlabCodec.freeSpace mem := by
  simp only [PropSlabCodec.freeSpace, PropSlabCodec.blobLowWater, readDirCount_retired]
  rw [lowWaterFrom_retired (Nat.le_of_eq (Nat.zero_add _))]

/-- The bytes that a compaction keeps when an entity's entries are retired: those of the other
live entries, as far as these lie in range. -/
def keptBytes (key : EntityKey) (mem : Memory) : (fuel : Nat) → Nat → Nat
  | 0, _ => 0
  | fuel + 1, index =>
    let entry := PropSlabCodec.readDirEntry mem index
    (if entry.kind = kindByte none ∨ entry.isFor key ∨ entry.offset < slabDirCountSize ∨
        pagePayloadSize < entry.offset + entry.len then 0 else entry.len) +
      keptBytes key mem fuel (index + 1)

theorem blobBytes_collectFrom {count : Nat} (inside : index + fuel ≤ count) :
    blobBytes (collectFrom (retireFrom key count 0 mem) fuel index) =
      keptBytes key mem fuel index := by
  induction fuel generalizing index with
  | zero => rfl
  | succ fuel ih =>
    have later := ih (show index + 1 + fuel ≤ count by omega)
    simp only [collectFrom, keptBytes, readDirEntry_retired (show index < count by omega)]
    by_cases wanted : (PropSlabCodec.readDirEntry mem index).isFor key
    · rw [if_pos wanted, if_pos rfl, if_pos (.inr (.inl wanted)), later, Nat.zero_add]
    · rw [if_neg wanted]
      by_cases freed : (PropSlabCodec.readDirEntry mem index).kind = kindByte none
      · rw [if_pos freed, if_pos (.inl freed), later, Nat.zero_add]
      · rw [if_neg freed]
        by_cases stray : (PropSlabCodec.readDirEntry mem index).offset < slabDirCountSize ∨
            pagePayloadSize < (PropSlabCodec.readDirEntry mem index).offset +
              (PropSlabCodec.readDirEntry mem index).len
        · rw [if_pos stray, if_pos (.inr (.inr stray)), later, Nat.zero_add]
        · have kept : ¬((PropSlabCodec.readDirEntry mem index).kind = kindByte none ∨
              (PropSlabCodec.readDirEntry mem index).isFor key ∨
              (PropSlabCodec.readDirEntry mem index).offset < slabDirCountSize ∨
              pagePayloadSize < (PropSlabCodec.readDirEntry mem index).offset +
                (PropSlabCodec.readDirEntry mem index).len) :=
            not_or.mpr ⟨freed, not_or.mpr ⟨wanted, stray⟩⟩
          rw [if_neg stray, if_neg kept, ← later]
          exact congrArg (· + blobBytes _) (length_slice _ _ _)

theorem retire_sweep :
    (Counted mem → sweep (retire key) (PropSlabCodec.readDirCount mem) 0 mem =
        .ok (retireFrom key (PropSlabCodec.readDirCount mem) 0 mem)) ∧
      (¬Counted mem →
        sweep (retire key) (PropSlabCodec.readDirCount mem) 0 mem = .error .panic) := by
  refine sweep_calm_iff _ (fun fuel index mem => retireFrom key fuel index mem)
    (fun i mem inside => ?_) (fun _ => round_panic _) (fun _ _ => rfl) (fun _ _ _ => rfl) mem
  rw [retire, readDirEntry_eq inside]
  simp only [bind, Except.bind, spliceWithin, demand_of (kind_inside inside)]
  split <;> rfl

end Retiring

section Writing

variable {mem : Memory} {key : EntityKey} {blob : List UInt8}

theorem blobLowWater_le (mem : Memory) : PropSlabCodec.blobLowWater mem ≤ pagePayloadSize := by
  have lowered : ∀ fuel index low, lowWaterFrom mem fuel index low ≤ low := by
    intro fuel
    induction fuel with
    | zero => exact fun _ _ => Nat.le_refl _
    | succ fuel ih =>
      intro index low
      refine Nat.le_trans (ih _ _) ?_
      split
      · next less => exact Nat.le_of_lt less
      · exact Nat.le_refl _
  exact lowered _ _ _

theorem placeBlob_calm (room : blob.length + slabDirEntrySize ≤ PropSlabCodec.freeSpace mem)
    (counted : Counted mem) : Calm (placeBlob mem key blob) := by
  have low := blobLowWater_le mem
  have space : PropSlabCodec.freeSpace mem =
      PropSlabCodec.blobLowWater mem - (2 + PropSlabCodec.readDirCount mem * 16) := rfl
  have size : pagePayloadSize = 4080 := rfl
  have entry : slabDirEntrySize = 16 := rfl
  have limit : maxDirEntries = 254 := rfl
  rw [placeBlob, readDirCount_eq]
  simp only [bind, Except.bind, blobLowWater_eq counted, minus, spliceWithin, writeWithin]
  rw [demand_of (by omega)]
  simp only
  rw [demand_of (by omega)]
  simp only
  rw [writeDirEntry_eq (by omega)]
  exact calm_demand.mpr (by omega)

/-- Writing a blob goes through exactly if every entry that is counted lies inside the payload,
and either there is room already or the bytes that a compaction keeps fit the payload. -/
theorem writeBlob_calm_iff :
    Calm (writeBlob mem key blob) ↔
      Counted mem ∧ (blob.length + slabDirEntrySize ≤ PropSlabCodec.freeSpace mem ∨
        keptBytes key mem (PropSlabCodec.readDirCount mem) 0 ≤ pagePayloadSize) := by
  rw [writeBlob, readDirCount_eq]
  by_cases counted : Counted mem
  · rw [and_iff_right counted]
    simp only [bind, Except.bind, retire_sweep.1 counted]
    generalize retiredIs : retireFrom key (PropSlabCodec.readDirCount mem) 0 mem = retired
    have counted' : Counted retired := by
      rw [Counted, ← retiredIs, readDirCount_retired]
      exact counted
    have space : PropSlabCodec.freeSpace retired = PropSlabCodec.freeSpace mem := by
      rw [← retiredIs, freeSpace_retired]
    have kept : blobBytes (collectFrom retired (PropSlabCodec.readDirCount retired) 0) =
        keptBytes key mem (PropSlabCodec.readDirCount mem) 0 := by
      rw [← retiredIs, readDirCount_retired, blobBytes_collectFrom (Nat.le_of_eq (Nat.zero_add _))]
    rw [makeRoom, freeSpace_eq counted', space]
    simp only [bind, Except.bind]
    by_cases full : PropSlabCodec.freeSpace mem < blob.length + slabDirEntrySize
    · rw [if_pos full, or_iff_right (Nat.not_le.mpr full), ← kept]
      obtain ⟨goes, stops⟩ := compact_calm counted'
      by_cases fits : blobBytes (collectFrom retired (PropSlabCodec.readDirCount retired) 0) ≤
          pagePayloadSize
      · refine iff_of_true ?_ fits
        have again := counted_compact counted'
        rw [goes fits]
        simp only [freeSpace_eq again]
        by_cases still : PropSlabCodec.freeSpace (PropSlabCodec.compact retired) <
            blob.length + slabDirEntrySize
        · rw [if_pos still]
          exact calm_error _
        · rw [if_neg still]
          exact placeBlob_calm (Nat.le_of_not_lt still) again
      · refine iff_of_false ?_ fits
        rw [stops (Nat.lt_of_not_le fits)]
        exact fun calm => calm rfl
    · rw [if_neg full]
      refine iff_of_true ?_ (.inl (Nat.le_of_not_lt full))
      exact placeBlob_calm (space ▸ Nat.le_of_not_lt full) counted'
  · refine iff_of_false ?_ fun both => counted both.1
    simp only [bind, Except.bind, retire_sweep.2 counted]
    exact fun calm => calm rfl

end Writing

/-- The operations of a packed property page all return exactly if every entry that is counted
lies inside the payload, and a blob that does not fit as the page is finds at most a payload of
bytes to keep. The room test and the freeing of a blob need the first of these only, and a read
not even that if it finds the entity before the end of the payload. -/
theorem operations_calm_iff (page : PageId) (mem : Memory) (key : EntityKey) (blob : List UInt8) :
    (Calm (readBlob page mem key) ∧ Calm (writeBlob mem key blob) ∧ Calm (freeBlob mem key) ∧
        Calm (hasRoomFor mem blob.length) ↔
      Counted mem ∧ (blob.length + slabDirEntrySize ≤ PropSlabCodec.freeSpace mem ∨
        keptBytes key mem (PropSlabCodec.readDirCount mem) 0 ≤ pagePayloadSize)) ∧
    (Calm (freeBlob mem key) ↔ Counted mem) ∧
    (Calm (hasRoomFor mem blob.length) ↔ Counted mem) ∧
    (Calm (readBlob page mem key) ↔
      Counted mem ∨ ∃ i < maxDirEntries, (PropSlabCodec.readDirEntry mem i).isFor key) := by
  refine ⟨⟨fun all => ?_, fun fits => ⟨?_, ?_, ?_, ?_⟩⟩, freeBlob_calm_iff,
    hasRoomFor_calm_iff blob.length, readBlob_calm_iff⟩
  · exact writeBlob_calm_iff.mp all.2.1
  · exact readBlob_calm_iff.mpr (.inl fits.1)
  · exact writeBlob_calm_iff.mpr fits
  · exact freeBlob_calm_iff.mpr fits.1
  · exact (hasRoomFor_calm_iff _).mpr fits.1

/-- A page that counts one entry more than it can hold. -/
def overcounted : Memory := writeLe (fun _ => 0) 0 2 255

/-- A page with two live blobs that share their bytes. -/
def shared : Memory :=
  let one := PropSlabCodec.writeDirEntry (writeLe (fun _ => 0) 0 2 2) 0
    ⟨1, kindByte (some .node), 34, 4046⟩
  PropSlabCodec.writeDirEntry one 1 ⟨2, kindByte (some .node), 34, 4046⟩

/-- On a page that counts too many entries every operation panics; on one whose blobs share
their bytes the compaction that a write runs does. -/
theorem operations_panic :
    (¬Calm (hasRoomFor overcounted 0) ∧ ¬Calm (freeBlob overcounted ⟨.edge, 3⟩) ∧
      ¬Calm (writeBlob overcounted ⟨.edge, 3⟩ []) ∧ ¬Calm (readBlob 0 overcounted ⟨.edge, 3⟩)) ∧
    Counted shared ∧ ¬Calm (writeBlob shared ⟨.node, 3⟩ []) := by
  have beyond : ¬Counted overcounted := by decide
  refine ⟨⟨?_, ?_, ?_, ?_⟩, by decide, ?_⟩
  · exact fun calm => beyond ((hasRoomFor_calm_iff 0).mp calm)
  · exact fun calm => beyond (freeBlob_calm_iff.mp calm)
  · exact fun calm => beyond (writeBlob_calm_iff.mp calm).1
  · intro calm
    rcases readBlob_calm_iff.mp calm with counted | ⟨i, _, isFor⟩
    · exact beyond counted
    · -- The directory is blank behind the count.
      have place := entryAt_eq i
      have blank : (PropSlabCodec.readDirEntry overcounted i).kind = 0 := by
        show writeLe (fun _ => 0) 0 2 255 (entryAt i + 8) = 0
        exact writeLe_outside (.inr (by omega))
      rw [DirEntry.isFor, blank] at isFor
      exact absurd isFor.1 (by decide)
  · intro calm
    rcases (writeBlob_calm_iff.mp calm).2 with room | fits
    · exact absurd room (by decide)
    · exact absurd fits (by decide)

end Guarded

end ErmyaGraph.PropSlabCodec
