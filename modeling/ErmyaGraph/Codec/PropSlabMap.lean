import ErmyaGraph.Lib.Runs
import ErmyaGraph.Codec.PropSlab
import ErmyaGraph.Storage.Blobs

/-! # A packed property page as a map

The bytes of a page hold the entries of its directory. The operations on the
bytes are the operations on the entries. -/

namespace ErmyaGraph.PropSlabCodec

open Bytes Outcome Runs Store List

variable {offset top : Nat} {suffix : List SlabEntry}

def directoryEnd (total : Nat) : Nat := slabDirCountSize + total * slabDirEntrySize

theorem entryAt_add (index : Nat) : entryAt index + slabDirEntrySize = directoryEnd (index + 1) := by
  simp only [entryAt, directoryEnd, Nat.add_mul, Nat.one_mul, Nat.add_assoc]

theorem directoryEnd_mono {small large : Nat} (le : small ≤ large) :
    directoryEnd small ≤ directoryEnd large :=
  Nat.add_le_add_left (Nat.mul_le_mul_right _ le) _

def range (entry : SlabEntry) : Nat × Nat := (entry.offset, entry.blob.length)

/-- The blobs lie behind the directory, inside the page, each below the ones before it. -/
structure Packed (ranges : List (Nat × Nat)) : Prop where
  room : directoryEnd ranges.length ≤ pagePayloadSize
  above : ∀ r ∈ ranges, directoryEnd ranges.length ≤ r.1
  inside : ∀ r ∈ ranges, r.1 + r.2 ≤ pagePayloadSize
  stacked : ranges.Pairwise fun high low => low.1 + low.2 ≤ high.1

/-- The name in a directory entry; a freed one has none. -/
def Named (mem : Memory) (index : Nat) : Option EntityKey → Prop
  | some key => readLe mem (entryAt index) 8 = key.id ∧
      mem (entryAt index + 8) = kindByte (some key.kind)
  | none => mem (entryAt index + 8) = kindByte none

/-- The bytes of an entry and of its blob. -/
structure Written (mem : Memory) (index : Nat) (entry : SlabEntry) : Prop where
  named : Named mem index entry.entity
  offset : readLe mem (entryAt index + 10) 2 = entry.offset
  len : readLe mem (entryAt index + 12) 4 = entry.blob.length
  blob : slice mem entry.offset entry.blob.length = entry.blob

/-- The bytes of a page hold the entries. -/
structure Holds (mem : Memory) (entries : List SlabEntry) : Prop where
  count : readDirCount mem = entries.length
  written : ∀ (i : Nat) (entry : SlabEntry), entries[i]? = some entry → Written mem i entry

section Bytes

variable {mem mem' : Memory} {index : Nat} {entry : SlabEntry}

theorem Named.congr {entity : Option EntityKey} (named : Named mem index entity)
    (same : ∀ i, entryAt index ≤ i → i < entryAt index + slabDirEntrySize → mem' i = mem i) :
    Named mem' index entity := by
  have size : slabDirEntrySize = 16 := rfl
  have kind := same (entryAt index + 8) (by omega) (by omega)
  cases entity with
  | none => exact kind.trans named
  | some key =>
    have id : readLe mem' (entryAt index) 8 = readLe mem (entryAt index) 8 :=
      readLe_congr fun i above below => same i above (by omega)
    exact ⟨id.trans named.1, kind.trans named.2⟩

theorem Written.congr (written : Written mem index entry)
    (listed : ∀ i, entryAt index ≤ i → i < entryAt index + slabDirEntrySize → mem' i = mem i)
    (packed : ∀ i, entry.offset ≤ i → i < entry.offset + entry.blob.length → mem' i = mem i) :
    Written mem' index entry := by
  have size : slabDirEntrySize = 16 := rfl
  constructor
  · exact written.named.congr listed
  · rw [readLe_congr fun i above below => listed i (by omega) (by omega), written.offset]
  · rw [readLe_congr fun i above below => listed i (by omega) (by omega), written.len]
  · rw [slice_congr packed, written.blob]

theorem writeDirEntry_outside {listed : DirEntry} {i : Nat}
    (outside : i < entryAt index ∨ entryAt index + slabDirEntrySize ≤ i) :
    writeDirEntry mem index listed i = mem i := by
  have size : slabDirEntrySize = 16 := rfl
  have two : [listed.kind, (0 : UInt8)].length = 2 := rfl
  rw [writeDirEntry, writeLe_outside (by omega), writeLe_outside (by omega),
    splice_outside (by omega), writeLe_outside (by omega)]

theorem written_writeDirEntry {key : EntityKey} {blob : List UInt8}
    (filled : slice mem offset blob.length = blob)
    (behind : entryAt index + slabDirEntrySize ≤ offset) (idFits : key.id < 256 ^ 8)
    (offsetFits : offset < 256 ^ 2) (short : blob.length < 256 ^ 4) :
    Written (writeDirEntry mem index ⟨key.id, kindByte (some key.kind), offset, blob.length⟩) index
      ⟨some key, offset, blob⟩ := by
  constructor
  · constructor
    · rw [writeDirEntry]
      rw [readLe_congr fun i _ _ => writeLe_outside (by omega),
        readLe_congr fun i _ _ => writeLe_outside (by omega),
        readLe_congr fun i _ below => splice_outside (.inl below), readLe_writeLe _ _ idFits]
    · rw [writeDirEntry, writeLe_outside (by omega), writeLe_outside (by omega),
        splice_inside (Nat.le_refl _)
          (Nat.lt_add_of_pos_right (length_pos_of_ne_nil (cons_ne_nil _ _))), Nat.sub_self]
      rfl
  · rw [writeDirEntry]
    rw [readLe_congr fun i _ _ => writeLe_outside (by omega), readLe_writeLe _ _ offsetFits]
  · rw [writeDirEntry, readLe_writeLe _ _ short]
  · rw [slice_congr fun i above _ => writeDirEntry_outside (.inr (behind.trans above))]
    exact filled

end Bytes

section Reading

variable {mem : Memory} {entries : List SlabEntry} {index : Nat} {entry : SlabEntry}

theorem getElem?_of_suffix {rest : List SlabEntry} (suffix : entries.drop index = entry :: rest) :
    entries[index]? = some entry ∧ entries.drop (index + 1) = rest := by
  constructor
  · have first := congrArg List.head? suffix
    rw [List.head?_drop] at first
    exact first
  · rw [← drop_drop, suffix]
    rfl

theorem Written.isFor_iff (written : Written mem index entry) (key : EntityKey) :
    (readDirEntry mem index).isFor key ↔ entry.entity = some key := by
  have named := written.named
  unfold DirEntry.isFor readDirEntry
  cases entity : entry.entity with
  | none =>
    rw [entity] at named
    have freed : mem (entryAt index + 8) = kindByte none := named
    simp only [freed]
    constructor
    · intro ⟨same, _⟩
      cases kindByte_inj same
    · exact fun same => nomatch same
  | some other =>
    rw [entity] at named
    simp only [named.1, named.2]
    constructor
    · intro ⟨sameKind, sameId⟩
      have kind : other.kind = key.kind := Option.some.inj (kindByte_inj sameKind)
      cases other
      cases key
      exact congrArg some (congrArg₂ EntityKey.mk kind sameId)
    · intro same
      cases same
      exact ⟨rfl, rfl⟩

theorem Written.kind_eq_none_iff (written : Written mem index entry) :
    (readDirEntry mem index).kind = kindByte none ↔ entry.entity = none := by
  have named := written.named
  have kind : (readDirEntry mem index).kind = mem (entryAt index + 8) := rfl
  rw [kind]
  cases entity : entry.entity with
  | none =>
    rw [entity] at named
    exact ⟨fun _ => rfl, fun _ => named⟩
  | some key =>
    rw [entity] at named
    constructor
    · intro freed
      cases kindByte_inj (named.2.symm.trans freed)
    · exact fun same => nomatch same

theorem lowWaterFrom_eq (holds : Holds mem entries) {low : Nat}
    (isSuffix : entries.drop index = suffix) :
    lowWaterFrom mem suffix.length index low =
      suffix.foldl (fun low entry => min low entry.offset) low := by
  induction suffix generalizing index low with
  | nil => rfl
  | cons entry rest ih =>
    obtain ⟨here, later⟩ := getElem?_of_suffix isSuffix
    have offset : (readDirEntry mem index).offset = entry.offset :=
      (holds.written index entry here).offset
    have lower : (if entry.offset < low then entry.offset else low) = min low entry.offset := by
      rcases Nat.lt_or_ge entry.offset low with less | more
      · rw [if_pos less, Nat.min_eq_right (less.le)]
      · rw [if_neg (Nat.not_lt.mpr more), Nat.min_eq_left more]
    rw [length_cons, lowWaterFrom, offset, lower, ih later, foldl_cons]

theorem blobLowWater_eq (holds : Holds mem entries) :
    blobLowWater mem = Store.blobLowWater entries := by
  rw [blobLowWater, holds.count]
  exact lowWaterFrom_eq holds rfl

theorem freeSpace_eq (holds : Holds mem entries) : freeSpace mem = slabFreeSpace entries := by
  rw [freeSpace, blobLowWater_eq holds, holds.count, slabFreeSpace]

theorem Packed.inPage (packed : Packed (entries.map range)) (here : entries[index]? = some entry) :
    ¬(entry.offset < slabDirCountSize ∨
      pagePayloadSize < entry.offset + entry.blob.length) := by
  have mem : range entry ∈ entries.map range := mem_map_of_mem (mem_of_getElem? here)
  have above : directoryEnd (entries.map range).length ≤ entry.offset := packed.above _ mem
  have inside : entry.offset + entry.blob.length ≤ pagePayloadSize := packed.inside _ mem
  have start : slabDirCountSize ≤ directoryEnd (entries.map range).length := Nat.le_add_right _ _
  omega

theorem readFrom_eq {page : PageId} (holds : Holds mem entries)
    (packed : Packed (entries.map range)) (key : EntityKey)
    (isSuffix : entries.drop index = suffix) :
    readFrom page mem key suffix.length index = .ok (slabLookup suffix key) := by
  induction suffix generalizing index with
  | nil => rfl
  | cons entry rest ih =>
    obtain ⟨here, later⟩ := getElem?_of_suffix isSuffix
    have written := holds.written index entry here
    have offset : (readDirEntry mem index).offset = entry.offset := written.offset
    have len : (readDirEntry mem index).len = entry.blob.length := written.len
    have good := packed.inPage here
    rw [length_cons, readFrom, slabLookup, List.find?_cons]
    by_cases wanted : entry.entity = some key
    · have forKey := (written.isFor_iff key).mpr wanted
      simp only [forKey, if_true, offset, len, if_neg good, written.blob, wanted, decide_true,
        Option.map_some]
    · have other := mt (written.isFor_iff key).mp wanted
      simp only [if_neg other, wanted, decide_false]
      exact ih later

theorem readBlob_eq {page : PageId} (holds : Holds mem entries) (packed : Packed (entries.map range))
    (key : EntityKey) : readBlob page mem key = .ok (slabLookup entries key) := by
  rw [readBlob, holds.count]
  exact readFrom_eq holds packed key rfl

end Reading

section Retiring

variable {mem : Memory} {done entries : List SlabEntry} {entry : SlabEntry} {key : EntityKey}

@[simp]
theorem range_retire (key : EntityKey) (entry : SlabEntry) :
    range (retire key entry) = range entry := by
  unfold retire
  split <;> rfl

theorem map_range_retire (key : EntityKey) (entries : List SlabEntry) :
    (entries.map (retire key)).map range = entries.map range := by
  simp [Function.comp_def]

theorem getElem?_middle (done rest : List SlabEntry) (entry : SlabEntry) :
    (done ++ entry :: rest)[done.length]? = some entry := by
  rw [List.getElem?_append_right (Nat.le_refl _), Nat.sub_self]
  rfl

/-- Clearing the kind byte frees one entry and leaves the others. -/
theorem Holds.freed {rest : List SlabEntry} (holds : Holds mem (done ++ entry :: rest))
    (packed : Packed ((done ++ entry :: rest).map range)) :
    Holds (splice mem (entryAt done.length + 8) [kindByte none])
      (done ++ { entry with entity := none } :: rest) := by
  have size : slabDirEntrySize = 16 := rfl
  have one : [kindByte none].length = 1 := rfl
  have countSize : slabDirCountSize = 2 := rfl
  have start : slabDirCountSize ≤ entryAt done.length := Nat.le_add_right _ _
  have place := entryAt_add done.length
  have bound : directoryEnd (done.length + 1) ≤
      directoryEnd ((done ++ entry :: rest).map range).length := by
    apply directoryEnd_mono
    rw [length_map, length_append, length_cons]
    omega
  have behind : ∀ other ∈ done ++ entry :: rest,
      directoryEnd (done.length + 1) ≤ other.offset := by
    intro other member
    exact bound.trans (packed.above (range other) (mem_map_of_mem member))
  constructor
  · have count := holds.count
    rw [readDirCount] at count ⊢
    rw [readLe_congr fun i _ _ => splice_outside (by omega), count]
    simp
  · intro j other there
    by_cases at_ : j = done.length
    · rw [at_, getElem?_middle] at there
      have before := holds.written done.length entry (getElem?_middle done rest entry)
      have above := behind entry (by simp)
      rw [at_, ← Option.some.inj there]
      constructor
      · show splice mem (entryAt done.length + 8) [kindByte none] (entryAt done.length + 8) =
          kindByte none
        rw [splice_inside (Nat.le_refl _) (by omega), Nat.sub_self]
        rfl
      · rw [readLe_congr fun i _ _ => splice_outside (by omega), before.offset]
      · rw [readLe_congr fun i _ _ => splice_outside (by omega), before.len]
      · show slice _ entry.offset entry.blob.length = entry.blob
        rw [slice_congr fun i _ _ => splice_outside (by omega), before.blob]
    · have same : (done ++ entry :: rest)[j]? = some other := by
        rcases Nat.lt_or_ge j done.length with less | more
        · rw [List.getElem?_append_left less] at there ⊢
          exact there
        · rw [List.getElem?_append_right more] at there ⊢
          obtain ⟨k, gap⟩ : ∃ k, j - done.length = k + 1 := ⟨j - done.length - 1, by omega⟩
          rw [gap, List.getElem?_cons_succ] at there ⊢
          exact there
      have above := behind other (mem_of_getElem? same)
      have apart : entryAt j + slabDirEntrySize ≤ entryAt done.length ∨
          entryAt done.length + slabDirEntrySize ≤ entryAt j := by
        rcases Nat.lt_or_gt_of_ne at_ with less | greater
        · left
          rw [entryAt_add]
          exact directoryEnd_mono less
        · right
          rw [entryAt_add]
          exact directoryEnd_mono greater
      apply (holds.written j other same).congr
      · exact fun i _ _ => splice_outside (by omega)
      · exact fun i _ _ => splice_outside (by omega)

theorem holds_retireFrom (holds : Holds mem (done ++ entries))
    (packed : Packed ((done ++ entries).map range)) :
    Holds (retireFrom key entries.length done.length mem) (done ++ entries.map (retire key)) := by
  induction entries generalizing done mem with
  | nil => exact holds
  | cons entry rest ih =>
    have written := holds.written done.length entry (getElem?_middle done rest entry)
    have ranges : ((done ++ [retire key entry]) ++ rest).map range =
        (done ++ entry :: rest).map range := by simp
    have split : done ++ (entry :: rest).map (retire key) =
        (done ++ [retire key entry]) ++ rest.map (retire key) := by simp
    have length : (done ++ [retire key entry]).length = done.length + 1 := by simp
    rw [length_cons, retireFrom, split, ← length]
    apply ih
    · rw [append_assoc]
      by_cases wanted : entry.entity = some key
      · rw [if_pos ((written.isFor_iff key).mpr wanted), retire, if_pos wanted]
        exact holds.freed packed
      · rw [if_neg (mt (written.isFor_iff key).mp wanted), retire, if_neg wanted]
        exact holds
    · rw [ranges]
      exact packed

theorem holds_retire (holds : Holds mem entries) (packed : Packed (entries.map range))
    (key : EntityKey) :
    Holds (retireFrom key (readDirCount mem) 0 mem) (entries.map (retire key)) := by
  have whole : Holds mem ([] ++ entries) := holds
  rw [holds.count]
  exact holds_retireFrom whole packed

def livesBeside (key : EntityKey) (entry : SlabEntry) : Bool :=
  entry.entity.isSome && entry.entity ≠ some key

theorem freeFrom_eq {anyLive changed : Bool} (holds : Holds mem (done ++ entries))
    (packed : Packed ((done ++ entries).map range)) :
    freeFrom key entries.length done.length ⟨mem, anyLive, changed⟩ =
      ⟨retireFrom key entries.length done.length mem, anyLive || entries.any (livesBeside key),
        changed || entries.any fun entry => entry.entity = some key⟩ := by
  induction entries generalizing done mem anyLive changed with
  | nil => simp [freeFrom, retireFrom]
  | cons entry rest ih =>
    have written := holds.written done.length entry (getElem?_middle done rest entry)
    have ranges : ((done ++ [retire key entry]) ++ rest).map range =
        (done ++ entry :: rest).map range := by simp
    have length : (done ++ [retire key entry]).length = done.length + 1 := by simp
    have packed' : Packed (((done ++ [retire key entry]) ++ rest).map range) := by
      rw [ranges]
      exact packed
    have freed := written.kind_eq_none_iff
    have wanted := written.isFor_iff key
    rw [length_cons, freeFrom, retireFrom, ← length, any_cons, any_cons]
    by_cases free : entry.entity = none
    · have other : ¬entry.entity = some key := by simp [free]
      have holds' : Holds mem ((done ++ [retire key entry]) ++ rest) := by
        rw [append_assoc, retire, if_neg other]
        exact holds
      simp only [freed.mpr free, mt wanted.mp other, if_true, if_false]
      rw [ih holds' packed']
      simp [livesBeside, free]
    · by_cases forKey : entry.entity = some key
      · have holds' : Holds (splice mem (entryAt done.length + 8) [kindByte none])
            ((done ++ [retire key entry]) ++ rest) := by
          rw [append_assoc, retire, if_pos forKey]
          exact holds.freed packed
        simp only [mt freed.mp free, wanted.mpr forKey, if_true, if_false]
        rw [ih holds' packed']
        simp [livesBeside, forKey]
      · have holds' : Holds mem ((done ++ [retire key entry]) ++ rest) := by
          rw [append_assoc, retire, if_neg forKey]
          exact holds
        simp only [mt freed.mp free, mt wanted.mp forKey, if_false]
        rw [ih holds' packed']
        simp [livesBeside, forKey, Option.isSome_iff_ne_none, free]

theorem freeBlob_holds (holds : Holds mem entries) (packed : Packed (entries.map range))
    (key : EntityKey) :
    (freeBlob mem key).1 = entries.any (livesBeside key) ∧
      Holds (freeBlob mem key).2 (entries.map (retire key)) := by
  have whole : Holds mem ([] ++ entries) := holds
  have freed : freeFrom key entries.length 0 ⟨mem, false, false⟩ =
      ⟨retireFrom key entries.length 0 mem, false || entries.any (livesBeside key),
        false || entries.any fun entry => entry.entity = some key⟩ := freeFrom_eq whole packed
  have retired := holds_retire holds packed key
  rw [freeBlob, holds.count, freed]
  rw [holds.count] at retired
  constructor
  · exact Bool.false_or _
  · simp only [Bool.false_or]
    split
    · exact retired
    · next unchanged =>
        have same : entries.map (retire key) = entries := by
          have each : ∀ entry ∈ entries, retire key entry = id entry := by
            intro entry member
            have other : ¬entry.entity = some key := by
              intro wanted
              exact unchanged (any_eq_true.mpr ⟨entry, member, decide_eq_true wanted⟩)
            rw [retire, if_neg other, id]
          rw [map_congr_left each, map_id]
        rw [same]
        exact holds

end Retiring

section Compaction

variable {mem : Memory} {entries : List SlabEntry}

/-- An entry with its bytes, as compaction collects them. -/
def listing (entry : SlabEntry) : DirEntry × List UInt8 :=
  (⟨(entry.entity.map EntityKey.id).getD 0, kindByte (entry.entity.map EntityKey.kind),
    entry.offset, entry.blob.length⟩, entry.blob)

variable {index : Nat}

theorem collectFrom_eq (holds : Holds mem entries) (packed : Packed (entries.map range))
    (isSuffix : entries.drop index = suffix) :
    collectFrom mem suffix.length index = (slabLive suffix).map listing := by
  induction suffix generalizing index with
  | nil => rfl
  | cons entry rest ih =>
    obtain ⟨here, later⟩ := getElem?_of_suffix isSuffix
    have written := holds.written index entry here
    have offset : (readDirEntry mem index).offset = entry.offset := written.offset
    have len : (readDirEntry mem index).len = entry.blob.length := written.len
    have good := packed.inPage here
    have freed := written.kind_eq_none_iff
    rw [length_cons, collectFrom, slabLive, filter_cons]
    cases entity : entry.entity with
    | none =>
      simp only [freed.mpr entity, if_true, Option.isSome_none, Bool.false_eq_true, if_false]
      exact ih later
    | some key =>
      have live := mt freed.mp (by simp [entity])
      have named := written.named
      rw [entity] at named
      have listed : readDirEntry mem index =
          ⟨key.id, kindByte (some key.kind), entry.offset, entry.blob.length⟩ := by
        rw [readDirEntry, named.1, named.2, written.offset, written.len]
      simp only [live, if_false, offset, len, good, written.blob, Option.isSome_some, if_true,
        map_cons, ih later]
      rw [listed, listing, entity]
      rfl

def size (entries : List SlabEntry) : Nat := (entries.map fun entry => entry.blob.length).sum

theorem size_le {base : Nat} (le : base ≤ top) (above : ∀ entry ∈ entries, base ≤ entry.offset)
    (inside : ∀ entry ∈ entries, entry.offset + entry.blob.length ≤ top)
    (stacked : entries.Pairwise fun high low => low.offset + low.blob.length ≤ high.offset) :
    size entries + base ≤ top := by
  induction entries generalizing top with
  | nil => simpa [size] using le
  | cons entry rest ih =>
    obtain ⟨below, others⟩ := pairwise_cons.mp stacked
    have first := inside entry mem_cons_self
    have later := ih (above entry mem_cons_self)
      (fun other mem => above other (mem_cons_of_mem _ mem)) below others
    have split : size (entry :: rest) = entry.blob.length + size rest := by simp [size]
    omega

theorem Packed.size_live (packed : Packed (entries.map range)) :
    size (slabLive entries) + directoryEnd (slabLive entries).length ≤ pagePayloadSize := by
  have fewer : (slabLive entries).length ≤ (entries.map range).length := by
    rw [length_map]
    exact length_filter_le _ _
  have dir := directoryEnd_mono fewer
  apply size_le (dir.trans packed.room)
  · intro entry mem
    have old := packed.above (range entry) (mem_map_of_mem (mem_of_mem_filter mem))
    exact dir.trans old
  · intro entry mem
    exact packed.inside (range entry) (mem_map_of_mem (mem_of_mem_filter mem))
  · have stacked := packed.stacked
    rw [pairwise_map] at stacked
    exact stacked.filter _

theorem repack_bounds (fits : size entries ≤ top) :
    (∀ entry ∈ repack top entries, top - size entries ≤ entry.offset ∧
      entry.offset + entry.blob.length ≤ top) ∧
    (repack top entries).Pairwise fun high low => low.offset + low.blob.length ≤ high.offset := by
  induction entries generalizing top with
  | nil => exact ⟨fun _ mem => (nomatch mem), List.Pairwise.nil⟩
  | cons entry rest ih =>
    have split : size (entry :: rest) = entry.blob.length + size rest := by simp [size]
    have left : size rest ≤ top - entry.blob.length := by omega
    obtain ⟨bounds, stacked⟩ := ih left
    constructor
    · intro other mem
      rcases mem_cons.mp mem with rfl | later
      · show top - size (entry :: rest) ≤ top - entry.blob.length ∧
          top - entry.blob.length + entry.blob.length ≤ top
        omega
      · obtain ⟨low, high⟩ := bounds other later
        omega
    · exact pairwise_cons.mpr ⟨fun other later => (bounds other later).2, stacked⟩

theorem length_repack (top : Nat) (entries : List SlabEntry) :
    (repack top entries).length = entries.length := by
  induction entries generalizing top with
  | nil => rfl
  | cons entry rest ih => rw [repack, length_cons, ih, length_cons]

theorem packed_compact (packed : Packed (entries.map range)) :
    Packed ((Store.compact entries).map range) := by
  have fits := packed.size_live
  have small : size (slabLive entries) ≤ pagePayloadSize := by omega
  obtain ⟨bounds, stacked⟩ := repack_bounds small
  have length : ((Store.compact entries).map range).length = (slabLive entries).length := by
    rw [length_map, Store.compact, length_repack]
  constructor
  · rw [length]
    omega
  · intro r mem
    obtain ⟨entry, there, rfl⟩ := mem_map.mp mem
    have low := (bounds entry there).1
    rw [length]
    show directoryEnd (slabLive entries).length ≤ entry.offset
    omega
  · intro r mem
    obtain ⟨entry, there, rfl⟩ := mem_map.mp mem
    exact (bounds entry there).2
  · rw [pairwise_map]
    exact stacked

theorem layFrom_outside {i : Nat} (fits : size entries ≤ top)
    (directory : i < entryAt index ∨ directoryEnd (index + entries.length) ≤ i)
    (blobs : i < top - size entries ∨ top ≤ i) :
    layFrom mem (entries.map listing) index top i = mem i := by
  induction entries generalizing mem index top with
  | nil => rfl
  | cons entry rest ih =>
    have split : size (entry :: rest) = entry.blob.length + size rest := by simp [size]
    have next := entryAt_add index
    have after : entryAt (index + 1) = directoryEnd (index + 1) := rfl
    have whole : index + (entry :: rest).length = index + 1 + rest.length := by
      rw [length_cons]
      omega
    have wider : directoryEnd (index + 1) ≤ directoryEnd (index + 1 + rest.length) :=
      directoryEnd_mono (Nat.le_add_right _ _)
    have bytes : (listing entry).2 = entry.blob := rfl
    rw [whole] at directory
    rw [map_cons, layFrom, bytes, ih (by omega) (by omega) (by omega),
      writeDirEntry_outside (by omega), splice_outside (by omega)]

/-- Entries that were laid out are read back. -/
theorem written_layFrom (live : ∀ entry ∈ entries, entry.entity.isSome)
    (typed : ∀ entry ∈ entries, ∀ key, entry.entity = some key → key.id < 256 ^ 8)
    (fits : size entries + directoryEnd (index + entries.length) ≤ top) (small : top < 256 ^ 2)
    {k : Nat} {entry : SlabEntry} (here : (repack top entries)[k]? = some entry) :
    Written (layFrom mem (entries.map listing) index top) (index + k) entry := by
  induction entries generalizing mem index top k with
  | nil => exact nomatch here
  | cons first rest ih =>
    have split : size (first :: rest) = first.blob.length + size rest := by simp [size]
    have next := entryAt_add index
    have after : entryAt (index + 1) = directoryEnd (index + 1) := rfl
    have whole : index + (first :: rest).length = index + 1 + rest.length := by
      rw [length_cons]
      omega
    have wider : directoryEnd (index + 1) ≤ directoryEnd (index + 1 + rest.length) :=
      directoryEnd_mono (Nat.le_add_right _ _)
    have bytes : (listing first).2 = first.blob := rfl
    rw [whole] at fits
    rw [map_cons, layFrom, bytes]
    cases k with
    | zero =>
      obtain ⟨key, entity⟩ := Option.isSome_iff_exists.mp (live first mem_cons_self)
      have entry_ : entry = ⟨some key, top - first.blob.length, first.blob⟩ := by
        rw [← entity]
        exact (Option.some.inj here).symm
      have name : listing first =
          (⟨key.id, kindByte (some key.kind), first.offset, first.blob.length⟩, first.blob) := by
        rw [listing, entity]
        rfl
      have filled : slice (splice mem (top - first.blob.length) first.blob)
          (top - first.blob.length) first.blob.length = first.blob := slice_splice _ _ _
      have behind : entryAt index + slabDirEntrySize ≤ top - first.blob.length := by omega
      have written := written_writeDirEntry filled behind
        (typed first mem_cons_self key entity) (by omega)
        (by omega : first.blob.length < 256 ^ 4)
      rw [entry_, name, Nat.add_zero]
      apply written.congr
      · intro i lower upper
        exact layFrom_outside (by omega) (by omega) (by omega)
      · intro i lower upper
        have bottom : top - first.blob.length ≤ i := lower
        exact layFrom_outside (by omega) (by omega) (by omega)
    | succ k =>
      have there : (repack (top - first.blob.length) rest)[k]? = some entry := here
      have place : index + (k + 1) = index + 1 + k := by omega
      rw [place]
      exact ih (fun other member => live other (.tail _ member))
        (fun other member => typed other (.tail _ member)) (by omega) (by omega)
        there

theorem Holds.typed (holds : Holds mem entries) :
    ∀ entry ∈ entries, ∀ key, entry.entity = some key → key.id < 256 ^ 8 := by
  intro entry member key entity
  obtain ⟨i, here⟩ := mem_iff_getElem?.mp member
  have named := (holds.written i entry here).named
  rw [entity] at named
  rw [← named.1]
  exact readLe_lt _ _ _

theorem holds_compact (holds : Holds mem entries) (packed : Packed (entries.map range)) :
    Holds (compact mem) (Store.compact entries) := by
  have fits := packed.size_live
  have collected : collectFrom mem entries.length 0 = (slabLive entries).map listing :=
    collectFrom_eq holds packed rfl
  have countSize : slabDirCountSize = 2 := rfl
  have entrySize : slabDirEntrySize = 16 := rfl
  have payload : pagePayloadSize = 4080 := rfl
  have length : (Store.compact entries).length = (slabLive entries).length := length_repack _ _
  rw [compact, holds.count, collected]
  constructor
  · have few : (slabLive entries).length < 256 ^ 2 := by
      rw [directoryEnd, entrySize] at fits
      omega
    rw [readDirCount, length_map, readLe_writeLe _ _ few, length]
  · intro k entry here
    have start : slabDirCountSize ≤ entryAt k := Nat.le_add_right _ _
    have whole : size (slabLive entries) + directoryEnd (0 + (slabLive entries).length) ≤
        pagePayloadSize := by
      rw [Nat.zero_add]
      exact fits
    have written : Written (layFrom (fun _ => 0) ((slabLive entries).map listing) 0
        pagePayloadSize) (0 + k) entry := written_layFrom
      (fun entry member => (mem_filter.mp member).2)
      (fun entry member => holds.typed entry (mem_of_mem_filter member)) whole (by omega) here
    rw [Nat.zero_add] at written
    have above := (packed_compact packed).above (range entry)
      (mem_map_of_mem (mem_of_getElem? here))
    have dir : slabDirCountSize ≤ directoryEnd ((Store.compact entries).map range).length :=
      Nat.le_add_right _ _
    have behind : slabDirCountSize ≤ entry.offset := Nat.le_trans dir above
    apply written.congr
    · exact fun i _ _ => writeLe_outside (by omega)
    · exact fun i _ _ => writeLe_outside (by omega)

end Compaction

section Writing

variable {mem : Memory} {entries : List SlabEntry} {key : EntityKey} {blob : List UInt8}

theorem blobLowWater_le (low : Nat) (entries : List SlabEntry) :
    entries.foldl (fun low entry => min low entry.offset) low ≤ low ∧ ∀ entry ∈ entries,
        entries.foldl (fun low entry => min low entry.offset) low ≤ entry.offset := by
  induction entries generalizing low with
  | nil => exact ⟨Nat.le_refl low, fun _ mem => nomatch mem⟩
  | cons first rest ih =>
    obtain ⟨below, others⟩ := ih (min low first.offset)
    rw [foldl_cons]
    constructor
    · exact below.trans (min_le_left _ _)
    · intro entry mem
      rcases mem_cons.mp mem with rfl | later
      · exact below.trans (min_le_right _ _)
      · exact others entry later

/-- The page with a blob below the others. -/
def withBlob (mem : Memory) (total : Nat) (key : EntityKey) (offset : Nat) (blob : List UInt8) :
    Memory :=
  writeLe (writeDirEntry (splice mem offset blob) total
    ⟨key.id, kindByte (some key.kind), offset, blob.length⟩) 0 2 (total + 1)

theorem packed_withBlob (packed : Packed (entries.map range))
    (low : offset + blob.length = Store.blobLowWater entries)
    (above : directoryEnd (entries.length + 1) ≤ offset) :
    Packed ((entries ++ [(⟨some key, offset, blob⟩ : SlabEntry)]).map range) := by
  obtain ⟨lowest, lows⟩ := blobLowWater_le pagePayloadSize entries
  have bottom : offset + blob.length ≤ pagePayloadSize := low.trans_le lowest
  have length : ((entries ++ [(⟨some key, offset, blob⟩ : SlabEntry)]).map range).length =
      entries.length + 1 := by simp
  constructor
  · rw [length]
    omega
  · intro r mem
    obtain ⟨entry, there, rfl⟩ := mem_map.mp mem
    rw [length]
    rcases mem_append.mp there with before | new
    · have higher : offset + blob.length ≤ (range entry).1 := low.trans_le (lows entry before)
      omega
    · rw [mem_singleton.mp new]
      exact above
  · intro r mem
    obtain ⟨entry, there, rfl⟩ := mem_map.mp mem
    rcases mem_append.mp there with before | new
    · exact packed.inside (range entry) (mem_map_of_mem before)
    · rw [mem_singleton.mp new]
      exact bottom
  · rw [map_append, pairwise_append]
    refine ⟨packed.stacked, pairwise_singleton _ _, ?_⟩
    intro r mem last new
    obtain ⟨entry, there, rfl⟩ := mem_map.mp mem
    rw [mem_singleton.mp new]
    exact low.trans_le (lows entry there)

theorem holds_withBlob (holds : Holds mem entries) (idFits : key.id < 256 ^ 8)
    (low : offset + blob.length = Store.blobLowWater entries)
    (above : directoryEnd (entries.length + 1) ≤ offset) :
    Holds (withBlob mem entries.length key offset blob) (entries ++ [⟨some key, offset, blob⟩]) := by
  obtain ⟨lowest, lows⟩ := blobLowWater_le pagePayloadSize entries
  have bottom : offset + blob.length ≤ pagePayloadSize := low.trans_le lowest
  have payload : pagePayloadSize = 4080 := rfl
  have countSize : slabDirCountSize = 2 := rfl
  have entrySize : slabDirEntrySize = 16 := rfl
  have next := entryAt_add entries.length
  have start : slabDirCountSize ≤ entryAt entries.length := Nat.le_add_right _ _
  constructor
  · have fits : entries.length + 1 < 256 ^ 2 := by
      rw [directoryEnd, entrySize] at above
      omega
    rw [withBlob, readDirCount, readLe_writeLe _ _ fits, length_append, length_singleton]
  · intro j other there
    rcases Nat.lt_or_ge j entries.length with less | more
    · rw [List.getElem?_append_left less] at there
      have before : directoryEnd (j + 1) ≤ directoryEnd entries.length := directoryEnd_mono less
      have end_ : entryAt entries.length = directoryEnd entries.length := rfl
      have place := entryAt_add j
      have first : slabDirCountSize ≤ entryAt j := Nat.le_add_right _ _
      have higher : offset + blob.length ≤ other.offset :=
        low.trans_le (lows other (mem_of_getElem? there))
      apply (holds.written j other there).congr
      · intro i lower upper
        rw [withBlob, writeLe_outside (by omega), writeDirEntry_outside (by omega),
          splice_outside (by omega)]
      · intro i lower upper
        rw [withBlob, writeLe_outside (by omega), writeDirEntry_outside (by omega),
          splice_outside (by omega)]
    · rw [List.getElem?_append_right more] at there
      obtain ⟨zero, here⟩ := List.getElem?_eq_some_iff.mp there
      have only : j - entries.length = 0 := Nat.lt_one_iff.mp zero
      have same : j = entries.length := by omega
      simp only [only, getElem_cons_zero] at here
      rw [same, ← here]
      have behind : entryAt entries.length + slabDirEntrySize ≤ offset := by omega
      have written := written_writeDirEntry (slice_splice mem offset blob) behind idFits (by omega)
        (by omega)
      apply written.congr
      · exact fun i _ _ => writeLe_outside (by omega)
      · intro i lower _
        have bottom : offset ≤ i := lower
        exact writeLe_outside (by omega)

/-- Writing a blob into the bytes is writing it into the directory. -/
theorem writeBlob_holds (holds : Holds mem entries) (packed : Packed (entries.map range))
    (idFits : key.id < 256 ^ 8) (blob : List UInt8) :
    match slabWrite entries key blob with
    | .ok written => ∃ mem', writeBlob mem key blob = .ok mem' ∧ Holds mem' written ∧
        Packed (written.map range)
    | .error e => writeBlob mem key blob = .error e := by
  have retired := holds_retire holds packed key
  have packed' : Packed ((entries.map (retire key)).map range) := by
    rw [map_range_retire]
    exact packed
  obtain ⟨roomMem, roomEntries, chosenMem, chosen, roomHolds, roomPacked⟩ :
      ∃ roomMem roomEntries,
        (if freeSpace (retireFrom key (readDirCount mem) 0 mem) < blob.length + slabDirEntrySize then
          compact (retireFrom key (readDirCount mem) 0 mem)
        else retireFrom key (readDirCount mem) 0 mem) = roomMem ∧
        (if slabFreeSpace (entries.map (retire key)) < blob.length + slabDirEntrySize then
          Store.compact (entries.map (retire key))
        else entries.map (retire key)) = roomEntries ∧
        Holds roomMem roomEntries ∧ Packed (roomEntries.map range) := by
    rw [freeSpace_eq retired]
    by_cases full : slabFreeSpace (entries.map (retire key)) < blob.length + slabDirEntrySize
    · rw [if_pos full, if_pos full]
      exact ⟨_, _, rfl, rfl, holds_compact retired packed', packed_compact packed'⟩
    · rw [if_neg full, if_neg full]
      exact ⟨_, _, rfl, rfl, retired, packed'⟩
  simp only [slabWrite, writeBlob, chosen, chosenMem, freeSpace_eq roomHolds]
  by_cases full : slabFreeSpace roomEntries < blob.length + slabDirEntrySize
  · rw [if_pos full]
    exact if_pos full
  · simp only [full, if_false]
    have enough := not_lt.mp full
    have end_ := entryAt_add roomEntries.length
    have place : entryAt roomEntries.length =
        slabDirCountSize + roomEntries.length * slabDirEntrySize := rfl
    rw [slabFreeSpace, ← place] at enough
    have pos : 0 < slabDirEntrySize := by decide
    have low : Store.blobLowWater roomEntries - blob.length + blob.length =
        Store.blobLowWater roomEntries := by omega
    have above : directoryEnd (roomEntries.length + 1) ≤
        Store.blobLowWater roomEntries - blob.length := by omega
    refine ⟨_, rfl, ?_, packed_withBlob roomPacked low above⟩
    rw [blobLowWater_eq roomHolds, roomHolds.count]
    exact holds_withBlob roomHolds idFits low above

end Writing

abbrev Contents := EntityKey → Option (List UInt8)

def Contents.put (blobs : Contents) (key : EntityKey) (blob : Option (List UInt8)) : Contents :=
  fun other => if other = key then blob else blobs other

def Shows (mem : Memory) (blobs : Contents) : Prop :=
  ∃ entries, Holds mem entries ∧ Packed (entries.map range) ∧ slabLookup entries = blobs

/-- Write a blob on the stored page. -/
@[irreducible]
def storeBlob (key : EntityKey) (blob : List UInt8) : EStateM Error Memory Unit := do
  let mem ← get
  set (← ofResult (writeBlob mem key blob))

/-- Free a blob on the stored page. It answers whether another one is live. -/
@[irreducible]
def releaseBlob (key : EntityKey) : EStateM Error Memory Bool := do
  let mem ← get
  set (freeBlob mem key).2
  return (freeBlob mem key).1

/-- The calls that change a page. -/
inductive Call
  | write (key : EntityKey) (blob : List UInt8)
  | free (key : EntityKey)

def Call.key : Call → EntityKey
  | write key _ => key
  | free key => key

/-- A stored page, and the map it should show. -/
structure Tracked where
  mem : Memory
  blobs : Contents

/-- The map follows the calls that are carried out. -/
def Tracked.step (tracked : Tracked) : Call → Tracked
  | .write key blob =>
    match (storeBlob key blob).run tracked.mem with
    | .ok _ mem => ⟨mem, tracked.blobs.put key (some blob)⟩
    | .error _ mem => ⟨mem, tracked.blobs⟩
  | .free key =>
    match (releaseBlob key).run tracked.mem with
    | .ok _ mem => ⟨mem, tracked.blobs.put key none⟩
    | .error _ mem => ⟨mem, tracked.blobs⟩

def Tracked.blank : Tracked := ⟨fun _ => 0, fun _ => none⟩

theorem shows_blank : Shows Tracked.blank.mem Tracked.blank.blobs := by
  refine ⟨[], ?_, ?_, rfl⟩
  · constructor
    · rfl
    · exact fun i entry here => nomatch here
  · constructor
    · decide
    · exact fun r mem => nomatch mem
    · exact fun r mem => nomatch mem
    · exact List.Pairwise.nil

variable {entries : List SlabEntry}

theorem slabWrite_error {key : EntityKey} {blob : List UInt8} {e : Error}
    (failed : slabWrite entries key blob = .error e) : e = .recordTooLarge blob.length := by
  have either : ∀ room : List SlabEntry,
      (if slabFreeSpace room < blob.length + slabDirEntrySize then
        (.error (.recordTooLarge blob.length) : Except Error (List SlabEntry))
      else .ok (room ++ [⟨some key, Store.blobLowWater room - blob.length, blob⟩])) = .error e →
      e = .recordTooLarge blob.length := by
    intro room refused
    split at refused
    · exact (Except.error.inj refused).symm
    · cases refused
  exact either _ failed

variable {blobs : Contents}

theorem sat_storeBlob {mem : Memory} {key : EntityKey} (shows_ : Shows mem blobs)
    (idFits : key.id < 256 ^ 8) (blob : List UInt8) :
    Sat (storeBlob key blob) mem (fun _ after => Shows after (blobs.put key (some blob)))
      (fun e after => e = .recordTooLarge blob.length ∧ after = mem) := by
  obtain ⟨entries, holds, packed, rfl⟩ := shows_
  have wrote := writeBlob_holds holds packed idFits blob
  cases result : slabWrite entries key blob with
  | error e =>
    rw [result] at wrote
    have failed : writeBlob mem key blob = .error e := wrote
    have large := slabWrite_error result
    simp [storeBlob, failed, large]
  | ok written =>
    rw [result] at wrote
    obtain ⟨after, ok, holds', packed'⟩ := wrote
    have lookup : slabLookup written = Contents.put (slabLookup entries) key (some blob) := by
      funext other
      rw [slabLookup_slabWrite result, Contents.put]
    simp only [storeBlob, ok, sat_bind, sat_get, sat_ofResult_ok, sat_set]
    exact ⟨written, holds', packed', lookup⟩

theorem slabLookup_isSome {key : EntityKey} :
    (slabLookup entries key).isSome ↔ ∃ entry ∈ entries, entry.entity = some key := by
  simp [slabLookup, List.find?_isSome]

theorem any_livesBeside {key : EntityKey} :
    entries.any (livesBeside key) = true ↔
      ∃ other, other ≠ key ∧ (slabLookup entries other).isSome := by
  rw [any_eq_true]
  constructor
  · intro ⟨entry, mem, live⟩
    simp only [livesBeside, Bool.and_eq_true, decide_eq_true_eq, Option.isSome_iff_exists] at live
    obtain ⟨⟨other, entity⟩, ne⟩ := live
    rw [entity] at ne
    exact ⟨other, fun same => ne (congrArg some same),
      slabLookup_isSome.mpr ⟨entry, mem, entity⟩⟩
  · intro ⟨other, ne, found⟩
    obtain ⟨entry, mem, entity⟩ := slabLookup_isSome.mp found
    have apart : ¬some other = some key := fun same => ne (Option.some.inj same)
    exact ⟨entry, mem, by simp [livesBeside, entity, apart]⟩

theorem sat_releaseBlob {mem : Memory} (shows_ : Shows mem blobs) (key : EntityKey) :
    Sat (releaseBlob key) mem
      (fun stillLive after => Shows after (blobs.put key none) ∧
        (stillLive = true ↔ ∃ other, other ≠ key ∧ (blobs other).isSome))
      (fun _ _ => False) := by
  obtain ⟨entries, holds, packed, rfl⟩ := shows_
  obtain ⟨answer, freed⟩ := freeBlob_holds holds packed key
  have packed' : Packed ((entries.map (retire key)).map range) := by
    rw [map_range_retire]
    exact packed
  have lookup : slabLookup (entries.map (retire key)) =
      Contents.put (slabLookup entries) key none := by
    funext other
    by_cases same : other = key
    · rw [Contents.put, if_pos same, same]
      exact slabLookup_retire_self entries key
    · rw [Contents.put, if_neg same]
      exact slabLookup_retire_of_ne entries same
  unfold releaseBlob
  simp only [sat_bind, sat_get, sat_set, sat_pure, answer]
  exact ⟨⟨_, freed, packed', lookup⟩, any_livesBeside⟩

variable {tracked : Tracked}

theorem Tracked.shows_step {call : Call} (shows_ : Shows tracked.mem tracked.blobs)
    (idFits : call.key.id < 256 ^ 8) : Shows (tracked.step call).mem (tracked.step call).blobs := by
  cases call with
  | write key blob =>
    have stored := sat_storeBlob shows_ idFits blob
    rw [Tracked.step]
    cases ran : (storeBlob key blob).run tracked.mem with
    | ok _ mem => exact (sat_iff.mp stored).1 _ mem ran
    | error e mem =>
      have same := ((sat_iff.mp stored).2 e mem ran).2
      rw [same]
      exact shows_
  | free key =>
    have released := sat_releaseBlob shows_ key
    rw [Tracked.step]
    cases ran : (releaseBlob key).run tracked.mem with
    | ok answer mem => exact ((sat_iff.mp released).1 answer mem ran).1
    | error e mem => exact ((sat_iff.mp released).2 e mem ran).elim

theorem shows_of_run {past : List Tracked}
    (run : Run (fun _ _ call => call.key.id < 256 ^ 8) Tracked.step Tracked.blank past tracked) :
    Shows tracked.mem tracked.blobs :=
  run.invariant (fun _ tracked => Shows tracked.mem tracked.blobs) shows_blank
    fun _ _ _ shows_ idFits => Tracked.shows_step shows_ idFits

/-- After every run of calls a page reads as the map. A write that does not fit leaves the
stored page alone, and freeing tells whether another entity has a blob. -/
theorem run_refines_blobs {page : PageId} {past : List Tracked} {tracked : Tracked}
    (run : Run (fun _ _ call => call.key.id < 256 ^ 8) Tracked.step Tracked.blank past tracked) :
    (∀ key, readBlob page tracked.mem key = .ok (tracked.blobs key)) ∧
    (∀ (key : EntityKey) (blob : List UInt8), key.id < 256 ^ 8 →
      Sat (storeBlob key blob) tracked.mem (fun _ _ => True)
        (fun e after => e = .recordTooLarge blob.length ∧ after = tracked.mem)) ∧
    ∀ key, Sat (releaseBlob key) tracked.mem
      (fun stillLive _ => stillLive = true ↔ ∃ other, other ≠ key ∧ (tracked.blobs other).isSome)
      (fun _ _ => False) := by
  have shows_ := shows_of_run run
  refine ⟨?_, ?_, ?_⟩
  · obtain ⟨entries, holds, packed, same⟩ := shows_
    intro key
    rw [readBlob_eq holds packed, same]
  · intro key blob idFits
    exact (sat_storeBlob shows_ idFits blob).mono (fun _ _ _ => trivial) (fun _ _ failed => failed)
  · intro key
    exact (sat_releaseBlob shows_ key).mono (fun _ _ released => released.2) (fun _ _ no => no)

/-- A node's blob is rewritten and read back. -/
theorem run_refines_blobs_rewritten :
    readBlob 0 ((Tracked.blank.step (.write (.node 1) [1, 2])).step (.write (.node 1) [3])).mem
        (.node 1) =
      .ok (((Tracked.blank.step (.write (.node 1) [1, 2])).step
        (.write (.node 1) [3])).blobs (.node 1)) := by
  have opened : Run (fun _ _ call => call.key.id < 256 ^ 8) Tracked.step Tracked.blank
      [Tracked.blank] Tracked.blank := Run.start
  have written := Run.step (.write (.node 1) [1, 2]) opened (by decide)
  have rewritten := Run.step (.write (.node 1) [3]) written (by decide)
  exact (run_refines_blobs rewritten).1 (.node 1)

end ErmyaGraph.PropSlabCodec
