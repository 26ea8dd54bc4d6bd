import ErmyaGraph.Codec.AdjSlabMap

/-! # The room of a shared adjacency page

Sub-blocks are lists of eight-byte edges packed from the end of the payload, so
every live one starts at a multiple of eight. This decides whether a sub-block
fits, and what a list that shrinks and grows again costs. -/

namespace ErmyaGraph.AdjSlabCodec

open Bytes Outcome Runs Store List Tracked

variable {low : Nat}

def Aligned (entries : List Subblock) : Prop :=
  ∀ entry ∈ entries, entry.direction.isSome → 8 ∣ entry.offset

/-- The bytes of a page show the lists of a map, with every sub-block aligned. -/
def ShowsAligned (mem : Memory) (lists : Lists) : Prop :=
  ∃ entries, Holds mem entries ∧ Laid entries ∧ Aligned entries ∧ edgesFor entries = lists

section Alignment

variable {page : PageId} {mem mem' : Memory} {entries : List Subblock} {entry' : Subblock}
  {lists : Lists} {i : Nat}

theorem lowWater_ind {P : Nat → Prop} (start : P low)
    (live : ∀ entry ∈ entries, entry.direction.isSome → P entry.offset) :
    P (lowWater low entries) := by
  induction entries generalizing low with
  | nil => exact start
  | cons first rest ih =>
    have later := fun entry mem => live entry (.tail _ mem)
    have step : lowWater low (first :: rest) =
        lowWater (if first.direction.isSome then min low first.offset else low) rest := rfl
    rw [step]
    refine ih ?_ later
    split
    · next isLive =>
        have here := live first mem_cons_self isLive
        rcases Nat.le_total low first.offset with less | more
        · rw [Nat.min_eq_left less]
          exact start
        · rw [Nat.min_eq_right more]
          exact here
    · exact start

theorem Aligned.lowWater (aligned : Aligned entries) : 8 ∣ lowWater pagePayloadSize entries :=
  lowWater_ind (P := fun n => 8 ∣ n) (by decide) aligned

theorem Laid.lowWater_above (laid : Laid entries) :
    directoryAreaEnd entries.length ≤ AdjSlabCodec.lowWater pagePayloadSize entries :=
  lowWater_ind laid.room laid.above

theorem Aligned.set (aligned : Aligned entries)
    (changed : entry'.direction.isSome → 8 ∣ entry'.offset) : Aligned (entries.set i entry') := by
  intro entry mem isLive
  rcases mem_or_eq_of_mem_set mem with before | rfl
  · exact aligned entry before isLive
  · exact changed isLive

/-- Every call keeps the sub-blocks aligned. -/
theorem Call.result_aligned {call : Call} (shows_ : ShowsAligned mem lists) (typed : call.Typed)
    (ok : call.result page mem = .ok (some mem')) : ShowsAligned mem' (call.applied lists) := by
  obtain ⟨entries, holds, laid, aligned, rfl⟩ := shows_
  obtain ⟨nodeFits, fit⟩ := typed
  cases call with
  | write node direction edges =>
    obtain ⟨_, ok, written⟩ := ok_of_map ok
    cases written
    obtain ⟨missing, offset, placed, rfl⟩ := writeSubblock_ok holds laid ok
    refine ⟨_, holds_withSubblock holds laid nodeFits fit placed,
      laid_append laid missing placed, ?_, edgesFor_append missing⟩
    have low := aligned.lowWater
    rw [← placed.low, adjEdgeSize] at low
    intro entry member isLive
    rcases mem_append.mp member with before | new
    · exact aligned entry before isLive
    · rw [mem_singleton.mp new]
      exact (Nat.dvd_add_left (Nat.dvd_mul_left 8 _)).mp low
  | append node direction added =>
    have nodeFits : node < 256 ^ 8 := nodeFits
    have fit : ∀ edge ∈ added, edge < 256 ^ 8 := fit
    obtain ⟨i, offset, entry, here, wanted, lowest, low, holds', laid'⟩ :=
      appendSubblockEdges_set holds laid nodeFits fit ok
    have old : edgesFor entries node direction = some entry.edges := by
      rw [edgesFor, firstFor_of_unique laid here wanted]
      rfl
    refine ⟨_, holds', laid', aligned.set fun _ => ?_, ?_⟩
    · have start := aligned.lowWater
      rw [← lowest, ← low, adjEdgeSize] at start
      exact (Nat.dvd_add_left (Nat.dvd_mul_left 8 _)).mp start
    · rw [edgesFor_set laid' here wanted (by simp [Subblock.isFor]), Call.applied, old]
      rfl
  | rewrite node direction edges =>
    have nodeFits : node < 256 ^ 8 := nodeFits
    have fit : ∀ edge ∈ edges, edge < 256 ^ 8 := fit
    obtain ⟨_, ok, written⟩ := ok_of_map ok
    cases written
    obtain ⟨i, entry, here, wanted, holds', laid'⟩ :=
      rewriteSubblockEdges_set holds laid nodeFits fit ok
    refine ⟨_, holds', laid', aligned.set fun _ => ?_,
      edgesFor_set laid' here wanted (by simp [Subblock.isFor])⟩
    exact aligned entry (mem_of_getElem? here) (by rw [isLive_of_isFor wanted]; rfl)
  | free node direction =>
    obtain ⟨_, ok, written⟩ := ok_of_map ok
    cases written
    obtain ⟨i, entry, here, wanted, holds', laid'⟩ := freeSubblock_set holds laid ok
    exact ⟨_, holds', laid', aligned.set (absurd · Bool.false_ne_true),
      edgesFor_set_none laid here wanted rfl⟩

theorem showsAligned_blank : ShowsAligned blank.mem blank.lists := by
  obtain ⟨entries, holds, laid, same⟩ := shows_blank
  have empty : entries = [] := eq_nil_of_length_eq_zero holds.count.symm
  subst empty
  exact ⟨[], holds, laid, (fun entry mem => nomatch mem), same⟩

variable {tracked : Tracked}

theorem Tracked.aligned_step {call : Call} (shows_ : ShowsAligned tracked.mem tracked.lists)
    (typed : call.Typed) :
    ShowsAligned (tracked.step page call).mem (tracked.step page call).lists := by
  have done := call.sat_perform page tracked.mem
  unfold step
  cases ran : (call.perform page).run tracked.mem with
  | error e mem =>
    rw [(sat_iff.mp done).2 e mem ran]
    exact shows_
  | ok carried mem =>
    have left := (sat_iff.mp done).1 carried mem ran
    cases carried with
    | true => exact Call.result_aligned shows_ typed left
    | false =>
      have same : mem = tracked.mem := left
      rw [same]
      exact shows_

theorem aligned_of_run {past : List Tracked}
    (run : Run (fun _ _ call => Call.Typed call) (step page) blank past tracked) :
    ShowsAligned tracked.mem tracked.lists :=
  run.invariant (fun _ tracked => ShowsAligned tracked.mem tracked.lists) showsAligned_blank
    fun _ _ _ shows_ typed => aligned_step shows_ typed

end Alignment

section Admission

variable {page : PageId} {mem mem' : Memory} {entries : List Subblock} {node : Nat}
  {direction : AdjDirection} {edges : List Nat} {lists : Lists}

section

variable (holds : Holds mem entries)
include holds

/-- The free space reaches from the directory to the lowest sub-block, and over the count of the
directory, which is not subtracted. -/
theorem slabFreeSpace_eq (laid : Laid entries) : slabFreeSpace page mem =
      .ok (lowWater pagePayloadSize entries - entries.length * adjDirEntrySize) := by
  have above := laid.lowWater_above
  have below := (lowWater_le pagePayloadSize entries).1
  rw [slabFreeSpace, directoryBytesUsed, readDirTotalCount_eq holds laid,
    subblocksBytesUsed_eq holds laid]
  simp only [bind, Except.bind, pure, Except.pure, directoryAreaEnd] at above ⊢
  rw [if_pos (by omega)]
  congr 1
  omega

/-- A new sub-block is written exactly if its entry and its edges have room between the two
frontiers; they may touch. -/
theorem writeSubblock_iff (laid : Laid entries) :
    (∃ mem', writeSubblock page mem node direction edges = .ok mem') ↔
      firstFor node direction 0 entries = none ∧
        directoryAreaEnd (entries.length + 1) + edges.length * adjEdgeSize ≤
          lowWater pagePayloadSize entries := by
  constructor
  · intro ⟨mem', ok⟩
    obtain ⟨missing, offset, placed, _⟩ := writeSubblock_ok holds laid ok
    have low := placed.low
    have above := placed.above
    exact ⟨missing, by omega⟩
  · intro ⟨missing, room⟩
    have below := (lowWater_le pagePayloadSize entries).1
    have size : pagePayloadSize = 4080 := rfl
    have next : directoryAreaEnd (entries.length + 1) =
        adjDirCountSize + (entries.length * adjDirEntrySize + adjDirEntrySize) := by
      rw [directoryAreaEnd, Nat.add_mul, Nat.one_mul]
    have entry : adjDirEntrySize = 14 := rfl
    have area : entries.length * adjDirEntrySize = entries.length * 14 := rfl
    have bytes : edges.length * adjEdgeSize = edges.length * 8 := rfl
    have needed : subblockBytesNeeded edges.length = adjDirEntrySize + edges.length * adjEdgeSize :=
      rfl
    have absent : ¬(Option.map (fun found : Nat × Subblock => (found.1, dirEntry found.2))
        none).isSome = true := Bool.false_ne_true
    rw [writeSubblock, findLiveEntry_eq holds laid, readDirTotalCount_eq holds laid,
      subblocksBytesUsed_eq holds laid, slabFreeSpace_eq holds laid, missing]
    simp only [bind, Except.bind]
    rw [if_neg absent, if_neg (by omega), if_neg (by omega), if_neg (by omega), if_neg (by omega),
      if_neg (by omega), if_neg (by omega)]
    exact ⟨_, rfl⟩

/-- The fit test asks for more than the size of a sub-block, and the writer for two bytes more
than its size. The free space is even, as the size is, so they ask for the same. -/
theorem slabCanFitSubblock_iff (laid : Laid entries) (aligned : Aligned entries) (edgeCount : Nat) :
    slabCanFitSubblock page mem edgeCount =
      .ok (decide (directoryAreaEnd (entries.length + 1) + edgeCount * adjEdgeSize ≤
        lowWater pagePayloadSize entries)) := by
  obtain ⟨words, low⟩ := aligned.lowWater
  have above := laid.lowWater_above
  have next : directoryAreaEnd (entries.length + 1) = 2 + (entries.length * 14 + 14) := by
    rw [directoryAreaEnd, Nat.add_mul, Nat.one_mul]
    rfl
  have same : subblockBytesNeeded edgeCount <
      lowWater pagePayloadSize entries - entries.length * adjDirEntrySize ↔
      directoryAreaEnd (entries.length + 1) + edgeCount * adjEdgeSize ≤
        lowWater pagePayloadSize entries := by
    rw [subblockBytesNeeded, next, adjDirEntrySize, adjEdgeSize]
    omega
  rw [slabCanFitSubblock, slabFreeSpace_eq holds laid]
  exact congrArg Except.ok (decide_eq_decide.mpr same)

theorem firstFor_none_of_absent (laid : Laid entries)
    (absent : readSubblock page mem node direction = .error (noLiveSubblock page)) :
    firstFor node direction 0 entries = none := by
  rw [readSubblock_eq holds laid, edgesFor] at absent
  cases found : firstFor node direction 0 entries with
  | none => rfl
  | some there =>
    rw [found] at absent
    cases absent

end

theorem slabCanFit_exact (shows_ : ShowsAligned mem lists)
    (absent : readSubblock page mem node direction = .error (noLiveSubblock page)) :
    ∃ fits, slabCanFitSubblock page mem edges.length = .ok fits ∧
      (fits = true ↔ ∃ mem', writeSubblock page mem node direction edges = .ok mem') := by
  obtain ⟨entries, holds, laid, aligned, _⟩ := shows_
  refine ⟨_, slabCanFitSubblock_iff holds laid aligned edges.length, ?_⟩
  rw [decide_eq_true_iff, writeSubblock_iff holds laid,
    and_iff_right (firstFor_none_of_absent holds laid absent)]

theorem writeSubblock_blank_iff :
    (∃ mem', writeSubblock page blank.mem node direction edges = .ok mem') ↔
      edges.length ≤ 508 := by
  obtain ⟨entries, holds, laid, _⟩ := shows_blank
  have empty : entries = [] := eq_nil_of_length_eq_zero holds.count.symm
  subst empty
  have absent : firstFor node direction 0 [] = none := rfl
  rw [writeSubblock_iff holds laid, and_iff_right absent]
  show 16 + edges.length * 8 ≤ 4080 ↔ edges.length ≤ 508
  omega

theorem fitsInEmptySlab_iff (edgeCount : Nat) :
    fitsInEmptySlab edgeCount = true ↔ edgeCount ≤ 507 := by
  rw [fitsInEmptySlab, decide_eq_true_iff]
  show 14 + edgeCount * 8 < 4078 ↔ edgeCount ≤ 507
  omega

end Admission

/-- On every page that calls have led to, the fit test answers whether the writer succeeds. The
test for a page that was just allocated does so too, except for the 508 edges that fill it. -/
theorem slab_admission (page : PageId) (node : Nat) (direction : AdjDirection) (edges : List Nat) :
    (∀ (past : List Tracked) (tracked : Tracked),
      Run (fun _ _ call => Call.Typed call) (step page) blank past tracked →
        readSubblock page tracked.mem node direction = .error (noLiveSubblock page) →
        ∃ fits, slabCanFitSubblock page tracked.mem edges.length = .ok fits ∧ (fits = true ↔
            ∃ mem, writeSubblock page tracked.mem node direction edges = .ok mem)) ∧
    ((fitsInEmptySlab edges.length = true ↔
        ∃ mem, writeSubblock page blank.mem node direction edges = .ok mem) ↔
      edges.length ≠ 508) := by
  constructor
  · intro past tracked run absent
    exact slabCanFit_exact (aligned_of_run run) absent
  · rw [fitsInEmptySlab_iff, writeSubblock_blank_iff]
    omega

/-- A list that fills a page is turned away, and yet it can be written. -/
theorem full_slab_turned_away :
    ¬(fitsInEmptySlab 508 = true ↔
      ∃ mem, writeSubblock 0 blank.mem 7 .outgoing (List.replicate 508 1) = .ok mem) := by
  intro same
  have fits := same.mpr (writeSubblock_blank_iff.mpr (Nat.le_of_eq length_replicate))
  exact absurd ((fitsInEmptySlab_iff 508).mp fits) (by decide)

/-- An empty page takes a small list, as both tests say. -/
theorem small_slab_admitted :
    (∃ fits, slabCanFitSubblock 0 blank.mem [1, 2].length = .ok fits ∧
      (fits = true ↔ ∃ mem, writeSubblock 0 blank.mem 7 .outgoing [1, 2] = .ok mem)) ∧
    (fitsInEmptySlab [1, 2].length = true ↔
      ∃ mem, writeSubblock 0 blank.mem 7 .outgoing [1, 2] = .ok mem) :=
  ⟨(slab_admission 0 7 .outgoing [1, 2]).1 _ _ Run.start
      (readSubblock_of_shows shows_blank 7 .outgoing),
    (slab_admission 0 7 .outgoing [1, 2]).2.mpr (by decide)⟩

/-- A sub-block is the last one in the sense of an append: it starts at the low-water mark. -/
def IsLast (page : PageId) (mem : Memory) (node : Nat) (direction : AdjDirection) : Prop :=
  ∃ index entry used, findLiveEntry page mem node direction = .ok (some (index, entry)) ∧
    subblocksBytesUsed page mem = .ok used ∧ entry.offset = pagePayloadSize - used

/-- A list is shrunk to what is kept, and then others are added to it. -/
structure Cycle where
  kept : List Nat
  added : List Nat

variable {cycles : List Cycle}

/-- One cycle; it has no result where the append finds no room. -/
def regrow (page : PageId) (mem : Memory) (node : Nat) (direction : AdjDirection) (cycle : Cycle) :
    Except Error (Option Memory) := do
  let mem ← rewriteSubblockEdges page mem node direction cycle.kept
  appendSubblockEdges page mem node direction cycle.added

/-- Cycles one after the other, as long as each finds room. -/
def regrowAll (page : PageId) (node : Nat) (direction : AdjDirection) :
    Memory → List Cycle → Except Error (Option Memory)
  | mem, [] => return some mem
  | mem, cycle :: rest => do
      match ← regrow page mem node direction cycle with
      | none => return none
      | some mem => regrowAll page node direction mem rest

/-- Cycles of a list that has `current` edges stay within its original size. -/
def Within (size : Nat) : (current : Nat) → List Cycle → Prop
  | _, [] => True
  | current, cycle :: rest =>
    cycle.kept.length ≤ current ∧ cycle.kept.length + cycle.added.length ≤ size ∧
      (∀ edge ∈ cycle.kept ++ cycle.added, edge < 256 ^ 8) ∧
      Within size (cycle.kept.length + cycle.added.length) rest

section Regrowing

variable {page : PageId} {mem mem' : Memory} {entries : List Subblock} {entry entry' : Subblock}
  {node i : Nat} {direction : AdjDirection} {lists : Lists} {cycle : Cycle}

theorem lowWater_eq_of_least (mem : entry ∈ entries) (isLive : entry.direction.isSome)
    (least : ∀ other ∈ entries, other.direction.isSome → entry.offset ≤ other.offset)
    (below : entry.offset ≤ low) : lowWater low entries = entry.offset :=
  Nat.le_antisymm ((lowWater_le low entries).2 entry mem isLive)
    (lowWater_ind (P := fun n => entry.offset ≤ n) below least)

theorem lowWater_set (here : entries[i]? = some entry) (isLive : entry.direction.isSome)
    (isLive' : entry'.direction.isSome) (same : entry'.offset = entry.offset) :
    lowWater low (entries.set i entry') = lowWater low entries := by
  obtain ⟨below, lows⟩ := lowWater_le low entries
  obtain ⟨below', lows'⟩ := lowWater_le low (entries.set i entry')
  have there : (entries.set i entry')[i]? = some entry' :=
    List.getElem?_set_self (List.getElem?_eq_some_iff.mp here).1
  apply Nat.le_antisymm
  · refine lowWater_ind (P := fun n => lowWater low (entries.set i entry') ≤ n) below' ?_
    intro other mem otherLive
    obtain ⟨j, atJ⟩ := mem_iff_getElem?.mp mem
    by_cases index : j = i
    · rw [index, here] at atJ
      rw [← Option.some.inj atJ, ← same]
      exact lows' entry' (mem_of_getElem? there) isLive'
    · have kept : (entries.set i entry')[j]? = some other := by
        rw [List.getElem?_set_ne (Ne.symm index)]
        exact atJ
      exact lows' other (mem_of_getElem? kept) otherLive
  · refine lowWater_ind (P := fun n => lowWater low entries ≤ n) below ?_
    intro other mem otherLive
    rcases mem_or_eq_of_mem_set mem with before | rfl
    · exact lows other before otherLive
    · rw [same]
      exact lows entry (mem_of_getElem? here) isLive

theorem Laid.short (laid : Laid entries) (mem : entry ∈ entries) : entry.edges.length ≤ 510 := by
  have inside : entry.offset + entry.edges.length * 8 ≤ 4080 := laid.inside entry mem
  omega

theorem rewriteSubblockEdges_shrinks {edges : List Nat} (holds : Holds mem entries)
    (laid : Laid entries) (nodeFits : node < 256 ^ 8) (fit : ∀ edge ∈ edges, edge < 256 ^ 8)
    (here : entries[i]? = some entry) (wanted : Subblock.isFor node direction entry)
    (shrinks : edges.length ≤ entry.edges.length) :
    ∃ mem', rewriteSubblockEdges page mem node direction edges = .ok mem' ∧
      Holds mem' (entries.set i ⟨node, some direction, entry.offset, edges⟩) ∧
      Laid (entries.set i ⟨node, some direction, entry.offset, edges⟩) := by
  have short := laid.short (mem_of_getElem? here)
  have found := firstFor_of_unique laid here wanted
  have fewer : ¬(dirEntry entry).edgeCount < edges.length := Nat.not_lt.mpr shrinks
  have ok : rewriteSubblockEdges page mem node direction edges =
      .ok (writeDirEntry (splice mem entry.offset (wordBytes edges)) i node direction
        entry.offset edges.length) := by
    rw [rewriteSubblockEdges, findLiveEntry_eq holds laid, found]
    simp only [bind, Except.bind, Option.map_some]
    rw [if_neg (by omega), if_neg fewer]
    rfl
  obtain ⟨j, other, there, wanted', holds', laid'⟩ :=
    rewriteSubblockEdges_set holds laid nodeFits fit ok
  have index := laid.unique j i other entry node direction there here wanted' wanted
  subst index
  rw [here] at there
  cases there
  exact ⟨_, ok, holds', laid'⟩

theorem appendSubblockEdges_iff {added : List Nat} (holds : Holds mem entries) (laid : Laid entries)
    (here : entries[i]? = some entry) (wanted : Subblock.isFor node direction entry) :
    (∃ mem', appendSubblockEdges page mem node direction added = .ok (some mem')) ↔
      entry.offset = lowWater pagePayloadSize entries ∧
        directoryAreaEnd entries.length + added.length * adjEdgeSize ≤ entry.offset := by
  constructor
  · intro ⟨mem', ok⟩
    obtain ⟨j, offset, other, there, wanted', lowest, _, low, above, _⟩ :=
      appendSubblockEdges_ok holds laid ok
    have index := laid.unique j i other entry node direction there here wanted' wanted
    subst index
    rw [here] at there
    cases there
    exact ⟨lowest, by omega⟩
  · intro ⟨lowest, room⟩
    have short := laid.short (mem_of_getElem? here)
    have inside : entry.offset + entry.edges.length * adjEdgeSize ≤ pagePayloadSize :=
      laid.inside entry (mem_of_getElem? here)
    have found := firstFor_of_unique laid here wanted
    have size : pagePayloadSize = 4080 := rfl
    have bytes : added.length * adjEdgeSize = added.length * 8 := rfl
    have area : directoryAreaEnd entries.length = 2 + entries.length * adjDirEntrySize := rfl
    have last : ¬entry.offset ≠
        pagePayloadSize - (pagePayloadSize - lowWater pagePayloadSize entries) := by omega
    rw [appendSubblockEdges, findLiveEntry_eq holds laid, found]
    simp only [bind, Except.bind, Option.map_some, dirEntry, subblocksBytesUsed_eq holds laid,
      slabFreeSpace_eq holds laid, readDirTotalCount_eq holds laid]
    rw [if_neg last, if_neg (by omega), if_neg (by omega), if_neg (by omega), if_neg (by omega),
      if_neg (by omega), if_neg (by omega)]
    exact ⟨_, rfl⟩

/-- A page, and where it holds the sub-block of a node and direction. -/
structure Sits (mem : Memory) (entries : List Subblock) (node : Nat) (direction : AdjDirection)
    (i : Nat) (entry : Subblock) : Prop where
  holds : Holds mem entries
  laid : Laid entries
  here : entries[i]? = some entry
  wanted : Subblock.isFor node direction entry

theorem Sits.live (sits : Sits mem entries node direction i entry) : entry.direction.isSome := by
  rw [isLive_of_isFor sits.wanted]
  rfl

theorem Sits.isLast_iff (sits : Sits mem entries node direction i entry) :
    IsLast page mem node direction ↔ entry.offset = lowWater pagePayloadSize entries := by
  have found : findLiveEntry page mem node direction = .ok (some (i, dirEntry entry)) := by
    rw [findLiveEntry_eq sits.holds sits.laid, firstFor_of_unique sits.laid sits.here sits.wanted]
    rfl
  have used : subblocksBytesUsed page mem = _ := subblocksBytesUsed_eq sits.holds sits.laid
  have low := (lowWater_le pagePayloadSize entries).1
  constructor
  · intro ⟨j, other, used', found', usedIs, last⟩
    rw [found] at found'
    rw [used] at usedIs
    cases found'
    cases usedIs
    simp only [dirEntry] at last
    omega
  · intro lowest
    refine ⟨_, _, _, found, used, ?_⟩
    simp only [dirEntry]
    omega

def shrunken (entry : Subblock) (node : Nat) (direction : AdjDirection) (kept : List Nat) :
    Subblock := ⟨node, some direction, entry.offset, kept⟩

section

variable (sits : Sits mem entries node direction i entry)
include sits

theorem Sits.shrink (nodeFits : node < 256 ^ 8)
    {kept : List Nat} (fit : ∀ edge ∈ kept, edge < 256 ^ 8)
    (shrinks : kept.length ≤ entry.edges.length) :
    ∃ mem', rewriteSubblockEdges page mem node direction kept = .ok mem' ∧
      Sits mem' (entries.set i (shrunken entry node direction kept)) node direction i
        (shrunken entry node direction kept) ∧
      lowWater pagePayloadSize (entries.set i (shrunken entry node direction kept)) =
        lowWater pagePayloadSize entries := by
  obtain ⟨mem', ok, holds', laid'⟩ := rewriteSubblockEdges_shrinks sits.holds sits.laid nodeFits fit
    sits.here sits.wanted shrinks
  refine ⟨mem', ok, ⟨holds', laid', ?_, by simp [shrunken, Subblock.isFor]⟩,
    lowWater_set sits.here sits.live rfl rfl⟩
  exact List.getElem?_set_self (List.getElem?_eq_some_iff.mp sits.here).1

/-- A cycle goes through exactly if the sub-block is the last one and the added edges have room
below it. -/
theorem Sits.regrow_iff (nodeFits : node < 256 ^ 8)
    (fit : ∀ edge ∈ cycle.kept, edge < 256 ^ 8) (shrinks : cycle.kept.length ≤ entry.edges.length) :
    (∃ mem', regrow page mem node direction cycle = .ok (some mem')) ↔
      entry.offset = lowWater pagePayloadSize entries ∧
        directoryAreaEnd entries.length + cycle.added.length * adjEdgeSize ≤ entry.offset := by
  obtain ⟨shrunk, ok, sits', low⟩ := sits.shrink nodeFits fit shrinks
  have grown : (∃ mem', appendSubblockEdges page shrunk node direction cycle.added =
      .ok (some mem')) ↔ _ :=
    appendSubblockEdges_iff sits'.holds sits'.laid sits'.here sits'.wanted
  rw [low, length_set] at grown
  rw [regrow, ok]
  exact grown

/-- After a cycle the sub-block is still the last one, and it starts as many bytes lower as the
added edges take. -/
theorem Sits.regrow_sits
    (nodeFits : node < 256 ^ 8) (fit : ∀ edge ∈ cycle.kept ++ cycle.added, edge < 256 ^ 8)
    (shrinks : cycle.kept.length ≤ entry.edges.length)
    (ok : regrow page mem node direction cycle = .ok (some mem')) :
    ∃ entries' entry', Sits mem' entries' node direction i entry' ∧
      entries'.length = entries.length ∧ entry'.edges = cycle.kept ++ cycle.added ∧
      entry'.offset = lowWater pagePayloadSize entries' ∧
      entry'.offset + cycle.added.length * adjEdgeSize = lowWater pagePayloadSize entries := by
  have fitKept := fun edge member => fit edge (mem_append_left _ member)
  have fitAdded := fun edge member => fit edge (mem_append_right _ member)
  obtain ⟨shrunk, shrinkOk, sits', kept⟩ := sits.shrink nodeFits fitKept shrinks
  rw [regrow, shrinkOk] at ok
  obtain ⟨j, offset, other, there, wanted', lowest, low, holds'', laid''⟩ :=
    appendSubblockEdges_set sits'.holds sits'.laid nodeFits fitAdded ok
  have index := sits'.laid.unique j i other _ node direction there sits'.here wanted' sits'.wanted
  subst index
  rw [sits'.here] at there
  cases there
  rw [kept] at lowest
  have below := (lowWater_le pagePayloadSize entries).1
  have at_ := List.getElem?_set_self (List.getElem?_eq_some_iff.mp sits'.here).1 (a :=
    (⟨node, some direction, offset, cycle.kept ++ cycle.added⟩ : Subblock))
  refine ⟨_, _, ⟨holds'', laid'', at_, by simp [Subblock.isFor]⟩, ?_, rfl, ?_, low.trans lowest⟩
  · rw [length_set, length_set]
  · -- The others lie at or above where the sub-block was before.
    refine (lowWater_eq_of_least (mem_of_getElem? at_) rfl ?_ (by show offset ≤ _; omega)).symm
    intro third member isLive
    rcases mem_or_eq_of_mem_set member with before | rfl
    · have higher := (lowWater_le pagePayloadSize _).2 third before isLive
      rw [kept] at higher
      show offset ≤ third.offset
      omega
    · exact Nat.le_refl _

end

def addedCount (cycles : List Cycle) : Nat := (cycles.map fun cycle => cycle.added.length).sum

theorem addedCount_eq_zero_iff : addedCount cycles = 0 ↔ ∀ cycle ∈ cycles, cycle.added = [] := by
  induction cycles with
  | nil => simp [addedCount]
  | cons cycle rest ih =>
    have total : addedCount (cycle :: rest) = cycle.added.length + addedCount rest := rfl
    rw [total, Nat.add_eq_zero_iff, ih, length_eq_zero_iff, forall_mem_cons]

theorem Sits.regrowAll_sits {size : Nat} (sits : Sits mem entries node direction i entry)
    (nodeFits : node < 256 ^ 8) (within : Within size entry.edges.length cycles)
    (ok : regrowAll page node direction mem cycles = .ok (some mem')) :
    ∃ entries' entry', Sits mem' entries' node direction i entry' ∧
      entries'.length = entries.length ∧
      lowWater pagePayloadSize entries' + addedCount cycles * adjEdgeSize =
        lowWater pagePayloadSize entries := by
  induction cycles generalizing mem entries entry with
  | nil =>
    cases ok
    exact ⟨entries, entry, sits, rfl, rfl⟩
  | cons cycle rest ih =>
    obtain ⟨shrinks, _, fit, later⟩ := within
    obtain ⟨done, first, ok⟩ := ok_of_bind ok
    cases done with
    | none => cases ok
    | some next =>
      obtain ⟨entries₁, entry₁, sits₁, length₁, edges₁, low₁, moved⟩ :=
        sits.regrow_sits nodeFits fit shrinks first
      rw [← length_append, ← edges₁] at later
      obtain ⟨entries₂, entry₂, sits₂, length₂, lower⟩ := ih sits₁ later ok
      refine ⟨entries₂, entry₂, sits₂, length₂.trans length₁, ?_⟩
      have total : addedCount (cycle :: rest) = cycle.added.length + addedCount rest := rfl
      rw [total, Nat.add_mul]
      omega

theorem Sits.regrowAll_still {size : Nat} (sits : Sits mem entries node direction i entry)
    (nodeFits : node < 256 ^ 8) (within : Within size entry.edges.length cycles)
    (last : entry.offset = lowWater pagePayloadSize entries)
    (still : ∀ cycle ∈ cycles, cycle.added = []) :
    ∃ mem', regrowAll page node direction mem cycles = .ok (some mem') := by
  induction cycles generalizing mem entries entry with
  | nil => exact ⟨mem, rfl⟩
  | cons cycle rest ih =>
    obtain ⟨shrinks, _, fit, later⟩ := within
    have nothing : cycle.added.length = 0 := by
      rw [still cycle mem_cons_self]
      rfl
    have above := sits.laid.above entry (mem_of_getElem? sits.here) sits.live
    have room : directoryAreaEnd entries.length + cycle.added.length * adjEdgeSize ≤
        entry.offset := by
      rw [nothing, Nat.zero_mul]
      exact above
    have fitKept := fun edge member => fit edge (mem_append_left _ member)
    obtain ⟨next, first⟩ : ∃ next, regrow page mem node direction cycle = .ok (some next) :=
      (sits.regrow_iff nodeFits fitKept shrinks).mpr ⟨last, room⟩
    obtain ⟨entries₁, entry₁, sits₁, _, edges₁, low₁, _⟩ :=
      sits.regrow_sits nodeFits fit shrinks first
    rw [← length_append, ← edges₁] at later
    obtain ⟨mem', rest_⟩ := ih sits₁ later low₁
      fun cycle member => still cycle (.tail _ member)
    refine ⟨mem', ?_⟩
    simp only [regrowAll, first, bind, Except.bind]
    exact rest_

theorem Shows.sits {old : List Nat} (shows_ : Shows mem lists)
    (listed : lists node direction = some old) :
    ∃ entries i entry, Sits mem entries node direction i entry ∧ entry.edges = old := by
  obtain ⟨entries, holds, laid, rfl⟩ := shows_
  obtain ⟨found, first, edges⟩ := Option.map_eq_some_iff.mp listed
  obtain ⟨_, here, wanted⟩ := firstFor_some first
  exact ⟨entries, found.1, found.2, ⟨holds, laid, here, wanted⟩, edges⟩

end Regrowing

/-- A shrunk list grows in place exactly if its sub-block is the last one and the page has room
for the added edges beside the vacated ones. Cycles leave the free space as it was exactly if the
sub-block is the last one and they add nothing back. -/
theorem regrown_room {page : PageId} {past : List Tracked} {tracked : Tracked}
    (run : Run (fun _ _ call => Call.Typed call) (step page) blank past tracked)
    {node : Nat} {direction : AdjDirection} {old : List Nat} (nodeFits : node < 256 ^ 8)
    (listed : tracked.lists node direction = some old) :
    (∀ cycle, Within old.length old.length [cycle] →
      ((∃ mem, regrow page tracked.mem node direction cycle = .ok (some mem)) ↔
        IsLast page tracked.mem node direction ∧ ∃ free, slabFreeSpace page tracked.mem = .ok free ∧
          adjDirCountSize + cycle.added.length * adjEdgeSize ≤ free)) ∧
    ∀ cycles, cycles ≠ [] → Within old.length old.length cycles →
      ((∃ mem free, regrowAll page node direction tracked.mem cycles = .ok (some mem) ∧
          slabFreeSpace page tracked.mem = .ok free ∧ slabFreeSpace page mem = .ok free) ↔
        IsLast page tracked.mem node direction ∧ ∀ cycle ∈ cycles, cycle.added = []) := by
  obtain ⟨entries, i, entry, sits, rfl⟩ := (shows_of_run run).sits listed
  have before : slabFreeSpace page tracked.mem = _ := slabFreeSpace_eq sits.holds sits.laid
  have area : directoryAreaEnd entries.length =
      adjDirCountSize + entries.length * adjDirEntrySize := rfl
  have above := sits.laid.lowWater_above
  constructor
  · intro cycle ⟨shrinks, _, fit, _⟩
    have fitKept := fun edge member => fit edge (mem_append_left _ member)
    rw [sits.regrow_iff nodeFits fitKept shrinks, sits.isLast_iff, before]
    refine and_congr_right fun last => ?_
    constructor
    · intro room
      exact ⟨_, rfl, by omega⟩
    · intro ⟨free, same, room⟩
      cases same
      omega
  · intro cycles some_ within
    rw [sits.isLast_iff]
    constructor
    · intro ⟨mem, free, ok, free₁, free₂⟩
      obtain ⟨entries', entry', sits', length, lower⟩ := sits.regrowAll_sits nodeFits within ok
      have above' := sits'.laid.lowWater_above
      rw [slabFreeSpace_eq sits'.holds sits'.laid] at free₂
      rw [before, ← free₂, length] at free₁
      rw [length] at above'
      have same := Except.ok.inj free₁
      have nothing : addedCount cycles * adjEdgeSize = 0 := by omega
      refine ⟨?_, addedCount_eq_zero_iff.mp 
        ((Nat.mul_eq_zero.mp nothing).resolve_right (by decide))⟩
      cases cycles with
      | nil => exact absurd rfl some_
      | cons cycle rest =>
        obtain ⟨shrinks, _, fit, _⟩ := within
        obtain ⟨done, first, ok⟩ := ok_of_bind ok
        cases done with
        | none => cases ok
        | some next =>
          exact ((sits.regrow_iff nodeFits
            (fun edge member => fit edge (mem_append_left _ member)) shrinks).mp
            ⟨next, first⟩).1
    · intro ⟨last, still⟩
      obtain ⟨mem, ok⟩ := sits.regrowAll_still nodeFits within last still
      obtain ⟨entries', entry', sits', length, lower⟩ := sits.regrowAll_sits nodeFits within ok
      rw [addedCount_eq_zero_iff.mpr still, Nat.zero_mul, Nat.add_zero] at lower
      refine ⟨mem, _, ok, before, ?_⟩
      rw [slabFreeSpace_eq sits'.holds sits'.laid, length, lower]


/-- A page with one list of two edges, and the page with another list below it. -/
def oneList : Tracked := blank.step 0 (.write 7 .outgoing [1, 2])

def twoLists : Tracked := oneList.step 0 (.write 8 .outgoing [3])

theorem oneList_run :
    Run (fun _ _ call => Call.Typed call) (step 0) blank [oneList, blank]
      oneList :=
  Run.step (Call.write 7 .outgoing [1, 2]) Run.start (by unfold Call.Typed; decide)

theorem twoLists_run :
    Run (fun _ _ call => Call.Typed call) (step 0) blank
      [twoLists, oneList, blank] twoLists :=
  Run.step (Call.write 8 .outgoing [3]) oneList_run (by unfold Call.Typed; decide)

/-- With another list below it, a list that shrank by one edge cannot grow by one; and where it
can, the page has eight bytes less than before. -/
theorem shrunk_room_lost :
    (∃ past, Run (fun _ _ call => Call.Typed call) (step 0) blank past twoLists) ∧
      twoLists.lists 7 .outgoing = some [1, 2] ∧
      (¬∃ mem, regrow 0 twoLists.mem 7 .outgoing ⟨[1], [2]⟩ = .ok (some mem)) ∧
      ¬∃ mem free, regrowAll 0 7 .outgoing oneList.mem [⟨[1], [2]⟩] = .ok (some mem) ∧
        slabFreeSpace 0 oneList.mem = .ok free ∧ slabFreeSpace 0 mem = .ok free := by
  refine ⟨⟨_, twoLists_run⟩, rfl, ?_, ?_⟩
  · intro ⟨mem, ok⟩
    have refused : regrow 0 twoLists.mem 7 .outgoing ⟨[1], [2]⟩ = .ok none := rfl
    rw [refused] at ok
    cases ok
  · intro ⟨mem, free, ok, before, after⟩
    have was : slabFreeSpace 0 oneList.mem = .ok 4050 := rfl
    have is_ : (regrowAll 0 7 .outgoing oneList.mem [⟨[1], [2]⟩]).map
        (Option.map (slabFreeSpace 0)) = .ok (some (.ok 4042)) := rfl
    rw [ok] at is_
    have now := Option.some.inj (Except.ok.inj is_)
    rw [now] at after
    rw [was] at before
    cases before
    cases after

theorem oneList_last : IsLast 0 oneList.mem 7 .outgoing := ⟨0, ⟨7, 4064, 2⟩, 16, rfl, rfl, rfl⟩

/-- A list that only shrinks costs no room, and one that grows again finds some. -/
theorem oneList_regrown :
    (∃ mem, regrow 0 oneList.mem 7 .outgoing ⟨[1], [2]⟩ = .ok (some mem)) ∧
      ∃ mem free, regrowAll 0 7 .outgoing oneList.mem [⟨[1], []⟩] = .ok (some mem) ∧
        slabFreeSpace 0 oneList.mem = .ok free ∧ slabFreeSpace 0 mem = .ok free := by
  have listed : oneList.lists 7 .outgoing = some [1, 2] := rfl
  obtain ⟨one, many⟩ := regrown_room oneList_run (by decide) listed
  constructor
  · refine (one ⟨[1], [2]⟩ ⟨by decide, by decide, by decide, trivial⟩).mpr ⟨oneList_last, ?_⟩
    exact ⟨4050, rfl, by decide⟩
  · refine (many [⟨[1], []⟩] (cons_ne_nil _ _)
      ⟨by decide, by decide, by decide, trivial⟩).mpr ⟨oneList_last, ?_⟩
    intro cycle member
    rw [mem_singleton.mp member]

end ErmyaGraph.AdjSlabCodec
