import Mathlib.Data.List.Perm.Subperm
import ErmyaGraph.Codec.AdjChain
import ErmyaGraph.Storage.Lists

/-! # Appending to the bytes of a chain

What a first page and a continuation page hold is a statement about a few ranges
of their bytes. A chain is well formed when its pages fit together; appending to
one keeps it so, and leaves every other page of the file alone. -/

namespace ErmyaGraph.AdjChainCodec

open Bytes Outcome List Function

variable {mem : Memory} {start stop : Nat} {present : List Nat} {data' : RawPage}

open Store

/-- A continuation page: its edges, and the page that follows. -/
structure Cont (data : RawPage) (edges : List Nat) (next : Nat) : Prop where
  next : readLe data.payload 0 4 = next
  edges : readWords data.payload contHeaderSize edges.length = edges

/-- A first page: the header of its record, and its own edges. -/
structure First (data : RawPage) (owner : Nat) (side : AdjDirection) (total : Nat)
    (edges : List Nat) : Prop where
  pageType : data.pageType = pageTypeAdjacency
  owner : readLe data.payload 0 8 = owner
  side : data.payload 8 = directionByte side
  total : readLe data.payload 9 4 = total
  edges : readWords data.payload recordHeaderSize edges.length = edges

abbrev Words (edges : List Nat) : Prop := ∀ edge ∈ edges, edge < 256 ^ 8

theorem words_readWords (mem : Memory) (start count : Nat) : Words (readWords mem start count) := by
  intro word member
  obtain ⟨i, _, rfl⟩ := mem_map.mp member
  exact readLe_lt mem _ 8

theorem words_append {front back : List Nat} (words : Words front) (words' : Words back) :
    Words (front ++ back) := by
  intro edge member
  rcases mem_append.mp member with old | new
  · exact words edge old
  · exact words' edge new

variable {data : RawPage} {edges : List Nat} {next : Nat}

theorem Cont.words (content : Cont data edges next) : Words edges := by
  rw [← content.edges]
  exact words_readWords _ _ _

variable {owner total : Nat} {side : AdjDirection}

theorem First.words (first : First data owner side total edges) : Words edges := by
  rw [← first.edges]
  exact words_readWords _ _ _

variable {added : List Nat}

theorem readWords_behind {mem' : Memory} (words : Words added)
    (stored : readWords mem start present.length = present)
    (same : ∀ i, start ≤ i → i < start + 8 * present.length → mem' i = mem i) :
    readWords (splice mem' (start + present.length * adjEdgeSize) (wordBytes added)) start
      (present ++ added).length = present ++ added := by
  have size : present.length * adjEdgeSize = 8 * present.length := Nat.mul_comm _ _
  have old : readWords (splice mem' (start + 8 * present.length) (wordBytes added)) start
      present.length = readWords mem start present.length := by
    apply readWords_congr
    intro i above below
    rw [splice_outside (.inl below), same i above below]
  have new : readWords (splice mem' (start + 8 * present.length) (wordBytes added))
      (start + 8 * present.length) added.length = added := readWords_splice _ _ words
  rw [size, length_append, readWords_add, old, stored, new]

theorem cont_write (words : Words added) (named : next ≤ noNext)
    (stored : readWords mem contHeaderSize present.length = present)
    (written : data.payload = splice (writeLe mem 0 4 next)
      (contHeaderSize + present.length * adjEdgeSize) (wordBytes added)) :
    Cont data (present ++ added) next := by
  have header : contHeaderSize = 4 := rfl
  have bound : noNext < 256 ^ 4 := by decide
  constructor
  · have kept : readLe data.payload 0 4 = readLe (writeLe mem 0 4 next) 0 4 := by
      apply readLe_congr
      intro i _ below
      rw [written]
      exact splice_outside (.inl (by omega))
    rw [kept, readLe_writeLe mem 0 (lt_of_le_of_lt named bound)]
  · rw [written]
    apply readWords_behind words stored
    intro i above _
    exact writeLe_outside (.inr (by omega))

theorem cont_fresh (words : Words edges) (named : next ≤ noNext)
    (written : data.payload = splice (writeLe mem 0 4 next) contHeaderSize (wordBytes edges)) :
    Cont data edges next := by
  have whole : Cont data ([] ++ edges) next := cont_write words named rfl written
  exact whole

theorem First.rewrite {old : Nat} {edges' : List Nat} (first : First data owner side old edges)
    (pageType : data'.pageType = pageTypeAdjacency)
    (front : ∀ i < 9, data'.payload i = data.payload i) (count : readLe data'.payload 9 4 = total)
    (words : readWords data'.payload recordHeaderSize edges'.length = edges') :
    First data' owner side total edges' := by
  have same : readLe data'.payload 0 8 = readLe data.payload 0 8 :=
    readLe_congr fun i _ below => front i (by omega)
  exact ⟨pageType, same.trans first.owner, (front 8 (by omega)).trans first.side, count, words⟩

/-- A first page written from its header and its edges. -/
theorem first_write (side : AdjDirection) (fits : owner < 256 ^ 8) (counted : total < 256 ^ 4)
    (words : Words edges) (pageType : data.pageType = pageTypeAdjacency)
    (front : ∀ i < recordHeaderSize + 8 * edges.length, data.payload i =
      splice (fun _ => 0) 0 (recordHeader owner side total ++ wordBytes edges) i) :
    First data owner side total edges := by
  let empty : Memory := fun _ => 0
  have header : recordHeaderSize = 16 := rfl
  have parts : splice empty 0 (recordHeader owner side total ++ wordBytes edges) =
      splice (splice (splice (splice empty 0 (leBytes 8 owner)) 8 [directionByte side]) 9
        (leBytes 4 total)) 13 ([0, 0, 0] ++ wordBytes edges) := by
    have bytes : recordHeader owner side total ++ wordBytes edges = leBytes 8 owner ++
        ([directionByte side] ++ (leBytes 4 total ++ ([0, 0, 0] ++ wordBytes edges))) := by
      simp [recordHeader]
    rw [bytes, splice_append, splice_append, splice_append, length_leBytes, length_leBytes]
    rfl
  have body : splice empty 0 (recordHeader owner side total ++ wordBytes edges) =
      splice (splice empty 0 (recordHeader owner side total)) 16 (wordBytes edges) := by
    rw [splice_append]
    simp [recordHeader]
  constructor
  · exact pageType
  · have same : readLe data.payload 0 8 = readLe (writeLe empty 0 8 owner) 0 8 := by
      apply readLe_congr
      intro i _ below
      rw [front i (by omega), parts, splice_outside (.inl (by omega)),
        splice_outside (.inl (by omega)), splice_outside (.inl (by omega))]
      rfl
    rw [same, readLe_writeLe empty 0 fits]
  · rw [front 8 (by omega), parts, splice_outside (.inl (by omega)),
      splice_outside (.inl (by omega)), splice_inside le_rfl (by simp)]
    rfl
  · have same : readLe data.payload 9 4 = readLe (writeLe
        (splice (splice empty 0 (leBytes 8 owner)) 8 [directionByte side]) 9 4 total) 9 4 := by
      apply readLe_congr
      intro i _ below
      rw [front i (by omega), parts, splice_outside (.inl (by omega))]
      rfl
    rw [same, readLe_writeLe _ 9 counted]
  · have same : readWords data.payload recordHeaderSize edges.length =
        readWords (splice (splice empty 0 (recordHeader owner side total)) 16 (wordBytes edges)) 16
          edges.length := by
      apply readWords_congr
      intro i _ below
      rw [front i below, ← body]
    rw [same, readWords_splice _ _ words]

/-- The edges on the continuation pages from a page on; every page but the last is full. -/
inductive ContPages (file : PageFile RawPage) : Nat → List Nat → List Nat → Prop
  | last {page : Nat} {edges : List Nat} (bounded : page < file.count)
      (content : Cont (file.page page) edges noNext) (nonempty : edges ≠ [])
      (fits : edges.length ≤ maxEdgesContPage) : ContPages file page [page] edges
  | more {page next : Nat} {pages edges rest : List Nat} (bounded : page < file.count)
      (content : Cont (file.page page) edges next) (named : next < noNext)
      (full : edges.length = maxEdgesContPage) (tail : ContPages file next pages rest) :
      ContPages file page (page :: pages) (edges ++ rest)

/-- The pages and the edges of a list of its own. A list that fits one page lies on its first
page alone; the current format records the last page on the first. -/
inductive Chain (file : PageFile RawPage) (head owner : Nat) (side : AdjDirection) :
    List Nat → List Nat → Prop
  | single {edges : List Nat} (bounded : head < file.count)
      (content : First (file.page head) owner side edges.length edges)
      (fits : edges.length ≤ maxEdgesSinglePage) : Chain file head owner side [head] edges
  | multi {edges rest pages : List Nat} {next last : Nat} (bounded : head < file.count)
      (content : First (file.page head) owner side (edges ++ rest).length edges)
      (full : edges.length = maxEdgesChainedPage)
      (exceeds : maxEdgesSinglePage < (edges ++ rest).length)
      (link : readLe (file.page head).payload nextPageOffset 4 = next) (named : next < noNext)
      (tail : ContPages file next pages rest) (ends : pages.getLast? = some last)
      (recorded : adjFormatV2 ≤ (file.page head).version →
        readLe (file.page head).payload lastPageIdTailOffset 4 = last)
      (nodup : (head :: pages).Nodup) : Chain file head owner side (head :: pages) (edges ++ rest)

/-- A chain whose format an append can extend: the current one, or a single page. -/
def Current (file : PageFile RawPage) (head : Nat) (ids : List Nat) : Prop :=
  maxEdgesSinglePage < ids.length → adjFormatV2 ≤ (file.page head).version

section Reading

variable {file file' : PageFile RawPage} {head page : Nat} {pages ids : List Nat}

theorem ContPages.congr (chain : ContPages file page pages ids) (grown : file.count ≤ file'.count)
    (same : ∀ other ∈ pages, file'.page other = file.page other) :
    ContPages file' page pages ids := by
  induction chain with
  | last bounded content nonempty fits =>
    have here := same _ mem_cons_self
    exact .last (bounded.trans_le grown) (here ▸ content) nonempty fits
  | more bounded content named full tail ih =>
    have here := same _ mem_cons_self
    exact .more (bounded.trans_le grown) (here ▸ content) named full
      (ih fun other member => same other (.tail _ member))

theorem ContPages.bounded (chain : ContPages file page pages ids) :
    ∀ other ∈ pages, other < file.count := by
  induction chain with
  | last bounded _ _ _ => simpa using bounded
  | more bounded _ _ _ _ ih => simpa using ⟨bounded, ih⟩

theorem ContPages.words (chain : ContPages file page pages ids) : Words ids := by
  induction chain with
  | last _ content _ _ => exact content.words
  | more _ content _ _ _ ih => exact words_append content.words ih

theorem ContPages.named (chain : ContPages file page pages ids) (named : page < noNext) :
    ∀ other ∈ pages, other < noNext := by
  induction chain with
  | last _ _ _ _ => simpa using named
  | more _ _ following _ _ ih => simpa using ⟨named, ih following⟩

theorem ContPages.head_mem (chain : ContPages file page pages ids) : page ∈ pages := by
  cases chain with
  | last _ _ _ _ => simp
  | more _ _ _ _ _ => simp

theorem ContPages.getLast (chain : ContPages file page pages ids) (other : Nat) :
    pages.getLast? = some (pages.getLast?.getD other) := by
  cases chain with
  | last _ _ _ _ => rfl
  | more _ _ _ _ _ => rw [List.getLast?_cons, Option.getD_some]

theorem Chain.congr (chain : Chain file head owner side pages ids)
    (grown : file.count ≤ file'.count)
    (same : ∀ other ∈ pages, file'.page other = file.page other) :
    Chain file' head owner side pages ids := by
  cases chain with
  | single bounded content fits =>
    have here := same head mem_cons_self
    exact .single (bounded.trans_le grown) (here ▸ content) fits
  | multi bounded content full exceeds link named tail ends recorded nodup =>
    have here := same head mem_cons_self
    have later := tail.congr grown fun other member => same other (.tail _ member)
    exact .multi (bounded.trans_le grown) (here ▸ content) full exceeds (here ▸ link) named later
      ends (here ▸ recorded) nodup

theorem Chain.head_mem (chain : Chain file head owner side pages ids) : head ∈ pages := by
  cases chain with
  | single _ _ _ => simp
  | multi _ _ _ _ _ _ _ _ _ _ => simp

theorem Chain.words (chain : Chain file head owner side pages ids) : Words ids := by
  cases chain with
  | single _ content _ => exact content.words
  | multi _ content _ _ _ _ tail _ _ _ => exact words_append content.words tail.words

theorem Chain.owner_lt (chain : Chain file head owner side pages ids) : owner < 256 ^ 8 := by
  cases chain with
  | single _ content _ => exact content.owner ▸ readLe_lt _ 0 8
  | multi _ content _ _ _ _ _ _ _ _ => exact content.owner ▸ readLe_lt _ 0 8

theorem Chain.bounded (chain : Chain file head owner side pages ids) :
    ∀ other ∈ pages, other < file.count := by
  cases chain with
  | single bounded _ _ => simpa using bounded
  | multi bounded _ _ _ _ _ tail _ _ _ => simpa using ⟨bounded, tail.bounded⟩

variable {backend : Backend}

theorem readPage_of_lt (bounded : page < backend.file.count) :
    readPage backend page = .ok (backend.file.page page) := by
  rw [readPage, if_pos bounded]

/-- The last continuation page, and how the pages before it go on when it is extended. -/
structure LastPage (file : PageFile RawPage) (page : Nat) (pages ids front : List Nat) (last : Nat)
    (whole edges : List Nat) : Prop where
  allPages : pages = front ++ [last]
  allIds : ids = whole ++ edges
  bounded : last < file.count
  content : Cont (file.page last) edges noNext
  nonempty : edges ≠ []
  fits : edges.length ≤ maxEdgesContPage
  full : whole.length = maxEdgesContPage * front.length
  extend : ∀ file' : PageFile RawPage, file.count ≤ file'.count →
    (∀ other ∈ front, file'.page other = file.page other) → ∀ more later,
      ContPages file' last more later → ContPages file' page (front ++ more) (whole ++ later)

theorem ContPages.lastPage (chain : ContPages file page pages ids) :
    ∃ front last whole edges, LastPage file page pages ids front last whole edges := by
  induction chain with
  | @last page edges bounded content nonempty fits =>
    exact ⟨[], page, [], edges, rfl, rfl, bounded, content, nonempty, fits, rfl,
      fun _ _ _ _ _ chain => chain⟩
  | @more page next pages edges rest bounded content named full tail ih =>
    obtain ⟨front, last, whole, tailEdges, found⟩ := ih
    have length : (edges ++ whole).length = maxEdgesContPage * (page :: front).length := by
      rw [length_append, full, found.full, length_cons, Nat.mul_add, Nat.mul_one, Nat.add_comm]
    exact ⟨page :: front, last, edges ++ whole, tailEdges,
      { allPages := by rw [found.allPages, cons_append]
        allIds := by rw [found.allIds, append_assoc]
        bounded := found.bounded
        content := found.content
        nonempty := found.nonempty
        fits := found.fits
        full := length
        extend := by
          intro file' grown same more later chain
          have here := same page mem_cons_self
          have rest := found.extend file' grown
            (fun other member => same other (.tail _ member)) more later chain
          rw [cons_append, append_assoc]
          exact .more (bounded.trans_le grown) (here ▸ content) named full rest }⟩

theorem ContPages.read (chain : ContPages backend.file page pages ids) (named : page < noNext)
    (total fuel : Nat) (read : List Nat) (length : (read ++ ids).length = total)
    (enough : ids.length ≤ fuel) :
    readContinuation backend total fuel page read = .ok (read ++ ids) := by
  have cap : maxEdgesContPage = 509 := rfl
  induction chain generalizing fuel read with
  | @last page edges bounded content nonempty fits =>
    have pos : 0 < edges.length := length_pos_iff.mpr nonempty
    obtain ⟨fuel, rfl⟩ : ∃ more, fuel = more + 1 := ⟨fuel - 1, by omega⟩
    rw [length_append] at length
    have unread : page ≠ noNext ∧ read.length < total := ⟨named.ne, by omega⟩
    have batch : min (total - read.length) maxEdgesContPage = edges.length := by omega
    rw [readContinuation, if_pos unread, readPage_of_lt bounded]
    simp only [bind, Except.bind, batch, content.edges, content.next]
    cases fuel with
    | zero => rfl
    | succ fuel => rw [readContinuation, if_neg (fun more => more.1 rfl)]
  | @more page next pages edges rest bounded content following full tail ih =>
    rw [length_append] at enough
    obtain ⟨fuel, rfl⟩ : ∃ more, fuel = more + 1 := ⟨fuel - 1, by omega⟩
    simp only [length_append] at length
    have unread : page ≠ noNext ∧ read.length < total := ⟨named.ne, by omega⟩
    have batch : min (total - read.length) maxEdgesContPage = edges.length := by omega
    rw [readContinuation, if_pos unread, readPage_of_lt bounded]
    simp only [bind, Except.bind, batch, content.edges, content.next]
    rw [ih following fuel (read ++ edges) (by simp only [length_append]; omega) (by omega),
      append_assoc]

theorem firstPageEdgesForVersion_eq (version : Nat) :
    firstPageEdgesForVersion version = maxEdgesChainedPage := by
  unfold firstPageEdgesForVersion
  split
  · rfl
  · rfl

theorem decodeDirection_directionByte (page : PageId) (side : AdjDirection) :
    decodeDirection page (directionByte side) = .ok side := by
  cases side with
  | outgoing => rfl
  | incoming => rfl

theorem Chain.read (chain : Chain backend.file head owner side pages ids) :
    readAdjacency backend head = .ok ⟨owner, side, ids⟩ := by
  cases chain with
  | single bounded content fits =>
    rw [readAdjacency, readPage_of_lt bounded]
    simp only [bind, Except.bind, ensureDedicatedChainPage, content.pageType, ↓reduceIte,
      content.side, decodeDirection_directionByte, content.total, fits, content.owner,
      content.edges, pure, Except.pure]
  | @multi edges rest pages next last bounded content full exceeds link named tail ends recorded
      nodup =>
      have whole := content.edges
      rw [full] at whole
      have later := tail.read named (edges ++ rest).length (edges ++ rest).length edges rfl
        (by rw [length_append]; omega)
      rw [readAdjacency, readPage_of_lt bounded]
      simp only [bind, Except.bind, ensureDedicatedChainPage, content.pageType, ↓reduceIte,
        content.side, decodeDirection_directionByte, content.total, Nat.not_le.mpr exceeds,
        content.owner, firstPageEdgesForVersion_eq, whole, link, later, pure, Except.pure]

/-- The walk over a legacy chain finds its last page and counts the edges before it. -/
theorem ContPages.walk (chain : ContPages backend.file page pages ids) (named : page < noNext)
    {front whole : List Nat} {last : Nat}
    (found : LastPage backend.file page pages ids front last whole edges)
    (fuel before accounted : Nat) (enough : pages.length < fuel) :
    walkToTail backend fuel page before accounted =
      .ok (last, accounted + maxEdgesContPage * front.length) := by
  have length : pages.length = front.length + 1 := by simp [found.allPages]
  have ends : pages.getLast? = some last := by simp [found.allPages]
  have counted : maxEdgesContPage * front.length = maxEdgesContPage * (pages.length - 1) := by
    rw [length, Nat.add_sub_cancel]
  rw [counted]
  clear found length counted
  induction chain generalizing fuel before accounted with
  | @last page edges bounded content nonempty fits =>
    obtain ⟨fuel, rfl⟩ : ∃ more, fuel = more + 2 := by
      refine ⟨fuel - 2, ?_⟩
      simp only [length_singleton] at enough
      omega
    obtain rfl : page = last := by simpa using ends
    rw [walkToTail, if_neg named.ne, readPage_of_lt bounded]
    simp only [bind, Except.bind, content.next, ↓reduceIte]
    rw [walkToTail, if_pos rfl]
    rfl
  | @more page next pages edges rest bounded content following full tail ih =>
    obtain ⟨fuel, rfl⟩ : ∃ more, fuel = more + 1 := ⟨fuel - 1, by omega⟩
    have nonempty : 0 < pages.length := length_pos_of_mem tail.head_mem
    have later : pages.getLast? = some last := by
      rw [List.getLast?_cons, tail.getLast page, Option.getD_some] at ends
      exact (tail.getLast page).trans ends
    rw [length_cons] at enough
    rw [walkToTail, if_neg named.ne, readPage_of_lt bounded]
    simp only [bind, Except.bind, content.next, following.ne, ↓reduceIte]
    rw [ih following fuel page (accounted + maxEdgesContPage) (by omega) later]
    have cap : maxEdgesContPage = 509 := rfl
    congr 2
    rw [length_cons, cap]
    omega

/-- The state read from the first page says where the chain ends and how full its last page
is. -/
theorem Chain.readState (chain : Chain backend.file head owner side pages ids) :
    readAdjChainState backend head = .ok (chainState head pages ids) := by
  cases chain with
  | single bounded content fits =>
    rw [readAdjChainState, readPage_of_lt bounded]
    simp only [bind, Except.bind, ensureDedicatedChainPage, content.pageType, ↓reduceIte,
      content.total, fits, pure, Except.pure, chainState, stateAfterAppend]
  | @multi edges rest pages next last bounded content full exceeds link named tail ends recorded
      nodup =>
      have ended : (head :: pages).getLast?.getD head = last := by
        rw [List.getLast?_cons, ends]
        rfl
      rw [readAdjChainState, readPage_of_lt bounded]
      simp only [bind, Except.bind, ensureDedicatedChainPage, content.pageType, ↓reduceIte,
        content.total, Nat.not_le.mpr exceeds, pure, Except.pure, chainState, ended]
      by_cases current : adjFormatV2 ≤ (backend.file.page head).version
      · simp only [current, ↓reduceIte, recorded current]
      · obtain ⟨front, last', whole, present, found⟩ := tail.lastPage
        obtain rfl : last' = last := by
          rw [found.allPages, List.getLast?_append] at ends
          simpa using ends
        have short : pages.length < backend.file.count + 1 := by
          have inside : pages ⊆ List.range backend.file.count :=
            fun page member => mem_range.mpr (tail.bounded page member)
          have size := (subperm_of_subset (nodup_cons.mp nodup).2 inside).length_le
          rw [length_range] at size
          omega
        have walked := tail.walk named found _ head maxEdgesChainedPage short
        have restLength : rest.length = maxEdgesContPage * front.length + present.length := by
          rw [found.allIds, length_append, found.full]
        have used : (edges ++ rest).length -
            (maxEdgesChainedPage + maxEdgesContPage * front.length) = present.length := by
          rw [length_append, full, restLength]
          omega
        have split : (edges ++ rest).length - maxEdgesChainedPage =
            maxEdgesContPage * front.length + present.length := by
          rw [length_append, full, Nat.add_sub_cancel_left, restLength]
        have state := stateAfterAppend_of_exceeds head last' exceeds
          (length_pos_iff.mpr found.nonempty) found.fits split
        simp only [current, ↓reduceIte, link, firstPageEdgesForVersion_eq, walked, used, state]

end Reading

/-- From some point on, the allocator hands out distinct pages, none of them in use. -/
structure Supplies (supply : Supply) (taken : Nat) (used : Nat → Prop) : Prop where
  distinct : ∀ i j page, taken ≤ i → taken ≤ j → supply i = .ok page → supply j = .ok page → i = j
  unused : ∀ i page, taken ≤ i → supply i = .ok page → ¬used page
  named : ∀ i page, taken ≤ i → supply i = .ok page → page < noNext

def Given (supply : Supply) (start stop page : Nat) : Prop :=
  ∃ i, start ≤ i ∧ i < stop ∧ supply i = .ok page

/-- The error is the allocator's, which had no page to hand out. -/
def Refused (supply : Supply) (error : Error) (after : Backend) : Prop :=
  supply after.taken = .error error

/-- Only the given pages and pages handed out meanwhile changed. -/
structure Moved (supply : Supply) (before after : Backend) (changed : List Nat) : Prop where
  taken : before.taken ≤ after.taken
  grown : before.file.count ≤ after.file.count
  kept : ∀ other, other ∉ changed → ¬Given supply before.taken after.taken other →
    after.file.page other = before.file.page other

section Allocation

variable {supply : Supply} {before between after : Backend} {used : Nat → Prop} {taken taken' : Nat}

theorem Supplies.later (supplies : Supplies supply taken used) (later : taken ≤ taken') :
    Supplies supply taken' used :=
  ⟨fun i j page above above' => supplies.distinct i j page (later.trans above) (later.trans above'),
    fun i page above => supplies.unused i page (later.trans above),
    fun i page above => supplies.named i page (later.trans above)⟩

variable {used' : Nat → Prop}

theorem Supplies.mono (supplies : Supplies supply taken used)
    (sub : ∀ page, used' page → used page) : Supplies supply taken used' :=
  ⟨supplies.distinct, fun i page above gives taken => supplies.unused i page above gives
    (sub page taken), supplies.named⟩

theorem Supplies.take (supplies : Supplies supply taken used) (later : taken ≤ taken')
    (sub : ∀ page, used' page → used page ∨ Given supply taken taken' page) :
    Supplies supply taken' used' := by
  refine ⟨(supplies.later later).distinct, ?_, (supplies.later later).named⟩
  intro i page above gives inUse
  rcases sub page inUse with old | ⟨j, start, stop, same⟩
  · exact supplies.unused i page (later.trans above) gives old
  · have equal := supplies.distinct j i page start (later.trans above) same gives
    omega

variable {page : Nat}

theorem Supplies.not_given (supplies : Supplies supply taken used) (above : taken ≤ start)
    (inUse : used page) : ¬Given supply start stop page := by
  rintro ⟨i, started, _, gives⟩
  exact supplies.unused i page (above.trans started) gives inUse

theorem Given.mono {start' stop' : Nat} (given : Given supply start stop page)
    (first : start' ≤ start) (last : stop ≤ stop') : Given supply start' stop' page := by
  obtain ⟨i, started, stopped, same⟩ := given
  exact ⟨i, first.trans started, stopped.trans_le last, same⟩

theorem Moved.trans {changed changed' : List Nat} (earlier : Moved supply before between changed)
    (later : Moved supply between after changed') :
    Moved supply before after (changed ++ changed') := by
  refine ⟨earlier.taken.trans later.taken, earlier.grown.trans later.grown, ?_⟩
  intro other outside fresh
  rw [mem_append, not_or] at outside
  have second := later.kept other outside.2 fun given => fresh (given.mono earlier.taken le_rfl)
  exact second.trans (earlier.kept other outside.1 fun given =>
    fresh (given.mono le_rfl later.taken))

theorem Moved.mono {changed more : List Nat} (moved : Moved supply before after changed)
    (sub : ∀ page ∈ changed, page ∈ more ∨ Given supply before.taken after.taken page) :
    Moved supply before after more := by
  refine ⟨moved.taken, moved.grown, fun other outside fresh => ?_⟩
  refine moved.kept other (fun member => ?_) fresh
  rcases sub other member with inside | given
  · exact outside inside
  · exact fresh given

theorem moved_write (backend : Backend) (page : Nat) (data : RawPage) :
    Moved supply backend { backend with file := backend.file.write page data } [page] := by
  refine ⟨le_rfl, le_rfl, fun other outside _ => ?_⟩
  exact update_of_ne (by simpa using outside) _ _

variable {backend : Backend}

theorem sat_writePage (data : RawPage) (bounded : page < backend.file.count) :
    Sat (writePage page data) backend
      (fun _ after => after = { backend with file := backend.file.write page data })
      (fun _ _ => False) := by
  unfold writePage
  rw [sat_bind, sat_get, if_neg (Nat.not_le.mpr bounded)]
  rfl

theorem sat_readPayload (bounded : page < backend.file.count) :
    Sat (readPayload page) backend
      (fun mem after => mem = (backend.file.page page).payload ∧ after = backend)
      (fun _ _ => False) := by
  unfold readPayload
  rw [sat_bind, sat_get, readPage_of_lt bounded]
  exact ⟨rfl, rfl⟩

/-- A page was taken from the allocator. -/
structure Took (supply : Supply) (before : Backend) (page : Nat) (after : Backend) : Prop where
  isNext : supply before.taken = .ok page
  taken : after.taken = before.taken + 1
  bounded : page < after.file.count
  moved : Moved supply before after []

theorem Took.given (took : Took supply before page after) (later : after.taken ≤ stop) :
    Given supply before.taken stop page := by
  refine ⟨before.taken, le_rfl, ?_, took.isNext⟩
  have next := took.taken
  omega

theorem Took.named (took : Took supply before taken after)
    (supplies : Supplies supply before.taken used) : taken < noNext :=
  supplies.named before.taken taken le_rfl took.isNext

theorem sat_allocatePage (supply : Supply) (backend : Backend) :
    Sat (allocatePage supply) backend (fun page after => Took supply backend page after)
      (Refused supply) := by
  unfold allocatePage
  rw [sat_bind, sat_get, sat_bind, sat_ofResult]
  refine ⟨fun page gives => ?_, fun error refuses => refuses⟩
  refine ⟨gives, rfl, ?_, Nat.le_succ _, le_max_left _ _, fun other _ fresh => ?_⟩
  · exact lt_of_lt_of_le (Nat.lt_succ_self _) (le_max_right _ _)
  · have ne : other ≠ page :=
      fun same => fresh ⟨backend.taken, le_rfl, Nat.lt_succ_self _, same ▸ gives⟩
    exact update_of_ne ne _ _

end Allocation

/-- Continuation pages were written from a page on. -/
structure Continues (supply : Supply) (before after : Backend) (page : Nat)
    (written edges : List Nat) : Prop where
  moved : Moved supply before after [page]
  chain : ContPages after.file page written edges
  nodup : written.Nodup
  fresh : ∀ other ∈ written, other = page ∨ Given supply before.taken after.taken other

section Continuing

variable {supply : Supply} {before linked after : Backend} {page : Nat} {rest others : List Nat}
theorem continues_last (bounded : page < before.file.count) (content : Cont data edges noNext)
    (nonempty : edges ≠ []) (fits : edges.length ≤ maxEdgesContPage) :
    Continues supply before { before with file := before.file.write page data } page [page]
      edges := by
  have here : Cont ((before.file.write page data).page page) edges noNext := by
    rw [show (before.file.write page data).page page = data from update_self _ _ _]
    exact content
  exact ⟨moved_write before page data, .last bounded here nonempty fits, nodup_singleton page,
    fun other member => .inl (mem_singleton.mp member)⟩

theorem Continues.cons (bounded : page < before.file.count)
    (supplies : Supplies supply before.taken (· = page)) (took : Took supply before next linked)
    (content : Cont data edges next) (full : edges.length = maxEdgesContPage)
    (continues : Continues supply { linked with file := linked.file.write page data } after next
      others rest) : Continues supply before after page (page :: others) (edges ++ rest) := by
  have start : before.taken ≤ linked.taken := took.moved.taken
  have ne : page ≠ next := by
    intro same
    exact supplies.unused before.taken next le_rfl took.isNext same.symm
  have unchanged : ¬Given supply linked.taken after.taken page := supplies.not_given start rfl
  have self : after.file.page page = data := by
    have kept := continues.moved.kept page (by simpa using ne) unchanged
    exact kept.trans (update_self _ _ _)
  have inFile : page < after.file.count :=
    (bounded.trans_le took.moved.grown).trans_le continues.moved.grown
  have steps := (took.moved.trans (moved_write linked page data)).trans continues.moved
  refine ⟨steps.mono fun other member => ?_, ?_, ?_, ?_⟩
  · simp only [nil_append, mem_append, mem_singleton] at member
    rcases member with same | rfl
    · exact .inl (by simpa using same)
    · exact .inr (took.given continues.moved.taken)
  · exact .more inFile (self ▸ content) (took.named supplies) full
      continues.chain
  · refine nodup_cons.mpr ⟨fun member => ?_, continues.nodup⟩
    rcases continues.fresh page member with same | given
    · exact ne same
    · exact unchanged given
  · intro other member
    rcases mem_cons.mp member with same | later
    · exact .inl same
    · rcases continues.fresh other later with rfl | given
      · exact .inr (took.given continues.moved.taken)
      · exact .inr (given.mono start le_rfl)

theorem Took.supplies {used : Nat → Prop} (took : Took supply before next linked)
    (supplies : Supplies supply before.taken used) : Supplies supply linked.taken (· = next) :=
  supplies.take took.moved.taken fun _ same => .inr (same ▸ took.given le_rfl)

variable {backend : Backend}

/-- Chunks go to pages from an allocated one on, whatever each page held before. -/
theorem sat_writeChunks {payload : PageId → BackendM Memory}
    (reads : ∀ page backend, page < backend.file.count →
      Sat (payload page) backend (fun _ after => after = backend) (fun _ _ => False)) (fuel : Nat)
    (bounded : page < backend.file.count) (supplies : Supplies supply backend.taken (· = page))
    (nonempty : edges ≠ []) (enough : edges.length ≤ fuel) (words : Words edges) :
    Sat (writeChunks supply payload fuel page edges) backend
      (fun written after => Continues supply backend after page written edges)
      (Refused supply) := by
  have cap : maxEdgesContPage = 509 := rfl
  induction fuel generalizing backend page edges with
  | zero =>
    have pos := length_pos_iff.mpr nonempty
    omega
  | succ fuel ih =>
    have chunk : Words (edges.take maxEdgesContPage) :=
      fun edge member => words edge (mem_of_mem_take member)
    rw [writeChunks]
    by_cases fits : edges.length ≤ maxEdgesContPage
    · have none_left : (edges.drop maxEdgesContPage).isEmpty = true := by
        simp [drop_eq_nil_of_le fits]
      have all : edges.take maxEdgesContPage = edges := take_of_length_le fits
      simp only [none_left, ↓reduceIte, all, sat_bind, sat_pure]
      apply (reads page backend bounded).sure _
      rintro mem _ rfl
      apply (sat_writePage _ bounded).sure _
      rintro _ _ rfl
      exact continues_last bounded (cont_fresh words le_rfl rfl) nonempty fits
    · have length : (edges.drop maxEdgesContPage).length = edges.length - maxEdgesContPage :=
        length_drop
      have left : edges.drop maxEdgesContPage ≠ [] := by
        intro empty
        rw [empty, length_nil] at length
        omega
      have some_left : (edges.drop maxEdgesContPage).isEmpty = false := by simpa using left
      have full : (edges.take maxEdgesContPage).length = maxEdgesContPage := by
        rw [length_take]
        omega
      simp only [some_left, Bool.false_eq_true, ↓reduceIte, sat_bind, sat_pure]
      apply (sat_allocatePage supply backend).relax _
      intro next linked took
      have inside : page < linked.file.count := bounded.trans_le took.moved.grown
      apply (reads page linked inside).sure _
      rintro mem _ rfl
      apply (sat_writePage _ inside).sure _
      rintro _ _ rfl
      apply (ih (by exact took.bounded) (by exact took.supplies supplies) left (by omega)
        (fun edge member => words edge (mem_of_mem_drop member))).relax _
      intro others after continues
      have named : next < noNext := took.named supplies
      have whole := continues.cons bounded supplies took
        (cont_fresh chunk named.le rfl) full
      rwa [take_append_drop] at whole

theorem sat_writeContinuationPages (bounded : page < backend.file.count)
    (supplies : Supplies supply backend.taken (· = page)) (nonempty : edges ≠ [])
    (words : Words edges) :
    Sat (writeContinuationPages supply page edges) backend
      (fun written after => Continues supply backend after page written edges)
      (Refused supply) := by
  refine sat_writeChunks ?_ _ bounded supplies nonempty (Nat.le_succ _) words
  exact fun _ _ inside => (sat_readPayload inside).relax (fun _ _ => And.right)

theorem sat_extendLastPage {filling : List Nat} (bounded : page < backend.file.count)
    (supplies : Supplies supply backend.taken (· = page))
    (content : Cont (backend.file.page page) present noNext) (nonempty : present ≠ [])
    (fits : (present ++ filling).length ≤ maxEdgesContPage)
    (full : rest ≠ [] → (present ++ filling).length = maxEdgesContPage) (words : Words filling)
    (words' : Words rest) :
    Sat (extendLastPage supply page present.length filling rest) backend
      (fun written after =>
        Continues supply backend after page written (present ++ filling ++ rest))
      (Refused supply) := by
  unfold extendLastPage
  rw [sat_bind]
  apply (sat_readPayload bounded).sure _
  rintro _ _ ⟨rfl, rfl⟩
  by_cases done : rest = []
  · subst done
    simp only [isEmpty_nil, ↓reduceIte, sat_bind, sat_pure, append_nil]
    apply (sat_writePage _ bounded).sure _
    rintro _ _ rfl
    exact continues_last bounded (cont_write words le_rfl content.edges rfl)
      (by simp [nonempty]) fits
  · have some_left : rest.isEmpty = false := by simpa using done
    simp only [some_left, Bool.false_eq_true, ↓reduceIte, sat_bind, sat_pure]
    apply (sat_allocatePage supply _).relax _
    intro next linked took
    have named : next < noNext := took.named supplies
    apply (sat_writePage _ (bounded.trans_le took.moved.grown)).sure _
    rintro _ _ rfl
    apply (sat_writeContinuationPages (by exact took.bounded) (by exact took.supplies supplies)
      done words').relax _
    intro others after continues
    exact continues.cons bounded supplies took (cont_write words named.le content.edges rfl)
      (full done)

end Continuing

section FirstPages

variable {old : Nat}

theorem First.record {last : Nat} (first : First data owner side old edges)
    (full : edges.length = maxEdgesChainedPage) (link : readLe data.payload nextPageOffset 4 = next)
    (apart : ∀ i, i < 9 ∨ 13 ≤ i → mem i = data.payload i) (counted : readLe mem 9 4 = total)
    (named : last < noNext) (pageType : data'.pageType = pageTypeAdjacency)
    (written : data'.payload = writeLe mem lastPageIdTailOffset 4 last) :
    First data' owner side total edges ∧ readLe data'.payload nextPageOffset 4 = next ∧
      readLe data'.payload lastPageIdTailOffset 4 = last := by
  have bound : noNext < 256 ^ 4 := by decide
  have trailer : lastPageIdTailOffset = 4072 := rfl
  have pointer : nextPageOffset = 4076 := rfl
  have header : recordHeaderSize = 16 := rfl
  have cap : maxEdgesChainedPage = 507 := rfl
  refine ⟨first.rewrite pageType ?_ ?_ ?_, ?_, ?_⟩
  · intro i below
    rw [written, writeLe_outside (.inl (by omega)), apart i (.inl below)]
  · have same : readLe data'.payload 9 4 = readLe mem 9 4 := by
      apply readLe_congr
      intro i _ below
      rw [written, writeLe_outside (.inl (by omega))]
    rw [same, counted]
  · have same : readWords data'.payload recordHeaderSize edges.length =
        readWords data.payload recordHeaderSize edges.length := by
      apply readWords_congr
      intro i above below
      rw [written, writeLe_outside (.inl (by omega)), apart i (.inr (by omega))]
    rw [same, first.edges]
  · have same : readLe data'.payload nextPageOffset 4 = readLe data.payload nextPageOffset 4 := by
      apply readLe_congr
      intro i above _
      rw [written, writeLe_outside (.inr (by omega)), apart i (.inr (by omega))]
    rw [same, link]
  · rw [written, readLe_writeLe _ _ (named.trans bound)]

theorem First.linked {batch : List Nat} (first : First data owner side old edges)
    (full : batch.length = maxEdgesChainedPage) (counted : total < 256 ^ 4) (named : next < noNext)
    (words : Words batch) (pageType : data'.pageType = pageTypeAdjacency)
    (written : data'.payload = writeLe (splice (writeLe data.payload 9 4 total) recordHeaderSize
      (wordBytes batch)) nextPageOffset 4 next) :
    First data' owner side total batch ∧ readLe data'.payload nextPageOffset 4 = next := by
  have bound : noNext < 256 ^ 4 := by decide
  have pointer : nextPageOffset = 4076 := rfl
  have header : recordHeaderSize = 16 := rfl
  have cap : maxEdgesChainedPage = 507 := rfl
  refine ⟨first.rewrite pageType ?_ ?_ ?_, ?_⟩
  · intro i below
    rw [written, writeLe_outside (.inl (by omega)), splice_outside (.inl (by omega)),
      writeLe_outside (.inl below)]
  · have same : readLe data'.payload 9 4 = readLe (writeLe data.payload 9 4 total) 9 4 := by
      apply readLe_congr
      intro i _ below
      rw [written, writeLe_outside (.inl (by omega)), splice_outside (.inl (by omega))]
    rw [same, readLe_writeLe _ 9 counted]
  · have same : readWords data'.payload recordHeaderSize batch.length =
        readWords (splice (writeLe data.payload 9 4 total) recordHeaderSize (wordBytes batch))
          recordHeaderSize batch.length := by
      apply readWords_congr
      intro i _ below
      rw [written, writeLe_outside (.inl (by omega))]
    rw [same, readWords_splice _ _ words]
  · rw [written, readLe_writeLe _ _ (named.trans bound)]

end FirstPages

/-- A list was written or extended on pages of its own, in the current format. -/
structure ChainGrew (supply : Supply) (before after : Backend) (head owner : Nat)
    (side : AdjDirection) (pages pages' ids : List Nat) : Prop where
  moved : Moved supply before after pages
  chain : Chain after.file head owner side pages' ids
  current : Current after.file head ids
  fresh : ∀ other ∈ pages', other ∈ pages ∨ Given supply before.taken after.taken other

section Growing

variable {supply : Supply} {before after : Backend} {first last : Nat} {rest written : List Nat}

theorem Continues.named (continues : Continues supply before after next written rest)
    {used : Nat → Prop} (supplies : Supplies supply before.taken used) (named : next < noNext) :
    ∀ other ∈ written, other < noNext := by
  intro other member
  rcases continues.fresh other member with rfl | ⟨i, above, _, gives⟩
  · exact named
  · exact supplies.named i other above gives

theorem Continues.chain_of_first (continues : Continues supply before after next written rest)
    (bounded : first < before.file.count) (apart : first ≠ next)
    (unused : ¬Given supply before.taken after.taken first)
    (content : First data owner side (edges ++ rest).length edges)
    (full : edges.length = maxEdgesChainedPage)
    (exceeds : maxEdgesSinglePage < (edges ++ rest).length)
    (link : readLe data.payload nextPageOffset 4 = next) (named : next < noNext)
    (ends : written.getLast? = some last)
    (recorded : readLe data.payload lastPageIdTailOffset 4 = last) :
    Chain (after.file.write first data) first owner side (first :: written) (edges ++ rest) := by
  have outside : first ∉ written := by
    intro member
    rcases continues.fresh first member with same | given
    · exact apart same
    · exact unused given
  have here : (after.file.write first data).page first = data := update_self _ _ _
  have tail : ContPages (after.file.write first data) next written rest := by
    apply continues.chain.congr (Nat.le_of_eq (PageFile.write_count _ _ _).symm)
    intro other member
    have ne : other ≠ first := fun same => outside (same ▸ member)
    exact update_of_ne ne _ _
  exact .multi (bounded.trans_le continues.moved.grown) (here.symm ▸ content) full exceeds
    (here.symm ▸ link) named tail ends (fun _ => here.symm ▸ recorded)
    (nodup_cons.mpr ⟨outside, continues.nodup⟩)

variable {backend : Backend}

theorem sat_backpatchLastPageId (last : PageId) (bounded : first < backend.file.count) :
    Sat (backpatchLastPageId first last) backend
      (fun _ after => after = ⟨backend.file.write first
        (finalizePage (writeLe (backend.file.page first).payload lastPageIdTailOffset 4 last)),
        backend.taken⟩)
      (fun _ _ => False) := by
  unfold backpatchLastPageId
  rw [sat_bind]
  apply (sat_readPayload bounded).sure _
  rintro _ _ ⟨rfl, rfl⟩
  exact sat_writePage _ bounded

/-- The last page is recorded on a first page that is linked to its continuation. -/
theorem sat_backpatched {pages ids : List Nat} {start : Backend}
    (moved : Moved supply start before pages)
    (here : first ∈ pages ∨ Given supply start.taken before.taken first)
    (given : next ∈ pages ∨ Given supply start.taken before.taken next)
    (continues : Continues supply before after next written rest)
    (supplies : Supplies supply before.taken (· = first)) (bounded : first < before.file.count)
    (apart : first ≠ next) (page : before.file.page first = data) (whole : edges ++ rest = ids)
    (content : First data owner side ids.length edges) (full : edges.length = maxEdgesChainedPage)
    (exceeds : maxEdgesSinglePage < ids.length) (link : readLe data.payload nextPageOffset 4 = next)
    (named : next < noNext) (ends : written.getLast? = some last) :
    Sat (backpatchLastPageId first last) after
      (fun _ done => ChainGrew supply start done first owner side pages (first :: written) ids)
      (fun _ _ => False) := by
  subst whole
  have unused : ¬Given supply before.taken after.taken first := supplies.not_given le_rfl rfl
  have kept : after.file.page first = data :=
    (continues.moved.kept first (by simpa using apart) unused).trans page
  have last_named : last < noNext := continues.named supplies named last (mem_of_getLast? ends)
  apply (sat_backpatchLastPageId last (bounded.trans_le continues.moved.grown)).sure _
  rintro _ _ rfl
  rw [kept]
  obtain ⟨content', link', recorded⟩ := content.record full link (fun _ _ => rfl) content.total
    last_named (by rfl)
    (show (finalizePage (writeLe data.payload lastPageIdTailOffset 4 last)).payload = _ from rfl)
  have steps := (moved.trans continues.moved).trans (moved_write after first
    (finalizePage (writeLe data.payload lastPageIdTailOffset 4 last)))
  have later {page : Nat} (was : page ∈ pages ∨ Given supply start.taken before.taken page) :
      page ∈ pages ∨ Given supply start.taken after.taken page :=
    was.imp_right fun given => given.mono le_rfl continues.moved.taken
  refine ⟨steps.mono fun other member => ?_, ?_, fun _ => ?_, fun other member => ?_⟩
  · simp only [mem_append, mem_singleton, or_assoc] at member
    rcases member with old | rfl | rfl
    · exact .inl old
    · exact later given
    · exact later here
  · exact continues.chain_of_first bounded apart unused content' full exceeds link' named ends
      recorded
  · rw [show (after.file.write first _).page first = _ from update_self _ _ _]
    exact le_rfl
  · rcases mem_cons.mp member with rfl | new
    · exact later here
    · rcases continues.fresh other new with rfl | later'
      · exact later given
      · exact .inr (later'.mono moved.taken le_rfl)

theorem first_singlePage {record : AdjacencyRecord} (fits : record.node < 256 ^ 8)
    (counted : record.edges.length < 256 ^ 4) (words : Words record.edges) :
    First (singlePage record) record.node record.direction record.edges.length record.edges :=
  first_write record.direction fits counted words rfl fun _ _ => rfl

theorem first_chainedFirstPage {record : AdjacencyRecord} (fits : record.node < 256 ^ 8)
    (counted : record.edges.length < 256 ^ 4) (words : Words record.edges) (next : PageId)
    (full : (record.edges.take maxEdgesChainedPage).length = maxEdgesChainedPage) :
    First (chainedFirstPage record next) record.node record.direction record.edges.length
      (record.edges.take maxEdgesChainedPage) := by
  apply first_write record.direction fits counted
    (fun edge member => words edge (mem_of_mem_take member)) rfl
  intro i below
  rw [full] at below
  have pointer : nextPageOffset = 4076 := rfl
  have header : recordHeaderSize = 16 := rfl
  have chained : maxEdgesChainedPage = 507 := rfl
  exact writeLe_outside (.inl (by omega))

theorem sat_writeAdjacency (record : AdjacencyRecord) (fits : record.node < 256 ^ 8)
    (counted : record.edges.length < 256 ^ 4) (words : Words record.edges)
    (supplies : Supplies supply backend.taken fun _ => False) :
    Sat (writeAdjacency supply record) backend
      (fun head after => ∃ pages,
        ChainGrew supply backend after head record.node record.direction [] pages record.edges ∧
        (record.edges.length ≤ maxEdgesSinglePage → pages = [head]))
      (Refused supply) := by
  unfold writeAdjacency
  by_cases small : record.edges.length ≤ maxEdgesSinglePage
  · simp only [small, ↓reduceIte, sat_bind, sat_pure]
    apply (sat_allocatePage supply backend).relax _
    intro head taken took
    apply (sat_writePage _ took.bounded).sure _
    rintro _ _ rfl
    have given : Given supply backend.taken taken.taken head := took.given le_rfl
    have here : (taken.file.write head (singlePage record)).page head = singlePage record :=
      update_self _ _ _
    refine ⟨[head], ⟨?_,
      .single took.bounded (here.symm ▸ first_singlePage fits counted words) small,
      fun exceeds => absurd small (Nat.not_le.mpr exceeds), ?_⟩, fun _ => rfl⟩
    · refine (took.moved.trans (moved_write taken head _)).mono fun other member => .inr ?_
      obtain rfl : other = head := by simpa using member
      exact given
    · intro other member
      exact .inr (mem_singleton.mp member ▸ given)
  · have exceeds : maxEdgesSinglePage < record.edges.length := not_le.mp small
    have single : maxEdgesSinglePage = 508 := rfl
    have chained : maxEdgesChainedPage = 507 := rfl
    have full : (record.edges.take maxEdgesChainedPage).length = maxEdgesChainedPage := by
      rw [length_take]
      omega
    have left : record.edges.drop maxEdgesChainedPage ≠ [] := by
      intro empty
      have length := congrArg List.length empty
      rw [length_drop, length_nil] at length
      omega
    have whole : record.edges.take maxEdgesChainedPage ++ record.edges.drop maxEdgesChainedPage =
        record.edges := take_append_drop _ _
    simp only [small, ↓reduceIte, sat_bind, sat_pure]
    apply (sat_allocatePage supply backend).relax _
    intro first begun took
    apply (sat_allocatePage supply begun).relax _
    intro next linked took'
    have inside : first < linked.file.count := took.bounded.trans_le took'.moved.grown
    have given : Given supply backend.taken linked.taken first := took.given took'.moved.taken
    have given' : Given supply backend.taken linked.taken next :=
      (took'.given le_rfl).mono took.moved.taken le_rfl
    have reached : backend.taken ≤ linked.taken := took.moved.taken.trans took'.moved.taken
    have named : next < noNext := took'.named (supplies.later took.moved.taken)
    have apart : first ≠ next := by
      intro same
      have equal := supplies.distinct backend.taken begun.taken first le_rfl took.moved.taken
        took.isNext (same ▸ took'.isNext)
      have later := took.taken
      omega
    apply (sat_writePage _ inside).sure _
    rintro _ _ rfl
    apply (sat_writeChunks (by exact fun _ _ _ => rfl) record.edges.length (by exact took'.bounded)
      (by exact supplies.take reached fun _ same => .inr (same ▸ given')) left
      (by rw [length_drop]; omega)
      (fun edge member => words edge (mem_of_mem_drop member))).relax _
    intro written after continues
    have ends := continues.chain.getLast next
    have link : readLe (chainedFirstPage record next).payload nextPageOffset 4 = next :=
      readLe_writeLe _ _ (lt_trans named (show noNext < 256 ^ 4 by decide))
    have steps := (took.moved.trans took'.moved).trans
      (moved_write linked first (chainedFirstPage record next))
    have moved : Moved supply backend
        ⟨linked.file.write first (chainedFirstPage record next), linked.taken⟩ [] := by
      refine steps.mono fun other member => .inr ?_
      obtain rfl : other = first := by simpa using member
      exact given
    apply (sat_backpatched moved (.inr given) (.inr given') continues
      (supplies.take reached fun _ same => .inr (same ▸ given)) inside apart
      (update_self _ _ _) whole (first_chainedFirstPage fits counted words next full) full
      exceeds link named ends).sure _
    intro _ done grew
    exact ⟨_, grew, False.elim⟩

/-- What an append answers: the first page, the pages it wrote and the new state. -/
structure Appended (supply : Supply) (before after : Backend) (owner : Nat) (side : AdjDirection)
    (pages ids : List Nat) (answer : PageId × List PageId × ChainState) (pages' : List Nat) :
    Prop where
  grew : ChainGrew supply before after answer.1 owner side pages pages' ids
  state : answer.2.2 = chainState answer.1 pages' ids

variable {head : Nat} {ids pages : List Nat}

theorem chainState_single (fits : ids.length ≤ maxEdgesSinglePage) :
    chainState head [head] ids = ⟨head, head, ids.length, ids.length, true⟩ := by
  simp [chainState, stateAfterAppend, fits]

theorem sat_appendIntoSinglePage (supply : Supply) (bounded : head < backend.file.count)
    (content : First (backend.file.page head) owner side ids.length ids)
    (room : (ids ++ added).length ≤ maxEdgesSinglePage) (words : Words added) :
    Sat (appendIntoSinglePage head added) backend
      (fun answer after => answer.1 = head ∧
        Appended supply backend after owner side [head] (ids ++ added) answer [head])
      (fun _ _ => False) := by
  have bound : maxEdgesSinglePage < 256 ^ 4 := by decide
  have header : recordHeaderSize = 16 := rfl
  unfold appendIntoSinglePage
  rw [sat_bind]
  apply (sat_readPayload bounded).sure _
  rintro _ _ ⟨rfl, same⟩
  rw [same]
  simp only [content.total, ← length_append, sat_bind, sat_pure]
  apply (sat_writePage _ bounded).sure _
  rintro _ after rfl
  refine ⟨trivial, ⟨moved_write backend head _, .single bounded ?_ room,
    fun exceeds => absurd room (Nat.not_le.mpr exceeds), fun _ => .inl⟩, ?_⟩
  · rw [show (backend.file.write head _).page head = _ from update_self _ _ _]
    refine content.rewrite rfl ?_ ?_ ?_
    · intro i below
      exact (splice_outside (.inl (by omega))).trans (writeLe_outside (.inl below))
    · have same : readLe (splice (writeLe (backend.file.page head).payload 9 4
          (ids ++ added).length) (recordHeaderSize + ids.length * adjEdgeSize) (wordBytes added)) 9 4 =
          readLe (writeLe (backend.file.page head).payload 9 4 (ids ++ added).length) 9 4 :=
        readLe_congr fun i _ below => splice_outside (.inl (by omega))
      exact same.trans (readLe_writeLe _ 9 (lt_of_le_of_lt room bound))
    · exact readWords_behind words content.edges
        fun i above _ => writeLe_outside (.inr (by omega))
  · exact (chainState_single room).symm ▸ if_pos room

theorem sat_rewriteFirstPageChained {old : Nat} {batch : List Nat}
    (bounded : head < backend.file.count)
    (content : First (backend.file.page head) owner side old present)
    (full : batch.length = maxEdgesChainedPage) (counted : total < 256 ^ 4) (words : Words batch)
    (supplies : Supplies supply backend.taken (· = head)) :
    Sat (rewriteFirstPageChained supply head total batch) backend
      (fun next after => ∃ linked data, Took supply backend next linked ∧
        after = ⟨linked.file.write head data, linked.taken⟩ ∧ First data owner side total batch ∧
        readLe data.payload nextPageOffset 4 = next)
      (Refused supply) := by
  unfold rewriteFirstPageChained
  rw [sat_bind]
  apply (sat_readPayload bounded).sure _
  rintro _ _ ⟨rfl, same⟩
  rw [same, sat_bind]
  apply (sat_allocatePage supply backend).relax _
  intro next linked took
  rw [sat_bind]
  apply (sat_writePage _ (bounded.trans_le took.moved.grown)).sure _
  intro _ after wrote
  have named : next < noNext := took.named supplies
  have linked' := content.linked full counted named words (by rfl)
    (show (finalizePage (writeLe (splice (writeLe (backend.file.page head).payload 9 4 total)
      recordHeaderSize (wordBytes batch)) nextPageOffset 4 next)).payload = _ from rfl)
  exact ⟨linked, _, took, wrote, linked'.1, linked'.2⟩

/-- An append to a list that has the first page to itself, and outgrows it. -/
theorem sat_appendFromState_outgrown (bounded : head < backend.file.count)
    (content : First (backend.file.page head) owner side ids.length ids)
    (fits : ids.length ≤ maxEdgesSinglePage) (exceeds : maxEdgesSinglePage < (ids ++ added).length)
    (counted : (ids ++ added).length < 256 ^ 4) (words : Words added)
    (supplies : Supplies supply backend.taken (· = head)) :
    Sat (appendFromState supply head (chainState head [head] ids) added) backend
      (fun answer after => answer.1 = head ∧ ∃ pages',
        Appended supply backend after owner side [head] (ids ++ added) answer pages')
      (Refused supply) := by
  have single : maxEdgesSinglePage = 508 := rfl
  have chained : maxEdgesChainedPage = 507 := rfl
  have chain : Chain backend.file head owner side [head] ids := .single bounded content fits
  have allWords : Words (ids ++ added) := words_append content.words words
  have full : ((ids ++ added).take maxEdgesChainedPage).length = maxEdgesChainedPage := by
    rw [length_take]
    omega
  have left : (ids ++ added).drop maxEdgesChainedPage ≠ [] := by
    intro empty
    have length := congrArg List.length empty
    rw [length_drop, length_nil] at length
    omega
  unfold appendFromState
  simp only [chainState_single fits, ← length_append, Nat.not_le.mpr exceeds, and_false,
    ↓reduceIte, sat_bind, sat_get, chain.read, sat_ofResult_ok, sat_pure]
  apply (sat_rewriteFirstPageChained bounded content full counted
    (fun edge member => allWords edge (mem_of_mem_take member)) supplies).relax _
  rintro next _ ⟨linked, data, took, rfl, content', link⟩
  have named : next < noNext := took.named supplies
  have apart : head ≠ next := fun same =>
    supplies.unused backend.taken next le_rfl took.isNext same.symm
  have inside : head < linked.file.count := bounded.trans_le took.moved.grown
  have given : Given supply backend.taken linked.taken next := took.given le_rfl
  apply (sat_writeContinuationPages (by exact took.bounded) (by exact took.supplies supplies) left
    (fun edge member => allWords edge (mem_of_mem_drop member))).relax _
  intro written after continues
  have ends := continues.chain.getLast head
  have moved : Moved supply backend ⟨linked.file.write head data, linked.taken⟩ [head] :=
    took.moved.trans (moved_write linked head data)
  apply (sat_backpatched moved (.inl (mem_singleton_self head)) (.inr given) continues
    (supplies.later took.moved.taken) inside apart (update_self _ _ _)
    (take_append_drop _ _) content' full exceeds link named ends).sure _
  intro _ done grew
  refine ⟨trivial, head :: written, grew, ?_⟩
  simp only [chainState, List.getLast?_cons, Option.getD_some]

/-- An append to a list that goes on behind its first page. -/
theorem sat_appendFromState_chained (bounded : head < backend.file.count)
    (content : First (backend.file.page head) owner side (edges ++ rest).length edges)
    (full : edges.length = maxEdgesChainedPage)
    (exceeds : maxEdgesSinglePage < (edges ++ rest).length)
    (link : readLe (backend.file.page head).payload nextPageOffset 4 = next)
    (named : next < noNext) (tail : ContPages backend.file next pages rest)
    (ends : pages.getLast? = some last) (nodup : (head :: pages).Nodup)
    (counted : (edges ++ rest ++ added).length < 256 ^ 4) (words : Words added)
    (supplies : Supplies supply backend.taken (· ∈ head :: pages)) :
    Sat (appendFromState supply head (chainState head (head :: pages) (edges ++ rest)) added) backend
      (fun answer after => answer.1 = head ∧ ∃ pages',
        Appended supply backend after owner side (head :: pages) (edges ++ rest ++ added) answer
          pages')
      (Refused supply) := by
  have cap : maxEdgesContPage = 509 := rfl
  obtain ⟨front, last', whole, present, found⟩ := tail.lastPage
  obtain rfl : last' = last := by
    rw [found.allPages, List.getLast?_append] at ends
    simpa using ends
  have ended : (head :: pages).getLast?.getD head = last' := by
    rw [List.getLast?_cons, ends]
    rfl
  have fits := found.fits
  have pos := length_pos_iff.mpr found.nonempty
  have restLength : rest.length = maxEdgesContPage * front.length + present.length := by
    rw [found.allIds, length_append, found.full]
  have state : chainState head (head :: pages) (edges ++ rest) =
      ⟨head, last', (edges ++ rest).length, present.length, false⟩ := by
    unfold chainState
    rw [ended]
    apply stateAfterAppend_of_exceeds head last' exceeds pos fits
    rw [length_append, full, Nat.add_sub_cancel_left, restLength]
  have lastMember : last' ∈ pages := by simp [found.allPages]
  have headOutside : head ∉ pages := (nodup_cons.mp nodup).1
  have apart : head ≠ last' := fun same => headOutside (same ▸ lastMember)
  unfold appendFromState
  simp only [state, ← length_append, Bool.false_eq_true, false_and, ↓reduceIte, sat_bind, sat_pure]
  have filled : (present ++ added.take (min (maxEdgesContPage - present.length) added.length)).length =
      present.length + min (maxEdgesContPage - present.length) added.length := by
    rw [length_append, length_take]
    omega
  have more (left : added.drop (min (maxEdgesContPage - present.length) added.length) ≠ []) :
      (present ++ added.take (min (maxEdgesContPage - present.length) added.length)).length =
        maxEdgesContPage := by
    have length := length_pos_iff.mpr left
    rw [length_drop] at length
    omega
  apply (sat_extendLastPage found.bounded
    (supplies.mono fun page same => same ▸ mem_cons_of_mem head lastMember) found.content
    found.nonempty (by omega) more (fun edge member => words edge (mem_of_mem_take member))
    (fun edge member => words edge (mem_of_mem_drop member))).relax _
  intro written continued continues
  rw [append_assoc, take_append_drop] at continues
  have inside : head < continued.file.count := bounded.trans_le continues.moved.grown
  have unused {page : Nat} (member : page ∈ head :: pages) :
      ¬Given supply backend.taken continued.taken page := supplies.not_given le_rfl member
  have kept {page : Nat} (member : page ∈ head :: pages) (other : page ≠ last') :
      continued.file.page page = backend.file.page page :=
    continues.moved.kept page (by simpa using other) (unused member)
  have here := kept mem_cons_self apart
  apply (sat_readPayload inside).sure _
  rintro _ _ ⟨rfl, same⟩
  rw [same, here]
  apply (sat_writePage _ inside).sure _
  rintro _ after rfl
  have ends' := continues.chain.getLast last'
  have lastNamed : written.getLast?.getD last' < noNext := by
    rcases continues.fresh _ (mem_of_getLast? ends') with old | ⟨i, above, _, gives⟩
    · rw [old]
      exact tail.named named last' lastMember
    · exact supplies.named i _ above gives
  -- The first page takes the new count and the new last page.
  obtain ⟨content', link', recorded⟩ := content.record full link
    (fun i outside => writeLe_outside (by omega))
    (readLe_writeLe (backend.file.page head).payload 9 counted) lastNamed (by rfl) (show (finalizePage (writeLe (writeLe (backend.file.page head).payload 9 4
      (edges ++ rest ++ added).length) lastPageIdTailOffset 4
      (written.getLast?.getD last'))).payload = _ from rfl)
  have version : (finalizePage (writeLe (writeLe (backend.file.page head).payload 9 4
      (edges ++ rest ++ added).length) lastPageIdTailOffset 4
      (written.getLast?.getD last'))).version = adjFormatV2 := rfl
  generalize finalizePage (writeLe (writeLe (backend.file.page head).payload 9 4
    (edges ++ rest ++ added).length) lastPageIdTailOffset 4 (written.getLast?.getD last')) = data
    at content' link' recorded version ⊢
  have frontMember : ∀ other ∈ front, other ∈ pages := by
    intro other member
    rw [found.allPages]
    exact mem_append_left _ member
  have distinct := (nodup_cons.mp nodup).2
  rw [found.allPages] at distinct
  have frontApart : ∀ other ∈ front, other ≠ last' := by
    intro other member same
    exact disjoint_of_nodup_append distinct member (by simp [same])
  have writtenApart : ∀ other ∈ written, other ≠ head ∧ other ∉ front := by
    intro other member
    rcases continues.fresh other member with old | given
    · exact ⟨fun equal => apart (equal.symm.trans old), fun inFront => frontApart other inFront old⟩
    · refine ⟨fun equal => ?_, fun inFront => ?_⟩
      · exact unused mem_cons_self (equal ▸ given)
      · exact unused (mem_cons_of_mem _ (frontMember other inFront)) given
  have headPage : (continued.file.write head data).page head = data := update_self _ _ _
  have keptFront : ∀ other ∈ front,
      (continued.file.write head data).page other = backend.file.page other := by
    intro other member
    have inPages := frontMember other member
    have ne : other ≠ head := fun same => headOutside (same ▸ inPages)
    exact (update_of_ne ne _ _).trans
      (kept (.tail _ inPages) (frontApart other member))
  have lastPart : ContPages (continued.file.write head data) last' written (present ++ added) := by
    apply continues.chain.congr (Nat.le_of_eq (PageFile.write_count _ _ _).symm)
    intro other member
    exact update_of_ne (writtenApart other member).1 _ _
  have later := found.extend (continued.file.write head data) continues.moved.grown keptFront
    written _ lastPart
  rw [← append_assoc, ← found.allIds] at later
  have ends'' : (front ++ written).getLast? = some (written.getLast?.getD last') := by
    rw [List.getLast?_append, ends']
    rfl
  have nodup' : (head :: (front ++ written)).Nodup := by
    rw [nodup_cons, mem_append, not_or, nodup_append]
    refine ⟨⟨fun member => headOutside (frontMember head member),
      fun member => (writtenApart head member).1 rfl⟩, distinct.of_append_left, continues.nodup, ?_⟩
    intro left inFront right inWritten same
    exact (writtenApart right inWritten).2 (same ▸ inFront)
  have moved : Moved supply backend ⟨continued.file.write head data, continued.taken⟩
      (head :: pages) := by
    refine (continues.moved.trans (moved_write continued head data)).mono fun page member => .inl ?_
    rcases mem_append.mp member with isLast | isHead
    · rw [mem_singleton.mp isLast]
      exact .tail _ lastMember
    · rw [mem_singleton.mp isHead]
      exact mem_cons_self
  have fresh : ∀ other ∈ head :: (front ++ written),
      other ∈ head :: pages ∨ Given supply backend.taken continued.taken other := by
    intro other member
    rcases mem_cons.mp member with isHead | member
    · exact .inl (by simp [isHead])
    · rcases mem_append.mp member with inFront | inWritten
      · exact .inl (.tail _ (frontMember other inFront))
      · rcases continues.fresh other inWritten with old | given
        · exact .inl (old ▸ .tail _ lastMember)
        · exact .inr given
  rw [append_assoc] at content' counted ⊢
  have longer : maxEdgesSinglePage < (edges ++ (rest ++ added)).length := by
    rw [← append_assoc, length_append]
    omega
  refine ⟨trivial, head :: (front ++ written), ⟨moved, ?_, fun _ => ?_, fresh⟩, ?_⟩
  · exact .multi inside (headPage.symm ▸ content') full longer (headPage.symm ▸ link') named later
      ends'' (fun _ => headPage.symm ▸ recorded) nodup'
  · exact headPage.symm ▸ version.ge
  · simp only [chainState, List.getLast?_cons, ends'', Option.getD_some]

theorem sat_appendFromState (chain : Chain backend.file head owner side pages ids)
    (counted : (ids ++ added).length < 256 ^ 4) (words : Words added)
    (supplies : Supplies supply backend.taken (· ∈ pages)) :
    Sat (appendFromState supply head (chainState head pages ids) added) backend
      (fun answer after => answer.1 = head ∧ ∃ pages',
        Appended supply backend after owner side pages (ids ++ added) answer pages')
      (Refused supply) := by
  cases chain with
  | single bounded content fits =>
    by_cases room : (ids ++ added).length ≤ maxEdgesSinglePage
    · unfold appendFromState
      simp only [chainState_single fits, ← length_append, room, and_self, ↓reduceIte]
      exact (sat_appendIntoSinglePage supply bounded content room words).sure
        (fun _ _ appended => ⟨appended.1, _, appended.2⟩)
    · exact sat_appendFromState_outgrown bounded content fits (not_le.mp room) counted words
        (supplies.mono fun page same => same ▸ mem_singleton_self head)
  | multi bounded content full exceeds link named tail ends recorded nodup =>
    exact sat_appendFromState_chained bounded content full exceeds link named tail ends nodup
      counted words supplies

theorem sat_tryMigrateV1Chain (chain : Chain backend.file head owner side pages ids)
    (counted : (ids ++ added).length < 256 ^ 4) (words : Words added)
    (supplies : Supplies supply backend.taken (· ∈ pages)) :
    Sat (tryMigrateV1Chain supply owner side head added) backend
      (fun answer after => match answer with
        | none => after = backend
        | some answer => ∃ pages',
            Appended supply backend after owner side pages (ids ++ added) answer pages')
      (Refused supply) := by
  have inside : head < backend.file.count := chain.bounded head chain.head_mem
  unfold tryMigrateV1Chain
  simp only [sat_bind, sat_get, readPage_of_lt inside, sat_ofResult_ok]
  split
  · exact rfl
  · simp only [chain.read, sat_ofResult_ok, sat_bind, sat_get]
    apply (sat_writeAdjacency ⟨owner, side, ids ++ added⟩ chain.owner_lt counted
      (words_append chain.words words)
      (supplies.mono fun _ => False.elim)).relax _
    rintro page after ⟨pages', grew, _⟩
    rw [grew.chain.readState, sat_ofResult_ok, sat_pure]
    refine ⟨pages', ⟨grew.moved.mono (by simp), grew.chain, grew.current, ?_⟩, rfl⟩
    intro other member
    exact .inr ((grew.fresh other member).resolve_left not_mem_nil)

theorem sat_appendAdjacencyWithState (cached : Option ChainState)
    (chain : Chain backend.file head owner side pages ids)
    (known : ∀ state, cached = some state → readAdjChainState backend head = .ok state)
    (counted : (ids ++ added).length < 256 ^ 4) (words : Words added)
    (supplies : Supplies supply backend.taken (· ∈ pages)) :
    Sat (appendAdjacencyWithState supply owner side (some head) cached added) backend
      (fun answer after => ∃ pages',
        Appended supply backend after owner side pages (ids ++ added) answer pages')
      (Refused supply) := by
  have direct := sat_appendFromState chain counted words supplies
  unfold appendAdjacencyWithState
  cases cached with
  | some state =>
    have read := known state rfl
    rw [chain.readState] at read
    obtain rfl := Except.ok.inj read
    exact direct.relax (fun _ _ => And.right)
  | none =>
    dsimp only
    rw [sat_bind]
    apply (sat_tryMigrateV1Chain chain counted words supplies).relax _
    intro migrated after outcome
    cases migrated with
    | some answer => exact outcome
    | none =>
      dsimp only at outcome
      rw [outcome]
      simp only [sat_bind, sat_get, chain.readState, sat_ofResult_ok]
      exact direct.relax (fun _ _ => And.right)

/-- A list in a format that appends can extend is extended the same way whether its state is
cached or read. -/
theorem run_cached (chain : Chain backend.file head owner side pages ids)
    (current : Current backend.file head ids) {state : ChainState}
    (read : readAdjChainState backend head = .ok state) :
    (appendAdjacencyWithState supply owner side (some head) none added).run backend =
      (appendAdjacencyWithState supply owner side (some head) (some state) added).run backend := by
  have inside : head < backend.file.count := chain.bounded head chain.head_mem
  have stays : adjFormatV2 ≤ (backend.file.page head).version ∨
      readLe (backend.file.page head).payload 9 4 ≤ maxEdgesSinglePage := by
    cases chain with
    | single _ content fits => exact .inr (content.total.trans_le fits)
    | multi _ _ _ exceeds _ _ _ _ _ _ => exact .inl (current exceeds)
  have left : (tryMigrateV1Chain supply owner side head added).run backend = .ok none backend := by
    simp only [tryMigrateV1Chain, EStateM.run_bind, EStateM.run_get, readPage_of_lt inside,
      ofResult, EStateM.run_pure, stays, ↓reduceIte]
  simp only [appendAdjacencyWithState, EStateM.run_bind, left, EStateM.run_get, read, ofResult,
    EStateM.run_pure]

/-- An append reads back as the old list followed by the new edges, its answer describes the
chain it leaves, every other list keeps its content, and a cached state makes no difference. -/
structure AppendCorrect (supply : Supply) (backend : Backend) (used : Nat → Prop) (head owner : Nat)
    (side : AdjDirection) (pages ids added : List Nat) (cached : Option ChainState) : Prop where
  appended : Sat (appendAdjacencyWithState supply owner side (some head) cached added) backend
    (fun answer after =>
      readAdjacency after answer.1 = .ok ⟨owner, side, ids ++ added⟩ ∧
      readAdjChainState after answer.1 = .ok answer.2.2 ∧
      ∀ head' owner' side' pages' ids', Chain backend.file head' owner' side' pages' ids' →
        (∀ page ∈ pages', used page) → pages'.Disjoint pages →
          readAdjacency after head' = .ok ⟨owner', side', ids'⟩)
    (Refused supply)
  cacheless : ∀ state, cached = some state →
    (appendAdjacencyWithState supply owner side (some head) none added).run backend =
      (appendAdjacencyWithState supply owner side (some head) (some state) added).run backend

theorem append_correct {used : Nat → Prop} (cached : Option ChainState)
    (chain : Chain backend.file head owner side pages ids)
    (known : ∀ state, cached = some state →
      readAdjChainState backend head = .ok state ∧ Current backend.file head ids)
    (counted : ids.length + added.length < 2 ^ 32) (words : ∀ edge ∈ added, edge < 2 ^ 64)
    (supplies : Supplies supply backend.taken used) (mine : ∀ page ∈ pages, used page) :
    AppendCorrect supply backend used head owner side pages ids added cached := by
  have total : (ids ++ added).length < 256 ^ 4 := by
    rw [length_append]
    exact counted
  refine ⟨?_, fun state here => run_cached chain (known state here).2 (known state here).1⟩
  apply (sat_appendAdjacencyWithState cached chain (fun state here => (known state here).1) total
    words (supplies.mono mine)).relax _
  rintro answer after ⟨pages', grew, state⟩
  refine ⟨grew.chain.read, state ▸ grew.chain.readState, ?_⟩
  intro head' owner' side' others ids' other live apart
  have kept : Chain after.file head' owner' side' others ids' :=
    other.congr grew.moved.grown fun page member =>
      grew.moved.kept page (apart member) (supplies.not_given le_rfl (live page member))
  exact kept.read

def fullPage : Backend :=
  ⟨⟨1, fun _ => singlePage ⟨7, .outgoing, List.replicate 508 1⟩⟩, 0⟩

def fewPages : Supply := fun i =>
  if i < 4 then .ok (i + 1) else .error (notAllocated "adjacency.db" (i + 1))

theorem of_fewPages {i page : Nat} (given : fewPages i = .ok page) : i < 4 ∧ page = i + 1 := by
  unfold fewPages at given
  split at given
  next few => exact ⟨few, (Except.ok.inj given).symm⟩
  next => cases given

/-- One more edge, and the list moves on to a second page. -/
theorem append_correct_fullPage :
    AppendCorrect fewPages fullPage (· = 0) 0 7 .outgoing [0] (List.replicate 508 1) [2]
      (some ⟨0, 0, 508, 508, true⟩) := by
  have words : Words (List.replicate 508 1) := by
    intro edge member
    rw [eq_of_mem_replicate member]
    decide
  have size : (List.replicate 508 1).length = 508 := length_replicate
  have content : First (fullPage.file.page 0) 7 .outgoing (List.replicate 508 1).length
      (List.replicate 508 1) := by
    apply first_singlePage (by decide) (size.trans_lt (by decide)) words
  have chain : Chain fullPage.file 0 7 .outgoing [0] (List.replicate 508 1) :=
    .single Nat.zero_lt_one content size.le
  have state : chainState 0 [0] (List.replicate 508 1) = ⟨0, 0, 508, 508, true⟩ := by
    rw [chainState_single size.le, size]
  refine append_correct _ chain ?_ ?_ ?_ ⟨?_, ?_, ?_⟩ (fun _ => mem_singleton.mp)
  · intro other here
    obtain rfl := Option.some.inj here
    exact ⟨state ▸ chain.readState, fun exceeds => absurd size.le (Nat.not_le.mpr exceeds)⟩
  · rw [size]
    decide
  · decide
  · intro i j page _ _ left right
    exact Nat.succ.inj ((of_fewPages left).2.symm.trans (of_fewPages right).2)
  · intro i page _ given
    rw [(of_fewPages given).2]
    exact Nat.succ_ne_zero i
  · intro i page _ given
    obtain ⟨few, rfl⟩ := of_fewPages given
    exact (Nat.succ_lt_succ few).trans (by decide)

end Growing

end ErmyaGraph.AdjChainCodec
