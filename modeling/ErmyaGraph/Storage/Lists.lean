import ErmyaGraph.Storage.Journal

/-! # The lists the adjacency file holds

A page of the adjacency file is shared by sub-blocks, belongs to the chain of
one list, or was not given out yet. As for the overflow file the uses are ghost
data: they say which lists an operation cannot touch. -/

namespace ErmyaGraph

open Outcome List Function Option PageFile

abbrev ListKey := Nat × AdjDirection

inductive AdjUse where
  | unused
  | shared
  | chain (list : ListKey) (head : PageId)
deriving DecidableEq

namespace Store

variable {file file' before after : PageFile AdjPage} {ids edges rest : List Nat} {store : Store}
  {page first head index : Nat} {last : PageId} {use : Nat → AdjUse} {key : ListKey}
  {tail : Option ChainState} {entries : List Subblock}

/-- The edges on the continuation pages from a page on; every page but the last is full. -/
inductive ContPages (file : PageFile AdjPage) : PageId → List PageId → List Nat → Prop
  | last {page : PageId} {edges : List Nat} (bounded : page < file.count)
      (content : file.page page = .cont edges none) (nonempty : edges ≠ [])
      (fits : edges.length ≤ maxEdgesContPage) : ContPages file page [page] edges
  | more {page next : PageId} {pages : List PageId} {edges rest : List Nat}
      (bounded : page < file.count) (content : file.page page = .cont edges (some next))
      (full : edges.length = maxEdgesContPage) (tail : ContPages file next pages rest) :
      ContPages file page (page :: pages) (edges ++ rest)

variable {pages : List PageId}

theorem ContPages.congr {page : PageId} (chain : ContPages file page pages ids)
    (grown : file.count ≤ file'.count)
    (same : ∀ other ∈ pages, file'.page other = file.page other) :
    ContPages file' page pages ids := by
  induction chain with
  | last bounded content nonempty fits =>
    have here := (same _ (by simp)).trans content
    exact .last (bounded.trans_le grown) here nonempty fits
  | more bounded content full tail ih =>
    have here := (same _ (by simp)).trans content
    have later := ih fun other mem => same other (.tail _ mem)
    exact .more (bounded.trans_le grown) here full later

theorem ContPages.bounded {page : PageId} (chain : ContPages file page pages ids) :
    ∀ other ∈ pages, other < file.count := by
  induction chain with
  | last bounded _ _ _ => simpa using bounded
  | more bounded _ _ _ ih => simpa using ⟨bounded, ih⟩

theorem ContPages.head_mem {page : PageId} (chain : ContPages file page pages ids) :
    page ∈ pages := by
  cases chain with
  | last _ _ _ _ => simp
  | more _ _ _ _ => simp

/-- The last continuation page, and how the pages before it go on when it is extended. -/
structure LastPage (file : PageFile AdjPage) (page : PageId) (pages : List PageId)
    (ids : List Nat) (front : List PageId) (last : PageId) (whole edges : List Nat) : Prop where
  allPages : pages = front ++ [last]
  allIds : ids = whole ++ edges
  bounded : last < file.count
  content : file.page last = .cont edges none
  nonempty : edges ≠ []
  fits : edges.length ≤ maxEdgesContPage
  full : whole.length = maxEdgesContPage * front.length
  extend : ∀ file' : PageFile AdjPage, file.count ≤ file'.count →
    (∀ other ∈ front, file'.page other = file.page other) → ∀ more later,
      ContPages file' last more later → ContPages file' page (front ++ more) (whole ++ later)

theorem ContPages.lastPage {page : PageId} (chain : ContPages file page pages ids) :
    ∃ front last whole edges, LastPage file page pages ids front last whole edges := by
  induction chain with
  | @last page edges bounded content nonempty fits =>
    exact ⟨[], page, [], edges, rfl, rfl, bounded, content, nonempty, fits, rfl,
      fun _ _ _ _ _ chain => chain⟩
  | @more page next pages edges rest bounded content full tail ih =>
    obtain ⟨front, last, whole, tailEdges, found⟩ := ih
    have length : (edges ++ whole).length = maxEdgesContPage * (page :: front).length := by
      rw [length_append, full, found.full, length_cons, Nat.mul_add, Nat.mul_one, Nat.add_comm]
    exact ⟨page :: front, last, edges ++ whole, tailEdges,
      { allPages := by rw [found.allPages, cons_append]
        allIds := by rw [found.allIds, append_assoc]
        bounded := found.bounded
        content := found.content
        nonempty := found.nonempty
        fits := found.fits
        full := length
        extend := by
          intro file' grown same more later chain
          rw [cons_append, append_assoc]
          have here := (same page (by simp)).trans content
          have rest := found.extend file' grown
            (fun other mem => same other (.tail _ mem)) more later chain
          exact .more (bounded.trans_le grown) here full rest }⟩

theorem readAdjPage_of_lt {page : PageId} (bounded : page < store.pages.adjacency.count) :
    store.readAdjPage page = .ok (store.pages.adjacency.page page) := by
  simp [readAdjPage, bounded]

theorem ContPages.read {page : PageId} (chain : ContPages store.pages.adjacency page pages ids)
    (total fuel : Nat) (read : List Nat) (length : total = (read ++ ids).length)
    (enough : ids.length < fuel) :
    store.readContinuation total fuel (some page) read = .ok (read ++ ids) := by
  induction chain generalizing fuel read with
  | @last page edges bounded content nonempty fits =>
    obtain ⟨fuel, rfl⟩ : ∃ more, fuel = more + 1 := ⟨fuel - 1, by omega⟩
    have pos : 0 < edges.length := length_pos_iff.mpr nonempty
    rw [length_append] at length
    have unread : read.length < total := by omega
    have whole : edges.take (total - read.length) = edges := take_of_length_le (by omega)
    simp only [readContinuation, unread, ↓reduceIte, readAdjPage_of_lt bounded, content, whole,
      bind, Except.bind]
    cases fuel with
    | zero => rfl
    | succ fuel => rfl
  | @more page next pages edges rest bounded content full tail ih =>
    obtain ⟨fuel, rfl⟩ : ∃ more, fuel = more + 1 := ⟨fuel - 1, by omega⟩
    rw [length_append] at enough
    simp only [length_append] at length
    have cap : maxEdgesContPage = 509 := rfl
    have unread : read.length < total := by omega
    have whole : edges.take (total - read.length) = edges := take_of_length_le (by omega)
    simp only [readContinuation, unread, ↓reduceIte, readAdjPage_of_lt bounded, content, whole,
      bind, Except.bind]
    have later := ih fuel (read ++ edges) (by simp only [length_append]; omega) (by omega)
    rw [later, append_assoc]

/-- The edges of a list on pages of its own, and those pages. A list that fits one page lies on
its first page alone. -/
inductive Chain (file : PageFile AdjPage) (head : PageId) : List PageId → List Nat → Prop
  | single {owner : Nat} {side : AdjDirection} {edges : List Nat} {next : Option PageId}
      {last : PageId} (bounded : head < file.count)
      (content : file.page head = .first owner side edges.length edges next last)
      (fits : edges.length ≤ maxEdgesSinglePage) : Chain file head [head] edges
  | multi {owner : Nat} {side : AdjDirection} {edges rest : List Nat} {next last : PageId}
      {pages : List PageId} (bounded : head < file.count)
      (content : file.page head = .first owner side (edges ++ rest).length edges (some next) last)
      (full : edges.length = maxEdgesChainedPage)
      (exceeds : maxEdgesSinglePage < (edges ++ rest).length)
      (tail : ContPages file next pages rest) (ends : pages.getLast? = some last)
      (nodup : (head :: pages).Nodup) : Chain file head (head :: pages) (edges ++ rest)

theorem Chain.congr {head : PageId} (chain : Chain file head pages ids)
    (grown : file.count ≤ file'.count)
    (same : ∀ other ∈ pages, file'.page other = file.page other) : Chain file' head pages ids := by
  cases chain with
  | single bounded content fits =>
    have here := (same head (by simp)).trans content
    exact .single (bounded.trans_le grown) here fits
  | multi bounded content full exceeds tail ends nodup =>
    have here := (same head (by simp)).trans content
    have later := tail.congr grown fun other mem => same other (.tail _ mem)
    exact .multi (bounded.trans_le grown) here full exceeds later ends nodup

theorem Chain.bounded {head : PageId} (chain : Chain file head pages ids) :
    ∀ other ∈ pages, other < file.count := by
  cases chain with
  | single bounded _ _ => simpa using bounded
  | multi bounded _ _ _ tail _ _ => simpa using ⟨bounded, tail.bounded⟩

theorem Chain.head_mem {head : PageId} (chain : Chain file head pages ids) : head ∈ pages := by
  cases chain with
  | single _ _ _ => simp
  | multi _ _ _ _ _ _ _ => simp

def chainState (head : PageId) (pages : List PageId) (ids : List Nat) : ChainState :=
  stateAfterAppend head (pages.getLast?.getD head) ids.length

theorem Chain.readState {head : PageId} (chain : Chain store.pages.adjacency head pages ids) :
    store.readAdjChainState head = .ok (chainState head pages ids) := by
  cases chain with
  | single bounded content fits =>
    simp [readAdjChainState, readAdjPage_of_lt bounded, content, chainState, stateAfterAppend,
      fits, bind, Except.bind, pure, Except.pure]
  | @multi owner side edges rest next last pages bounded content full exceeds tail ends nodup =>
    have ended : (head :: pages).getLast?.getD head = last := by
      rw [List.getLast?_cons, ends]
      rfl
    simp only [readAdjChainState, readAdjPage_of_lt bounded, content, chainState, ended, bind,
      Except.bind, pure, Except.pure]

theorem Chain.read {head : PageId} (chain : Chain store.pages.adjacency head pages ids) :
    store.readAdjacency head = .ok ids := by
  cases chain with
  | single bounded content fits =>
    simp [readAdjacency, readAdjPage_of_lt bounded, content, fits, bind, Except.bind, pure,
      Except.pure]
  | @multi owner side edges rest next last pages bounded content full exceeds tail ends nodup =>
    have whole : edges.take maxEdgesChainedPage = edges := take_of_length_le (by omega)
    have later := tail.read (edges ++ rest).length ((edges ++ rest).length + 1) edges rfl
      (by rw [length_append]; omega)
    simp only [readAdjacency, readAdjPage_of_lt bounded, content, bind, Except.bind,
      Nat.not_le.mpr exceeds, ↓reduceIte, whole, later]

theorem Chain.not_slab {head : PageId} (chain : Chain store.pages.adjacency head pages ids) :
    store.isAdjSlabPage head = .ok false := by
  cases chain with
  | single bounded content _ =>
    simp [isAdjSlabPage, readAdjPage_of_lt bounded, content, bind, Except.bind, pure, Except.pure]
  | multi bounded content _ _ _ _ _ =>
    simp [isAdjSlabPage, readAdjPage_of_lt bounded, content, bind, Except.bind, pure, Except.pure]

theorem sat_writeAdjPage {page : PageId} (data : AdjPage)
    (bounded : page < store.pages.adjacency.count) :
    Sat (writeAdjPage page data) store
      (fun _ after => after = { store with
        pages := { store.pages with adjacency := store.pages.adjacency.write page data } })
      (fun _ _ => False) := by
  unfold writeAdjPage
  rw [sat_bind, sat_get, if_neg (Nat.not_le.mpr bounded)]
  rfl

/-- The file only grew at its end, apart from the given pages. -/
structure Grew (before after : PageFile AdjPage) (changed : List Nat) : Prop where
  grown : before.count ≤ after.count
  kept : ∀ other < before.count, other ∉ changed → after.page other = before.page other

theorem Grew.trans {first second third : PageFile AdjPage} {changed changed' : List Nat}
    (earlier : Grew first second changed) (later : Grew second third changed') :
    Grew first third (changed ++ changed') := by
  constructor
  · exact earlier.grown.trans later.grown
  · intro other bounded outside
    rw [mem_append, not_or] at outside
    have after := later.kept other (bounded.trans_le earlier.grown) outside.2
    exact after.trans (earlier.kept other bounded outside.1)

theorem grew_write (file : PageFile AdjPage) (page : Nat) (data : AdjPage) :
    Grew file (file.write page data) [page] := by
  constructor
  · exact le_rfl
  · intro other _ outside
    exact update_of_ne (by simpa using outside) _ _

theorem grew_grow (file : PageFile AdjPage) (data : AdjPage) : Grew file (file.grow data) [] := by
  constructor
  · exact Nat.le_succ _
  · intro other bounded _
    exact update_of_ne (bounded.ne) _ _

theorem Grew.mono {changed more : List Nat} (grew : Grew before after changed)
    (sub : ∀ page ∈ changed, page < before.count → page ∈ more) : Grew before after more := by
  constructor
  · exact grew.grown
  · intro other bounded outside
    exact grew.kept other bounded fun mem => outside (sub other mem bounded)

/-- Continuation pages were written from a page on. -/
structure Continues (before after : PageFile AdjPage) (page : Nat) (written : List Nat)
    (edges : List Nat) : Prop where
  grew : Grew before after [page]
  chain : ContPages after page written edges
  nodup : written.Nodup
  fresh : ∀ other ∈ written, other = page ∨ before.count ≤ other

theorem continues_last (bounded : page < file.count) (nonempty : edges ≠ [])
    (fits : edges.length ≤ maxEdgesContPage) :
    Continues file (file.write page (.cont edges none)) page [page] edges := by
  constructor
  · exact grew_write _ _ _
  · exact .last bounded (update_self _ _ _) nonempty fits
  · exact nodup_singleton page
  · intro other mem
    exact .inl (mem_singleton.mp mem)

theorem Continues.cons {others : List Nat} (bounded : page < before.count)
    (full : edges.length = maxEdgesContPage)
    (continues : Continues ((before.grow .blank).write page (.cont edges (some before.count)))
      after before.count others rest) :
    Continues before after page (page :: others) (edges ++ rest) := by
  have inside : page < before.count + 1 := Nat.lt_succ_of_lt bounded
  have apart : page ∉ others := by
    intro mem
    have cases := continues.fresh page mem
    simp only [write_count, grow_count] at cases
    omega
  have self : after.page page = .cont edges (some before.count) := by
    have kept := continues.grew.kept page inside (by
      simp only [mem_singleton]
      omega)
    exact kept.trans (update_self _ _ _)
  have steps := ((grew_grow before .blank).trans (grew_write _ page _)).trans continues.grew
  constructor
  · apply steps.mono
    intro other mem inFile
    simp only [nil_append, cons_append, mem_cons, not_mem_nil, or_false] at mem
    simp only [mem_singleton]
    omega
  · exact .more (inside.trans_le continues.grew.grown) self full continues.chain
  · exact nodup_cons.mpr ⟨apart, continues.nodup⟩
  · intro other mem
    rcases mem_cons.mp mem with same | mem
    · exact .inl same
    · have cases := continues.fresh other mem
      simp only [write_count, grow_count] at cases
      omega

theorem sat_writeContinuationPages (fuel : Nat) (bounded : page < store.pages.adjacency.count)
    (nonempty : edges ≠ []) (enough : edges.length ≤ fuel) :
    Sat (writeContinuationPages fuel page edges) store
      (fun written after =>
        Continues store.pages.adjacency after.pages.adjacency page written edges)
      (fun _ _ => False) := by
  induction fuel generalizing store page edges with
  | zero =>
    have pos := length_pos_iff.mpr nonempty
    omega
  | succ fuel ih =>
    have cap : maxEdgesContPage = 509 := rfl
    rw [writeContinuationPages]
    by_cases fits : edges.length ≤ maxEdgesContPage
    · have none_left : (edges.drop maxEdgesContPage).isEmpty = true := by
        simp [drop_eq_nil_of_le fits]
      have all : edges.take maxEdgesContPage = edges := take_of_length_le fits
      simp only [none_left, ↓reduceIte, all, sat_bind, sat_pure]
      apply (sat_writeAdjPage _ bounded).sure _
      intro _ after wrote
      subst wrote
      exact continues_last bounded nonempty fits
    · have length : (edges.drop maxEdgesContPage).length = edges.length - maxEdgesContPage :=
        length_drop
      have left : edges.drop maxEdgesContPage ≠ [] := by
        intro empty
        rw [empty, length_nil] at length
        omega
      have some_left : (edges.drop maxEdgesContPage).isEmpty = false := by simpa using left
      have full : (edges.take maxEdgesContPage).length = maxEdgesContPage := by
        rw [length_take]
        omega
      simp only [some_left, Bool.false_eq_true, ↓reduceIte, sat_bind, sat_pure, allocateAdjPage,
        sat_get, sat_set]
      apply (sat_writeAdjPage _ (by exact Nat.lt_succ_of_lt bounded)).sure _
      intro _ linked wrote
      subst wrote
      apply (ih (by simp) left (by omega)).sure _
      intro others after continues
      have chain := Continues.cons bounded full continues
      rwa [take_append_drop] at chain

theorem sat_extendLastPage {last : Nat} {filled : List Nat}
    (bounded : last < store.pages.adjacency.count) (nonempty : filled ≠ [])
    (fits : filled.length ≤ maxEdgesContPage)
    (full : rest ≠ [] → filled.length = maxEdgesContPage) :
    Sat (extendLastPage last filled rest) store
      (fun written after =>
        Continues store.pages.adjacency after.pages.adjacency last written (filled ++ rest))
      (fun _ _ => False) := by
  unfold extendLastPage
  by_cases done : rest = []
  · subst done
    simp only [isEmpty_nil, ↓reduceIte, sat_bind, sat_pure, append_nil]
    apply (sat_writeAdjPage _ bounded).sure _
    intro _ after wrote
    subst wrote
    exact continues_last bounded nonempty fits
  · have some_left : rest.isEmpty = false := by simpa using done
    simp only [some_left, Bool.false_eq_true, ↓reduceIte, sat_bind, sat_pure, allocateAdjPage,
      sat_get, sat_set]
    apply (sat_writeAdjPage _ (by exact Nat.lt_succ_of_lt bounded)).sure _
    intro _ linked wrote
    subst wrote
    apply (sat_writeContinuationPages rest.length (by simp) done le_rfl).sure _
    intro others after continues
    exact continues.cons bounded (full done)

variable {owner : Nat} {side : AdjDirection} {next : Option PageId}

theorem sat_backpatchLastPage {total : Nat} {old : PageId} (last : PageId)
    (bounded : first < store.pages.adjacency.count)
    (content : store.pages.adjacency.page first = .first owner side total edges next old) :
    Sat (backpatchLastPage first last) store
      (fun _ after => after = { store with pages := { store.pages with
        adjacency := store.pages.adjacency.write first (.first owner side total edges next last) } })
      (fun _ _ => False) := by
  unfold backpatchLastPage
  simp only [sat_bind, sat_get, readAdjPage_of_lt bounded, content, sat_ofResult_ok]
  exact sat_writeAdjPage _ bounded

theorem ContPages.getLast {page : PageId} (chain : ContPages file page pages ids) (other : PageId) :
    pages.getLast? = some (pages.getLast?.getD other) := by
  cases chain with
  | last _ _ _ _ => rfl
  | more _ _ _ _ => rw [List.getLast?_cons, getD_some]

/-- A first page followed by written continuation pages is a chain once its last page is
recorded on it. -/
theorem Continues.chain_of_first {next : Nat} {written : List Nat}
    (continues : Continues before after next written rest) (owner : Nat) (side : AdjDirection)
    (bounded : first < before.count) (apart : first ≠ next)
    (full : edges.length = maxEdgesChainedPage)
    (exceeds : maxEdgesSinglePage < (edges ++ rest).length) (ends : written.getLast? = some last) :
    Chain (after.write first (.first owner side (edges ++ rest).length edges (some next) last))
      first (first :: written) (edges ++ rest) := by
  have outside : first ∉ written := by
    intro mem
    have cases := continues.fresh first mem
    omega
  have tail : ContPages (after.write first
      (.first owner side (edges ++ rest).length edges (some next) last)) next written rest := by
    apply continues.chain.congr (Nat.le_of_eq (write_count _ _ _).symm)
    intro other mem
    have ne : other ≠ first := fun same => outside (same ▸ mem)
    exact update_of_ne ne _ _
  exact .multi (bounded.trans_le continues.grew.grown) (update_self _ _ _) full
    exceeds tail ends (nodup_cons.mpr ⟨outside, continues.nodup⟩)

/-- A list was written or extended on pages of its own. -/
structure ChainGrew (before after : PageFile AdjPage) (head : Nat) (pages pages' : List Nat)
    (ids : List Nat) : Prop where
  grew : Grew before after pages
  chain : Chain after head pages' ids
  fresh : ∀ other ∈ pages', other ∈ pages ∨ before.count ≤ other
  longer : ∀ other ∈ pages, other ∈ pages'

variable (node : Nat) (direction : AdjDirection)

theorem sat_writeAdjacency (edges : List Nat) :
    Sat (writeAdjacency node direction edges) store
      (fun head after => ∃ pages,
        ChainGrew store.pages.adjacency after.pages.adjacency head [] pages edges ∧
        (edges.length ≤ maxEdgesSinglePage → pages = [head]))
      (fun _ _ => False) := by
  unfold writeAdjacency
  by_cases fits : edges.length ≤ maxEdgesSinglePage
  · simp only [fits, ↓reduceIte, sat_bind, allocateAdjPage, sat_get, sat_set, sat_pure]
    apply (sat_writeAdjPage _ (by simp)).sure _
    intro _ after wrote
    subst wrote
    have steps := (grew_grow store.pages.adjacency .blank).trans (grew_write _
      store.pages.adjacency.count (.first node direction edges.length edges none
        store.pages.adjacency.count))
    have grew : Grew _ _ [] := steps.mono (by
      intro page mem inside
      simp only [nil_append, mem_singleton] at mem
      omega)
    exact ⟨[store.pages.adjacency.count],
      ⟨grew, .single (Nat.lt_succ_self _) (update_self _ _ _) fits, by simp, by simp⟩,
      fun _ => rfl⟩
  · have exceeds : maxEdgesSinglePage < edges.length := not_le.mp fits
    have single : maxEdgesSinglePage = 508 := rfl
    have chained : maxEdgesChainedPage = 507 := rfl
    have full : (edges.take maxEdgesChainedPage).length = maxEdgesChainedPage := by
      rw [length_take]
      omega
    have left : edges.drop maxEdgesChainedPage ≠ [] := by
      intro empty
      have length : (edges.drop maxEdgesChainedPage).length = edges.length - maxEdgesChainedPage :=
        length_drop
      rw [empty, length_nil] at length
      omega
    simp only [fits, ↓reduceIte, sat_bind, allocateAdjPage, sat_get, sat_set, sat_pure,
      grow_count]
    have inside : store.pages.adjacency.count < store.pages.adjacency.count + 1 + 1 := by omega
    apply (sat_writeAdjPage _ (by exact inside)).sure _
    intro _ started wrote
    subst wrote
    apply (sat_writeContinuationPages edges.length (by simp) left
      (by rw [length_drop]; omega)).sure _
    intro written continued continues
    have here := (continues.grew.kept store.pages.adjacency.count (by exact inside)
      (by simp)).trans (update_self _ _ _)
    apply (sat_backpatchLastPage _ (lt_of_lt_of_le (by exact inside) continues.grew.grown)
      here).sure _
    intro _ after patched
    subst patched
    have ends := continues.chain.getLast (store.pages.adjacency.count + 1)
    have chain := continues.chain_of_first node direction (by exact inside) (Nat.ne_of_lt (Nat.lt_succ_self _))
      full (by rw [take_append_drop]; exact exceeds) ends
    rw [take_append_drop] at chain
    have steps := (((grew_grow store.pages.adjacency .blank).trans
      (grew_grow _ .blank)).trans (grew_write _ store.pages.adjacency.count _)).trans
      (continues.grew.trans (grew_write _ store.pages.adjacency.count
        (.first node direction edges.length (edges.take maxEdgesChainedPage)
          (some (store.pages.adjacency.count + 1))
          (written.getLast?.getD (store.pages.adjacency.count + 1)))))
    have grew : Grew _ _ [] := steps.mono (by
      intro page mem inFile
      simp only [nil_append, cons_append, mem_cons, not_mem_nil, or_false] at mem
      omega)
    have fresh : ∀ other ∈ store.pages.adjacency.count :: written,
        other ∈ ([] : List Nat) ∨ store.pages.adjacency.count ≤ other := by
      intro other mem
      rcases mem_cons.mp mem with same | mem
      · exact .inr (le_of_eq same.symm)
      · have cases := continues.fresh other mem
        simp only [write_count, grow_count] at cases
        exact .inr (by omega)
    exact ⟨_, ⟨grew, chain, fresh, by simp⟩, False.elim⟩

/-- What an append to a chain answers: its first page, the pages it wrote and its new state. -/
structure ChainAppended (before after : PageFile AdjPage) (pages : List Nat) (ids : List Nat)
    (answer : PageId × List PageId × ChainState) (pages' : List Nat) : Prop where
  grew : ChainGrew before after answer.1 pages pages' ids
  state : answer.2.2 = chainState answer.1 pages' ids

theorem sat_startChain (cached : Option ChainState) (added : List Nat) :
    Sat (appendAdjacencyWithState node direction none cached added) store
      (fun answer after => ∃ pages,
        ChainAppended store.pages.adjacency after.pages.adjacency [] added answer pages ∧
        answer.2.1 = [answer.1] ∧ (added.length ≤ maxEdgesSinglePage → pages = [answer.1]))
      (fun _ _ => False) := by
  unfold appendAdjacencyWithState
  simp only [sat_bind, sat_get]
  apply (sat_writeAdjacency node direction added).sure _
  intro head after started
  obtain ⟨pages, grew, short⟩ := started
  have state : (if added.length ≤ maxEdgesSinglePage then
      .ok (stateAfterAppend head head added.length)
      else after.readAdjChainState head : Except Error ChainState) =
      .ok (chainState head pages added) := by
    by_cases fits : added.length ≤ maxEdgesSinglePage
    · rw [if_pos fits, short fits]
      rfl
    · rw [if_neg fits, grew.chain.readState]
  rw [state, sat_ofResult_ok, sat_pure]
  exact ⟨pages, ⟨grew, rfl⟩, rfl, short⟩

/-- Every page an append changed is among those it answers. -/
def Reports (before after : PageFile AdjPage) (written pages pages' : List Nat) : Prop :=
  ∀ other ∈ pages', other ∈ written ∨ other ∈ pages ∧ after.page other = before.page other

theorem sat_appendState (store : Store) (first : PageId) (cached : Option ChainState)
    (state : ChainState) : (∀ known, cached = some known → known = state) →
    store.readAdjChainState first = .ok state →
    Sat (ofResult (match cached with
      | some state => .ok state
      | none => store.readAdjChainState first) : StoreM ChainState) store
      (fun answer after => answer = state ∧ after = store) (fun _ _ => False) := by
  intro known read
  cases cached with
  | none =>
    rw [read]
    exact ⟨rfl, rfl⟩
  | some cached => exact ⟨known cached rfl, rfl⟩

/-- An append to a chain that lies on one page. -/
theorem sat_extendSingle (cached : Option ChainState) (added : List Nat)
    (bounded : first < store.pages.adjacency.count)
    (content : store.pages.adjacency.page first = .first owner side ids.length ids next last)
    (fits : ids.length ≤ maxEdgesSinglePage)
    (known : ∀ state, cached = some state → state = chainState first [first] ids) :
    Sat (appendAdjacencyWithState node direction (some first) cached added) store
      (fun answer after => answer.1 = first ∧ ∃ pages,
        ChainAppended store.pages.adjacency after.pages.adjacency [first] (ids ++ added) answer
          pages ∧
        Reports store.pages.adjacency after.pages.adjacency answer.2.1 [first] pages)
      (fun _ _ => False) := by
  have chain : Chain store.pages.adjacency first [first] ids := .single bounded content fits
  have simple : chainState first [first] ids = ⟨first, first, ids.length, ids.length, true⟩ := by
    simp [chainState, stateAfterAppend, fits]
  unfold appendAdjacencyWithState
  simp only [sat_bind, sat_get]
  apply (sat_appendState store first cached _ known chain.readState).sure _
  intro state same start
  rw [start.1, start.2]
  simp only [simple, sat_ofResult_ok, readAdjPage_of_lt bounded, content, ↓reduceIte]
  by_cases room : ids.length + added.length ≤ maxEdgesSinglePage
  · simp only [room, ↓reduceIte, sat_bind, sat_pure, take_length]
    apply (sat_writeAdjPage _ bounded).sure _
    intro _ after wrote
    subst wrote
    have total : ids.length + added.length = (ids ++ added).length := length_append.symm
    have longer : Chain (store.pages.adjacency.write first
        (.first owner side (ids.length + added.length) (ids ++ added) next last)) first [first]
        (ids ++ added) := by
      rw [total]
      exact .single bounded (update_self _ _ _) (total ▸ room)
    refine ⟨trivial, [first], ⟨⟨grew_write _ _ _, longer, by simp, by simp⟩, ?_⟩, by simp [Reports]⟩
    rw [total]
    rfl
  · have exceeds : maxEdgesSinglePage < (ids ++ added).length := by
      rw [length_append]
      exact not_le.mp room
    have single : maxEdgesSinglePage = 508 := rfl
    have chained : maxEdgesChainedPage = 507 := rfl
    have full : ((ids ++ added).take maxEdgesChainedPage).length = maxEdgesChainedPage := by
      rw [length_take]
      omega
    have length : ((ids ++ added).drop maxEdgesChainedPage).length =
        (ids ++ added).length - maxEdgesChainedPage := length_drop
    have left : (ids ++ added).drop maxEdgesChainedPage ≠ [] := by
      intro empty
      rw [empty, length_nil] at length
      omega
    simp only [room, ↓reduceIte, sat_bind, chain.read, sat_ofResult_ok, allocateAdjPage, sat_get,
      sat_set, sat_pure]
    have inside : first < store.pages.adjacency.count + 1 := Nat.lt_succ_of_lt bounded
    apply (sat_writeAdjPage _ (by exact inside)).sure _
    intro _ started wrote
    subst wrote
    apply (sat_writeContinuationPages (ids ++ added).length (by simp) left (by omega)).sure _
    intro written continued continues
    have apart : first ≠ store.pages.adjacency.count := Nat.ne_of_lt bounded
    have here := (continues.grew.kept first (by exact inside) (by simpa using apart)).trans
      (update_self _ _ _)
    apply (sat_backpatchLastPage _ (lt_of_lt_of_le (by exact inside) continues.grew.grown)
      here).sure _
    intro _ after patched
    subst patched
    have ends := continues.chain.getLast first
    have longer := continues.chain_of_first owner side (by exact inside) apart full
      (by rw [take_append_drop]; exact exceeds) ends
    rw [take_append_drop] at longer
    have steps := ((grew_grow store.pages.adjacency .blank).trans (grew_write _ first _)).trans
      (continues.grew.trans (grew_write _ first
        (.first owner side (ids ++ added).length ((ids ++ added).take maxEdgesChainedPage)
          (some store.pages.adjacency.count) (written.getLast?.getD first))))
    have grew : Grew _ _ [first] := steps.mono (by
      intro page mem inFile
      simp only [nil_append, cons_append, mem_cons, not_mem_nil, or_false] at mem
      simp only [mem_singleton]
      omega)
    have fresh : ∀ other ∈ first :: written,
        other ∈ [first] ∨ store.pages.adjacency.count ≤ other := by
      intro other mem
      rcases mem_cons.mp mem with same | mem
      · exact .inl (by simpa using same)
      · have cases := continues.fresh other mem
        simp only [write_count, grow_count] at cases
        exact .inr (by omega)
    have total : ids.length + added.length = (ids ++ added).length := length_append.symm
    rw [total]
    refine ⟨trivial, first :: written, ⟨⟨grew, longer, fresh, by simp⟩, ?_⟩,
      fun other mem => .inl mem⟩
    simp only [chainState, List.getLast?_cons, getD_some]

theorem stateAfterAppend_of_exceeds (head last : PageId) {total pages used : Nat}
    (exceeds : maxEdgesSinglePage < total) (pos : 0 < used) (fits : used ≤ maxEdgesContPage)
    (split : total - maxEdgesChainedPage = maxEdgesContPage * pages + used) :
    stateAfterAppend head last total = ⟨head, last, total, used, false⟩ := by
  have fill : (if (maxEdgesContPage * pages + used) % maxEdgesContPage = 0 then maxEdgesContPage
      else (maxEdgesContPage * pages + used) % maxEdgesContPage) = used := by
    rw [Nat.mul_add_mod]
    by_cases whole : used = maxEdgesContPage
    · rw [whole, Nat.mod_self, if_pos rfl]
    · have less : used < maxEdgesContPage := lt_of_le_of_ne fits whole
      rw [Nat.mod_eq_of_lt less, if_neg (pos.ne')]
  unfold stateAfterAppend
  rw [if_neg (Nat.not_le.mpr exceeds), split]
  dsimp only
  rw [fill]

/-- An append to a chain of several pages. -/
theorem sat_extendMulti {next : Nat} {pages : List Nat} (cached : Option ChainState)
    (added : List Nat) (bounded : first < store.pages.adjacency.count)
    (content : store.pages.adjacency.page first =
      .first owner side (edges ++ rest).length edges (some next) last)
    (full : edges.length = maxEdgesChainedPage)
    (exceeds : maxEdgesSinglePage < (edges ++ rest).length)
    (tail : ContPages store.pages.adjacency next pages rest) (ends : pages.getLast? = some last)
    (nodup : (first :: pages).Nodup) (known : ∀ state, cached = some state →
      state = chainState first (first :: pages) (edges ++ rest)) :
    Sat (appendAdjacencyWithState node direction (some first) cached added) store
      (fun answer after => answer.1 = first ∧ ∃ pages',
        ChainAppended store.pages.adjacency after.pages.adjacency (first :: pages)
          (edges ++ rest ++ added) answer pages' ∧
        Reports store.pages.adjacency after.pages.adjacency answer.2.1 (first :: pages) pages')
      (fun _ _ => False) := by
  have chain : Chain store.pages.adjacency first (first :: pages) (edges ++ rest) :=
    .multi bounded content full exceeds tail ends nodup
  obtain ⟨front, last', whole, present, found⟩ := tail.lastPage
  obtain rfl : last' = last := by
    rw [found.allPages, List.getLast?_append] at ends
    simpa using ends
  have ended : (first :: pages).getLast?.getD first = last' := by
    rw [List.getLast?_cons, ends]
    rfl
  have cap : maxEdgesContPage = 509 := rfl
  have fits := found.fits
  have pos := length_pos_iff.mpr found.nonempty
  have restLength : rest.length = maxEdgesContPage * front.length + present.length := by
    rw [found.allIds, length_append, found.full]
  have state : chainState first (first :: pages) (edges ++ rest) =
      ⟨first, last', (edges ++ rest).length, present.length, false⟩ := by
    unfold chainState
    rw [ended]
    apply stateAfterAppend_of_exceeds first last' exceeds pos fits
    rw [length_append, full, Nat.add_sub_cancel_left, restLength]
  unfold appendAdjacencyWithState
  simp only [sat_bind, sat_get]
  apply (sat_appendState store first cached _ known chain.readState).sure _
  intro start same started
  rw [started.1, started.2, state]
  have lastContent := found.content
  simp only [sat_ofResult_ok, readAdjPage_of_lt bounded, content, Bool.false_eq_true, ↓reduceIte,
    sat_bind, readAdjPage_of_lt found.bounded, lastContent, take_length, sat_pure]
  have filledLength : (present ++ added.take (maxEdgesContPage - present.length)).length =
      present.length + min (maxEdgesContPage - present.length) added.length := by
    rw [length_append, length_take]
  apply (sat_extendLastPage found.bounded (by simp [found.nonempty])
    (by omega) (by
      intro more
      have length : 0 < (added.drop (maxEdgesContPage - present.length)).length :=
        length_pos_iff.mpr more
      rw [length_drop] at length
      omega)).sure _
  intro written continued continues
  rw [append_assoc, take_append_drop] at continues
  have firstOutside : first ∉ pages := (nodup_cons.mp nodup).1
  have lastMember : last' ∈ pages := by
    rw [found.allPages]
    simp
  have apart : first ≠ last' := fun same => firstOutside (same ▸ lastMember)
  have inside := bounded.trans_le continues.grew.grown
  apply (sat_writeAdjPage _ inside).sure _
  intro _ after wrote
  subst wrote
  have distinct := (nodup_cons.mp nodup).2
  rw [found.allPages] at distinct
  have frontMember : ∀ other ∈ front, other ∈ pages := by
    intro other mem
    rw [found.allPages]
    exact mem_append_left _ mem
  have frontApart : ∀ other ∈ front, other ≠ last' := by
    intro other mem same
    have disjoint := disjoint_of_nodup_append distinct
    exact disjoint mem (by simp [same])
  have writtenApart : ∀ other ∈ written, other ≠ first ∧ other ∉ front := by
    intro other mem
    rcases continues.fresh other mem with same | beyond
    · exact ⟨fun equal => apart (equal.symm.trans same),
        fun inFront => frontApart other inFront same⟩
    · constructor
      · intro equal
        exact absurd bounded (Nat.not_lt.mpr (equal ▸ beyond))
      · intro inFront
        have inFile := tail.bounded other (frontMember other inFront)
        exact absurd inFile (Nat.not_lt.mpr beyond)
  have keptFront : ∀ other ∈ front, (continued.pages.adjacency.write first
      (.first owner side ((edges ++ rest).length + added.length) edges (some next)
        (written.getLast?.getD last'))).page other = store.pages.adjacency.page other := by
    intro other mem
    have ne : other ≠ first := by
      intro same
      exact firstOutside (same ▸ frontMember other mem)
    have kept := continues.grew.kept other (tail.bounded other (frontMember other mem))
      (by simpa using frontApart other mem)
    exact (update_of_ne ne _ _).trans kept
  have lastPart : ContPages (continued.pages.adjacency.write first
      (.first owner side ((edges ++ rest).length + added.length) edges (some next)
        (written.getLast?.getD last'))) last' written (present ++ added) := by
    apply continues.chain.congr (Nat.le_of_eq (write_count _ _ _).symm)
    intro other mem
    exact update_of_ne (writtenApart other mem).1 _ _
  have later := found.extend (continued.pages.adjacency.write first _) continues.grew.grown
    keptFront written _ lastPart
  rw [← append_assoc, ← found.allIds] at later
  have total : (edges ++ rest).length + added.length = (edges ++ (rest ++ added)).length := by
    simp only [length_append]
    omega
  have ends' : (front ++ written).getLast? = some (written.getLast?.getD last') := by
    rw [List.getLast?_append, continues.chain.getLast last']
    rfl
  have nodup' : (first :: (front ++ written)).Nodup := by
    rw [nodup_cons, mem_append, not_or, nodup_append]
    constructor
    · exact ⟨fun mem => firstOutside (frontMember first mem),
        fun mem => (writtenApart first mem).1 rfl⟩
    · refine ⟨distinct.of_append_left, continues.nodup, ?_⟩
      intro left inFront right inWritten same
      exact (writtenApart right inWritten).2 (same ▸ inFront)
  have grew : Grew store.pages.adjacency (continued.pages.adjacency.write first
      (.first owner side ((edges ++ rest).length + added.length) edges (some next)
        (written.getLast?.getD last'))) (first :: pages) := by
    apply (continues.grew.trans (grew_write _ first _)).mono
    intro page mem _
    rcases mem_append.mp mem with isLast | isFirst
    · rw [mem_singleton.mp isLast]
      exact .tail _ lastMember
    · rw [mem_singleton.mp isFirst]
      exact mem_cons_self
  have fresh : ∀ other ∈ first :: (front ++ written),
      other ∈ first :: pages ∨ store.pages.adjacency.count ≤ other := by
    intro other mem
    rcases mem_cons.mp mem with same | mem
    · exact .inl (by simp [same])
    · rcases mem_append.mp mem with inFront | inWritten
      · exact .inl (.tail _ (frontMember other inFront))
      · rcases continues.fresh other inWritten with same | beyond
        · exact .inl (same ▸ .tail _ lastMember)
        · exact .inr beyond
  have longer : ∀ other ∈ first :: pages, other ∈ first :: (front ++ written) := by
    rw [found.allPages]
    intro other mem
    have lastWritten := continues.chain.head_mem
    simp only [mem_cons, mem_append, not_mem_nil, or_false] at mem ⊢
    rcases mem with same | inFront | same
    · exact .inl same
    · exact .inr (.inl inFront)
    · exact .inr (.inr (same ▸ lastWritten))
  refine ⟨trivial, first :: (front ++ written), ⟨⟨grew, ?_, fresh, longer⟩, ?_⟩, ?_⟩
  · rw [append_assoc]
    rw [total] at later ⊢
    exact .multi inside (update_self _ _ _) full
      (by simp only [length_append] at exceeds ⊢; omega) later ends' nodup'
  · simp only [chainState, List.getLast?_cons, ends', getD_some]
    rw [append_assoc, total]
  · intro other mem
    rcases mem_cons.mp mem with same | mem
    · exact .inl (by simp [same])
    · rcases mem_append.mp mem with inFront | inWritten
      · exact .inr ⟨.tail _ (frontMember other inFront), keptFront other inFront⟩
      · exact .inl (mem_append_left _ inWritten)

theorem sat_extendChain {pages : List Nat} (cached : Option ChainState) (added : List Nat)
    (chain : Chain store.pages.adjacency first pages ids)
    (known : ∀ state, cached = some state → state = chainState first pages ids) :
    Sat (appendAdjacencyWithState node direction (some first) cached added) store
      (fun answer after => answer.1 = first ∧ ∃ pages',
        ChainAppended store.pages.adjacency after.pages.adjacency pages (ids ++ added) answer
          pages' ∧
        Reports store.pages.adjacency after.pages.adjacency answer.2.1 pages pages')
      (fun _ _ => False) := by
  cases chain with
  | single bounded content fits =>
    exact sat_extendSingle node direction cached added bounded content fits known
  | multi bounded content full exceeds tail ends nodup =>
    exact sat_extendMulti node direction cached added bounded content full exceeds tail ends
      nodup known

/-- The pages that were not given out are unused, and shared pages hold sub-blocks. -/
structure Shape (file : PageFile AdjPage) (use : Nat → AdjUse) : Prop where
  beyond : ∀ page, file.count ≤ page → use page = .unused
  slab : ∀ page, use page = .shared → ∃ entries, file.page page = .slab entries

/-- A head page lists the edges of a node and direction. A chain also has an append state. -/
inductive ListAt (file : PageFile AdjPage) (use : Nat → AdjUse) (key : ListKey) (head : Nat) :
    List Nat → Option ChainState → Prop
  | packed {entries : List Subblock} {entry : Subblock} (bounded : head < file.count)
      (purpose : use head = .shared) (content : file.page head = .slab entries)
      (found : entries.find? (Subblock.isFor key.1 key.2) = some entry) :
      ListAt file use key head entry.edges none
  | chained {pages : List Nat} {ids : List Nat} (chain : Chain file head pages ids)
      (purpose : ∀ page ∈ pages, use page = .chain key head) :
      ListAt file use key head ids (some (chainState head pages ids))

theorem ListAt.congr {use' : Nat → AdjUse} (listed : ListAt file use key head ids tail)
    (grown : file.count ≤ file'.count)
    (kept : ∀ page < file.count, page = head ∨ use page = .chain key head →
      file'.page page = file.page page ∧ use' page = use page) :
    ListAt file' use' key head ids tail := by
  cases listed with
  | packed bounded purpose content found =>
    obtain ⟨samePage, sameUse⟩ := kept head bounded (.inl rfl)
    exact .packed (bounded.trans_le grown) (sameUse.trans purpose)
      (samePage.trans content) found
  | chained chain purpose =>
    have same : ∀ page ∈ _, file'.page page = file.page page ∧ use' page = use page :=
      fun page mem => kept page (chain.bounded page mem) (.inr (purpose page mem))
    exact .chained (chain.congr grown fun page mem => (same page mem).1)
      fun page mem => (same page mem).2.trans (purpose page mem)

theorem ListAt.use_head (listed : ListAt file use key head ids tail) :
    use head = .shared ∧ tail = none ∨ use head = .chain key head := by
  cases listed with
  | packed _ purpose _ _ => exact .inl ⟨purpose, rfl⟩
  | chained chain purpose => exact .inr (purpose head chain.head_mem)

theorem ListAt.shared (listed : ListAt file use key head ids none) : use head = .shared := by
  cases listed with
  | packed _ purpose _ _ => exact purpose

theorem findLiveEntry_snd (entries : List Subblock) (node : Nat) (direction : AdjDirection) :
    (findLiveEntry entries node direction).map Prod.snd =
      entries.find? (Subblock.isFor node direction) := by
  unfold findLiveEntry
  rw [List.find?_eq_bind_findIdx?_getElem?]
  cases entries.findIdx? (Subblock.isFor node direction) with
  | none => rfl
  | some index =>
    cases found : entries[index]? with
    | none => simp [found]
    | some entry => simp [found]

theorem findLiveEntry_split {node : Nat} {direction : AdjDirection} {entry : Subblock}
    (found : findLiveEntry entries node direction = some (index, entry)) :
    ∃ front back, entries = front ++ entry :: back ∧ index = front.length ∧
      Subblock.isFor node direction entry ∧ ∀ other ∈ front, ¬Subblock.isFor node direction other := by
  unfold findLiveEntry at found
  cases position : entries.findIdx? (Subblock.isFor node direction) with
  | none =>
    rw [position] at found
    cases found
  | some i =>
    obtain ⟨inside, holds, earlier⟩ := List.findIdx?_eq_some_iff_getElem.mp position
    simp only [position, List.getElem?_eq_getElem inside, map_some, some.injEq,
      Prod.mk.injEq] at found
    obtain ⟨rfl, rfl⟩ := found
    refine ⟨entries.take i, entries.drop (i + 1), ?_, ?_, holds, ?_⟩
    · rw [← drop_eq_getElem_cons inside, take_append_drop]
    · rw [length_take]
      omega
    · intro other mem
      obtain ⟨j, below, rfl⟩ := mem_take_iff_getElem.mp mem
      exact earlier j (by omega)

variable {other : ListKey}

theorem Subblock.isFor_unique {entry : Subblock} (own : Subblock.isFor key.1 key.2 entry)
    (ne : other ≠ key) : ¬Subblock.isFor other.1 other.2 entry := by
  intro shared
  simp only [Subblock.isFor, Bool.and_eq_true, decide_eq_true_eq] at own shared
  have sameSide : other.2 = key.2 := some.inj (shared.2.symm.trans own.2)
  exact ne (Prod.ext (shared.1.symm.trans own.1) sameSide)

theorem find?_set_of_ne {entry fresh : Subblock}
    (found : findLiveEntry entries key.1 key.2 = some (index, entry)) (ne : other ≠ key)
    (notOther : ¬Subblock.isFor other.1 other.2 fresh) :
    (entries.set index fresh).find? (Subblock.isFor other.1 other.2) =
      entries.find? (Subblock.isFor other.1 other.2) := by
  obtain ⟨front, back, rfl, rfl, own, _⟩ := findLiveEntry_split found
  have apart := Subblock.isFor_unique own ne
  rw [set_append_right _ _ le_rfl, Nat.sub_self, set_cons_zero, List.find?_append,
    List.find?_append, List.find?_cons_of_neg notOther, List.find?_cons_of_neg apart]

theorem find?_set_self {entry fresh : Subblock}
    (found : findLiveEntry entries key.1 key.2 = some (index, entry))
    (own : Subblock.isFor key.1 key.2 fresh) :
    (entries.set index fresh).find? (Subblock.isFor key.1 key.2) = some fresh := by
  obtain ⟨front, back, rfl, rfl, _, earlier⟩ := findLiveEntry_split found
  have missing : front.find? (Subblock.isFor key.1 key.2) = none := List.find?_eq_none.mpr earlier
  rw [set_append_right _ _ le_rfl, Nat.sub_self, set_cons_zero, List.find?_append,
    missing, List.find?_cons_of_pos own, none_or]

/-- Only the touched pages changed, and lists at other places than the given one are as
before. -/
structure ListsKept (before after : PageFile AdjPage) (use use' : Nat → AdjUse) (key : ListKey)
    (head : Nat) (touched : List Nat) : Prop where
  grown : before.count ≤ after.count
  shape : Shape after use'
  others : ∀ key' head' ids' tail', key' ≠ key ∨ head' ≠ head →
    ListAt before use key' head' ids' tail' → ListAt after use' key' head' ids' tail'
  shared : ∀ page, use page = .shared → use' page = .shared
  kept : ∀ page, page ∉ touched → use' page = use page ∧
    (page < before.count → after.page page = before.page page)

/-- A list was put at a head page. -/
structure ListPut (before after : PageFile AdjPage) (use use' : Nat → AdjUse) (key : ListKey)
    (head : Nat) (ids : List Nat) (tail : Option ChainState) (touched : List Nat) : Prop
    extends ListsKept before after use use' key head touched where
  here : ListAt after use' key head ids tail

def claim (use : Nat → AdjUse) (pages : List Nat) (key : ListKey) (head : Nat) : Nat → AdjUse :=
  fun page => if page ∈ pages then .chain key head else use page

theorem ChainGrew.listPut {pages pages' touched : List Nat}
    (grew : ChainGrew before after head pages pages' ids) (shape : Shape before use)
    (purpose : ∀ page ∈ pages, use page = .chain key head)
    (reports : ∀ page ∈ pages', page ∈ touched ∨
      page ∈ pages ∧ after.page page = before.page page) :
    ListPut before after use (claim use pages' key head) key head ids
      (some (chainState head pages' ids)) touched := by
  have claimed : ∀ page ∈ pages', claim use pages' key head page = .chain key head :=
    fun page mem => if_pos mem
  have unclaimed : ∀ page ∉ pages', claim use pages' key head page = use page :=
    fun page outside => if_neg outside
  -- Pages in use for something else are neither on the chain nor fresh.
  have apart : ∀ page, use page ≠ .unused → use page ≠ .chain key head → page ∉ pages' := by
    intro page inUse other mem
    rcases grew.fresh page mem with old | beyond
    · exact other (purpose page old)
    · exact inUse (shape.beyond page beyond)
  refine ⟨?_, .chained grew.chain claimed⟩
  constructor
  · exact grew.grew.grown
  · constructor
    · intro page beyond
      have outside : page ∉ pages' := fun mem =>
        absurd (grew.chain.bounded page mem) (Nat.not_lt.mpr beyond)
      rw [unclaimed page outside]
      exact shape.beyond page (grew.grew.grown.trans beyond)
    · intro page isShared
      have outside : page ∉ pages' := by
        intro mem
        rw [claimed page mem] at isShared
        cases isShared
      rw [unclaimed page outside] at isShared
      have notOld : page ∉ pages := fun old => outside (grew.longer page old)
      have inside : page < before.count := by
        by_contra beyond
        rw [shape.beyond page (not_lt.mp beyond)] at isShared
        cases isShared
      obtain ⟨entries, content⟩ := shape.slab page isShared
      exact ⟨entries, (grew.grew.kept page inside notOld).trans content⟩
  · intro key' head' ids' tail' ne listed
    apply listed.congr grew.grew.grown
    intro page inside own
    have outside : page ∉ pages' := by
      have useHead := listed.use_head
      rcases own with rfl | own
      · rcases useHead with ⟨isShared, _⟩ | isChain
        · exact apart page (by rw [isShared]; exact nofun) (by rw [isShared]; exact nofun)
        · apply apart page (by rw [isChain]; exact nofun)
          rw [isChain]
          intro same
          injection same with sameKey sameHead
          rcases ne with other | other
          · exact other sameKey
          · exact other sameHead
      · apply apart page (by rw [own]; exact nofun)
        rw [own]
        intro same
        injection same with sameKey sameHead
        rcases ne with other | other
        · exact other sameKey
        · exact other sameHead
    have notOld : page ∉ pages := fun old => outside (grew.longer page old)
    exact ⟨grew.grew.kept page inside notOld, unclaimed page outside⟩
  · intro page isShared
    rw [unclaimed page (apart page (by rw [isShared]; exact nofun) (by rw [isShared]; exact nofun))]
    exact isShared
  · intro page untouched
    by_cases mem : page ∈ pages'
    · rcases reports page mem with isTouched | ⟨old, same⟩
      · exact absurd isTouched untouched
      · exact ⟨(claimed page mem).trans (purpose page old).symm, fun _ => same⟩
    · have notOld : page ∉ pages := fun old => mem (grew.longer page old)
      exact ⟨unclaimed page mem, fun inside => grew.grew.kept page inside notOld⟩

variable {entries' : List Subblock}

/-- A shared page was rewritten with the same entries for all lists but one. -/
theorem listsKept_slab (shape : Shape file use) (purpose : use page = .shared)
    (content : file.page page = .slab entries)
    (others : ∀ other ≠ key, entries'.find? (Subblock.isFor other.1 other.2) =
      entries.find? (Subblock.isFor other.1 other.2)) :
    ListsKept file (file.write page (.slab entries')) use use key page [page] := by
  constructor
  · exact le_rfl
  · constructor
    · exact shape.beyond
    · intro other isShared
      by_cases same : other = page
      · subst same
        exact ⟨entries', update_self _ _ _⟩
      · obtain ⟨present, held⟩ := shape.slab other isShared
        exact ⟨present, (update_of_ne same _ _).trans held⟩
  · intro key' head' ids' tail' ne listed
    cases listed with
    | @packed present entry bounded isShared held found =>
      by_cases same : head' = page
      · subst same
        have otherKey : key' ≠ key := by
          rcases ne with other | other
          · exact other
          · exact absurd rfl other
        obtain rfl : entries = present := by simpa using content.symm.trans held
        exact .packed bounded purpose (update_self _ _ _)
          ((others key' otherKey).trans found)
      · exact .packed bounded isShared ((update_of_ne same _ _).trans held) found
    | chained chain owned =>
      refine .chained (chain.congr le_rfl ?_) owned
      intro other mem
      have apart : other ≠ page := by
        intro same
        have isChain := owned other mem
        rw [same, purpose] at isChain
        cases isChain
      exact update_of_ne apart _ _
  · exact fun _ isShared => isShared
  · intro other outside
    exact ⟨rfl, fun _ => update_of_ne (by simpa using outside) _ _⟩

theorem listPut_slab (entry : Subblock) (shape : Shape file use) (bounded : page < file.count)
    (purpose : use page = .shared) (content : file.page page = .slab entries)
    (here : entries'.find? (Subblock.isFor key.1 key.2) = some entry)
    (others : ∀ other ≠ key, entries'.find? (Subblock.isFor other.1 other.2) =
      entries.find? (Subblock.isFor other.1 other.2)) :
    ListPut file (file.write page (.slab entries')) use use key page entry.edges none [page] :=
  ⟨listsKept_slab shape purpose content others, .packed bounded purpose (update_self _ _ _) here⟩

theorem subblocks_of_slab (bounded : page < store.pages.adjacency.count)
    (content : store.pages.adjacency.page page = .slab entries) :
    store.subblocks page = .ok entries := by
  simp [subblocks, readAdjPage_of_lt bounded, content, bind, Except.bind, pure, Except.pure]

theorem isAdjSlabPage_of_slab (bounded : page < store.pages.adjacency.count)
    (content : store.pages.adjacency.page page = .slab entries) :
    store.isAdjSlabPage page = .ok true := by
  simp [isAdjSlabPage, readAdjPage_of_lt bounded, content, bind, Except.bind, pure, Except.pure]

section

variable (listed : ListAt store.pages.adjacency use key head ids tail)
include listed

theorem ListAt.read : store.readAdjEdgeIds head key.1 key.2 = .ok ids := by
  cases listed with
  | @packed entries entry bounded purpose content found =>
    rw [← findLiveEntry_snd] at found
    obtain ⟨⟨index, _⟩, position, rfl⟩ := map_eq_some_iff.mp found
    simp [readAdjEdgeIds, isAdjSlabPage_of_slab bounded content, readSubblock,
      subblocks_of_slab bounded content, position, bind, Except.bind, pure, Except.pure]
  | chained chain purpose =>
    simp [readAdjEdgeIds, chain.not_slab, chain.read, bind, Except.bind]

theorem ListAt.unique {ids' : List Nat} {tail' : Option ChainState} 
    (again : ListAt store.pages.adjacency use key head ids' tail') : ids = ids' ∧ tail = tail' := by
  have same : ids = ids' := by
    have read := listed.read.symm.trans again.read
    exact Except.ok.inj read
  refine ⟨same, ?_⟩
  cases listed with
  | packed _ purpose _ _ =>
    cases again with
    | packed _ _ _ _ => rfl
    | chained chain owned =>
      rw [owned head chain.head_mem] at purpose
      cases purpose
  | chained chain owned =>
    cases again with
    | packed _ purpose _ _ =>
      rw [owned head chain.head_mem] at purpose
      cases purpose
    | chained chain' _ =>
      have read := chain.readState.symm.trans chain'.readState
      exact congrArg some (Except.ok.inj read)

theorem ListAt.isSlab : store.isAdjSlabPage head = .ok tail.isNone := by
  cases listed with
  | packed bounded purpose content found => exact isAdjSlabPage_of_slab bounded content
  | chained chain purpose => exact chain.not_slab

end

theorem sat_writeSubblock (key : ListKey) (edges : List Nat)
    (shape : Shape store.pages.adjacency use) (bounded : page < store.pages.adjacency.count)
    (purpose : use page = .shared) :
    Sat (writeSubblock page key.1 key.2 edges) store
      (fun _ after => ListPut store.pages.adjacency after.pages.adjacency use use key page edges
        none [page])
      (fun _ _ => True) := by
  obtain ⟨entries, content⟩ := shape.slab page purpose
  unfold writeSubblock
  simp only [sat_bind, sat_get, subblocks_of_slab bounded content, sat_ofResult_ok]
  by_cases taken : (findLiveEntry entries key.1 key.2).isSome
  · simp only [taken, ↓reduceIte]
    trivial
  · have missing : entries.find? (Subblock.isFor key.1 key.2) = none := by
      rw [← findLiveEntry_snd, not_isSome_iff_eq_none.mp taken]
      rfl
    have offsets : ∀ offset, ListPut store.pages.adjacency
        (store.pages.adjacency.write page
          (.slab (entries ++ [⟨key.1, some key.2, offset, edges⟩]))) use use key page edges none
        [page] := by
      intro offset
      have own : Subblock.isFor key.1 key.2 ⟨key.1, some key.2, offset, edges⟩ := by
        simp [Subblock.isFor]
      apply listPut_slab ⟨key.1, some key.2, offset, edges⟩ shape bounded purpose content
      · rw [List.find?_append, missing, List.find?_cons_of_pos own, none_or]
      · intro other ne
        have notOther := Subblock.isFor_unique own ne
        rw [List.find?_append, List.find?_cons_of_neg notOther, List.find?_nil, or_none]
    simp only [taken, Bool.false_eq_true, ↓reduceIte, sat_bind, sat_ofResult]
    refine ⟨fun free _ => ?_, fun _ _ => trivial⟩
    rw [sat_ite]
    refine ⟨fun _ => trivial, fun _ => ?_⟩
    rw [sat_ite]
    refine ⟨fun _ => trivial, fun _ => ?_⟩
    apply (sat_writeAdjPage _ bounded).sure _
    intro _ after wrote
    subst wrote
    exact offsets _

theorem ListAt.entry (listed : ListAt store.pages.adjacency use key head ids none) :
    ∃ entries index entry, head < store.pages.adjacency.count ∧ use head = .shared ∧
      store.pages.adjacency.page head = .slab entries ∧
      findLiveEntry entries key.1 key.2 = some (index, entry) ∧ entry.edges = ids := by
  cases listed with
  | @packed entries entry bounded purpose content found =>
    rw [← findLiveEntry_snd] at found
    obtain ⟨⟨index, _⟩, position, rfl⟩ := map_eq_some_iff.mp found
    exact ⟨entries, index, _, bounded, purpose, content, position, rfl⟩

theorem listPut_set {entry : Subblock} (fresh : Subblock) (shape : Shape file use)
    (bounded : page < file.count) (purpose : use page = .shared)
    (content : file.page page = .slab entries)
    (found : findLiveEntry entries key.1 key.2 = some (index, entry))
    (own : Subblock.isFor key.1 key.2 fresh) :
    ListPut file (file.write page (.slab (entries.set index fresh))) use use key page fresh.edges
      none [page] := by
  apply listPut_slab fresh shape bounded purpose content (find?_set_self found own)
  intro other ne
  exact find?_set_of_ne found ne (Subblock.isFor_unique own ne)

theorem sat_appendSubblockEdges (added : List Nat) (shape : Shape store.pages.adjacency use)
    (listed : ListAt store.pages.adjacency use key page ids none) :
    Sat (appendSubblockEdges page key.1 key.2 added) store
      (fun grew after => if grew then
          ListPut store.pages.adjacency after.pages.adjacency use use key page (ids ++ added) none
            [page]
        else after = store)
      (fun _ _ => True) := by
  obtain ⟨entries, index, entry, bounded, purpose, content, found, rfl⟩ := listed.entry
  obtain ⟨_, _, _, _, own, _⟩ := findLiveEntry_split found
  unfold appendSubblockEdges
  simp only [sat_bind, sat_get, subblocks_of_slab bounded content, sat_ofResult_ok, found]
  rw [sat_ite]
  refine ⟨fun _ => rfl, fun _ => ?_⟩
  simp only [sat_bind, sat_ofResult]
  refine ⟨fun free _ => ?_, fun _ _ => trivial⟩
  rw [sat_ite]
  refine ⟨fun _ => rfl, fun _ => ?_⟩
  rw [sat_ite]
  refine ⟨fun _ => trivial, fun _ => ?_⟩
  rw [sat_ite]
  refine ⟨fun _ => rfl, fun _ => ?_⟩
  simp only [sat_bind, sat_pure]
  apply (sat_writeAdjPage _ bounded).sure _
  intro _ after wrote
  subst wrote
  rw [if_pos trivial]
  exact listPut_set _ shape bounded purpose content found own

theorem sat_rewriteSubblockEdges (edges : List Nat) (shape : Shape store.pages.adjacency use)
    (listed : ListAt store.pages.adjacency use key page ids none) :
    Sat (rewriteSubblockEdges page key.1 key.2 edges) store
      (fun _ after => ListPut store.pages.adjacency after.pages.adjacency use use key page edges
        none [page])
      (fun _ _ => True) := by
  obtain ⟨entries, index, entry, bounded, purpose, content, found, rfl⟩ := listed.entry
  obtain ⟨_, _, _, _, own, _⟩ := findLiveEntry_split found
  unfold rewriteSubblockEdges
  simp only [sat_bind, sat_get, subblocks_of_slab bounded content, sat_ofResult_ok, found]
  rw [sat_ite]
  refine ⟨fun _ => trivial, fun _ => ?_⟩
  apply (sat_writeAdjPage _ bounded).sure _
  intro _ after wrote
  subst wrote
  exact listPut_set _ shape bounded purpose content found own

theorem sat_freeSubblock (shape : Shape store.pages.adjacency use)
    (listed : ListAt store.pages.adjacency use key page ids none) :
    Sat (freeSubblock page key.1 key.2) store
      (fun _ after => ListsKept store.pages.adjacency after.pages.adjacency use use key page [page])
      (fun _ _ => False) := by
  obtain ⟨entries, index, entry, bounded, purpose, content, found, rfl⟩ := listed.entry
  unfold freeSubblock
  simp only [sat_bind, sat_get, subblocks_of_slab bounded content, sat_ofResult_ok, found]
  apply (sat_writeAdjPage _ bounded).sure _
  intro _ after wrote
  subst wrote
  apply listsKept_slab shape purpose content
  intro other ne
  exact find?_set_of_ne found ne (by simp [Subblock.isFor])

/-- Every list is where it was. -/
structure AllKept (before after : PageFile AdjPage) (use use' : Nat → AdjUse) : Prop where
  grown : before.count ≤ after.count
  shape : Shape after use'
  lists : ∀ key head ids tail, ListAt before use key head ids tail →
    ListAt after use' key head ids tail
  shared : ∀ page, use page = .shared → use' page = .shared

theorem allKept_refl (shape : Shape file use) : AllKept file file use use :=
  ⟨le_rfl, shape, fun _ _ _ _ listed => listed, fun _ isShared => isShared⟩

/-- A new shared page holds no list yet. -/
theorem allKept_allocateSlab (shape : Shape file use) :
    AllKept file ((file.grow .blank).write file.count (.slab [])) use
      (update use file.count .shared) := by
  have samePage : ∀ page < file.count,
      ((file.grow .blank).write file.count (.slab [])).page page = file.page page := by
    intro page inside
    have ne : page ≠ file.count := Nat.ne_of_lt inside
    exact (update_of_ne ne _ _).trans (update_of_ne ne _ _)
  have sameUse : ∀ page, page ≠ file.count → update use file.count .shared page = use page :=
    fun page ne => update_of_ne ne _ _
  have inside : ∀ page, use page = .shared → page < file.count := by
    intro page isShared
    by_contra beyond
    rw [shape.beyond page (not_lt.mp beyond)] at isShared
    cases isShared
  constructor
  · exact Nat.le_succ _
  · constructor
    · intro page beyond
      have larger : file.count + 1 ≤ page := beyond
      rw [sameUse page (by omega)]
      exact shape.beyond page (by omega)
    · intro page isShared
      by_cases same : page = file.count
      · exact ⟨[], by rw [same]; exact update_self _ _ _⟩
      · rw [sameUse page same] at isShared
        obtain ⟨entries, content⟩ := shape.slab page isShared
        exact ⟨entries, (samePage page (inside page isShared)).trans content⟩
  · intro key head ids tail listed
    apply listed.congr (Nat.le_succ _)
    intro page bounded _
    exact ⟨samePage page bounded, sameUse page (bounded.ne)⟩
  · intro page isShared
    rw [sameUse page (Nat.ne_of_lt (inside page isShared))]
    exact isShared

end Store

end ErmyaGraph
