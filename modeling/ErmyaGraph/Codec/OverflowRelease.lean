import ErmyaGraph.Lib.Memory
import ErmyaGraph.Storage.Allocator
import ErmyaGraph.Storage.Blobs

/-! # Releasing an overflow chain

The pages of a chain are collected by the links stored in them, and then given
back one after the other. The walk stops when it has collected more pages than
the file has, but it does not remember which pages it saw: a link that leads
back gives a page back twice. -/

namespace ErmyaGraph.OverflowCodec

open Bytes Outcome Store List

def noNext : Nat := 0xFFFFFFFF

/-- The overflow file: the pages it counts, and the payload of each page that can be read. -/
structure RawFile where
  count : Nat
  payload : PageId → Option Memory

def RawFile.readPage (file : RawFile) (page : PageId) : Option Memory :=
  if page < file.count then file.payload page else none

/-- The first page keeps its link in the last four bytes, a continuation in the first four. -/
def nextLink (isFirst : Bool) (payload : Memory) : Nat :=
  if isFirst then readLe payload 4076 4 else readLe payload 0 4

/-- The rounds of the walk, which has no answer as long as it goes on. -/
def collectFrom (file : RawFile) :
    (fuel : Nat) → (toFree : List PageId) → (current : PageId) → Option (List PageId)
  | 0, _, _ => none
  | fuel + 1, toFree, current =>
    match file.readPage current with
    | none => some toFree
    | some payload =>
      let next := nextLink toFree.isEmpty payload
      let toFree := toFree ++ [current]
      if next = noNext then some toFree
      -- A chain cannot be longer than the file.
      else if file.count < toFree.length then some toFree
      else collectFrom file fuel toFree next

def freePages (toFree : List PageId) : StoreM Unit := toFree.forM releasePage

section Chain

variable {file : RawFile} {first : PageId}

/-- The page at a place of the chain. The links go on for as long as the pages can be read. -/
def chainPage (file : RawFile) (first : PageId) : (place : Nat) → Option PageId
  | 0 => some first
  | place + 1 =>
    match (chainPage file first place).bind file.readPage with
    | none => none
    | some payload =>
      if nextLink (place == 0) payload = noNext then none
      else some (nextLink (place == 0) payload)

/-- No link of the chain leads back to a page it went through. -/
def Straight (file : RawFile) (first : PageId) : Prop :=
  ∀ i j page, chainPage file first i = some page → chainPage file first j = some page → i = j

variable {payload : Memory}

theorem readPage_lt {page : PageId} (readable : file.readPage page = some payload) :
    page < file.count := by
  unfold RawFile.readPage at readable
  split at readable
  · assumption
  · cases readable

theorem readable_before {i j : Nat} {later : PageId} (there : chainPage file first j = some later)
    (before : i < j) :
    ∃ page payload, chainPage file first i = some page ∧ file.readPage page = some payload := by
  induction j generalizing later with
  | zero => exact absurd before (Nat.not_lt_zero i)
  | succ j ih =>
    rw [chainPage] at there
    cases previous : chainPage file first j with
    | none =>
      rw [previous] at there
      cases there
    | some page =>
      rcases Nat.lt_succ_iff_lt_or_eq.mp before with less | rfl
      · exact ih previous less
      · cases readable : file.readPage page with
        | some payload => exact ⟨page, payload, previous, readable⟩
        | none =>
          simp only [previous, Option.bind_some, readable] at there
          cases there

/-- What the walk has collected: the chain up to a place, page by page. -/
structure Collected (file : RawFile) (first : PageId) (toFree : List PageId) : Prop where
  places : ∀ i < toFree.length, chainPage file first i = toFree[i]?
  readable : ∀ page ∈ toFree, page < file.count

variable {toFree : List PageId} {current : PageId}

theorem Collected.push (collected : Collected file first toFree)
    (here : chainPage file first toFree.length = some current)
    (readable : file.readPage current = some payload) :
    Collected file first (toFree ++ [current]) where
  places := by
    intro i below
    rw [length_append, length_singleton] at below
    rcases Nat.lt_succ_iff_lt_or_eq.mp below with less | rfl
    · rw [collected.places i less, List.getElem?_append_left less]
    · rw [here, List.getElem?_concat_length]
  readable := by
    intro page mem
    rcases mem_append.mp mem with before | last
    · exact collected.readable page before
    · obtain rfl := mem_singleton.mp last
      exact readPage_lt readable

theorem chainPage_succ (here : chainPage file first toFree.length = some current)
    (readable : file.readPage current = some payload) :
    chainPage file first (toFree ++ [current]).length =
      if nextLink toFree.isEmpty payload = noNext then none
      else some (nextLink toFree.isEmpty payload) := by
  have isFirst : (toFree.length == 0) = toFree.isEmpty := by cases toFree <;> rfl
  rw [length_append, length_singleton, chainPage, here]
  simp only [Option.bind_some, readable, isFirst]

/-- The walk ends where the chain does, or behind more pages than the file has. -/
def Ended (file : RawFile) (first : PageId) (toFree : List PageId) : Prop :=
  file.count < toFree.length ∨
    ∀ page, chainPage file first toFree.length = some page → file.readPage page = none

theorem collectFrom_follows {fuel : Nat} {pages : List PageId}
    (collected : Collected file first toFree)
    (here : chainPage file first toFree.length = some current)
    (done : collectFrom file fuel toFree current = some pages) :
    Collected file first pages ∧ Ended file first pages := by
  induction fuel generalizing toFree current with
  | zero => cases done
  | succ fuel ih =>
    rw [collectFrom] at done
    cases readable : file.readPage current with
    | none =>
      rw [readable] at done
      cases done
      refine ⟨collected, .inr fun page same => ?_⟩
      rw [here] at same
      cases same
      exact readable
    | some payload =>
      have pushed := collected.push here readable
      have following := chainPage_succ here readable
      simp only [readable] at done
      by_cases last : nextLink toFree.isEmpty payload = noNext
      · rw [if_pos last] at done following
        cases done
        refine ⟨pushed, .inr fun page same => ?_⟩
        rw [following] at same
        cases same
      · rw [if_neg last] at done following
        by_cases long : file.count < (toFree ++ [current]).length
        · rw [if_pos long] at done
          cases done
          exact ⟨pushed, .inl long⟩
        · rw [if_neg long] at done
          exact ih pushed following done

theorem collectFrom_ends {fuel : Nat} (current : PageId)
    (enough : file.count < toFree.length + fuel) (short : toFree.length ≤ file.count) :
    ∃ pages, collectFrom file fuel toFree current = some pages := by
  induction fuel generalizing toFree current with
  | zero => omega
  | succ fuel ih =>
    rw [collectFrom]
    cases file.readPage current with
    | none => exact ⟨toFree, rfl⟩
    | some payload =>
      have longer : (toFree ++ [current]).length = toFree.length + 1 := length_append
      simp only
      by_cases last : nextLink toFree.isEmpty payload = noNext
      · exact ⟨_, if_pos last⟩
      · rw [if_neg last]
        by_cases long : file.count < (toFree ++ [current]).length
        · exact ⟨_, if_pos long⟩
        · rw [if_neg long]
          exact ih _ (by omega) (not_lt.mp long)

/-- The collected pages are different exactly if the chain is straight. -/
theorem nodup_iff_straight {pages : List PageId} (collected : Collected file first pages)
    (ended : Ended file first pages) : pages.Nodup ↔ Straight file first := by
  constructor
  · intro distinct i j page here there
    -- A page that comes again can be read, so the walk collects it again.
    have again : ∀ {i j}, chainPage file first i = some page → chainPage file first j = some page →
        ¬i < j := by
      intro i j here there before
      obtain ⟨page', payload, here', readable⟩ := readable_before there before
      rw [here] at here'
      cases here'
      have within : j < pages.length := by
        rcases ended with long | ends
        · have bound := length_le_of_nodup_lt distinct collected.readable
          omega
        · rcases Nat.lt_trichotomy j pages.length with less | same | more
          · exact less
          · rw [ends page (same ▸ there)] at readable
            cases readable
          · obtain ⟨last, payload', here', readable'⟩ := readable_before there more
            rw [ends last here'] at readable'
            cases readable'
      have at_i := collected.places i (before.trans within)
      have at_j := collected.places j within
      rw [here] at at_i
      rw [there] at at_j
      exact nodup_iff_getElem?_ne_getElem?.mp distinct i j before within
        (at_i.symm.trans at_j)
    rcases Nat.lt_trichotomy i j with less | same | more
    · exact absurd less (again here there)
    · exact same
    · exact absurd more (again there here)
  · intro straight
    refine nodup_iff_getElem?_ne_getElem?.mpr fun i j before within same => ?_
    have at_i := collected.places i (before.trans within)
    have at_j := collected.places j within
    rw [List.getElem?_eq_getElem within] at at_j
    rw [same, List.getElem?_eq_getElem within] at at_i
    exact absurd (straight i j _ at_i at_j) (before.ne)

end Chain

/-- Releasing a chain always ends, and gives back every page at most once exactly if the links
from its start never lead back. Pages in use that are given back so are free afterwards, each of
them in one place. -/
theorem released_once_iff (file : RawFile) (first : PageId) :
    ∃ toFree, collectFrom file (file.count + 1) [] first = some toFree ∧
      (toFree.Nodup ↔ Straight file first) ∧
      (Straight file first → ∀ (store : Store) (live dirs entries : List PageId),
        Partition store live dirs entries → (∀ page ∈ toFree, page ∈ live) →
          Sat (freePages toFree) store
            (fun _ after => ∃ dirs' entries', Partition after (live.diff toFree) dirs' entries' ∧
              (after.info.freeSparePage.toList ++ (dirs' ++ entries')).Nodup)
            (fun _ _ => False)) := by
  have ends : ∃ toFree, collectFrom file (file.count + 1) [] first = some toFree :=
    collectFrom_ends first (by rw [length_nil]; omega) (Nat.zero_le _)
  obtain ⟨toFree, ended⟩ := ends
  have start : Collected file first [] := ⟨fun i below => absurd below (Nat.not_lt_zero i), nofun⟩
  obtain ⟨collected, stopped⟩ := collectFrom_follows start rfl ended
  have once := nodup_iff_straight collected stopped
  refine ⟨toFree, ended, once, fun straight store live dirs entries partition inUse => ?_⟩
  have different : toFree.Nodup := once.mpr straight
  have sub : ∀ page ∈ toFree, toFree.count page ≤ live.count page := fun page _ =>
    (subperm_of_subset different inUse).count_le page
  have sorted := partition.reorder (subperm_append_diff_self_of_count_le sub)
  apply (sat_forM_releasePage_partition sorted).relax _
  intro _ after done
  obtain ⟨dirs', entries', remaining⟩ := done.1
  exact ⟨dirs', entries', remaining, (nodup_append.mp remaining.nodup).2.1⟩

/-- A file of zeroed pages: each of them links to the first. -/
def zeroed : RawFile := ⟨3, fun _ => some fun _ => 0⟩

/-- A store whose page 0 starts a chain that leads back to it; page 1 is free and page 2 is an
empty directory. -/
def looped : Store where
  pages := { Pages.fresh with
    overflow := ⟨3, fun page => if page = 2 then .freeDirectory none [] else .first 0 [] (some 0)⟩ }
  info := { freeDirectoryHead := some 2, freeSparePage := some 1, freePageCount := 1 }
  wal := none

/-- Page 0 links to itself and is given back four times, and then handed out twice. -/
theorem released_again :
    collectFrom zeroed (zeroed.count + 1) [] 0 = some [0, 0, 0, 0] ∧ Partition looped [0] [2] [] ∧
      ∃ after, (do
        freePages [0, 0, 0, 0]
        let one ← allocateOverflowPage
        let two ← allocateOverflowPage
        let three ← allocateOverflowPage
        return [one, two, three] : StoreM (List PageId)).run looped = .ok [1, 0, 0] after := by
  have directory : looped.pages.overflow.page 2 = .freeDirectory none [] := rfl
  exact ⟨by decide, ⟨.cons directory .nil, by decide, rfl⟩, _, rfl⟩

end ErmyaGraph.OverflowCodec
