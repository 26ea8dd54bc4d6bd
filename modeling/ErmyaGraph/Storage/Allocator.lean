import ErmyaGraph.Lib.Runs
import ErmyaGraph.Storage.Overflow

/-! # The page allocator

Every page of the file is in use, the spare page, a directory page or listed in
a directory, and it is only one of these. -/

namespace ErmyaGraph.Store

variable {page : PageId}

open Outcome Runs List Function

/-- The directory pages from a head on, and the pages they list. -/
inductive Directories (file : PageFile OverflowPage) :
    Option PageId → List PageId → List PageId → Prop
  | nil : Directories file none [] []
  | cons {head : PageId} {next : Option PageId} {entries dirs rest : List PageId}
      (content : file.page head = .freeDirectory next entries)
      (tail : Directories file next dirs rest) :
      Directories file (some head) (head :: dirs) (entries ++ rest)

theorem Directories.congr {file file' : PageFile OverflowPage} {head : Option PageId}
    {dirs entries : List PageId} (chain : Directories file head dirs entries)
    (same : ∀ page ∈ dirs, file'.page page = file.page page) :
    Directories file' head dirs entries := by
  induction chain with
  | nil => exact .nil
  | cons content tail ih =>
    have here := (same _ mem_cons_self).trans content
    exact .cons here (ih fun page mem => same page (mem_cons_of_mem _ mem))

/-- The pages of the file by their role. The order of the four lists is free. -/
structure Partition (store : Store) (live : List PageId) (dirs entries : List PageId) : Prop where
  chain : Directories store.pages.overflow store.info.freeDirectoryHead dirs entries
  pages : (live ++ (store.info.freeSparePage.toList ++ (dirs ++ entries))).Perm
    (List.range store.pages.overflow.count)
  counted : store.info.freePageCount = store.info.freeSparePage.toList.length + entries.length

section Roles

variable {store : Store} {live dirs entries : List PageId}

section

variable (partition : Partition store live dirs entries)
include partition

theorem Partition.nodup : (live ++ (store.info.freeSparePage.toList ++ (dirs ++ entries))).Nodup :=
  partition.pages.symm.nodup nodup_range

theorem Partition.bounded (mem : page ∈ live) : page < store.pages.overflow.count :=
  mem_range.mp (partition.pages.mem_iff.mp (mem_append_left _ mem))

theorem Partition.apart (mem : page ∈ live) :
    page ∉ store.info.freeSparePage.toList ++ (dirs ++ entries) := fun other =>
  (nodup_append.mp partition.nodup).2.2 page mem page other rfl

theorem Partition.not_dir (mem : page ∈ live) : page ∉ dirs := fun dir =>
  partition.apart mem (mem_append_right _ (mem_append_left _ dir))

theorem Partition.reorder {live' : List PageId}
    (same : live'.Perm live) : Partition store live' dirs entries :=
  ⟨partition.chain, (same.append_right _).trans partition.pages, partition.counted⟩

theorem Partition.ne_head (mem : page ∈ live) : store.info.freeDirectoryHead ≠ some page := by
  intro isHead
  have chain := partition.chain
  rw [isHead] at chain
  cases chain with
  | cons content tail => exact partition.not_dir mem mem_cons_self

theorem Partition.write (mem : page ∈ live) (data : OverflowPage) :
    Partition { store with pages := { store.pages with
      overflow := store.pages.overflow.write page data } } live dirs entries where
  chain := by
    apply partition.chain.congr
    intro other dir
    have ne : other ≠ page := fun same => partition.not_dir mem (same ▸ dir)
    exact update_of_ne ne _ _
  pages := partition.pages
  counted := partition.counted

end

/-- A page that was free is in use now, and the file did not grow. -/
structure TakenFrom (store after : Store) (live : List PageId) (page : PageId) : Prop where
  partition : ∃ dirs entries, Partition after (page :: live) dirs entries
  count : after.pages.overflow.count = store.pages.overflow.count

theorem perm_take (live front : List PageId) (page : PageId) (rest : List PageId) :
    (page :: live ++ (front ++ rest)).Perm (live ++ (front ++ page :: rest)) := by
  have first : (page :: (live ++ front) ++ rest).Perm (live ++ front ++ page :: rest) :=
    perm_middle.symm
  rw [append_assoc] at first
  rw [← append_assoc]
  simpa using first

variable {wal : Option Wal}

theorem takenFrom_spare (partition : Partition store live dirs entries)
    (spare : store.info.freeSparePage = some page) :
    TakenFrom store { store with
      info := { store.info with
        freeSparePage := none, freePageCount := store.info.freePageCount - 1 }
      wal := wal } live page where
  partition := by
    refine ⟨dirs, entries, partition.chain, ?_, ?_⟩
    · have pages := partition.pages
      rw [spare] at pages
      exact (perm_take live [] page (dirs ++ entries)).trans pages
    · have counted := partition.counted
      rw [spare] at counted
      change store.info.freePageCount - 1 = 0 + entries.length
      rw [counted]
      simp
  count := rfl

variable {head : PageId} {next : Option PageId} {rest : List PageId}

theorem takenFrom_listed {listed dirs' : List PageId}
    (partition : Partition store live (head :: dirs') (listed ++ rest))
    (spare : store.info.freeSparePage = none) (isHead : store.info.freeDirectoryHead = some head)
    (tail : Directories store.pages.overflow next dirs' rest) (last : listed.getLast? = some page) :
    TakenFrom store { store with
      pages := { store.pages with
        overflow := store.pages.overflow.write head (.freeDirectory next listed.dropLast) }
      info := { store.info with freePageCount := store.info.freePageCount - 1 }
      wal := wal } live page where
  partition := by
    have ends : listed = listed.dropLast ++ [page] := (dropLast_append_getLast? page last).symm
    have pages := partition.pages
    have counted := partition.counted
    rw [spare] at pages counted
    refine ⟨head :: dirs', listed.dropLast ++ rest, ?_, ?_, ?_⟩
    · change Directories _ store.info.freeDirectoryHead _ _
      rw [isHead]
      apply Directories.cons (update_self head _ _)
      apply tail.congr
      intro other dir
      -- The other directory pages are different pages of a duplicate-free list.
      have distinct := (nodup_append.mp partition.nodup).2.1
      rw [spare] at distinct
      have ne : other ≠ head := fun same =>
        (nodup_cons.mp distinct).1 (mem_append_left _ (same ▸ dir))
      exact update_of_ne ne _ _
    · change (page :: live ++ (store.info.freeSparePage.toList ++ _)).Perm _
      rw [spare]
      have moved := perm_take live (head :: dirs' ++ listed.dropLast) page rest
      have same : head :: dirs' ++ listed.dropLast ++ page :: rest =
          head :: dirs' ++ (listed ++ rest) := by
        conv_rhs => rw [ends]
        simp
      rw [same] at moved
      have assoc : head :: dirs' ++ (listed.dropLast ++ rest) =
          head :: dirs' ++ listed.dropLast ++ rest := (append_assoc _ _ _).symm
      change (page :: live ++ (head :: dirs' ++ (listed.dropLast ++ rest))).Perm _
      rw [assoc]
      exact moved.trans pages
    · change store.info.freePageCount - 1 = store.info.freeSparePage.toList.length + _
      rw [spare, counted, ends]
      simp
  count := rfl

theorem takenFrom_head {dirs' : List PageId} (partition : Partition store live (head :: dirs') rest)
    (spare : store.info.freeSparePage = none)
    (tail : Directories store.pages.overflow next dirs' rest) :
    TakenFrom store { store with
      info := { store.info with freeDirectoryHead := next }
      wal := wal } live head where
  partition := by
    refine ⟨dirs', rest, tail, ?_, partition.counted⟩
    have pages := partition.pages
    rw [spare] at pages
    change (head :: live ++ (store.info.freeSparePage.toList ++ _)).Perm _
    rw [spare]
    exact (perm_take live [] head (dirs' ++ rest)).trans pages
  count := rfl

theorem sat_takeFreePage_partition (partition : Partition store live dirs entries) :
    Sat takeFreePage store
      (fun taken after => match taken with
        | none => after = store ∧ store.info.freeSparePage = none ∧ dirs = [] ∧ entries = []
        | some page => TakenFrom store after live page)
      (fun _ _ => False) := by
  unfold takeFreePage
  rw [sat_bind, sat_get]
  cases spare : store.info.freeSparePage with
  | some page => exact takenFrom_spare partition spare
  | none =>
    have chain := partition.chain
    cases isHead : store.info.freeDirectoryHead with
    | none =>
      rw [isHead] at chain
      cases chain
      exact ⟨rfl, rfl, rfl, rfl⟩
    | some head =>
      rw [isHead] at chain
      cases chain with
      | @cons _ next listed dirs' rest content tail =>
        simp only [readFreeDirectory, content, sat_bind, sat_ofResult_ok]
        cases last : listed.getLast? with
        | some page => exact takenFrom_listed partition spare isHead tail last
        | none =>
          obtain rfl : listed = [] := List.getLast?_eq_none_iff.mp last
          exact takenFrom_head partition spare tail

/-- A page was put to use that was not in use; the file grew only if every page was. -/
structure AllocatedTo (store after : Store) (live : List PageId) (page : PageId) : Prop where
  partition : ∃ dirs entries, Partition after (page :: live) dirs entries
  fresh : page ∉ live
  grows : after.pages.overflow.count = store.pages.overflow.count ∨
    after.pages.overflow.count = store.pages.overflow.count + 1 ∧
      live.Perm (List.range store.pages.overflow.count)

theorem Partition.fresh (partition : Partition store (page :: live) dirs entries) :
    page ∉ live := by
  have distinct := (nodup_append.mp partition.nodup).1
  exact (nodup_cons.mp distinct).1

theorem sat_allocateOverflowPage_partition (partition : Partition store live dirs entries) :
    Sat allocateOverflowPage store (fun page after => AllocatedTo store after live page)
      (fun _ _ => False) := by
  unfold allocateOverflowPage
  rw [sat_bind]
  apply (sat_takeFreePage_partition partition).sure _
  intro taken after reached
  cases taken with
  | some page =>
    obtain ⟨⟨dirs', entries', taken⟩, count⟩ := reached
    have written := taken.write mem_cons_self .blank
    exact ⟨⟨dirs', entries', written⟩, taken.fresh, .inl count⟩
  | none =>
    obtain ⟨rfl, spare, rfl, rfl⟩ := reached
    have pages := partition.pages
    rw [spare, append_nil, Option.toList_none, append_nil, append_nil] at pages
    have grown : Partition { after with pages := { after.pages with
        overflow := after.pages.overflow.grow .blank } }
        (after.pages.overflow.count :: live) [] [] := by
      constructor
      · apply partition.chain.congr
        exact fun page mem => nomatch mem
      · change (_ :: live ++ (after.info.freeSparePage.toList ++ [])).Perm _
        rw [spare, append_nil, Option.toList_none, append_nil, PageFile.grow_count, range_succ]
        exact (pages.cons _).trans (perm_append_singleton _ _).symm
      · exact partition.counted
    exact ⟨⟨[], [], grown⟩, grown.fresh, .inr ⟨rfl, pages⟩⟩

/-- A page that was in use is free now, and the file is as long as before. -/
structure ReturnedTo (store after : Store) (live : List PageId) (page : PageId) : Prop where
  partition : ∃ dirs entries, Partition after (live.erase page) dirs entries
  count : after.pages.overflow.count = store.pages.overflow.count

theorem perm_return (mem : page ∈ live) (front rest : List PageId) :
    (live.erase page ++ (front ++ page :: rest)).Perm (live ++ (front ++ rest)) := by
  have back := (perm_take (live.erase page) front page rest).symm
  exact back.trans ((perm_cons_erase mem).symm.append_right _)

theorem returnedTo_spare (partition : Partition store live dirs entries) (mem : page ∈ live)
    (spare : store.info.freeSparePage = none) :
    ReturnedTo store { store with
      info := { store.info with
        freeSparePage := some page, freePageCount := store.info.freePageCount + 1 }
      wal := wal } live page where
  partition := by
    have pages := partition.pages
    have counted := partition.counted
    rw [spare] at pages counted
    refine ⟨dirs, entries, partition.chain, ?_, ?_⟩
    · exact (perm_return mem [] (dirs ++ entries)).trans pages
    · change store.info.freePageCount + 1 = 1 + entries.length
      rw [counted]
      simp [Nat.add_comm]
  count := rfl

theorem returnedTo_directory (wal : Option Wal) (partition : Partition store live dirs entries)
    (mem : page ∈ live) :
    ReturnedTo store { store with
      pages := { store.pages with
        overflow := store.pages.overflow.write page
          (.freeDirectory store.info.freeDirectoryHead []) }
      info := { store.info with freeDirectoryHead := some page }
      wal := wal } live page where
  partition := by
    refine ⟨page :: dirs, [] ++ entries, ?_, ?_, partition.counted⟩
    · apply Directories.cons (update_self page _ _)
      apply partition.chain.congr
      intro other dir
      have ne : other ≠ page := fun same => partition.not_dir mem (same ▸ dir)
      exact update_of_ne ne _ _
    · exact (perm_return mem store.info.freeSparePage.toList (dirs ++ entries)).trans
        partition.pages
  count := rfl

theorem returnedTo_listed {listed dirs' : List PageId}
    (partition : Partition store live (head :: dirs') (listed ++ rest)) (mem : page ∈ live)
    (isHead : store.info.freeDirectoryHead = some head)
    (tail : Directories store.pages.overflow next dirs' rest) :
    ReturnedTo store { store with
      pages := { store.pages with
        overflow := store.pages.overflow.write head (.freeDirectory next (listed ++ [page])) }
      info := { store.info with freePageCount := store.info.freePageCount + 1 }
      wal := wal } live page where
  partition := by
    refine ⟨head :: dirs', listed ++ [page] ++ rest, ?_, ?_, ?_⟩
    · change Directories _ store.info.freeDirectoryHead _ _
      rw [isHead]
      apply Directories.cons (update_self head _ _)
      apply tail.congr
      intro other dir
      have distinct := (nodup_append.mp (nodup_append.mp partition.nodup).2.1).2.1
      have ne : other ≠ head := fun same =>
        (nodup_cons.mp distinct).1 (mem_append_left _ (same ▸ dir))
      exact update_of_ne ne _ _
    · have moved := perm_return mem
        (store.info.freeSparePage.toList ++ (head :: dirs' ++ listed)) rest
      change (live.erase page ++ (store.info.freeSparePage.toList ++
        (head :: dirs' ++ (listed ++ [page] ++ rest)))).Perm _
      simp only [append_assoc, singleton_append] at moved ⊢
      exact moved.trans partition.pages
    · change store.info.freePageCount + 1 = _
      rw [partition.counted]
      simp only [length_append, length_singleton]
      omega
  count := rfl

theorem sat_releasePage_partition (partition : Partition store live dirs entries)
    (mem : page ∈ live) :
    Sat (releasePage page) store (fun _ after => ReturnedTo store after live page)
      (fun _ _ => False) := by
  unfold releasePage
  rw [sat_bind, sat_get]
  cases spare : store.info.freeSparePage with
  | none => exact returnedTo_spare partition mem spare
  | some held =>
    have chain := partition.chain
    have asDirectory (wal : Option Wal) := returnedTo_directory wal partition mem
    cases isHead : store.info.freeDirectoryHead with
    | none =>
      rw [isHead] at asDirectory
      exact asDirectory _
    | some head =>
      rw [isHead] at chain asDirectory
      cases chain with
      | @cons _ next listed dirs' rest content tail =>
        simp only [readFreeDirectory, content, sat_bind, sat_ofResult_ok]
        rw [sat_ite]
        constructor
        · intro _
          exact returnedTo_listed partition mem isHead tail
        · intro _
          exact asDirectory _

theorem sat_takeFreePage_frame (store : Store) :
    Sat takeFreePage store
      (fun _ after => ∀ other, store.info.freeDirectoryHead ≠ some other →
        after.pages.overflow.page other = store.pages.overflow.page other)
      (fun _ _ => True) := by
  unfold takeFreePage
  rw [sat_bind, sat_get]
  cases store.info.freeSparePage with
  | some page => exact fun _ _ => rfl
  | none =>
    cases store.info.freeDirectoryHead with
    | none => exact fun _ _ => rfl
    | some head =>
      simp only [sat_bind, sat_ofResult]
      refine ⟨fun listed _ => ?_, fun _ _ => trivial⟩
      cases listed.2.getLast? with
      | none => exact fun _ _ => rfl
      | some page =>
        intro other ne
        exact update_of_ne (fun same => ne (congrArg some same.symm)) _ _

theorem sat_releasePage_frame (store : Store) (page : PageId) :
    Sat (releasePage page) store
      (fun _ after => ∀ other, other ≠ page → store.info.freeDirectoryHead ≠ some other →
        after.pages.overflow.page other = store.pages.overflow.page other)
      (fun _ _ => True) := by
  unfold releasePage
  rw [sat_bind, sat_get]
  cases store.info.freeSparePage with
  | none => exact fun _ _ _ => rfl
  | some spare =>
    cases store.info.freeDirectoryHead with
    | none => exact fun other ne _ => update_of_ne ne _ _
    | some head =>
      simp only [sat_bind, sat_ofResult]
      refine ⟨fun listed _ => ?_, fun _ _ => trivial⟩
      rw [sat_ite]
      constructor
      · intro _ other _ notHead
        exact update_of_ne (fun same => notHead (congrArg some same.symm)) _ _
      · intro _ other ne _
        exact update_of_ne ne _ _

theorem sat_allocateOverflowPage_kept (partition : Partition store live dirs entries) :
    Sat allocateOverflowPage store
      (fun page after => AllocatedTo store after live page ∧
        ∀ other ∈ live, after.pages.overflow.page other = store.pages.overflow.page other)
      (fun _ _ => False) := by
  have frame : Sat allocateOverflowPage store
      (fun page after => ∀ other, other ≠ page → store.info.freeDirectoryHead ≠ some other →
        after.pages.overflow.page other = store.pages.overflow.page other)
      (fun _ _ => True) := by
    unfold allocateOverflowPage
    rw [sat_bind]
    apply (sat_takeFreePage_frame store).relax _
    intro taken after same
    cases taken with
    | some page =>
      intro other ne notHead
      exact (update_of_ne ne _ _).trans (same other notHead)
    | none =>
      intro other ne notHead
      exact (update_of_ne ne _ _).trans (same other notHead)
  apply ((sat_allocateOverflowPage_partition partition).and frame).mono _ (fun _ _ => And.left)
  intro page after both
  refine ⟨both.1, fun other mem => both.2 other ?_ (partition.ne_head mem)⟩
  exact fun same => both.1.fresh (same ▸ mem)

theorem sat_forM_releasePage_partition {pages : List PageId}
    (partition : Partition store (pages ++ rest) dirs entries) :
    Sat (pages.forM releasePage) store
      (fun _ after => (∃ dirs' entries', Partition after rest dirs' entries') ∧
        after.pages.overflow.count = store.pages.overflow.count ∧
        ∀ other ∈ rest, after.pages.overflow.page other = store.pages.overflow.page other)
      (fun _ _ => False) := by
  induction pages generalizing store dirs entries with
  | nil => exact ⟨⟨dirs, entries, partition⟩, rfl, fun _ _ => rfl⟩
  | cons page pages ih =>
    simp only [forM_eq_forM, forM_cons, sat_bind]
    have released := (sat_releasePage_partition partition mem_cons_self).and
      (sat_releasePage_frame store page)
    apply released.mono _ (fun _ _ => And.left)
    intro _ after both
    obtain ⟨dirs', entries', remaining⟩ := both.1.partition
    rw [cons_append, erase_cons_head] at remaining
    apply (ih remaining).relax _
    intro _ final done
    refine ⟨done.1, done.2.1.trans both.1.count, fun other mem => ?_⟩
    have later : other ∈ pages ++ rest := mem_append_right pages mem
    refine (done.2.2 other mem).trans (both.2 other ?_ ?_)
    · intro same
      exact Partition.fresh partition (same ▸ later)
    · exact partition.ne_head (mem_cons_of_mem page later)

end Roles

/-- A store and the pages its callers hold. -/
structure Pool where
  store : Store
  live : List PageId

namespace Pool

/-- What the callers of an allocator do: they also fill the pages they hold. -/
inductive Request where
  | allocate
  | free (page : PageId)
  | fill (page : PageId) (data : OverflowPage)

def empty (wal : Option Wal) : Pool := ⟨{ pages := Pages.fresh, info := {}, wal := wal }, []⟩

/-- Only pages in use are filled or given back. -/
def Allowed (_past : List Pool) (pool : Pool) : Request → Prop
  | .allocate => True
  | .free page => page ∈ pool.live
  | .fill page _ => page ∈ pool.live

def step (pool : Pool) : Request → Pool
  | .allocate =>
    match allocateOverflowPage.run pool.store with
    | .ok page after => ⟨after, page :: pool.live⟩
    | .error _ after => ⟨after, pool.live⟩
  | .free page => ⟨final (releasePage page) pool.store, pool.live.erase page⟩
  | .fill page data => ⟨final (writeOverflowPage page data) pool.store, pool.live⟩

def Sorted (pool : Pool) : Prop := ∃ dirs entries, Partition pool.store pool.live dirs entries

theorem sorted_empty (wal : Option Wal) : (empty wal).Sorted :=
  ⟨[], [], .nil, List.Perm.nil, rfl⟩

variable {past : List Pool}

theorem Sorted.step {pool : Pool} (sorted : pool.Sorted) {request : Request}
    (allowed : Allowed past pool request) : (pool.step request).Sorted := by
  obtain ⟨dirs, entries, partition⟩ := sorted
  cases request with
  | allocate =>
    obtain ⟨page, after, ran, allocated⟩ :=
      (sat_allocateOverflowPage_partition partition).exists_run
    have next : pool.step .allocate = ⟨after, page :: pool.live⟩ := by
      simp only [Pool.step, ran]
    rw [next]
    exact allocated.partition
  | free page =>
    have returned : ReturnedTo pool.store (final (releasePage page) pool.store) pool.live page :=
      ((sat_releasePage_partition partition allowed).sure (fun _ _ => id)).final
    exact returned.partition
  | fill page data =>
    have inside := partition.bounded allowed
    have written : final (writeOverflowPage page data) pool.store = { pool.store with
        wal := pool.store.wal.map fun wal =>
          { wal with records := wal.records ++ [.writeOverflowPage page data] }
        pages := { pool.store.pages with
          overflow := pool.store.pages.overflow.write page data } } := by
      have run : Sat (writeOverflowPage page data) pool.store
          (fun _ after => after = { pool.store with
            wal := pool.store.wal.map fun wal =>
              { wal with records := wal.records ++ [.writeOverflowPage page data] }
            pages := { pool.store.pages with
              overflow := pool.store.pages.overflow.write page data } })
          (fun _ _ => False) := by
        simp only [writeOverflowPage, sat_bind, sat_get, Nat.not_le.mpr inside, ↓reduceIte]
        exact rfl
      exact (run.sure (fun _ _ => id)).final
    have filled := partition.write allowed data
    refine ⟨dirs, entries, ?_⟩
    change Partition (final (writeOverflowPage page data) pool.store) _ _ _
    rw [written]
    exact ⟨filled.chain, filled.pages, filled.counted⟩

theorem sorted_of_run {wal : Option Wal} {pool : Pool}
    (run : Run Allowed step (empty wal) past pool) : pool.Sorted :=
  run.invariant (fun _ pool => pool.Sorted) (sorted_empty wal)
    fun _ _ _ sorted allowed => sorted.step allowed

/-- In every run the roles stay apart, a new page comes from the free ones as long as there are
any, and a page in use can be given back. -/
theorem run_partitions {wal : Option Wal} {past : List Pool} {pool : Pool}
    (run : Run Allowed step (empty wal) past pool) :
    pool.Sorted ∧ (∃ page after, allocateOverflowPage.run pool.store = .ok page after ∧
        AllocatedTo pool.store after pool.live page) ∧
      ∀ page ∈ pool.live, ∃ after, (releasePage page).run pool.store = .ok () after ∧
        ReturnedTo pool.store after pool.live page := by
  have sorted := sorted_of_run run
  obtain ⟨dirs, entries, partition⟩ := sorted
  have allocated := (sat_allocateOverflowPage_partition partition).exists_run
  refine ⟨sorted_of_run run, allocated, ?_⟩
  intro page member
  obtain ⟨_, after, ran, returned⟩ := (sat_releasePage_partition partition member).exists_run
  exact ⟨after, ran, returned⟩

/-- Two pages are allocated and the first is given back. -/
theorem run_partitions_twoPages :
    ∃ pool : Pool, pool.live = [1] ∧ pool.Sorted ∧
      (∃ page after, allocateOverflowPage.run pool.store = .ok page after ∧
        AllocatedTo pool.store after pool.live page) ∧
      ∀ page ∈ pool.live, ∃ after, (releasePage page).run pool.store = .ok () after ∧
        ReturnedTo pool.store after pool.live page := by
  have opened : Run Allowed step (empty none) [empty none] (empty none) := Run.start
  have first := Run.step Request.allocate opened trivial
  have second := Run.step Request.allocate first trivial
  have third := Run.step (Request.free 0) second (by decide : (0 : Nat) ∈ [1, 0])
  exact ⟨_, rfl, run_partitions third⟩

end Pool

end ErmyaGraph.Store
