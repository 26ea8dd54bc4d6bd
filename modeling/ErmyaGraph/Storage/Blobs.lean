import Mathlib.Data.List.Perm.Subperm
import ErmyaGraph.Storage.Journal

/-! # The blobs the overflow file holds

Every page of the overflow file has one use: it is free, it packs blobs of
several entities, it belongs to the chain of one blob, or it was given up. The
uses are ghost data. They say which blobs an operation cannot touch. -/

namespace ErmyaGraph

open Outcome List Function

inductive PageUse where
  | free
  | packed
  | chain (key : EntityKey) (first : PageId)
  | lost
deriving DecidableEq

namespace Store

variable {file file' : PageFile OverflowPage} {store after : Store} {use : PageId → PageUse}
  {free : List PageId} {page p : PageId} {key k : EntityKey} {entries written : List SlabEntry}
  {blob data : List UInt8} {next : Option PageId}

/-- The free pages a directory page leads to, itself included. -/
inductive Directory (file : PageFile OverflowPage) : Option PageId → List PageId → Prop
  | nil : Directory file none []
  | cons {head : PageId} {next : Option PageId} {entries rest : List PageId}
      (content : file.page head = .freeDirectory next entries)
      (tail : Directory file next rest) : Directory file (some head) (head :: (entries ++ rest))

theorem Directory.congr {head : Option PageId} {listed : List PageId}
    (directory : Directory file head listed)
    (same : ∀ page ∈ listed, file'.page page = file.page page) : Directory file' head listed := by
  induction directory with
  | nil => exact .nil
  | cons content tail ih =>
    refine .cons ((same _ (by simp)).trans content) (ih fun page mem => ?_)
    exact same page (by simp [mem])

/-- How the free list and the open packed page sit among the uses. -/
structure Layout (store : Store) (use : PageId → PageUse) (free : List PageId) : Prop where
  listed : ∃ listed, Directory store.pages.overflow store.info.freeDirectoryHead listed ∧
    free = store.info.freeSparePage.toList ++ listed
  nodup : free.Nodup
  bounded : ∀ page ∈ free, page < store.pages.overflow.count
  unused : ∀ page ∈ free, use page = .free
  openPage : ∀ page, store.propSlabOpenPage = some page →
    page < store.pages.overflow.count ∧ use page = .packed ∧
      ∃ entries, store.pages.overflow.page page = .slab entries

variable {use' : PageId → PageUse}

theorem Layout.openPage_of_untouched (layout : Layout store use free)
    (same : after.propSlabOpenPage = store.propSlabOpenPage)
    (grown : store.pages.overflow.count ≤ after.pages.overflow.count)
    (untouched : ∀ page, use page = .packed → use' page = .packed ∧
      after.pages.overflow.page page = store.pages.overflow.page page) :
    ∀ page, after.propSlabOpenPage = some page →
      page < after.pages.overflow.count ∧ use' page = .packed ∧
        ∃ entries, after.pages.overflow.page page = .slab entries := by
  intro page isOpen
  rw [same] at isOpen
  obtain ⟨bounded, packed, entries, content⟩ := layout.openPage page isOpen
  obtain ⟨packed', kept⟩ := untouched page packed
  exact ⟨bounded.trans_le grown, packed', entries, kept.trans content⟩

/-- A page taken off the free list: the rest stays listed, and only free pages were written. -/
structure Taken (store after : Store) (use : PageId → PageUse) (free : List PageId)
    (page : PageId) : Prop where
  member : page ∈ free
  layout : ∃ rest, Layout after (update use page .lost) rest
  count : after.pages.overflow.count = store.pages.overflow.count
  kept : ∀ other, use other ≠ .free →
    after.pages.overflow.page other = store.pages.overflow.page other

theorem Layout.take (rest : List PageId) (layout : Layout store use free) (mem : page ∈ free)
    (split : free.Perm (page :: rest))
    (listed : ∃ listed, Directory after.pages.overflow after.info.freeDirectoryHead listed ∧
      rest = after.info.freeSparePage.toList ++ listed)
    (count : after.pages.overflow.count = store.pages.overflow.count)
    (kept : ∀ other, use other ≠ .free →
      after.pages.overflow.page other = store.pages.overflow.page other)
    (isOpen : after.propSlabOpenPage = store.propSlabOpenPage) :
    Taken store after use free page := by
  have distinct : (page :: rest).Nodup := split.nodup layout.nodup
  have apart : ∀ other ∈ rest, other ≠ page := by
    intro other present same
    exact (nodup_cons.mp distinct).1 (same ▸ present)
  have inside : ∀ other ∈ rest, other ∈ free :=
    fun other present => split.mem_iff.mpr (mem_cons_of_mem page present)
  refine ⟨mem, ⟨rest, listed, (nodup_cons.mp distinct).2, ?_, ?_, ?_⟩, count, kept⟩
  · intro other present
    rw [count]
    exact layout.bounded other (inside other present)
  · intro other present
    rw [update_of_ne (apart other present)]
    exact layout.unused other (inside other present)
  · refine layout.openPage_of_untouched isOpen (le_of_eq count.symm) fun other packed => ?_
    have occupied : use other ≠ .free := by
      rw [packed]
      decide
    have ne : other ≠ page := by
      rintro rfl
      exact occupied (layout.unused other mem)
    exact ⟨by rw [update_of_ne ne, packed], kept other occupied⟩

theorem sat_takeFreePage (layout : Layout store use free) :
    Sat takeFreePage store
      (fun taken after => match taken with
        | none => after = store
        | some page => Taken store after use free page)
      (fun _ _ => False) := by
  obtain ⟨listed, directory, whole⟩ := layout.listed
  unfold takeFreePage
  rw [sat_bind, sat_get]
  cases spare : store.info.freeSparePage with
  | some page =>
    rw [spare] at whole
    have first : free = page :: listed := whole
    exact layout.take listed (by simp [first]) (by rw [first]) ⟨listed, directory, rfl⟩ rfl
      (fun _ _ => rfl) rfl
  | none =>
    rw [spare] at whole
    obtain rfl : free = listed := whole
    cases start : store.info.freeDirectoryHead with
    | none => rfl
    | some head =>
      rw [start] at directory
      cases directory with
      | @cons _ next entries rest content tail =>
        simp only [readFreeDirectory, content, sat_bind, sat_ofResult_ok]
        have listsHead : head ∈ head :: (entries ++ rest) := by simp
        cases last : entries.getLast? with
        | none =>
          obtain rfl : entries = [] := List.getLast?_eq_none_iff.mp last
          refine layout.take rest listsHead (List.Perm.refl _) ⟨rest, tail, ?_⟩ rfl
            (fun _ _ => rfl) rfl
          change rest = store.info.freeSparePage.toList ++ rest
          rw [spare]
          rfl
        | some page =>
          have ends : entries = entries.dropLast ++ [page] :=
            (dropLast_append_getLast? page last).symm
          have split : (head :: (entries ++ rest)).Perm
              (page :: (head :: (entries.dropLast ++ rest))) := by
            rw [ends, dropLast_concat]
            refine (List.Perm.cons head ?_).trans (List.Perm.swap page head _)
            rw [append_assoc]
            exact perm_middle
          have free : use head = .free := layout.unused head listsHead
          refine layout.take (head :: (entries.dropLast ++ rest))
            (split.mem_iff.mpr (by simp)) split ?_ rfl ?_ rfl
          · refine ⟨_, ?_, by
              change _ = store.info.freeSparePage.toList ++ _
              rw [spare]
              rfl⟩
            change Directory _ store.info.freeDirectoryHead _
            rw [start]
            refine .cons (update_self head _ _) (tail.congr fun other mem => ?_)
            -- The other directory pages are different pages of a duplicate-free list.
            have ne : other ≠ head := by
              rintro rfl
              exact (nodup_cons.mp layout.nodup).1 (by simp [mem])
            exact update_of_ne ne _ _
          · intro other occupied
            have ne : other ≠ head := by
              rintro rfl
              exact occupied free
            exact update_of_ne ne _ _

theorem Layout.reuse (purpose : PageUse) (layout : Layout store use free)
    (lost : use page = .lost) : Layout store (update use page purpose) free := by
  refine ⟨layout.listed, layout.nodup, layout.bounded, ?_, ?_⟩
  · intro other mem
    have free := layout.unused other mem
    have ne : other ≠ page := by
      rintro rfl
      rw [lost] at free
      cases free
    rw [update_of_ne ne, free]
  · intro other isOpen
    obtain ⟨bounded, packed, content⟩ := layout.openPage other isOpen
    have ne : other ≠ page := by
      rintro rfl
      rw [lost] at packed
      cases packed
    exact ⟨bounded, by rw [update_of_ne ne, packed], content⟩

theorem Layout.write (layout : Layout store use free)
    (head : after.info.freeDirectoryHead = store.info.freeDirectoryHead)
    (spare : after.info.freeSparePage = store.info.freeSparePage)
    (isOpen : after.propSlabOpenPage = store.propSlabOpenPage)
    (grown : store.pages.overflow.count ≤ after.pages.overflow.count)
    (kept : ∀ page, use page = .free ∨ use page = .packed →
      after.pages.overflow.page page = store.pages.overflow.page page) : Layout after use free := by
  obtain ⟨listed, directory, whole⟩ := layout.listed
  refine ⟨⟨listed, ?_, ?_⟩, layout.nodup, ?_, layout.unused, ?_⟩
  · rw [head]
    refine directory.congr fun page mem => kept page (.inl (layout.unused page ?_))
    rw [whole]
    exact mem_append_right _ mem
  · rw [spare]
    exact whole
  · exact fun page mem => lt_of_lt_of_le (layout.bounded page mem) grown
  · exact layout.openPage_of_untouched isOpen grown fun page packed =>
      ⟨packed, kept page (.inr packed)⟩

/-- A page was allocated for a purpose: nothing else in use was touched. -/
structure Allocated (store after : Store) (use : PageId → PageUse) (page : PageId)
    (purpose : PageUse) : Prop where
  layout : ∃ free, Layout after (update use page purpose) free
  fresh : use page = .free ∨ store.pages.overflow.count ≤ page
  bounded : page < after.pages.overflow.count
  grown : store.pages.overflow.count ≤ after.pages.overflow.count
  kept : ∀ other, other ≠ page → use other ≠ .free →
    after.pages.overflow.page other = store.pages.overflow.page other

theorem sat_allocateOverflowPage (purpose : PageId → PageUse) (layout : Layout store use free) :
    Sat allocateOverflowPage store
      (fun page after => Allocated store after use page (purpose page)) (fun _ _ => False) := by
  unfold allocateOverflowPage
  rw [sat_bind]
  refine (sat_takeFreePage layout).sure (fun taken after reached => ?_)
  cases taken with
  | some page =>
    obtain ⟨mem, ⟨rest, remaining⟩, count, kept⟩ := reached
    refine ⟨⟨rest, ?_⟩, .inl (layout.unused page mem), ?_, le_of_eq count.symm, ?_⟩
    · have lost : update use page .lost page = PageUse.lost := update_self _ _ _
      have erased : Layout { after with
          pages := { after.pages with overflow := after.pages.overflow.write page .blank } }
          (update use page .lost) rest := by
        refine remaining.write rfl rfl rfl le_rfl fun other occupied => ?_
        have ne : other ≠ page := by
          rintro rfl
          rw [lost] at occupied
          rcases occupied with occupied | occupied
          · cases occupied
          · cases occupied
        exact update_of_ne ne _ _
      have again := erased.reuse (purpose page) lost
      rw [update_idem] at again
      exact again
    · change page < after.pages.overflow.count
      rw [count]
      exact layout.bounded page mem
    · intro other ne occupied
      exact (update_of_ne ne _ _).trans (kept other occupied)
  | none =>
    obtain rfl : after = store := reached
    have past : ∀ page, page < after.pages.overflow.count → page ≠ after.pages.overflow.count :=
      fun page => ne_of_lt
    obtain ⟨listed, directory, whole⟩ := layout.listed
    refine ⟨⟨free, ⟨listed, ?_, whole⟩, layout.nodup, ?_, ?_, ?_⟩, .inr le_rfl, ?_, ?_, ?_⟩
    · refine directory.congr fun page mem => update_of_ne (past page ?_) _ _
      exact layout.bounded page (by rw [whole]; exact mem_append_right _ mem)
    · exact fun page mem => lt_of_lt_of_le (layout.bounded page mem) (Nat.le_succ _)
    · intro page mem
      rw [update_of_ne (past page (layout.bounded page mem))]
      exact layout.unused page mem
    · intro page isOpen
      obtain ⟨bounded, packed, entries, content⟩ := layout.openPage page isOpen
      refine ⟨bounded.trans_le (Nat.le_succ _), ?_, entries, ?_⟩
      · rw [update_of_ne (past page bounded), packed]
      · exact (update_of_ne (past page bounded) _ _).trans content
    · exact Nat.lt_succ_self _
    · exact Nat.le_succ _
    · exact fun other ne _ => update_of_ne ne _ _

/-- A page was given back: it joined the free list, and nothing in use was touched. -/
structure Released (store after : Store) (use : PageId → PageUse) (page : PageId) : Prop where
  layout : ∃ free, Layout after (update use page .free) free
  count : after.pages.overflow.count = store.pages.overflow.count
  kept : ∀ other, other ≠ page → use other ≠ .free →
    after.pages.overflow.page other = store.pages.overflow.page other
  isOpen : after.propSlabOpenPage = store.propSlabOpenPage

theorem Layout.release (more : List PageId) (layout : Layout store use free)
    (used : use page ≠ .free) (bounded : page < store.pages.overflow.count)
    (closed : store.propSlabOpenPage ≠ some page) (split : more.Perm (page :: free))
    (listed : ∃ listed, Directory after.pages.overflow after.info.freeDirectoryHead listed ∧
      more = after.info.freeSparePage.toList ++ listed)
    (count : after.pages.overflow.count = store.pages.overflow.count)
    (kept : ∀ other, other ≠ page → use other ≠ .free →
      after.pages.overflow.page other = store.pages.overflow.page other)
    (isOpen : after.propSlabOpenPage = store.propSlabOpenPage) : Released store after use page := by
  have outside : page ∉ free := fun mem => used (layout.unused page mem)
  refine ⟨⟨more, listed, ?_, ?_, ?_, ?_⟩, count, kept, isOpen⟩
  · exact split.symm.nodup (nodup_cons.mpr ⟨outside, layout.nodup⟩)
  · intro other mem
    rw [count]
    rcases mem_cons.mp (split.mem_iff.mp mem) with rfl | old
    · exact bounded
    · exact layout.bounded other old
  · intro other mem
    by_cases same : other = page
    · rw [same, update_self]
    · rw [update_of_ne same]
      rcases mem_cons.mp (split.mem_iff.mp mem) with here | old
      · exact absurd here same
      · exact layout.unused other old
  · intro other opened
    rw [isOpen] at opened
    obtain ⟨inside, packed, entries, content⟩ := layout.openPage other opened
    have ne : other ≠ page := by
      rintro rfl
      exact closed opened
    have occupied : use other ≠ .free := by
      rw [packed]
      decide
    refine ⟨by rw [count]; exact inside, by rw [update_of_ne ne, packed], entries, ?_⟩
    exact (kept other ne occupied).trans content

theorem sat_releasePage (layout : Layout store use free) (used : use page ≠ .free)
    (bounded : page < store.pages.overflow.count) (closed : store.propSlabOpenPage ≠ some page) :
    Sat (releasePage page) store (fun _ after => Released store after use page)
      (fun _ _ => False) := by
  obtain ⟨listed, directory, whole⟩ := layout.listed
  have outside : page ∉ free := fun mem => used (layout.unused page mem)
  have elsewhere (data : OverflowPage) : Directory
      (store.pages.overflow.write page data) store.info.freeDirectoryHead listed := by
    refine directory.congr fun other mem => update_of_ne ?_ _ _
    rintro rfl
    exact outside (by rw [whole]; exact mem_append_right _ mem)
  unfold releasePage
  rw [sat_bind, sat_get]
  cases spare : store.info.freeSparePage with
  | none =>
    rw [spare] at whole
    exact layout.release (page :: free) used bounded closed (List.Perm.refl _)
      ⟨listed, directory, by rw [whole]; rfl⟩ rfl (fun _ _ _ => rfl) rfl
  | some other =>
    rw [spare] at whole
    cases start : store.info.freeDirectoryHead with
    | none =>
      rw [start] at directory
      cases directory
      refine layout.release (other :: (page :: ([] ++ []))) used bounded closed ?_
        ⟨page :: ([] ++ []), .cons (update_self page _ _) .nil, ?_⟩ rfl
        (fun _ ne _ => update_of_ne ne _ _) rfl
      · rw [whole]
        exact List.Perm.swap page other []
      · change _ = store.info.freeSparePage.toList ++ _
        rw [spare]
        rfl
    | some head =>
      rw [start] at directory elsewhere
      cases directory with
      | @cons _ next entries rest content tail =>
        simp only [readFreeDirectory, content, sat_bind, sat_ofResult_ok]
        have listsHead : head ∈ free := by simp [whole]
        have freeHead : use head = .free := layout.unused head listsHead
        by_cases room : entries.length < entriesPerPage
        · simp only [room, ↓reduceIte]
          refine layout.release (other :: (head :: ((entries ++ [page]) ++ rest))) used bounded
            closed ?_ ⟨head :: ((entries ++ [page]) ++ rest), ?_, ?_⟩ rfl ?_ rfl
          · have inner : ((entries ++ [page]) ++ rest).Perm (page :: (entries ++ rest)) := by
              rw [append_assoc]
              exact perm_middle
            rw [whole]
            exact (List.Perm.cons other ((inner.cons head).trans (List.Perm.swap page head _))).trans
              (List.Perm.swap page other _)
          · change Directory _ store.info.freeDirectoryHead _
            rw [start]
            refine .cons (update_self head _ _) (tail.congr fun listed mem => ?_)
            have ne : listed ≠ head := by
              rintro rfl
              have distinct := layout.nodup
              rw [whole] at distinct
              have inner := (nodup_cons.mp distinct).2
              exact (nodup_cons.mp inner).1 (by simp [mem])
            exact update_of_ne ne _ _
          · change _ = store.info.freeSparePage.toList ++ _
            rw [spare]
            rfl
          · intro kept ne occupied
            have notHead : kept ≠ head := by
              rintro rfl
              exact occupied freeHead
            exact update_of_ne notHead _ _
        · simp only [room, ↓reduceIte]
          refine layout.release (other :: (page :: ([] ++ (head :: (entries ++ rest))))) used
            bounded closed ?_ ⟨page :: ([] ++ (head :: (entries ++ rest))), ?_, ?_⟩ rfl
            (fun _ ne _ => update_of_ne ne _ _) rfl
          · rw [whole]
            exact List.Perm.swap page other _
          · exact .cons (update_self page _ _) (elsewhere _)
          · change _ = store.info.freeSparePage.toList ++ _
            rw [spare]
            rfl

theorem slabLookup_retire_self (entries : List SlabEntry) (key : EntityKey) :
    slabLookup (entries.map (retire key)) key = none := by
  unfold slabLookup
  rw [Option.map_eq_none_iff, List.find?_eq_none]
  intro entry mem
  obtain ⟨old, _, rfl⟩ := mem_map.mp mem
  unfold retire
  split
  · simp
  · next other => simpa using other

theorem slabLookup_retire_of_ne (entries : List SlabEntry) {other : EntityKey}
    (ne : other ≠ key) :
    slabLookup (entries.map (retire key)) other = slabLookup entries other := by
  unfold slabLookup
  induction entries with
  | nil => rfl
  | cons entry rest ih =>
    rw [map_cons, List.find?_cons, List.find?_cons]
    by_cases owned : entry.entity = some key
    · have skipped : ¬some key = some other := fun same => ne (Option.some.inj same).symm
      simp only [retire, owned, ↓reduceIte, reduceCtorEq, decide_false, skipped]
      exact ih
    · simp only [retire, owned, ↓reduceIte]
      split
      · rfl
      · exact ih

theorem slabLookup_repack (entries : List SlabEntry) (writeAt : Nat) (key : EntityKey) :
    slabLookup (repack writeAt entries) key = slabLookup entries key := by
  unfold slabLookup
  induction entries generalizing writeAt with
  | nil => rfl
  | cons entry rest ih =>
    by_cases owned : entry.entity = some key
    · simp only [repack, List.find?_cons, owned, decide_true, Option.map_some]
    · simp only [repack, List.find?_cons, owned, decide_false]
      exact ih _

theorem slabLookup_compact (entries : List SlabEntry) (key : EntityKey) :
    slabLookup (compact entries) key = slabLookup entries key := by
  unfold compact
  rw [slabLookup_repack]
  unfold slabLookup slabLive
  rw [List.find?_filter]
  congr 2
  funext entry
  cases entry.entity with
  | none => simp
  | some other => simp

theorem slabLookup_slabWrite (ok : slabWrite entries key blob = .ok written) (other : EntityKey) :
    slabLookup written other = if other = key then some blob else slabLookup entries other := by
  unfold slabWrite at ok
  dsimp only at ok
  generalize chosen : (if slabFreeSpace (entries.map (retire key)) < blob.length + slabDirEntrySize
    then compact (entries.map (retire key)) else entries.map (retire key)) = room at ok
  have lookup : slabLookup room other = slabLookup (entries.map (retire key)) other := by
    rw [← chosen]
    split
    · exact slabLookup_compact _ other
    · rfl
  split at ok
  · cases ok
  · cases ok
    unfold slabLookup at lookup ⊢
    rw [List.find?_append]
    by_cases same : other = key
    · subst same
      have none := slabLookup_retire_self entries other
      unfold slabLookup at none
      rw [none, Option.map_eq_none_iff] at lookup
      simp [lookup]
    · have kept := slabLookup_retire_of_ne entries same
      unfold slabLookup at kept
      rw [kept] at lookup
      have ne : ¬some key = some other := fun equal => same (Option.some.inj equal).symm
      simp [same, ne, lookup]

/-- Continuation pages that carry the given bytes. -/
inductive ContChain (file : PageFile OverflowPage) :
    Option PageId → List PageId → List UInt8 → Prop
  | nil : ContChain file none [] []
  | cons {page : PageId} {next : Option PageId} {rest : List PageId} {chunk tail : List UInt8}
      (bounded : page < file.count) (content : file.page page = .cont chunk next)
      (nonempty : chunk ≠ []) (more : ContChain file next rest tail) :
      ContChain file (some page) (page :: rest) (chunk ++ tail)

/-- The blob an entity has at a page: an entry of a packed page, or a chain of its own. -/
inductive Holds (file : PageFile OverflowPage) (use : PageId → PageUse) (key : EntityKey)
    (page : PageId) : List UInt8 → Prop
  | packed {entries : List SlabEntry} {blob : List UInt8} (bounded : page < file.count)
      (purpose : use page = .packed) (content : file.page page = .slab entries)
      (found : slabLookup entries key = some blob) : Holds file use key page blob
  | chained {rest : List PageId} {next : Option PageId} {chunk tail : List UInt8}
      (bounded : page < file.count)
      (content : file.page page = .first (chunk ++ tail).length chunk next)
      (more : ContChain file next rest tail)
      (purpose : ∀ other ∈ page :: rest, use other = .chain key page)
      (nodup : (page :: rest).Nodup) : Holds file use key page (chunk ++ tail)

variable {pages : List PageId}

theorem ContChain.bounded (chain : ContChain file next pages data) :
    ∀ page ∈ pages, page < file.count := by
  induction chain with
  | nil => simp
  | cons bounded _ _ _ ih =>
    intro page mem
    rcases mem_cons.mp mem with rfl | later
    · exact bounded
    · exact ih page later

theorem ContChain.congr (chain : ContChain file next pages data) (grown : file.count ≤ file'.count)
    (same : ∀ page ∈ pages, file'.page page = file.page page) :
    ContChain file' next pages data := by
  induction chain with
  | nil => exact .nil
  | cons bounded content nonempty more ih =>
    refine .cons (bounded.trans_le grown) ((same _ (by simp)).trans content) nonempty ?_
    exact ih fun page mem => same page (by simp [mem])

theorem Holds.congr (holds : Holds file use key page blob) (grown : file.count ≤ file'.count)
    (kept : ∀ other < file.count, use other = use page →
      file'.page other = file.page other ∧ use' other = use other) :
    Holds file' use' key page blob := by
  cases holds with
  | packed bounded purpose content found =>
    obtain ⟨same, used⟩ := kept page bounded rfl
    exact .packed (bounded.trans_le grown) (used.trans purpose) (same.trans content) found
  | @chained rest next chunk tail bounded content more purpose nodup =>
    have first : use page = .chain key page := purpose page (by simp)
    have inside : ∀ other ∈ page :: rest, other < file.count := by
      intro other mem
      rcases mem_cons.mp mem with rfl | later
      · exact bounded
      · exact more.bounded other later
    have each : ∀ other ∈ page :: rest,
        file'.page other = file.page other ∧ use' other = use other := fun other mem =>
      kept other (inside other mem) ((purpose other mem).trans first.symm)
    refine .chained (bounded.trans_le grown) ((each page (by simp)).1.trans content) ?_ ?_ nodup
    · exact more.congr grown fun other mem => (each other (by simp [mem])).1
    · exact fun other mem => (each other mem).2.trans (purpose other mem)

theorem Holds.use_ne_free (holds : Holds file use key page blob) :
    use page ≠ .free ∧ use page ≠ .lost ∧ page < file.count := by
  cases holds with
  | packed bounded purpose content found =>
    rw [purpose]
    exact ⟨by decide, by decide, bounded⟩
  | chained bounded content more purpose nodup =>
    rw [purpose page (by simp)]
    exact ⟨nofun, nofun, bounded⟩

theorem readOverflowPage_of_lt (bounded : page < store.pages.overflow.count) :
    store.readOverflowPage page = .ok (store.pages.overflow.page page) := by
  simp [readOverflowPage, bounded]

theorem ContChain.read (chain : ContChain store.pages.overflow next pages data) (total fuel : Nat)
    (read : List UInt8) (length : total = (read ++ data).length) (enough : data.length < fuel) :
    store.readContPages total fuel next read = .ok (read ++ data) := by
  induction chain generalizing fuel read with
  | nil =>
    cases fuel with
    | zero => exact absurd enough (Nat.not_lt_zero _)
    | succ fuel => simp [readContPages, pure, Except.pure]
  | @cons page next rest chunk tail bounded content nonempty more ih =>
    cases fuel with
    | zero => exact absurd enough (Nat.not_lt_zero _)
    | succ fuel =>
      have some : 0 < chunk.length := length_pos_iff.mpr nonempty
      rw [length_append, length_append] at length
      rw [length_append] at enough
      have short : read.length < total := by omega
      unfold readContPages
      rw [if_pos short, readOverflowPage_of_lt bounded, content]
      change store.readContPages total fuel next (read ++ chunk) = _
      rw [ih fuel (read ++ chunk) (by simp only [length_append]; omega) (by omega), append_assoc]

theorem Holds.read (holds : Holds store.pages.overflow use key page blob) :
    store.readOverflowedProps key page = .ok blob := by
  cases holds with
  | packed bounded purpose content found =>
    simp only [readOverflowedProps, isSlabPage, slabEntries, readOverflowPage_of_lt bounded, content]
    simp [bind, Except.bind, pure, Except.pure, found]
  | @chained rest next chunk tail bounded content more purpose nodup =>
    simp only [readOverflowedProps, isSlabPage, readOverflow, readOverflowPage_of_lt bounded, content]
    have read := more.read (chunk ++ tail).length ((chunk ++ tail).length + 1) chunk rfl
      (by simp only [length_append]; omega)
    simpa [bind, Except.bind] using read

/-- The blobs the file is known to hold, by entity and page. -/
abbrev Blobs := EntityKey → PageId → Option (List UInt8)

variable {blobs : Blobs}

def Blobs.put (blobs : Blobs) (key : EntityKey) (page : PageId) (blob : List UInt8) : Blobs :=
  fun k p => if k = key ∧ p = page then some blob else blobs k p

def Blobs.drop (blobs : Blobs) (key : EntityKey) (page : PageId) : Blobs :=
  fun k p => if k = key ∧ p = page then none else blobs k p

/-- The overflow file is well formed and holds the given blobs, for some uses of its pages. -/
structure Holding (store : Store) (use : PageId → PageUse) (free : List PageId) (blobs : Blobs) :
    Prop where
  layout : Layout store use free
  holds : ∀ key page blob, blobs key page = some blob → Holds store.pages.overflow use key page blob

def HoldsBlobs (store : Store) (blobs : Blobs) : Prop := ∃ use free, Holding store use free blobs

/-- One page was replaced; the free list and the open page are as before. -/
structure Wrote (store after : Store) (page : PageId) (data : OverflowPage) : Prop where
  file : after.pages.overflow = store.pages.overflow.write page data
  info : after.info = store.info
  isOpen : after.propSlabOpenPage = store.propSlabOpenPage

theorem sat_writeOverflowPage (data : OverflowPage) (bounded : page < store.pages.overflow.count) :
    Sat (writeOverflowPage page data) store (fun _ after => Wrote store after page data)
      (fun _ _ => False) := by
  unfold writeOverflowPage
  rw [sat_bind, sat_get, if_neg (Nat.not_le.mpr bounded)]
  exact ⟨rfl, rfl, rfl⟩

theorem Wrote.layout {data : OverflowPage} (wrote : Wrote store after page data)
    (layout : Layout store use free) (inUse : use page ≠ .free) (unpacked : use page ≠ .packed) :
    Layout after use free := by
  refine layout.write ?_ ?_ wrote.isOpen ?_ fun other occupied => ?_
  · rw [wrote.info]
  · rw [wrote.info]
  · rw [wrote.file]
    exact le_rfl
  · have ne : other ≠ page := by
      rintro rfl
      rcases occupied with occupied | occupied
      · exact inUse occupied
      · exact unpacked occupied
    rw [wrote.file]
    exact update_of_ne ne _ _

theorem Wrote.holds {other : PageId} {data : OverflowPage} (wrote : Wrote store after other data)
    (holds : Holds store.pages.overflow use key page blob) (apart : use page ≠ use other) :
    Holds after.pages.overflow use key page blob := by
  refine holds.congr (by rw [wrote.file]; exact le_rfl) fun third _ same => ⟨?_, rfl⟩
  have ne : third ≠ other := by
    rintro rfl
    exact apart same.symm
  rw [wrote.file]
  exact update_of_ne ne _ _

theorem Allocated.holds {fresh : PageId} {purpose : PageUse}
    (allocated : Allocated store after use fresh purpose)
    (holds : Holds store.pages.overflow use key page blob) :
    page ≠ fresh ∧ Holds after.pages.overflow (update use fresh purpose) key page blob := by
  obtain ⟨notFree, _, bounded⟩ := holds.use_ne_free
  have apart : ∀ other < store.pages.overflow.count, use other ≠ .free → other ≠ fresh := by
    rintro other inside occupied rfl
    rcases allocated.fresh with free | beyond
    · exact occupied free
    · exact absurd inside (Nat.not_lt.mpr beyond)
  refine ⟨apart page bounded notFree, holds.congr allocated.grown fun other inside same => ?_⟩
  have occupied : use other ≠ .free := by
    rw [same]
    exact notFree
  have ne := apart other inside occupied
  exact ⟨allocated.kept other ne occupied, update_of_ne ne _ _⟩

/-- The rest of a chain was written from a page on: pages in use before kept their use, and
only that page among them changed. -/
structure Continued (store after : Store) (use : PageId → PageUse) (key : EntityKey)
    (first page : PageId) (data : List UInt8) (use' : PageId → PageUse) (rest : List PageId) :
    Prop where
  layout : ∃ free, Layout after use' free
  chain : ContChain after.pages.overflow (some page) (page :: rest) data
  purpose : ∀ other ∈ rest, use' other = .chain key first
  nodup : (page :: rest).Nodup
  grown : store.pages.overflow.count ≤ after.pages.overflow.count
  kept : ∀ other < store.pages.overflow.count, use other ≠ .free →
    use' other = use other ∧ other ∉ rest ∧
      (other ≠ page → after.pages.overflow.page other = store.pages.overflow.page other)

variable {first : PageId}

theorem sat_writeContPages (fuel : Nat) (layout : Layout store use free)
    (purpose : use page = .chain key first) (bounded : page < store.pages.overflow.count)
    (nonempty : data ≠ []) (enough : data.length ≤ fuel) :
    Sat (writeContPages fuel page data) store
      (fun _ after => ∃ use' rest, Continued store after use key first page data use' rest)
      (fun _ _ => False) := by
  induction fuel generalizing store use free page data with
  | zero => exact absurd (length_eq_zero_iff.mp (Nat.le_zero.mp enough)) nonempty
  | succ fuel ih =>
    have occupied : use page ≠ .free := by
      rw [purpose]
      exact nofun
    have unpacked : use page ≠ .packed := by
      rw [purpose]
      exact nofun
    have pos : 0 < data.length := length_pos_iff.mpr nonempty
    have chunk : data.take contPageDataCap ≠ [] := by
      rw [← length_pos_iff, length_take]
      exact lt_min (by decide) pos
    unfold writeContPages
    dsimp only
    rw [sat_ite]
    constructor
    · intro last
      refine (sat_writeOverflowPage _ bounded).relax (fun _ after wrote => ?_)
      refine ⟨use, [], ⟨free, wrote.layout layout occupied unpacked⟩, ?_, by simp, by simp, ?_, ?_⟩
      · have whole : data = data.take contPageDataCap ++ [] := by
          rw [append_nil, take_of_length_le]
          simpa using last
        rw [wrote.file, whole, append_nil, take_take, min_self]
        rw [← append_nil (data.take contPageDataCap)]
        exact .cons bounded (by rw [append_nil]; exact update_self page _ _) chunk .nil
      · rw [wrote.file]
        exact le_rfl
      · intro other _ _
        refine ⟨rfl, by simp, fun ne => ?_⟩
        rw [wrote.file]
        exact update_of_ne ne _ _
    · intro more
      rw [sat_bind]
      refine (sat_allocateOverflowPage (fun _ => .chain key first) layout).sure
        (fun next after allocated => ?_)
      rw [sat_bind]
      obtain ⟨⟨free', layout'⟩, fresh, nextBounded, grown, kept⟩ := allocated
      have apart : page ≠ next := by
        rintro rfl
        rcases fresh with unused | beyond
        · exact occupied unused
        · exact absurd bounded (Nat.not_lt.mpr beyond)
      have purpose' : update use next (.chain key first) page = .chain key first := by
        rw [update_of_ne apart, purpose]
      refine (sat_writeOverflowPage _ (bounded.trans_le grown)).sure
        (fun _ written wrote => ?_)
      have count : written.pages.overflow.count = after.pages.overflow.count := by
        rw [wrote.file]
        rfl
      have remaining : data.drop contPageDataCap ≠ [] := by simpa using more
      have shorter : (data.drop contPageDataCap).length ≤ fuel := by
        rw [length_drop]
        have capacity : 0 < contPageDataCap := by decide
        omega
      have layoutWritten : Layout written (update use next (.chain key first)) free' :=
        wrote.layout layout' (by rw [purpose']; exact nofun) (by rw [purpose']; exact nofun)
      refine (ih layoutWritten (update_self next _ _)
        (by rw [count]; exact nextBounded) remaining shorter).relax
        (fun _ final done => ?_)
      obtain ⟨use', rest, continued⟩ := done
      have pageInside : page < written.pages.overflow.count := by
        rw [count]
        exact bounded.trans_le grown
      have pageKept := continued.kept page pageInside (by rw [purpose']; exact nofun)
      have nextKept := continued.kept next (by rw [count]; exact nextBounded)
        (by rw [update_self]; exact nofun)
      refine ⟨use', next :: rest, continued.layout, ?_, ?_, ?_, ?_, ?_⟩
      · have content : final.pages.overflow.page page =
            .cont (data.take contPageDataCap) (some next) := by
          rw [pageKept.2.2 apart, wrote.file]
          exact update_self page _ _
        have inside := pageInside.trans_le continued.grown
        have split := ContChain.cons inside content chunk continued.chain
        rwa [take_append_drop] at split
      · intro other mem
        rcases mem_cons.mp mem with rfl | later
        · rw [nextKept.1, update_self]
        · exact continued.purpose other later
      · refine nodup_cons.mpr ⟨?_, continued.nodup⟩
        intro mem
        rcases mem_cons.mp mem with here | later
        · exact apart here
        · exact pageKept.2.1 later
      · exact (grown.trans (le_of_eq count.symm)).trans continued.grown

      · intro other inside inUse
        have ne : other ≠ next := by
          rintro rfl
          rcases fresh with unused | beyond
          · exact inUse unused
          · exact absurd inside (Nat.not_lt.mpr beyond)
        have used : update use next (.chain key first) other = use other :=
          update_of_ne ne _ _
        obtain ⟨same, outside, content⟩ := continued.kept other
          (by rw [count]; exact inside.trans_le grown) (by rw [used]; exact inUse)
        refine ⟨same.trans used, ?_, fun notPage => ?_⟩
        · intro mem
          rcases mem_cons.mp mem with here | later
          · exact ne here
          · exact outside later
        · rw [content ne, wrote.file]
          exact (update_of_ne notPage _ _).trans (kept other ne inUse)

theorem Holding.put (layout : Layout store use free)
    (others : ∀ k p b, blobs k p = some b → ¬(k = key ∧ p = page) →
      Holds store.pages.overflow use k p b) (here : Holds store.pages.overflow use key page blob) :
    HoldsBlobs store (blobs.put key page blob) := by
  refine ⟨use, free, layout, fun k p b known => ?_⟩
  unfold Blobs.put at known
  split at known
  · next same =>
      obtain ⟨rfl, rfl⟩ := same
      cases known
      exact here
  · next ne => exact others k p b known ne

theorem sat_writeOverflow (key : EntityKey) (data : List UInt8) (holds : HoldsBlobs store blobs) :
    Sat (writeOverflow data) store
      (fun page after => (∀ other, blobs other page = none) ∧
        HoldsBlobs after (blobs.put key page data))
      (fun _ after => after = store) := by
  obtain ⟨use, free, layout, each⟩ := holds
  unfold writeOverflow
  rw [sat_ite]
  refine ⟨fun _ => rfl, fun _ => ?_⟩
  rw [sat_bind]
  refine (sat_allocateOverflowPage (fun page => .chain key page) layout).sure
    (fun page after allocated => ?_)
  obtain ⟨free₁, layout₁⟩ := allocated.layout
  have still : ∀ k p b, blobs k p = some b → p ≠ page ∧
      Holds after.pages.overflow (update use page (.chain key page)) k p b :=
    fun k p b known => allocated.holds (each k p b known)
  have unknown : ∀ other, blobs other page = none := by
    intro other
    cases known : blobs other page with
    | none => rfl
    | some b => exact absurd rfl (still other page b known).1
  have mine : update use page (.chain key page) page = PageUse.chain key page :=
    update_self page _ _
  -- A blob held elsewhere is not on a page of the new chain.
  have apart : ∀ k p b, blobs k p = some b →
      update use page (.chain key page) p ≠ .chain key page := by
    intro k p b known same
    obtain ⟨ne, held⟩ := still k p b known
    cases held with
    | packed bounded purpose content found =>
      rw [purpose] at same
      cases same
    | chained bounded content more purpose nodup =>
      rw [purpose p (by simp)] at same
      cases same
      exact ne rfl
  dsimp only
  rw [sat_ite]
  constructor
  · intro single
    rw [sat_bind]
    refine (sat_writeOverflowPage _ allocated.bounded).sure (fun _ written wrote => ?_)
    refine ⟨unknown, ?_⟩
    have layoutWritten := wrote.layout layout₁ (by rw [mine]; exact nofun) (by rw [mine]; exact nofun)
    refine Holding.put layoutWritten (fun k p b known _ => ?_) ?_
    · exact wrote.holds (still k p b known).2 (by rw [mine]; exact apart k p b known)
    · have whole : data.take firstPageDataCap = data := by
        rw [take_of_length_le]
        simpa using single
      have content : written.pages.overflow.page page =
          .first (data ++ []).length data none := by
        rw [wrote.file, whole, append_nil]
        exact update_self page _ _
      have bounded : page < written.pages.overflow.count := by
        rw [wrote.file]
        exact allocated.bounded
      have purposes : ∀ other ∈ [page],
          update use page (.chain key page) other = .chain key page := by
        intro other mem
        rw [mem_singleton.mp mem, mine]
      have held := Holds.chained bounded content .nil purposes (by simp)
      rwa [append_nil] at held

  · intro several
    rw [sat_bind]
    refine (sat_allocateOverflowPage (fun _ => .chain key page) layout₁).sure
      (fun next grown allocated₂ => ?_)
    obtain ⟨free₂, layout₂⟩ := allocated₂.layout
    have ne : page ≠ next := by
      rintro rfl
      rcases allocated₂.fresh with unused | beyond
      · rw [mine] at unused
        cases unused
      · exact absurd allocated.bounded (Nat.not_lt.mpr beyond)
    have mine₂ : update (update use page (.chain key page)) next
        (.chain key page) page = PageUse.chain key page := by
      rw [update_of_ne ne, mine]
    rw [sat_bind]
    refine (sat_writeOverflowPage _ (allocated.bounded.trans_le allocated₂.grown)).sure
      (fun _ written wrote => ?_)
    have count : written.pages.overflow.count = grown.pages.overflow.count := by
      rw [wrote.file]
      rfl
    have layoutWritten :=
      wrote.layout layout₂ (by rw [mine₂]; exact nofun) (by rw [mine₂]; exact nofun)
    rw [sat_bind]
    have remaining : data.drop firstPageDataCap ≠ [] := by simpa using several
    refine (sat_writeContPages _ layoutWritten (update_self next _ _)
      (by rw [count]; exact allocated₂.bounded) remaining le_rfl).sure
      (fun _ final done => ?_)
    obtain ⟨use₃, rest, continued⟩ := done
    obtain ⟨free₃, layoutFinal⟩ := continued.layout
    have pageInside : page < written.pages.overflow.count := by
      rw [count]
      exact allocated.bounded.trans_le allocated₂.grown
    have pageKept := continued.kept page pageInside (by rw [mine₂]; exact nofun)
    have nextKept := continued.kept next (by rw [count]; exact allocated₂.bounded)
      (by rw [update_self]; exact nofun)
    refine ⟨unknown, Holding.put layoutFinal (fun k p b known _ => ?_) ?_⟩
    · obtain ⟨notNext, held⟩ := allocated₂.holds (still k p b known).2
      have elsewhere : update (update use page (.chain key page)) next
          (.chain key page) p ≠ .chain key page := by
        rw [update_of_ne notNext]
        exact apart k p b known
      have heldWritten := wrote.holds held (by rw [mine₂]; exact elsewhere)
      obtain ⟨notFree, _, _⟩ := heldWritten.use_ne_free
      refine heldWritten.congr continued.grown fun other inside same => ?_
      obtain ⟨used, _, content⟩ := continued.kept other inside (by rw [same]; exact notFree)
      refine ⟨content ?_, used⟩
      rintro rfl
      rw [update_self] at same
      exact elsewhere same.symm
    · have content : final.pages.overflow.page page =
          .first (data.take firstPageDataCap ++ data.drop firstPageDataCap).length
            (data.take firstPageDataCap) (some next) := by
        rw [pageKept.2.2 ne, wrote.file, take_append_drop]
        exact update_self page _ _
      have purposes : ∀ other ∈ page :: next :: rest, use₃ other = .chain key page := by
        intro other mem
        rcases mem_cons.mp mem with rfl | later
        · rw [pageKept.1, mine₂]
        · rcases mem_cons.mp later with rfl | last
          · rw [nextKept.1, update_self]
          · exact continued.purpose other last
      have distinct : (page :: next :: rest).Nodup := by
        refine nodup_cons.mpr ⟨fun mem => ?_, continued.nodup⟩
        rcases mem_cons.mp mem with here | later
        · exact ne here
        · exact pageKept.2.1 later
      have held := Holds.chained (pageInside.trans_le continued.grown) content
        continued.chain purposes distinct
      rwa [take_append_drop] at held

theorem slabEntries_of_slab (bounded : page < store.pages.overflow.count)
    (content : store.pages.overflow.page page = .slab entries) :
    store.slabEntries page = .ok entries := by
  simp [slabEntries, readOverflowPage_of_lt bounded, content, bind, Except.bind, pure, Except.pure]

theorem Wrote.holds_of_ne {data : OverflowPage} (wrote : Wrote store after page data)
    (holds : Holds store.pages.overflow use k p blob) (packed : use page = .packed)
    (ne : p ≠ page) : Holds after.pages.overflow use k p blob := by
  cases holds with
  | packed bounded purpose content found =>
    rw [wrote.file]
    exact .packed bounded purpose ((update_of_ne ne _ _).trans content) found
  | chained bounded content more purpose nodup =>
    refine wrote.holds (.chained bounded content more purpose nodup) ?_
    rw [packed, purpose p (by simp)]
    exact nofun

theorem Wrote.holds_packed (wrote : Wrote store after page (.slab written))
    (content : store.pages.overflow.page page = .slab entries)
    (lookup : ∀ other, other ≠ key → slabLookup written other = slabLookup entries other)
    (holds : Holds store.pages.overflow use k p blob) (packed : use page = .packed)
    (ne : ¬(k = key ∧ p = page)) : Holds after.pages.overflow use k p blob := by
  by_cases same : p = page
  · subst same
    cases holds with
    | packed bounded purpose known looked =>
      rw [content] at known
      cases known
      rw [wrote.file]
      refine .packed bounded purpose (update_self p _ _) ?_
      rw [lookup k fun equal => ne ⟨equal, rfl⟩]
      exact looked
    | chained bounded known more purpose nodup =>
      rw [content] at known
      cases known
  · exact wrote.holds_of_ne holds packed same

theorem Wrote.layout_packed (wrote : Wrote store after page (.slab written))
    (layout : Layout store use free) (packed : use page = .packed) : Layout after use free := by
  have kept : ∀ other, other ≠ page →
      after.pages.overflow.page other = store.pages.overflow.page other := by
    intro other ne
    rw [wrote.file]
    exact update_of_ne ne _ _
  obtain ⟨listed, directory, whole⟩ := layout.listed
  refine ⟨⟨listed, ?_, ?_⟩, layout.nodup, ?_, layout.unused, ?_⟩
  · rw [wrote.info]
    refine directory.congr fun other mem => kept other ?_
    rintro rfl
    have unused := layout.unused other (by rw [whole]; exact mem_append_right _ mem)
    rw [packed] at unused
    cases unused
  · rw [wrote.info]
    exact whole
  · rw [wrote.file]
    exact layout.bounded
  · intro other isOpen
    rw [wrote.isOpen] at isOpen
    obtain ⟨bounded, purpose, entries, content⟩ := layout.openPage other isOpen
    rw [wrote.file]
    refine ⟨bounded, purpose, ?_⟩
    by_cases same : other = page
    · subst same
      exact ⟨written, update_self other _ _⟩
    · exact ⟨entries, (update_of_ne same _ _).trans content⟩

theorem sat_writeBlob (key : EntityKey) (blob : List UInt8) (holding : Holding store use free blobs)
    (bounded : page < store.pages.overflow.count) (packed : use page = .packed)
    (content : store.pages.overflow.page page = .slab entries) :
    Sat (writeBlob page key blob) store
      (fun _ after => Holding after use free (blobs.put key page blob) ∧
        after.pages.overflow.count = store.pages.overflow.count ∧
        ∃ written, after.pages.overflow.page page = .slab written)
      (fun _ after => after = store ∧ ∃ e, slabWrite entries key blob = .error e) := by
  unfold writeBlob
  rw [sat_bind, sat_get, slabEntries_of_slab bounded content, sat_bind, sat_ofResult_ok, sat_bind]
  rw [sat_ofResult]
  refine ⟨fun written fits => ?_, fun e refused => ⟨rfl, e, refused⟩⟩
  have lookup := slabLookup_slabWrite fits
  refine (sat_writeOverflowPage _ bounded).sure (fun _ after wrote => ?_)
  have page' : after.pages.overflow.page page = .slab written := by
    rw [wrote.file]
    exact update_self page _ _
  have count : after.pages.overflow.count = store.pages.overflow.count := by
    rw [wrote.file]
    rfl
  refine ⟨⟨wrote.layout_packed holding.layout packed, fun k p b known => ?_⟩, count, written, page'⟩
  unfold Blobs.put at known
  split at known
  · next same =>
      obtain ⟨rfl, rfl⟩ := same
      cases known
      refine .packed (by rw [count]; exact bounded) packed page' ?_
      rw [lookup k, if_pos rfl]
  · next ne =>
      refine wrote.holds_packed content (fun other apart => ?_) (holding.holds k p b known) packed
        ne
      rw [lookup other, if_neg apart]

theorem slabWrite_nil (key : EntityKey) (small : blob.length ≤ maxPackedBlob) :
    ∃ written, slabWrite [] key blob = .ok written := by
  have small : blob.length ≤ 4062 := small
  have free : slabFreeSpace [] = 4078 := by decide
  have enough : ¬4078 < blob.length + slabDirEntrySize := by
    unfold slabDirEntrySize
    omega
  have whole : slabWrite [] key blob =
      .ok ([] ++ [⟨some key, blobLowWater [] - blob.length, blob⟩]) := by
    simp only [slabWrite, map_nil, free, enough, ↓reduceIte]
  exact ⟨_, whole⟩

/-- The page a blob is stored at: one that held nothing before, or the open packed page. -/
def StoredAt (store : Store) (blobs : Blobs) (bytes : List UInt8) (page : PageId) : Prop :=
  (∀ other, blobs other page = none) ∨
    bytes.length ≤ maxPackedBlob ∧ store.propSlabOpenPage = some page ∧
      store.slabPageHasRoom page bytes.length

theorem sat_storeOverflowedProps (key : EntityKey) (bytes : List UInt8)
    (holds : HoldsBlobs store blobs) :
    Sat (storeOverflowedProps key bytes) store
      (fun page after => StoredAt store blobs bytes page ∧
        HoldsBlobs after (blobs.put key page bytes))
      (fun _ after => after = store) := by
  unfold storeOverflowedProps
  rw [sat_bind, sat_get, sat_ite]
  constructor
  · intro _
    refine (sat_writeOverflow key bytes holds).relax (fun page after done => ?_)
    exact ⟨.inl done.1, done.2⟩
  · intro small
    obtain ⟨use, free, layout, each⟩ := holds
    cases chosen : store.propSlabOpenPage.filter
        (fun page => store.slabPageHasRoom page bytes.length) with
    | some page =>
      obtain ⟨isOpen, room⟩ := Option.filter_eq_some_iff.mp chosen
      obtain ⟨bounded, packed, entries, content⟩ := layout.openPage page isOpen
      dsimp only
      rw [sat_bind]
      refine (sat_writeBlob key bytes ⟨layout, each⟩ bounded packed content).mono
        (fun _ after done => ?_) (fun _ after same => ?_)
      · exact ⟨.inr ⟨not_lt.mp small, isOpen, room⟩, use, free, done.1⟩
      · exact same.1
    | none =>
      dsimp only
      rw [sat_bind]
      refine (sat_allocateOverflowPage (fun _ => .packed) layout).sure
        (fun page after allocated => ?_)
      obtain ⟨free₁, layout₁⟩ := allocated.layout
      have mine : update use page .packed page = PageUse.packed := update_self page _ _
      have still : ∀ k p b, blobs k p = some b → p ≠ page ∧
          Holds after.pages.overflow (update use page .packed) k p b :=
        fun k p b known => allocated.holds (each k p b known)
      have unknown : ∀ other, blobs other page = none := by
        intro other
        cases known : blobs other page with
        | none => rfl
        | some b => exact absurd rfl (still other page b known).1
      rw [sat_bind]
      refine (sat_writeOverflowPage _ allocated.bounded).sure (fun _ started wrote => ?_)
      have bounded : page < started.pages.overflow.count := by
        rw [wrote.file]
        exact allocated.bounded
      have content : started.pages.overflow.page page = .slab [] := by
        rw [wrote.file]
        exact update_self page _ _
      have holding : Holding started (update use page .packed) free₁ blobs := by
        refine ⟨wrote.layout_packed layout₁ mine, fun k p b known => ?_⟩
        obtain ⟨ne, held⟩ := still k p b known
        exact wrote.holds_of_ne held mine ne

      rw [sat_bind]
      refine (sat_writeBlob key bytes holding bounded mine content).mono
        (fun _ written done => ?_) (fun _ written same => ?_)
      · obtain ⟨holding', count, entries, content'⟩ := done
        rw [sat_bind, sat_modify, sat_pure]
        refine ⟨.inl unknown, _, free₁, ?_, holding'.holds⟩
        obtain ⟨listed, nodup, inside, unused, _⟩ := holding'.layout
        refine ⟨listed, nodup, inside, unused, fun other isOpen => ?_⟩
        obtain rfl : page = other := Option.some.inj isOpen
        exact ⟨by rw [count]; exact bounded, mine, entries, content'⟩
      · obtain ⟨written, fits⟩ := slabWrite_nil key (not_lt.mp small)
        obtain ⟨_, e, refused⟩ := same
        rw [fits] at refused
        cases refused

theorem ContChain.chainPages (chain : ContChain store.pages.overflow next pages data) (fuel : Nat)
    (enough : pages.length ≤ fuel) :
    (match next with
      | none => []
      | some page => store.chainPages fuel page) = pages := by
  induction chain generalizing fuel with
  | nil => rfl
  | @cons page next rest chunk tail bounded content nonempty more ih =>
    cases fuel with
    | zero => exact absurd enough (Nat.not_succ_le_zero _)
    | succ fuel =>
      have rest' := ih fuel (Nat.le_of_succ_le_succ enough)
      simp only [Store.chainPages, readOverflowPage_of_lt bounded, content, chainNext]
      cases next with
      | none => simpa using rest'
      | some following => simpa using rest'

theorem length_le_of_nodup_lt {pages : List Nat} {count : Nat} (distinct : pages.Nodup)
    (bounded : ∀ page ∈ pages, page < count) : pages.length ≤ count := by
  have inside : pages ⊆ List.range count := fun page mem => mem_range.mpr (bounded page mem)
  simpa using (subperm_of_subset distinct inside).length_le

/-- Releasing the pages of a chain keeps every other blob. -/
theorem sat_forM_releasePage (pages : List PageId) (layout : Layout store use free)
    (distinct : pages.Nodup) (bounded : ∀ page ∈ pages, page < store.pages.overflow.count)
    (purpose : ∀ page ∈ pages, use page = .chain key first) :
    Sat (pages.forM releasePage) store
      (fun _ after => ∃ use' free', Layout after use' free' ∧
        after.pages.overflow.count = store.pages.overflow.count ∧
        ∀ other, use other ≠ .free → use other ≠ .chain key first → use' other = use other ∧
            after.pages.overflow.page other = store.pages.overflow.page other)
      (fun _ _ => False) := by
  induction pages generalizing store use free with
  | nil => exact ⟨use, free, layout, rfl, fun _ _ _ => ⟨rfl, rfl⟩⟩
  | cons page rest ih =>
    simp only [forM_eq_forM, forM_cons, sat_bind]
    have mine : use page = .chain key first := purpose page (by simp)
    have closed : store.propSlabOpenPage ≠ some page := by
      intro isOpen
      obtain ⟨_, packed, _⟩ := layout.openPage page isOpen
      rw [mine] at packed
      cases packed
    refine (sat_releasePage layout (by simp [mine]) (bounded page (by simp))
      closed).relax (fun _ after released => ?_)
    obtain ⟨⟨free₁, layout₁⟩, count, kept, _⟩ := released
    have apart : ∀ other ∈ rest, other ≠ page := by
      rintro other mem rfl
      exact (nodup_cons.mp distinct).1 mem
    refine (ih layout₁ (nodup_cons.mp distinct).2 ?_ ?_).relax
      (fun _ final done => ?_)
    · intro other mem
      rw [count]
      exact bounded other (mem_cons_of_mem page mem)
    · intro other mem
      rw [update_of_ne (apart other mem)]
      exact purpose other (mem_cons_of_mem page mem)
    · obtain ⟨use₂, free₂, layout₂, count₂, kept₂⟩ := done
      refine ⟨use₂, free₂, layout₂, count₂.trans count, fun other occupied elsewhere => ?_⟩
      have ne : other ≠ page := by
        rintro rfl
        exact elsewhere mine
      have used : update use page .free other = use other := update_of_ne ne _ _
      obtain ⟨same, content⟩ := kept₂ other (by rw [used]; exact occupied)
        (by rw [used]; exact elsewhere)
      exact ⟨same.trans used, content.trans (kept other ne occupied)⟩

theorem Released.holds (released : Released store after use page)
    (holds : Holds store.pages.overflow use k p blob) (packed : use page = .packed)
    (ne : p ≠ page) : Holds after.pages.overflow (update use page .free) k p blob := by
  have count := released.count
  cases holds with
  | packed bounded purpose content found =>
    refine .packed (by rw [count]; exact bounded) ?_ ?_ found
    · rw [update_of_ne ne, purpose]
    · rw [released.kept p ne (by rw [purpose]; decide), content]
  | chained bounded content more purpose nodup =>
    refine Holds.congr (.chained bounded content more purpose nodup) (le_of_eq count.symm) ?_
    intro other _ same
    rw [purpose p (by simp)] at same
    have apart : other ≠ page := by
      rintro rfl
      rw [packed] at same
      cases same
    exact ⟨released.kept other apart (by rw [same]; exact nofun), update_of_ne apart _ _⟩

theorem sat_freeBlob (bounded : page < store.pages.overflow.count)
    (content : store.pages.overflow.page page = .slab entries)
    (found : slabLookup entries key = some blob) :
    Sat (freeBlob page key) store
      (fun stillLive after => Wrote store after page (.slab (entries.map (retire key))) ∧
        (stillLive = false → ∀ other, other ≠ key → slabLookup entries other = none))
      (fun _ _ => False) := by
  have present : (entries.any fun entry => entry.entity = some key) = true := by
    unfold slabLookup at found
    obtain ⟨entry, first, _⟩ := Option.map_eq_some_iff.mp found
    have owned : entry.entity = some key := by simpa using List.find?_some first
    exact any_eq_true.mpr ⟨entry, mem_of_find?_eq_some first, by simpa using owned⟩

  unfold freeBlob
  rw [sat_bind, sat_get, sat_bind, slabEntries_of_slab bounded content, sat_ofResult_ok]
  dsimp only
  rw [if_pos present, sat_bind]
  refine (sat_writeOverflowPage _ bounded).relax (fun _ after wrote => ?_)
  refine ⟨wrote, fun gone other ne => ?_⟩
  unfold slabLookup
  rw [Option.map_eq_none_iff, List.find?_eq_none]
  intro entry mem owned
  have owner : entry.entity = some other := by simpa using owned
  have absent := any_eq_false.mp gone entry mem
  rw [owner] at absent
  exact absent (by simpa using ne)

/-- After its blob was released, nothing else changed for the other known blobs. -/
theorem sat_releaseOverflowedProps (holds : HoldsBlobs store blobs)
    (known : blobs key page = some blob) :
    Sat (releaseOverflowedProps key page) store
      (fun _ after => HoldsBlobs after (blobs.drop key page)) (fun _ _ => False) := by
  obtain ⟨use, free, layout, each⟩ := holds
  have kept : ∀ k p b, blobs.drop key page k p = some b →
      Holds store.pages.overflow use k p b ∧ ¬(k = key ∧ p = page) := by
    intro k p b still
    unfold Blobs.drop at still
    split at still
    · cases still
    · next ne => exact ⟨each k p b still, ne⟩
  unfold releaseOverflowedProps
  rw [sat_bind, sat_get]
  cases each key page blob known with
  | @packed entries _ bounded purpose content found =>
    have isSlab : store.isSlabPage page = true := by
      simp [isSlabPage, readOverflowPage_of_lt bounded, content]
    rw [isSlab, if_pos rfl, sat_bind]
    refine (sat_freeBlob bounded content found).relax (fun stillLive after done => ?_)
    obtain ⟨wrote, alone⟩ := done
    have layout' := wrote.layout_packed layout purpose
    have count : after.pages.overflow.count = store.pages.overflow.count := by
      rw [wrote.file]
      rfl
    have held : ∀ k p b, blobs.drop key page k p = some b →
        Holds after.pages.overflow use k p b := by
      intro k p b still
      obtain ⟨holds, ne⟩ := kept k p b still
      exact wrote.holds_packed content (fun other apart => slabLookup_retire_of_ne entries apart)
        holds purpose ne
    cases stillLive with
    | true => exact ⟨use, free, layout', held⟩
    | false =>
      -- The page holds no blob of another entity, so none of the others is at this page.
      have elsewhere : ∀ k p b, blobs.drop key page k p = some b → p ≠ page := by
        rintro k p b still rfl
        obtain ⟨holds, ne⟩ := kept k p b still
        have apart : k ≠ key := fun same => ne ⟨same, rfl⟩
        cases holds with
        | packed _ _ content' found' =>
          rw [content] at content'
          cases content'
          rw [alone rfl k apart] at found'
          cases found'
        | chained _ content' _ _ _ =>
          rw [content] at content'
          cases content'
      simp only [Bool.false_eq_true, ↓reduceIte, sat_bind, sat_modify]
      have closing : ∃ closed : Store,
          (if after.propSlabOpenPage = some page then { after with propSlabOpenPage := none }
            else after) = closed ∧ Layout closed use free ∧
          closed.pages = after.pages ∧ closed.propSlabOpenPage ≠ some page := by
        by_cases isOpen : after.propSlabOpenPage = some page
        · refine ⟨_, if_pos isOpen, ?_, rfl, by simp⟩
          obtain ⟨listed, nodup, inside, unused, _⟩ := layout'
          exact ⟨listed, nodup, inside, unused, by simp⟩
        · exact ⟨_, if_neg isOpen, layout', rfl, isOpen⟩
      obtain ⟨closed, reached, layout'', pages, notOpen⟩ := closing
      rw [reached]
      refine (sat_releasePage layout'' (by rw [purpose]; decide)
        (by rw [pages, count]; exact bounded) notOpen).relax (fun _ final released => ?_)
      obtain ⟨free', final'⟩ := released.layout
      refine ⟨_, free', final', fun k p b still => ?_⟩
      refine released.holds ?_ purpose (elsewhere k p b still)
      rw [pages]
      exact held k p b still

  | @chained rest next chunk tail bounded content more purpose nodup =>
    have isChain : store.isSlabPage page = false := by
      simp [isSlabPage, readOverflowPage_of_lt bounded, content]
    rw [isChain, if_neg (by decide), freeOverflowChain, sat_bind, sat_get]
    have inside : ∀ other ∈ page :: rest, other < store.pages.overflow.count := by
      intro other mem
      rcases mem_cons.mp mem with rfl | later
      · exact bounded
      · exact more.bounded other later
    have pages : store.chainPages (store.pages.overflow.count + 1) page = page :: rest := by
      have short : rest.length ≤ store.pages.overflow.count := by
        have all := length_le_of_nodup_lt nodup inside
        rw [length_cons] at all
        omega
      have walked := more.chainPages store.pages.overflow.count short
      simp only [Store.chainPages, readOverflowPage_of_lt bounded, content, chainNext]
      cases next with
      | none => simpa using walked
      | some following => simpa using walked
    rw [pages]
    refine (sat_forM_releasePage (page :: rest) layout nodup inside purpose).relax
      (fun _ after done => ?_)
    obtain ⟨use', free', layout', count, unchanged⟩ := done
    refine ⟨use', free', layout', fun k p b still => ?_⟩
    obtain ⟨held, ne⟩ := kept k p b still
    have elsewhere : use p ≠ .chain key page := by
      intro same
      cases held with
      | packed _ packed _ _ =>
        rw [packed] at same
        cases same
      | chained _ _ _ chain _ =>
        rw [chain p (by simp)] at same
        cases same
        exact ne ⟨rfl, rfl⟩
    refine held.congr (le_of_eq count.symm) fun other _ same => ?_
    obtain ⟨used, content'⟩ := unchanged other (by rw [same]; exact held.use_ne_free.1)
      (by rw [same]; exact elsewhere)
    exact ⟨content', used⟩

end Store

end ErmyaGraph
