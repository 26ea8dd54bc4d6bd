import Mathlib.Data.List.AList
import Mathlib.Data.List.Induction
import ErmyaGraph.Codec.PageBuf
import ErmyaGraph.Lib.Links
import ErmyaGraph.Lib.Outcome

/-! # The buffer pool

A bounded cache of pages in front of the data files. What it drops goes back to
disk first, so its readers see one map of pages, whatever is cached. -/

namespace ErmyaGraph.Raw

open Outcome WalCodec List Function Option

/-- A data file on disk: its size in bytes, and its pages, which are zeros behind the end. -/
structure DiskFile where
  size : Nat := 0
  page : UInt32 → PageBuf := fun _ => newPageBuf

/-- A page in a data file. -/
structure PageKey where
  file : DataFile
  page : UInt32
deriving DecidableEq

structure BufferFrame where
  data : PageBuf
  dirty : Bool
  pinCount : Nat

structure BufferPool where
  frames : AList fun _ : PageKey => BufferFrame := ∅
  lru : Links PageKey := {}
  files : DataFile → Option DiskFile
  maxPages : Nat

abbrev PoolM := EStateM PoolError BufferPool

def minPoolPages : Nat := 8

namespace BufferPool

/-- A pool within a memory limit in bytes, over registered files. -/
def new (memoryLimitBytes : Nat) (files : DataFile → Option DiskFile) : BufferPool :=
  { files, maxPages := max (memoryLimitBytes / pageSize) minPoolPages }

/-- Read a page and check it. -/
def readFromDisk (crc : List UInt8 → UInt32) (disk : DiskFile) (file : DataFile) (page : UInt32) :
    Except PoolError PageBuf := do
  if disk.size < (page.toNat + 1) * pageSize then throw .io
  validatePageBuf crc (disk.page page) (expectedMagic file) file.fileName page
  return disk.page page

def writeToDisk (disk : DiskFile) (page : UInt32) (data : PageBuf) : DiskFile where
  size := max disk.size ((page.toNat + 1) * pageSize)
  page := update disk.page page data

/-- The handle of a data file. -/
def diskFile (file : DataFile) : PoolM DiskFile := do
  let pool ← get
  match pool.files file with
  | some disk => return disk
  | none => throw (.corruptPage file.fileName 0 "data file not registered")

def writeBack (key : PageKey) (data : PageBuf) : PoolM Unit := do
  let disk ← diskFile key.file
  modify fun pool =>
    { pool with files := update pool.files key.file (some (writeToDisk disk key.page data)) }

def unpinned (pool : BufferPool) (key : PageKey) : Bool :=
  (pool.frames.lookup key).any fun frame => frame.pinCount = 0

/-- Walk from a page towards the most recently used end, up to the first unpinned one. -/
def findVictim (pool : BufferPool) : (fuel : Nat) → Option PageKey → Option PageKey
  | _, none => none
  | 0, some _ => none
  | fuel + 1, some key =>
    if pool.unpinned key then some key
    else findVictim pool fuel ((pool.lru.node key).bind Links.Node.prev)

/-- Drop the least recently used unpinned page, and write it back if it changed. -/
def evictOneInner : PoolM Unit := do
  let pool ← get
  match pool.findVictim pool.frames.keys.length pool.lru.tail with
  | none => throw .bufferPoolExhausted
  | some victim =>
    set { pool with lru := pool.lru.unlink victim, frames := pool.frames.erase victim }
    match pool.frames.lookup victim with
    | some frame => if frame.dirty then writeBack victim frame.data
    | none => return

/-- Evict until a frame is free. Every round drops one, or finds all pages pinned. -/
def ensureCapacityInner : (fuel : Nat) → PoolM Unit
  | 0 => return
  | fuel + 1 => do
      let pool ← get
      if pool.maxPages ≤ pool.frames.keys.length then
        evictOneInner
        ensureCapacityInner fuel

section Operations

variable (crc : List UInt8 → UInt32)

def getPage (file : DataFile) (page : UInt32) : PoolM PageBuf := do
  let pool ← get
  match pool.frames.lookup ⟨file, page⟩ with
  | some frame => return frame.data
  | none =>
    ensureCapacityInner (pool.frames.keys.length + 1)
    let disk ← diskFile file
    let data ← ofResult (readFromDisk crc disk file page)
    modify fun pool =>
      { pool with
        frames := pool.frames.insert ⟨file, page⟩ { data, dirty := false, pinCount := 0 }
        lru := pool.lru.touch ⟨file, page⟩ }
    return data

def putPage (file : DataFile) (page : UInt32) (data : PageBuf) : PoolM Unit := do
  let pool ← get
  match pool.frames.lookup ⟨file, page⟩ with
  | some frame =>
    set { pool with
      frames := pool.frames.replace ⟨file, page⟩ { frame with data, dirty := true }
      lru := pool.lru.touch ⟨file, page⟩ }
  | none =>
    ensureCapacityInner (pool.frames.keys.length + 1)
    modify fun pool =>
      { pool with
        frames := pool.frames.insert ⟨file, page⟩ { data, dirty := true, pinCount := 0 }
        lru := pool.lru.pushFront ⟨file, page⟩ }

/-- The changed pages of a file, in the order of the frames. -/
def dirtyPages (pool : BufferPool) (file : DataFile) : List UInt32 :=
  pool.frames.entries.filterMap fun entry =>
    if entry.1.file = file ∧ entry.2.dirty then some entry.1.page else none

def flushPage (file : DataFile) (page : UInt32) : PoolM Unit := do
  let pool ← get
  match pool.frames.lookup ⟨file, page⟩ with
  | none => return
  | some frame =>
    writeBack ⟨file, page⟩ frame.data
    modify fun pool =>
      { pool with frames := pool.frames.replace ⟨file, page⟩ { frame with dirty := false } }

def flushFile (file : DataFile) : PoolM Unit := do
  let pool ← get
  (pool.dirtyPages file).forM (flushPage file)

end Operations

end BufferPool

/-- A call on the pool. -/
inductive PoolOp where
  | getPage (file : DataFile) (page : UInt32)
  | putPage (file : DataFile) (page : UInt32) (data : PageBuf)
  | flushFile (file : DataFile)

namespace PoolOp

def run (crc : List UInt8 → UInt32) : PoolOp → PoolM (Option PageBuf)
  | .getPage file page => some <$> BufferPool.getPage crc file page
  | .putPage file page data => (fun _ => none) <$> BufferPool.putPage file page data
  | .flushFile file => (fun _ => none) <$> BufferPool.flushFile file

/-- Calls one after the other, with what each returned. -/
def runAll (crc : List UInt8 → UInt32) : List PoolOp → PoolM (List (Option PageBuf))
  | [] => return []
  | op :: rest => do
      let answer ← op.run crc
      let answers ← runAll crc rest
      return answer :: answers

/-- The pages that a call leaves, where the calls before it left `pages`. -/
def effect (pages : PageKey → PageBuf) : PoolOp → PageKey → PageBuf
  | .putPage file page data => update pages ⟨file, page⟩ data
  | .getPage _ _ | .flushFile _ => pages

def answer (pages : PageKey → PageBuf) : PoolOp → Option PageBuf
  | .getPage file page => some (pages ⟨file, page⟩)
  | .putPage _ _ _ | .flushFile _ => none

def answers (pages : PageKey → PageBuf) : List PoolOp → List (Option PageBuf)
  | [] => []
  | op :: rest => op.answer pages :: answers (op.effect pages) rest

end PoolOp

namespace BufferPool

theorem dlookup_kreplace {entries : List (Sigma fun _ : PageKey => BufferFrame)} {key : PageKey}
    (mem : key ∈ entries.keys) (other : PageKey) (frame : BufferFrame) :
    (entries.kreplace key frame).dlookup other =
      if other = key then some frame else entries.dlookup other := by
  induction entries with
  | nil => cases mem
  | cons entry rest ih =>
    obtain ⟨here, held⟩ := entry
    by_cases same : key = here
    · subst same
      have replaced : List.kreplace key frame (⟨key, held⟩ :: rest) = ⟨key, frame⟩ :: rest :=
        lookmap_cons_some _ _ (dif_pos rfl)
      rw [replaced]
      by_cases sought : other = key
      · subst sought
        simp
      · simp [sought, dlookup_cons_ne]
    · have kept : List.kreplace key frame (⟨here, held⟩ :: rest) =
          ⟨here, held⟩ :: List.kreplace key frame rest :=
        lookmap_cons_none _ _ (dif_neg same)
      have mem' : key ∈ rest.keys := by
        rw [keys_cons, mem_cons] at mem
        exact mem.resolve_left same
      rw [kept]
      by_cases sought : other = here
      · subst sought
        have ne : other ≠ key := fun equal => same equal.symm
        simp [ne]
      · rw [dlookup_cons_ne _ _ sought, ih mem', dlookup_cons_ne _ _ sought]

theorem lookup_replace {frames : AList fun _ : PageKey => BufferFrame} {key : PageKey}
    (mem : key ∈ frames) (other : PageKey) (frame : BufferFrame) :
    (frames.replace key frame).lookup other =
      if other = key then some frame else frames.lookup other :=
  dlookup_kreplace mem other frame

/-- The pages a pool shows: what is cached, and the disk where nothing cached differs from it. -/
structure Refines (pool : BufferPool) (pages : PageKey → PageBuf) : Prop where
  cached : ∀ key frame, pool.frames.lookup key = some frame → frame.data = pages key
  settled : ∀ key, (∀ frame, pool.frames.lookup key = some frame → frame.dirty = false) →
    ∀ disk, pool.files key.file = some disk → disk.page key.page = pages key
  bounded : pool.frames.keys.length ≤ pool.maxPages
  lru : ∃ keys, pool.lru.Represents keys ∧ ∀ key, key ∈ keys ↔ key ∈ pool.frames

/-- A call keeps the bound, and what it drops is the unpinned page nearest the tail. -/
structure DropsTail (pool after : BufferPool) : Prop where
  maxPages : after.maxPages = pool.maxPages
  nearest : ∀ key ∈ pool.frames, key ∉ after.frames → ∀ keys, pool.lru.Represents keys →
    keys.reverse.find? pool.unpinned = some key

section Rules

variable {pool : BufferPool} {pages : PageKey → PageBuf}

def diskPages (files : DataFile → Option DiskFile) (key : PageKey) : PageBuf :=
  ((files key.file).map fun disk => disk.page key.page).getD newPageBuf

theorem refines_new (memoryLimitBytes : Nat) (files : DataFile → Option DiskFile) :
    (new memoryLimitBytes files).Refines (diskPages files) where
  cached _ _ found := nomatch found
  settled key _ disk registered := by
    change files key.file = some disk at registered
    rw [diskPages, registered]
    rfl
  bounded := Nat.zero_le _
  lru := ⟨[], Links.represents_empty, fun key => by
    constructor
    · exact fun mem => nomatch mem
    · exact fun mem => absurd mem (AList.notMem_empty key)⟩

theorem findVictim_eq {keys : List PageKey} (represents : pool.lru.Represents keys)
    {front back : List PageKey} (split : keys = front ++ back) {fuel : Nat}
    (enough : front.length ≤ fuel) :
    pool.findVictim fuel front.getLast? = front.reverse.find? pool.unpinned := by
  induction front using List.reverseRecOn generalizing back fuel with
  | nil => cases fuel <;> rfl
  | append_singleton front key ih =>
    have node := represents.present front key back (by simp [split])
    rw [length_append, length_singleton] at enough
    obtain ⟨fuel, rfl⟩ := Nat.exists_eq_add_of_le' (Nat.le_of_add_left_le enough)
    have rest := @ih (key :: back) (by simp [split]) fuel (by omega)
    rw [List.getLast?_append, List.getLast?_singleton, some_or, findVictim, node,
      reverse_append, reverse_singleton, singleton_append, List.find?_cons]
    cases pool.unpinned key with
    | true => rfl
    | false =>
      rw [if_neg Bool.false_ne_true]
      exact rest

variable (file : DataFile)

theorem sat_diskFile :
    Sat (diskFile file) pool (fun disk after => after = pool ∧ pool.files file = some disk)
      (fun _ after => after = pool) := by
  unfold diskFile
  rw [sat_bind, sat_get]
  cases found : pool.files file with
  | some disk => exact ⟨rfl, rfl⟩
  | none => rfl

theorem sat_writeBack (key : PageKey) (data : PageBuf) :
    Sat (writeBack key data) pool
      (fun _ after => ∃ disk, pool.files key.file = some disk ∧ after = { pool with
        files := update pool.files key.file (some (writeToDisk disk key.page data)) })
      (fun _ after => after = pool) := by
  unfold writeBack
  rw [sat_bind]
  refine (sat_diskFile key.file).mono ?_ fun _ _ => id
  rintro disk _ ⟨rfl, found⟩
  exact ⟨disk, found, rfl⟩

theorem page_writeBack {key other : PageKey} {data : PageBuf} {disk disk' : DiskFile}
    (registered : pool.files key.file = some disk)
    (after : update pool.files key.file (some (writeToDisk disk key.page data)) other.file =
      some disk') :
    if other = key then disk'.page other.page = data
    else ∃ before, pool.files other.file = some before ∧ disk'.page other.page = before.page other.page := by
  obtain ⟨file, page⟩ := key
  obtain ⟨file', page'⟩ := other
  by_cases sameFile : file' = file
  · subst sameFile
    rw [update_self, some.injEq] at after
    subst after
    by_cases samePage : page' = page
    · subst samePage
      simp [writeToDisk]
    · simp [writeToDisk, samePage, registered]
  · rw [update_of_ne sameFile] at after
    simp [sameFile, after]

section

variable (refines : pool.Refines pages)
include refines

theorem Refines.drop {victim : PageKey} {files : DataFile → Option DiskFile} 
    (others : ∀ key ≠ victim, ∀ disk', files key.file = some disk' →
      ∃ disk, pool.files key.file = some disk ∧ disk'.page key.page = disk.page key.page)
    (written : ∀ disk, files victim.file = some disk → disk.page victim.page = pages victim) :
    Refines { pool with
      lru := pool.lru.unlink victim, frames := pool.frames.erase victim, files } pages where
  cached key frame found := by
    by_cases here : key = victim
    · rw [here, AList.lookup_erase] at found
      cases found
    · rw [AList.lookup_erase_ne here] at found
      exact refines.cached key frame found
  settled key clean disk registered := by
    by_cases here : key = victim
    · subst here
      exact written disk registered
    · obtain ⟨before, found, same⟩ := others key here disk registered
      rw [same]
      refine refines.settled key (fun frame cached => clean frame ?_) before found
      rw [AList.lookup_erase_ne here]
      exact cached
  bounded := by
    have fewer : (pool.frames.erase victim).keys.length ≤ pool.frames.keys.length := by
      rw [AList.keys_erase]
      exact length_erase_le
    exact fewer.trans refines.bounded
  lru := by
    obtain ⟨keys, represents, same⟩ := refines.lru
    refine ⟨keys.erase victim, represents.erase victim, fun key => ?_⟩
    rw [represents.nodup.mem_erase_iff, AList.mem_erase, same]

variable {pages' : PageKey → PageBuf} {frame : BufferFrame} {lru : Links PageKey}

theorem Refines.insert {key : PageKey} (free : key ∉ pool.frames)
    (room : pool.frames.keys.length < pool.maxPages)
    (others : ∀ other ≠ key, pages' other = pages other) (data : frame.data = pages' key)
    (clean : frame.dirty = false → pages' key = pages key)
    (linked : ∀ keys, pool.lru.Represents keys → key ∉ keys → lru.Represents (key :: keys)) :
    Refines { pool with frames := pool.frames.insert key frame, lru } pages' where
  cached other frame' found := by
    by_cases here : other = key
    · subst here
      rw [AList.lookup_insert, some.injEq] at found
      rw [← found, data]
    · rw [AList.lookup_insert_ne here] at found
      rw [others other here]
      exact refines.cached other frame' found
  settled other settled disk registered := by
    by_cases here : other = key
    · subst here
      rw [clean (settled frame (AList.lookup_insert _))]
      refine refines.settled other (fun frame' found => ?_) disk registered
      rw [AList.lookup_eq_none.mpr free] at found
      cases found
    · rw [others other here]
      refine refines.settled other (fun frame' found => settled frame' ?_) disk registered
      rw [AList.lookup_insert_ne here]
      exact found
  bounded := by
    rw [AList.keys_insert, length_cons, erase_of_not_mem free]
    exact room
  lru := by
    obtain ⟨keys, represents, same⟩ := refines.lru
    refine ⟨key :: keys, linked keys represents fun mem => free ((same key).mp mem),
      fun other => ?_⟩
    rw [mem_cons, AList.mem_insert, same]

/-- A cached page gets another content. -/
theorem Refines.replace {key : PageKey} (mem : key ∈ pool.frames)
    (others : ∀ other ≠ key, pages' other = pages other) (data : frame.data = pages' key)
    (clean : frame.dirty = false → ∀ disk, pool.files key.file = some disk →
      disk.page key.page = pages' key)
    (linked : ∀ keys, pool.lru.Represents keys → ∃ keys', lru.Represents keys' ∧
      ∀ other, other ∈ keys' ↔ other = key ∨ other ∈ keys) :
    Refines { pool with frames := pool.frames.replace key frame, lru } pages' where
  cached other frame' found := by
    rw [lookup_replace mem] at found
    by_cases here : other = key
    · subst here
      rw [if_pos rfl, some.injEq] at found
      rw [← found, data]
    · rw [if_neg here] at found
      rw [others other here]
      exact refines.cached other frame' found
  settled other settled disk registered := by
    by_cases here : other = key
    · subst here
      exact clean (settled frame (by rw [lookup_replace mem, if_pos rfl])) disk registered
    · rw [others other here]
      refine refines.settled other (fun frame' found => settled frame' ?_) disk registered
      rw [lookup_replace mem, if_neg here]
      exact found
  bounded := by
    rw [AList.keys_replace]
    exact refines.bounded
  lru := by
    obtain ⟨keys, represents, same⟩ := refines.lru
    obtain ⟨keys', represents', same'⟩ := linked keys represents
    refine ⟨keys', represents', fun other => ?_⟩
    rw [same', same, AList.mem_replace]
    constructor
    · rintro (rfl | old)
      · exact mem
      · exact old
    · exact .inr

theorem sat_evictOneInner : Sat evictOneInner pool
      (fun _ after => after.Refines pages ∧ after.maxPages = pool.maxPages ∧
        ∃ victim ∈ pool.frames, after.frames = pool.frames.erase victim ∧
          ∀ keys, pool.lru.Represents keys → keys.reverse.find? pool.unpinned = some victim)
      (fun _ _ => True) := by
  obtain ⟨keys, represents, same⟩ := refines.lru
  -- Every list that the links represent has the keys of the frames, so the walk sees all of it.
  have walk {keys' : List PageKey} (represents' : pool.lru.Represents keys') :
      pool.findVictim pool.frames.keys.length pool.lru.tail =
        keys'.reverse.find? pool.unpinned := by
    have subset : keys' ⊆ pool.frames.keys := by
      intro key mem
      have linked := (represents'.isSome_node key).mpr mem
      exact (same key).mp ((represents.isSome_node key).mp linked)
    have enough := (subperm_of_subset represents'.nodup subset).length_le
    rw [represents'.tail]
    exact findVictim_eq represents' (append_nil keys').symm enough
  unfold evictOneInner
  rw [sat_bind, sat_get]
  cases found : pool.findVictim pool.frames.keys.length pool.lru.tail with
  | none => trivial
  | some victim =>
    have mem : victim ∈ pool.frames := by
      rw [walk represents] at found
      exact (same victim).mp (mem_reverse.mp (mem_of_find?_eq_some found))
    have nearest {keys' : List PageKey} (represents' : pool.lru.Represents keys') :
        keys'.reverse.find? pool.unpinned = some victim :=
      (walk represents').symm.trans found
    obtain ⟨frame, cached⟩ := isSome_iff_exists.mp (AList.lookup_isSome.mpr mem)
    dsimp only
    rw [sat_bind, sat_set, cached]
    dsimp only
    rw [sat_ite]
    constructor
    · intro _
      refine (sat_writeBack victim frame.data).mono ?_ fun _ _ _ => trivial
      rintro _ after ⟨disk, registered, rfl⟩
      refine ⟨refines.drop (fun key here disk' found' => ?_) fun disk' found' => ?_, rfl, victim,
        mem, rfl, fun keys' => nearest⟩
      · have copy := page_writeBack registered found'
        rwa [if_neg here] at copy
      · have copy := page_writeBack registered found'
        rw [if_pos rfl] at copy
        rw [copy]
        exact refines.cached victim frame cached
    · intro clean
      refine ⟨refines.drop (fun key _ disk' found' => ⟨disk', found', rfl⟩)
        (refines.settled victim fun frame' found' => ?_), rfl, victim, mem, rfl,
        fun keys' => nearest⟩
      rw [cached, some.injEq] at found'
      rw [← found']
      exact Bool.eq_false_iff.mpr clean

theorem sat_ensureCapacityInner : Sat (ensureCapacityInner (pool.frames.keys.length + 1)) pool
      (fun _ after => after.Refines pages ∧ after.frames.keys.length < after.maxPages ∧
        (∀ key ∈ after.frames, key ∈ pool.frames) ∧ pool.DropsTail after) (fun _ _ => True) := by
  rw [ensureCapacityInner, sat_bind, sat_get, sat_ite]
  constructor
  · intro full
    rw [sat_bind]
    refine (sat_evictOneInner refines).mono ?_ fun _ _ => id
    rintro _ evicted ⟨refines', sameMax, victim, mem, frames, nearest⟩
    have room : evicted.frames.keys.length < evicted.maxPages := by
      have pos : 0 < pool.frames.keys.length := length_pos_of_mem mem
      have bounded := refines.bounded
      rw [frames, sameMax, AList.keys_erase, length_erase_of_mem mem]
      omega
    have done : Sat (ensureCapacityInner pool.frames.keys.length) evicted
        (fun _ after => after = evicted) (fun _ _ => False) := by
      cases pool.frames.keys.length with
      | zero => rfl
      | succ fuel =>
        rw [ensureCapacityInner, sat_bind, sat_get, if_neg (Nat.not_le.mpr room)]
        rfl
    refine done.mono ?_ fun _ _ => False.elim
    rintro _ _ rfl
    refine ⟨refines', room, fun key kept => ?_, sameMax, fun key here gone keys represents => ?_⟩
    · rw [frames, AList.mem_erase] at kept
      exact kept.2
    · rw [frames, AList.mem_erase, not_and_or, not_not] at gone
      rw [gone.resolve_right (not_not.mpr here)]
      exact nearest keys represents
  · intro room
    exact ⟨refines, not_le.mp room, fun _ => id, rfl, fun key here gone => absurd here gone⟩

end

theorem sat_getPage (crc : List UInt8 → UInt32) (file : DataFile) (page : UInt32)
    (refines : pool.Refines pages) :
    Sat (getPage crc file page) pool
      (fun data after => data = pages ⟨file, page⟩ ∧ after.Refines pages ∧ pool.DropsTail after)
      (fun _ _ => True) := by
  unfold getPage
  rw [sat_bind, sat_get]
  cases cached : pool.frames.lookup ⟨file, page⟩ with
  | some frame =>
    exact ⟨refines.cached _ _ cached, refines, rfl, fun key here gone => absurd here gone⟩
  | none =>
    have free : ⟨file, page⟩ ∉ pool.frames := AList.lookup_eq_none.mp cached
    dsimp only
    rw [sat_bind]
    refine (sat_ensureCapacityInner refines).mono ?_ fun _ _ => id
    rintro _ room ⟨refines', below, subset, drops⟩
    have free' : ⟨file, page⟩ ∉ room.frames := fun mem => free (subset _ mem)
    rw [sat_bind]
    refine (sat_diskFile file).mono ?_ fun _ _ _ => trivial
    rintro disk _ ⟨rfl, registered⟩
    rw [sat_bind, sat_ofResult]
    refine ⟨fun data read => ?_, fun _ _ => trivial⟩
    have shown : data = pages ⟨file, page⟩ := by
      have copy := refines'.settled ⟨file, page⟩ (fun frame found => by
        rw [AList.lookup_eq_none.mpr free'] at found
        cases found) disk registered
      unfold readFromDisk at read
      obtain ⟨_, read⟩ := ok_of_guard read
      obtain ⟨_, _, read⟩ := ok_of_bind read
      exact (Except.ok.inj read).symm.trans copy
    rw [sat_bind, sat_modify]
    refine ⟨shown, refines'.insert free' below (fun _ _ => rfl) shown (fun _ => rfl)
      fun keys represents absent => ?_, drops.maxPages,
      fun key here gone => drops.nearest key here fun kept => ?_⟩
    · have front := represents.touch ⟨file, page⟩
      rwa [erase_of_not_mem absent] at front
    · exact gone ((AList.mem_insert _).mpr (.inr kept))

theorem sat_putPage (page : UInt32) (data : PageBuf) (refines : pool.Refines pages) :
    Sat (putPage file page data) pool
      (fun _ after => after.Refines (update pages ⟨file, page⟩ data) ∧ pool.DropsTail after)
      (fun _ _ => True) := by
  have others (other : PageKey) (ne : other ≠ ⟨file, page⟩) :
      update pages ⟨file, page⟩ data other = pages other :=
    update_of_ne ne data pages
  have here : data = update pages ⟨file, page⟩ data ⟨file, page⟩ :=
    (update_self ⟨file, page⟩ data pages).symm
  unfold putPage
  rw [sat_bind, sat_get]
  cases cached : pool.frames.lookup ⟨file, page⟩ with
  | some frame =>
    have mem : ⟨file, page⟩ ∈ pool.frames := by
      rw [← AList.lookup_isSome, cached]
      rfl
    refine ⟨refines.replace mem others here nofun fun keys represents => ?_, rfl,
      fun key kept gone => ?_⟩
    · refine ⟨_, represents.touch ⟨file, page⟩, fun other => ?_⟩
      rw [mem_cons, represents.nodup.mem_erase_iff]
      by_cases same : other = ⟨file, page⟩ <;> simp [same]
    · exact absurd (AList.mem_replace.mpr kept) gone
  | none =>
    have free : ⟨file, page⟩ ∉ pool.frames := AList.lookup_eq_none.mp cached
    dsimp only
    rw [sat_bind]
    refine (sat_ensureCapacityInner refines).mono ?_ fun _ _ => id
    rintro _ room ⟨refines', below, subset, drops⟩
    have free' : ⟨file, page⟩ ∉ room.frames := fun mem => free (subset _ mem)
    rw [sat_modify]
    refine ⟨refines'.insert free' below others here nofun
      fun keys represents absent => represents.pushFront absent, drops.maxPages,
      fun key kept gone => drops.nearest key kept fun still => ?_⟩
    exact gone ((AList.mem_insert _).mpr (.inr still))

theorem sat_flushPage (page : UInt32) (refines : pool.Refines pages) :
    Sat (flushPage file page) pool
      (fun _ after => after.Refines pages ∧ after.maxPages = pool.maxPages ∧
        after.frames.keys = pool.frames.keys)
      (fun _ after => after.Refines pages ∧ after.maxPages = pool.maxPages ∧
        after.frames.keys = pool.frames.keys) := by
  unfold flushPage
  rw [sat_bind, sat_get]
  cases cached : pool.frames.lookup ⟨file, page⟩ with
  | none => exact ⟨refines, rfl, rfl⟩
  | some frame =>
    have mem : ⟨file, page⟩ ∈ pool.frames := by
      rw [← AList.lookup_isSome, cached]
      rfl
    have shown := refines.cached _ _ cached
    dsimp only
    rw [sat_bind]
    refine (sat_writeBack ⟨file, page⟩ frame.data).mono ?_ ?_
    · rintro _ _ ⟨disk, registered, rfl⟩
      rw [sat_modify]
      have written : Refines { pool with
          files := update pool.files file (some (writeToDisk disk page frame.data)) }
          pages := by
        refine ⟨refines.cached, fun key clean disk' found => ?_, refines.bounded, refines.lru⟩
        have copy := @page_writeBack pool ⟨file, page⟩ key frame.data disk disk' registered found
        split at copy
        · next same => rw [copy, shown, same]
        · obtain ⟨before, registered', same⟩ := copy
          rw [same]
          exact refines.settled key clean before registered'
      refine ⟨written.replace mem (fun _ _ => rfl) shown (fun _ disk' found => ?_)
        fun keys represents => ⟨keys, represents, fun other => ?_⟩, rfl, AList.keys_replace ..⟩
      · have copy := @page_writeBack pool ⟨file, page⟩ ⟨file, page⟩ frame.data disk disk' registered found
        rw [if_pos rfl] at copy
        rw [copy, shown]
      · obtain ⟨keys', represents', same⟩ := refines.lru
        have inside : ⟨file, page⟩ ∈ keys := by
          rw [← represents.isSome_node, represents'.isSome_node, same]
          exact mem
        constructor
        · exact .inr
        · rintro (rfl | old)
          · exact inside
          · exact old
    · rintro _ _ rfl
      exact ⟨refines, rfl, rfl⟩

theorem sat_flushFile (refines : pool.Refines pages) :
    Sat (flushFile file) pool
      (fun _ after => after.Refines pages ∧ pool.DropsTail after)
      (fun _ _ => True) := by
  unfold flushFile
  rw [sat_bind, sat_get]
  have flushed := @sat_forM_of_invariant PoolError BufferPool UInt32 pool (flushPage file)
    (pool.dirtyPages file) (fun after => after.Refines pages ∧ after.maxPages = pool.maxPages ∧
      after.frames.keys = pool.frames.keys) ⟨refines, rfl, rfl⟩
    fun page _ between ⟨refines', max, same⟩ => (sat_flushPage file page refines').mono
      (fun _ _ done => ⟨done.1, done.2.1.trans max, done.2.2.trans same⟩)
      (fun _ _ done => ⟨done.1, done.2.1.trans max, done.2.2.trans same⟩)
  refine flushed.mono (fun _ after done => ⟨done.1, done.2.1, fun key here gone => absurd ?_ gone⟩)
    fun _ _ _ => trivial
  rw [AList.mem_keys, done.2.2, ← AList.mem_keys]
  exact here

end Rules

end BufferPool

namespace PoolOp

open BufferPool

section Rules

variable {pool : BufferPool} {pages : PageKey → PageBuf} (crc : List UInt8 → UInt32)

theorem sat_run (op : PoolOp) (refines : pool.Refines pages) :
    Sat (op.run crc) pool
      (fun answer after => answer = op.answer pages ∧ after.Refines (op.effect pages) ∧
        pool.DropsTail after)
      (fun _ _ => True) := by
  cases op with
  | getPage file page =>
    refine (sat_map some).mpr ((sat_getPage crc file page refines).mono ?_ fun _ _ => id)
    rintro data after ⟨rfl, done⟩
    exact ⟨rfl, done⟩
  | putPage file page data =>
    exact (sat_map fun _ => none).mpr ((sat_putPage file page data refines).mono
      (fun _ _ done => ⟨rfl, done⟩) fun _ _ => id)
  | flushFile file =>
    exact (sat_map fun _ => none).mpr ((sat_flushFile file refines).mono
      (fun _ _ done => ⟨rfl, done⟩) fun _ _ => id)

theorem sat_runAll (ops : List PoolOp) (refines : pool.Refines pages) :
    Sat (runAll crc ops) pool
      (fun returned after => returned = answers pages ops ∧
        after.Refines (ops.foldl effect pages) ∧ after.maxPages = pool.maxPages)
      (fun _ _ => True) := by
  induction ops generalizing pool pages with
  | nil => exact ⟨rfl, refines, rfl⟩
  | cons op rest ih =>
    rw [runAll, sat_bind]
    refine (sat_run crc op refines).mono ?_ fun _ _ => id
    rintro answer between ⟨rfl, refines', drops⟩
    rw [sat_bind]
    refine (ih refines').mono ?_ fun _ _ => id
    rintro returned after ⟨rfl, refines'', max⟩
    exact ⟨rfl, refines'', max.trans drops.maxPages⟩

end Rules

end PoolOp

end ErmyaGraph.Raw
