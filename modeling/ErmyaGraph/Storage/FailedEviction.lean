import ErmyaGraph.Storage.BufferPool

/-! # Evictions that fail

The buffer pool over a disk that may fail, with a record of what was put and not written since.
An eviction drops its page before it writes it. -/

namespace ErmyaGraph.Raw

open Outcome WalCodec List Function

variable {disk : DiskFile} {page : UInt32} {file : DataFile} {data : PageBuf} {key : PageKey}

/-- What a failed write leaves: its page has some bytes, and the file may be longer. -/
structure Torn where
  size : Nat
  data : PageBuf

/-- The writes and the reads of a call that fail. -/
structure Faults where
  write : PageKey → Option Torn := fun _ => none
  read : PageKey → Bool := fun _ => false

/-- A pool, and the pages that were put and not written since. -/
structure Watched where
  pool : BufferPool
  unflushed : PageKey → Option PageBuf

abbrev WatchedM := EStateM PoolError Watched

namespace Watched

open BufferPool

def new (memoryLimitBytes : Nat) (files : DataFile → Option DiskFile) : Watched where
  pool := BufferPool.new memoryLimitBytes files
  unflushed _ := none

def tearDisk (disk : DiskFile) (page : UInt32) (torn : Torn) : DiskFile where
  size := max disk.size torn.size
  page := update disk.page page torn.data

section Operations

variable (crc : List UInt8 → UInt32) (faults : Faults)

def writeBack (key : PageKey) (data : PageBuf) : WatchedM Unit := do
  let w ← get
  match w.pool.files key.file with
  | none => throw (.corruptPage key.file.fileName 0 "data file not registered")
  | some disk =>
    match faults.write key with
    | some torn =>
      let files := update w.pool.files key.file (some (tearDisk disk key.page torn))
      set { w with pool := { w.pool with files } }
      throw .io
    | none =>
      let files := update w.pool.files key.file
        (some (writeToDisk disk key.page data))
      set (Watched.mk { w.pool with files } (update w.unflushed key none))

/-- Drop the least recently used unpinned page, and write it back if it changed. -/
def evictOneInner : WatchedM Unit := do
  let w ← get
  match w.pool.findVictim w.pool.frames.keys.length w.pool.lru.tail with
  | none => throw .bufferPoolExhausted
  | some victim =>
    set { w with pool := { w.pool with
      lru := w.pool.lru.unlink victim, frames := w.pool.frames.erase victim } }
    match w.pool.frames.lookup victim with
    | some frame => if frame.dirty then writeBack faults victim frame.data
    | none => return

def ensureCapacityInner : (fuel : Nat) → WatchedM Unit
  | 0 => return
  | fuel + 1 => do
      let w ← get
      if w.pool.maxPages ≤ w.pool.frames.keys.length then
        evictOneInner faults
        ensureCapacityInner fuel

/-- Read a page of a registered file. -/
def load (key : PageKey) : WatchedM PageBuf := do
  let w ← get
  match w.pool.files key.file with
  | none => throw (.corruptPage key.file.fileName 0 "data file not registered")
  | some disk =>
    if faults.read key then throw .io
    ofResult (readFromDisk crc disk key.file key.page)

def getPage (file : DataFile) (page : UInt32) : WatchedM PageBuf := do
  let w ← get
  match w.pool.frames.lookup ⟨file, page⟩ with
  | some frame => return frame.data
  | none =>
    ensureCapacityInner faults (w.pool.frames.keys.length + 1)
    let data ← load crc faults ⟨file, page⟩
    modify fun w => { w with pool := { w.pool with
      frames := w.pool.frames.insert ⟨file, page⟩ { data, dirty := false, pinCount := 0 }
      lru := w.pool.lru.touch ⟨file, page⟩ } }
    return data

def putPage (file : DataFile) (page : UInt32) (data : PageBuf) : WatchedM Unit := do
  let w ← get
  match w.pool.frames.lookup ⟨file, page⟩ with
  | some frame =>
    set { w with
      pool := { w.pool with
        frames := w.pool.frames.replace ⟨file, page⟩ { frame with data, dirty := true }
        lru := w.pool.lru.touch ⟨file, page⟩ }
      unflushed := update w.unflushed ⟨file, page⟩ (some data) }
  | none =>
    ensureCapacityInner faults (w.pool.frames.keys.length + 1)
    modify fun w => { w with
      pool := { w.pool with
        frames := w.pool.frames.insert ⟨file, page⟩ { data, dirty := true, pinCount := 0 }
        lru := w.pool.lru.pushFront ⟨file, page⟩ }
      unflushed := update w.unflushed ⟨file, page⟩ (some data) }

def flushPage (file : DataFile) (page : UInt32) : WatchedM Unit := do
  let w ← get
  match w.pool.frames.lookup ⟨file, page⟩ with
  | none => return
  | some frame =>
    writeBack faults ⟨file, page⟩ frame.data
    modify fun w => { w with pool := { w.pool with
      frames := w.pool.frames.replace ⟨file, page⟩ { frame with dirty := false } } }

def flushFile (file : DataFile) : WatchedM Unit := do
  let w ← get
  (w.pool.dirtyPages file).forM (flushPage faults file)

def run : PoolOp → WatchedM (Option PageBuf)
  | .getPage file page => some <$> getPage crc faults file page
  | .putPage file page data => (fun _ => none) <$> putPage faults file page data
  | .flushFile file => (fun _ => none) <$> flushFile faults file

end Operations

/-- A computation does to the pool what one on the pool alone does. -/
def Follows {α : Type} (x : WatchedM α) (y : PoolM α) : Prop :=
  ∀ (w : Watched) (post : α → BufferPool → Prop) (fail : PoolError → BufferPool → Prop),
    Sat x w (fun a w' => post a w'.pool) (fun e w' => fail e w'.pool) ↔ Sat y w.pool post fail

section Follows

variable {α β : Type} {x : WatchedM α} {y : PoolM α}

theorem Follows.bind {f : α → WatchedM β} {g : α → PoolM β} (first : Follows x y)
    (rest : ∀ a, Follows (f a) (g a)) : Follows (x >>= f) (y >>= g) := by
  intro w post fail
  rw [sat_bind, sat_bind, ← first]
  simp only [rest _ _ _ _]

theorem Follows.map (f : α → β) (first : Follows x y) : Follows (f <$> x) (f <$> y) := by
  intro w post fail
  rw [sat_map, sat_map, ← first]

theorem follows_get {f : Watched → WatchedM α} {g : BufferPool → PoolM α}
    (rest : ∀ w post fail, Sat (f w) w (fun a w' => post a w'.pool) (fun e w' => fail e w'.pool) ↔
      Sat (g w.pool) w.pool post fail) : Follows (get >>= f) (get >>= g) := by
  intro w post fail
  rw [sat_bind, sat_bind, sat_get, sat_get]
  exact rest w post fail

theorem follows_writeBack (key : PageKey) (data : PageBuf) :
    Follows (writeBack {} key data) (BufferPool.writeBack key data) := by
  intro w post fail
  unfold writeBack BufferPool.writeBack diskFile
  simp only [sat_bind, sat_get]
  cases w.pool.files key.file with
  | none => rfl
  | some disk => rfl

theorem follows_evictOneInner : Follows (evictOneInner {}) BufferPool.evictOneInner := by
  unfold evictOneInner BufferPool.evictOneInner
  refine follows_get fun w post fail => ?_
  cases w.pool.findVictim w.pool.frames.keys.length w.pool.lru.tail with
  | none => rfl
  | some victim =>
    simp only [sat_bind, sat_set]
    cases w.pool.frames.lookup victim with
    | none => rfl
    | some frame =>
      dsimp only
      split
      · exact follows_writeBack victim frame.data { w with pool := { w.pool with
          lru := w.pool.lru.unlink victim, frames := w.pool.frames.erase victim } } post fail
      · rfl

theorem follows_ensureCapacityInner (fuel : Nat) :
    Follows (ensureCapacityInner {} fuel) (BufferPool.ensureCapacityInner fuel) := by
  induction fuel with
  | zero => exact fun _ _ _ => Iff.rfl
  | succ fuel ih =>
    unfold ensureCapacityInner BufferPool.ensureCapacityInner
    refine follows_get fun w post fail => ?_
    split
    · exact follows_evictOneInner.bind (fun _ => ih) w post fail
    · rfl

variable (crc : List UInt8 → UInt32)

theorem follows_getPage (file : DataFile) (page : UInt32) :
    Follows (getPage crc {} file page) (BufferPool.getPage crc file page) := by
  unfold getPage BufferPool.getPage
  refine follows_get fun w post fail => ?_
  cases w.pool.frames.lookup ⟨file, page⟩ with
  | some frame => rfl
  | none =>
    refine (follows_ensureCapacityInner _).bind (fun _ w post fail => ?_) w post fail
    unfold load diskFile
    simp only [sat_bind, sat_get]
    cases w.pool.files file with
    | none => rfl
    | some disk =>
      simp only [Bool.false_eq_true, if_false, sat_pure]
      cases readFromDisk crc disk file page <;> rfl

theorem follows_putPage (file : DataFile) (page : UInt32) (data : PageBuf) :
    Follows (putPage {} file page data) (BufferPool.putPage file page data) := by
  unfold putPage BufferPool.putPage
  refine follows_get fun w post fail => ?_
  cases w.pool.frames.lookup ⟨file, page⟩ with
  | some frame => rfl
  | none => exact (follows_ensureCapacityInner _).bind (fun _ _ _ _ => Iff.rfl) w post fail

theorem follows_flushPage (file : DataFile) (page : UInt32) :
    Follows (flushPage {} file page) (BufferPool.flushPage file page) := by
  unfold flushPage BufferPool.flushPage
  refine follows_get fun w post fail => ?_
  cases w.pool.frames.lookup ⟨file, page⟩ with
  | none => rfl
  | some frame => exact (follows_writeBack _ _).bind (fun _ _ _ _ => Iff.rfl) w post fail

theorem follows_forM {items : List β} {f : β → WatchedM Unit} {g : β → PoolM Unit}
    (each : ∀ b, Follows (f b) (g b)) : Follows (items.forM f) (items.forM g) := by
  induction items with
  | nil => exact fun _ _ _ => Iff.rfl
  | cons item rest ih =>
    simp only [forM_eq_forM, forM_cons] at ih ⊢
    exact (each item).bind fun _ => ih

theorem follows_run (op : PoolOp) : Follows (run crc {} op) (op.run crc) := by
  cases op with
  | getPage file page => exact (follows_getPage crc file page).map some
  | putPage file page data => exact (follows_putPage file page data).map fun _ => none
  | flushFile file =>
    refine Follows.map (fun _ => none) (follows_get fun w post fail => ?_)
    exact follows_forM (follows_flushPage file) w post fail

end Follows

section Shelter

variable (crc : List UInt8 → UInt32) (faults : Faults)

def OnDisk (files : DataFile → Option DiskFile) (key : PageKey) (data : PageBuf) : Prop :=
  ∃ disk, files key.file = some disk ∧ readFromDisk crc disk key.file key.page = .ok data

/-- Every page that was put and not written is cached with its last contents, and changed unless
the disk has them. -/
structure Sheltered (w : Watched) : Prop where
  bounded : w.pool.frames.keys.length ≤ w.pool.maxPages
  cached : ∀ key data frame, w.unflushed key = some data → w.pool.frames.lookup key = some frame →
    frame.data = data
  held : ∀ key data, w.unflushed key = some data →
    (∃ frame, w.pool.frames.lookup key = some frame ∧ frame.dirty = true) ∨
      OnDisk crc w.pool.files key data

/-- If the write of the page that a call would evict fails, the disk still has its contents. -/
def Spares (w : Watched) (key : PageKey) : Prop :=
  key ∉ w.pool.frames → w.pool.maxPages ≤ w.pool.frames.keys.length →
    ∀ victim frame, w.pool.findVictim w.pool.frames.keys.length w.pool.lru.tail = some victim →
      w.pool.frames.lookup victim = some frame → frame.dirty = true →
        ∃ disk, w.pool.files victim.file = some disk ∧ ∀ torn, faults.write victim = some torn →
          readFromDisk crc (tearDisk disk victim.page torn) victim.file victim.page = .ok frame.data

end Shelter

section Rules

variable {crc : List UInt8 → UInt32} {faults : Faults} {w : Watched} {disk' : DiskFile}

theorem readFromDisk_congr (longer : disk.size ≤ disk'.size)
    (same : disk'.page page = disk.page page) (read : readFromDisk crc disk file page = .ok data) :
    readFromDisk crc disk' file page = .ok data := by
  unfold readFromDisk at read ⊢
  obtain ⟨within, read⟩ := ok_of_guard read
  rw [same, if_neg (by omega)]
  exact read

theorem validatePageBuf_ne_exhausted {buf : PageBuf} {magic : Buf 4} {name : String}
    {id : UInt32} : validatePageBuf crc buf magic name id ≠ .error .bufferPoolExhausted := by
  unfold validatePageBuf
  split
  · exact nofun
  · dsimp only
    split
    · exact nofun
    · split <;> exact nofun

theorem readFromDisk_ne_exhausted :
    readFromDisk crc disk file page ≠ .error .bufferPoolExhausted := by
  unfold readFromDisk
  by_cases short : disk.size < (page.toNat + 1) * pageSize
  · rw [if_pos short]
    exact nofun
  · rw [if_neg short]
    cases valid : validatePageBuf crc (disk.page page) (expectedMagic file) file.fileName page with
    | ok _ => exact nofun
    | error e =>
      rintro ⟨⟩
      exact validatePageBuf_ne_exhausted valid

variable {files : DataFile → Option DiskFile}

theorem OnDisk.unique {data' : PageBuf} (onDisk : OnDisk crc files key data)
    (onDisk' : OnDisk crc files key data') : data = data' := by
  obtain ⟨disk, found, read⟩ := onDisk
  obtain ⟨disk', found', read'⟩ := onDisk'
  obtain rfl := Option.some.inj (found.symm.trans found')
  exact Except.ok.inj (read.symm.trans read')

variable {other : PageKey}

theorem OnDisk.update (registered : files key.file = some disk) (longer : disk.size ≤ disk'.size)
    (same : ∀ page ≠ key.page, disk'.page page = disk.page page) (ne : other ≠ key)
    (onDisk : OnDisk crc files other data) :
    OnDisk crc (update files key.file (some disk')) other data := by
  obtain ⟨before, found, read⟩ := onDisk
  obtain ⟨file, page⟩ := key
  obtain ⟨file', page'⟩ := other
  by_cases sameFile : file' = file
  · subst sameFile
    obtain rfl := Option.some.inj (registered.symm.trans found)
    refine ⟨disk', update_self .., readFromDisk_congr longer (same page' ?_) read⟩
    rintro rfl
    exact ne rfl
  · exact ⟨before, (update_of_ne sameFile ..).trans found, read⟩

variable {unflushed : PageKey → Option PageBuf}

theorem unflushed_of_written (put : update unflushed key none other = some data) :
    other ≠ key ∧ unflushed other = some data := by
  by_cases here : other = key
  · rw [here, update_self] at put
    cases put
  · rw [update_of_ne here] at put
    exact ⟨here, put⟩

/-- What a write to the disk does to the pages that are sheltered. -/
theorem sat_writeBack {key : PageKey} {data : PageBuf}
    (bounded : w.pool.frames.keys.length ≤ w.pool.maxPages)
    (cached : ∀ key data frame, w.unflushed key = some data →
      w.pool.frames.lookup key = some frame → frame.data = data)
    (held : ∀ other data, other ≠ key → w.unflushed other = some data →
      (∃ frame, w.pool.frames.lookup other = some frame ∧ frame.dirty = true) ∨
        OnDisk crc w.pool.files other data)
    (spared : ∀ data, w.unflushed key = some data →
      (∃ frame, w.pool.frames.lookup key = some frame ∧ frame.dirty = true) ∨
        ∃ disk, w.pool.files key.file = some disk ∧ ∀ torn, faults.write key = some torn →
          readFromDisk crc (tearDisk disk key.page torn) key.file key.page = .ok data) :
    Sat (writeBack faults key data) w
      (fun _ after => Sheltered crc after ∧ after.unflushed = update w.unflushed key none ∧
        after.pool.frames = w.pool.frames ∧ after.pool.maxPages = w.pool.maxPages)
      (fun _ after => Sheltered crc after ∧ after.pool.frames = w.pool.frames ∧
        after.pool.maxPages = w.pool.maxPages) := by
  unfold writeBack
  rw [sat_bind, sat_get]
  cases registered : w.pool.files key.file with
  | none =>
    refine ⟨⟨bounded, cached, fun other data put => ?_⟩, rfl, rfl⟩
    by_cases here : other = key
    · subst here
      obtain dirty | ⟨disk, found, -⟩ := spared data put
      · exact .inl dirty
      · rw [registered] at found
        cases found
    · exact held other data here put
  | some disk =>
    cases fault : faults.write key with
    | some torn =>
      dsimp only
      rw [sat_bind, sat_set, sat_throw]
      refine ⟨⟨bounded, cached, fun other data put => ?_⟩, rfl, rfl⟩
      by_cases here : other = key
      · subst here
        obtain dirty | ⟨disk', found, reads⟩ := spared data put
        · exact .inl dirty
        · obtain rfl := Option.some.inj (registered.symm.trans found)
          exact .inr ⟨_, update_self .., reads torn fault⟩
      · refine (held other data here put).imp_right fun onDisk => ?_
        exact onDisk.update registered (le_max_left ..)
          (fun page ne => update_of_ne ne ..) here
    | none =>
      dsimp only
      rw [sat_set]
      refine ⟨⟨bounded, fun other data frame put => ?_, fun other data put => ?_⟩, rfl, rfl, rfl⟩
      · exact cached other data frame (unflushed_of_written put).2
      · obtain ⟨here, put⟩ := unflushed_of_written put
        refine (held other data here put).imp_right fun onDisk => ?_
        exact onDisk.update registered (le_max_left ..)
          (fun page ne => update_of_ne ne ..) here

theorem unpinned_of_findVictim {pool : BufferPool} {fuel : Nat} {start : Option PageKey}
    {victim : PageKey} (found : pool.findVictim fuel start = some victim) :
    pool.unpinned victim = true := by
  induction fuel generalizing start with
  | zero => cases start <;> cases found
  | succ fuel ih =>
    cases start with
    | none => cases found
    | some key =>
      rw [findVictim] at found
      split at found
      · next unpinned => exact Option.some.inj found ▸ unpinned
      · exact ih found

variable {frames : AList fun _ : PageKey => BufferFrame}

theorem length_keys_erase (mem : key ∈ frames) :
    (frames.erase key).keys.length + 1 = frames.keys.length := by
  have pos : 0 < frames.keys.length := length_pos_of_mem mem
  rw [AList.keys_erase, length_erase_of_mem mem]
  omega

/-- An eviction drops a page, and a failed one leaves what it dropped on disk. -/
theorem sat_evictOneInner (sheltered : Sheltered crc w) (free : key ∉ w.pool.frames)
    (full : w.pool.maxPages ≤ w.pool.frames.keys.length) (spares : Spares crc faults w key) :
    Sat (evictOneInner faults) w
      (fun _ after => Sheltered crc after ∧ key ∉ after.pool.frames ∧
        after.pool.frames.keys.length < after.pool.maxPages)
      (fun e after => Sheltered crc after ∧
        (e ≠ .bufferPoolExhausted → after.pool.frames.keys.length < after.pool.maxPages)) := by
  unfold evictOneInner
  rw [sat_bind, sat_get]
  cases found : w.pool.findVictim w.pool.frames.keys.length w.pool.lru.tail with
  | none => exact ⟨sheltered, fun other => absurd rfl other⟩
  | some victim =>
    obtain ⟨frame, cached, -⟩ : ∃ frame, w.pool.frames.lookup victim = some frame ∧ _ :=
      (Option.any_eq_true _ _).mp (unpinned_of_findVictim found)
    have mem : victim ∈ w.pool.frames := by
      rw [← AList.lookup_isSome, cached]
      rfl
    have fewer := length_keys_erase mem
    have room : (w.pool.frames.erase victim).keys.length < w.pool.maxPages := by
      have := sheltered.bounded
      omega
    have free' : key ∉ w.pool.frames.erase victim := by
      rw [AList.mem_erase]
      exact fun still => free still.2
    have kept (other : PageKey) (frame : BufferFrame)
        (cached : (w.pool.frames.erase victim).lookup other = some frame) :
        w.pool.frames.lookup other = some frame := by
      by_cases here : other = victim
      · rw [here, AList.lookup_erase] at cached
        cases cached
      · rwa [AList.lookup_erase_ne here] at cached
    have others (other : PageKey) (data : PageBuf) (here : other ≠ victim)
        (put : w.unflushed other = some data) :
        (∃ frame, (w.pool.frames.erase victim).lookup other = some frame ∧
          frame.dirty = true) ∨ OnDisk crc w.pool.files other data := by
      rw [AList.lookup_erase_ne here]
      exact sheltered.held other data put
    dsimp only
    rw [sat_bind, sat_set, cached]
    dsimp only
    rw [sat_ite]
    constructor
    · intro dirty
      obtain ⟨disk, registered, reads⟩ := spares free full victim frame found cached dirty
      refine (@sat_writeBack crc faults { w with pool := { w.pool with
        lru := w.pool.lru.unlink victim, frames := w.pool.frames.erase victim } } victim
        frame.data room.le (fun other data frame put cached =>
          sheltered.cached other data frame put (kept other frame cached)) others
        fun data put => .inr ⟨disk, registered, fun torn fault => ?_⟩).mono ?_ ?_
      · rw [reads torn fault, sheltered.cached victim data frame put cached]
      · rintro _ after ⟨sheltered', -, frames, max⟩
        exact ⟨sheltered', frames ▸ free', by rw [frames, max]; exact room⟩
      · rintro _ after ⟨sheltered', frames, max⟩
        exact ⟨sheltered', fun _ => by rw [frames, max]; exact room⟩
    · intro clean
      refine ⟨⟨room.le, fun other data frame put cached =>
        sheltered.cached other data frame put (kept other frame cached),
        fun other data put => ?_⟩, free', room⟩
      by_cases here : other = victim
      · subst here
        refine .inr ((sheltered.held other data put).resolve_left ?_)
        rintro ⟨frame', cached', dirty⟩
        obtain rfl := Option.some.inj (cached.symm.trans cached')
        exact clean dirty
      · exact others other data here put

theorem sat_ensureCapacityInner (sheltered : Sheltered crc w) (free : key ∉ w.pool.frames)
    (spares : Spares crc faults w key) :
    Sat (ensureCapacityInner faults (w.pool.frames.keys.length + 1)) w
      (fun _ after => Sheltered crc after ∧ key ∉ after.pool.frames ∧
        after.pool.frames.keys.length < after.pool.maxPages)
      (fun e after => Sheltered crc after ∧
        (e ≠ .bufferPoolExhausted → after.pool.frames.keys.length < after.pool.maxPages)) := by
  rw [ensureCapacityInner, sat_bind, sat_get, sat_ite]
  constructor
  · intro full
    rw [sat_bind]
    refine (sat_evictOneInner sheltered free full spares).mono ?_ fun _ _ => id
    rintro _ after ⟨sheltered', free', room⟩
    cases w.pool.frames.keys.length with
    | zero => exact ⟨sheltered', free', room⟩
    | succ fuel =>
      rw [ensureCapacityInner, sat_bind, sat_get, if_neg (Nat.not_le.mpr room)]
      exact ⟨sheltered', free', room⟩
  · intro room
    exact ⟨sheltered, free, not_le.mp room⟩

theorem Sheltered.place {key : PageKey} {frame : BufferFrame} {lru : Links PageKey}
    (sheltered : Sheltered crc w) (here : frames.lookup key = some frame)
    (others : ∀ other ≠ key, frames.lookup other = w.pool.frames.lookup other)
    (kept : ∀ other ≠ key, unflushed other = w.unflushed other)
    (holds : ∀ data, unflushed key = some data →
      frame.data = data ∧ (frame.dirty = true ∨ OnDisk crc w.pool.files key data))
    (bounded : frames.keys.length ≤ w.pool.maxPages) :
    Sheltered crc ⟨{ w.pool with frames, lru }, unflushed⟩ where
  bounded := bounded
  cached other data frame' put cached := by
    by_cases same : other = key
    · subst same
      obtain rfl := Option.some.inj (here.symm.trans cached)
      exact (holds data put).1
    · exact sheltered.cached other data frame' ((kept other same).symm.trans put)
        ((others other same).symm.trans cached)
  held other data put := by
    by_cases same : other = key
    · subst same
      exact (holds data put).2.imp_left fun dirty => ⟨frame, here, dirty⟩
    · rw [others other same]
      exact sheltered.held other data ((kept other same).symm.trans put)

theorem sat_load (key : PageKey) :
    Sat (load crc faults key) w
      (fun data after => after = w ∧ OnDisk crc w.pool.files key data)
      (fun e after => after = w ∧ e ≠ .bufferPoolExhausted) := by
  unfold load
  rw [sat_bind, sat_get]
  cases registered : w.pool.files key.file with
  | none => exact ⟨rfl, nofun⟩
  | some disk =>
    dsimp only
    split
    · exact ⟨rfl, nofun⟩
    · rw [sat_ofResult]
      refine ⟨fun data read => ⟨rfl, disk, registered, read⟩, fun e read => ⟨rfl, ?_⟩⟩
      rintro rfl
      exact readFromDisk_ne_exhausted read

theorem length_keys_insert (free : key ∉ frames) (frame : BufferFrame) :
    (frames.insert key frame).keys.length = frames.keys.length + 1 := by
  rw [AList.keys_insert, length_cons, erase_of_not_mem free]

theorem sat_getPage (file : DataFile) (page : UInt32) (sheltered : Sheltered crc w)
    (spares : Spares crc faults w ⟨file, page⟩) :
    Sat (getPage crc faults file page) w (fun _ after => Sheltered crc after)
      (fun e after => Sheltered crc after ∧
        (e ≠ .bufferPoolExhausted → after.pool.frames.keys.length < after.pool.maxPages)) := by
  unfold getPage
  rw [sat_bind, sat_get]
  cases cached : w.pool.frames.lookup ⟨file, page⟩ with
  | some frame => exact sheltered
  | none =>
    dsimp only
    rw [sat_bind]
    refine (sat_ensureCapacityInner sheltered (AList.lookup_eq_none.mp cached) spares).mono ?_
      fun _ _ => id
    rintro _ between ⟨sheltered, free, room⟩
    rw [sat_bind]
    refine (sat_load ⟨file, page⟩).mono ?_ ?_
    · rintro data _ ⟨rfl, onDisk⟩
      rw [sat_bind, sat_modify, sat_pure]
      refine sheltered.place (AList.lookup_insert _)
        (fun other ne => AList.lookup_insert_ne ne) (fun _ _ => rfl)
        (fun data' put => ?_) ((length_keys_insert free _).trans_le room)
      -- a page that is not cached is on disk with what was put
      obtain ⟨frame, cached, -⟩ | onDisk' := sheltered.held _ _ put
      · rw [AList.lookup_eq_none.mpr free] at cached
        cases cached
      · exact ⟨onDisk.unique onDisk', .inr onDisk'⟩
    · rintro e _ ⟨rfl, other⟩
      exact ⟨sheltered, fun _ => room⟩

theorem sat_putPage (file : DataFile) (page : UInt32) (data : PageBuf)
    (sheltered : Sheltered crc w) (spares : Spares crc faults w ⟨file, page⟩) :
    Sat (putPage faults file page data) w (fun _ after => Sheltered crc after)
      (fun e after => Sheltered crc after ∧
        (e ≠ .bufferPoolExhausted → after.pool.frames.keys.length < after.pool.maxPages)) := by
  have put (unflushed : PageKey → Option PageBuf) (data' : PageBuf)
      (now : update unflushed ⟨file, page⟩ (some data) ⟨file, page⟩ = some data') :
      data = data' := by
    rw [update_self] at now
    exact Option.some.inj now
  unfold putPage
  rw [sat_bind, sat_get]
  cases cached : w.pool.frames.lookup ⟨file, page⟩ with
  | some frame =>
    have mem : ⟨file, page⟩ ∈ w.pool.frames := by
      rw [← AList.lookup_isSome, cached]
      rfl
    refine sheltered.place ((lookup_replace mem _ _).trans (if_pos rfl))
      (fun other ne => (lookup_replace mem _ _).trans (if_neg ne))
      (fun other ne => update_of_ne ne ..)
      (fun data' now => ⟨put _ data' now, .inl rfl⟩) ?_
    rw [AList.keys_replace]
    exact sheltered.bounded
  | none =>
    dsimp only
    rw [sat_bind]
    refine (sat_ensureCapacityInner sheltered (AList.lookup_eq_none.mp cached) spares).mono ?_
      fun _ _ => id
    rintro _ between ⟨sheltered, free, room⟩
    rw [sat_modify]
    exact sheltered.place (AList.lookup_insert _)
      (fun other ne => AList.lookup_insert_ne ne)
      (fun other ne => update_of_ne ne ..)
      (fun data' now => ⟨put _ data' now, .inl rfl⟩) ((length_keys_insert free _).trans_le room)

/-- The pages that are to be flushed have changed since they were written, or are written. -/
def Due (w : Watched) (file : DataFile) (pages : List UInt32) : Prop :=
  ∀ page ∈ pages, ∀ data, w.unflushed ⟨file, page⟩ = some data →
    ∃ frame, w.pool.frames.lookup ⟨file, page⟩ = some frame ∧ frame.dirty = true

theorem due_dirtyPages (file : DataFile) : w.Due file (w.pool.dirtyPages file) := by
  intro page mem data put
  obtain ⟨⟨key, frame⟩, entry, named⟩ := mem_filterMap.mp mem
  dsimp only at named
  split at named
  · next dirty =>
    obtain rfl := Option.some.inj named
    obtain ⟨rfl, dirty⟩ := dirty
    exact ⟨frame, AList.mem_lookup_iff.mpr entry, by simpa using dirty⟩
  · cases named

theorem sat_flushPage (file : DataFile) (page : UInt32) (rest : List UInt32)
    (sheltered : Sheltered crc w) (due : w.Due file (page :: rest)) :
    Sat (flushPage faults file page) w
      (fun _ after => Sheltered crc after ∧ after.Due file rest)
      (fun _ after => Sheltered crc after) := by
  unfold flushPage
  rw [sat_bind, sat_get]
  cases cached : w.pool.frames.lookup ⟨file, page⟩ with
  | none => exact ⟨sheltered, fun other mem => due other (.tail _ mem)⟩
  | some frame =>
    have mem : ⟨file, page⟩ ∈ w.pool.frames := by
      rw [← AList.lookup_isSome, cached]
      rfl
    dsimp only
    rw [sat_bind]
    refine (sat_writeBack sheltered.bounded sheltered.cached
      (fun other data _ put => sheltered.held other data put)
      fun data put => .inl (due page mem_cons_self data put)).mono ?_ fun _ _ done => done.1
    rintro _ after ⟨sheltered', written, frames, max⟩
    rw [sat_modify]
    have mem' : ⟨file, page⟩ ∈ after.pool.frames := frames ▸ mem
    refine ⟨sheltered'.place ((lookup_replace mem' _ _).trans (if_pos rfl))
      (fun other ne => (lookup_replace mem' _ _).trans (if_neg ne))
      (fun _ _ => rfl) (fun data put => ?_) ?_, fun other later data put => ?_⟩
    · rw [written, update_self] at put
      cases put
    · rw [AList.keys_replace]
      exact sheltered'.bounded
    · rw [written] at put
      obtain ⟨ne, put⟩ := unflushed_of_written put
      obtain ⟨frame', cached', dirty⟩ := due other (.tail _ later) data put
      refine ⟨frame', ?_, dirty⟩
      rw [lookup_replace mem', if_neg ne, frames, cached']

theorem sat_flushPages (file : DataFile) (pages : List UInt32) (sheltered : Sheltered crc w)
    (due : w.Due file pages) :
    Sat (pages.forM (flushPage faults file)) w (fun _ after => Sheltered crc after)
      (fun _ after => Sheltered crc after) := by
  induction pages generalizing w with
  | nil => exact sheltered
  | cons page rest ih =>
    simp only [forM_eq_forM, forM_cons, sat_bind] at ih ⊢
    exact (sat_flushPage file page rest sheltered due).mono
      (fun _ after done => ih done.1 done.2) fun _ _ => id

theorem sat_flushFile (file : DataFile) (sheltered : Sheltered crc w) :
    Sat (flushFile faults file) w (fun _ after => Sheltered crc after)
      (fun _ after => Sheltered crc after) := by
  unfold flushFile
  rw [sat_bind, sat_get]
  exact sat_flushPages file _ sheltered (due_dirtyPages file)

theorem Sheltered.getPage (sheltered : Sheltered crc w)
    (room : w.pool.frames.keys.length < w.pool.maxPages) (put : w.unflushed key = some data) :
    answer (BufferPool.getPage crc key.file key.page) w.pool = .ok data := by
  refine Sat.answer_eq ?_
  unfold BufferPool.getPage
  rw [sat_bind, sat_get]
  cases cached : w.pool.frames.lookup key with
  | some frame =>
    have same := sheltered.cached key data frame put cached
    exact congrArg Except.ok same.symm
  | none =>
    obtain ⟨frame, cached', -⟩ | ⟨disk, registered, read⟩ := sheltered.held key data put
    · rw [cached] at cached'
      cases cached'
    · dsimp only
      rw [sat_bind, BufferPool.ensureCapacityInner, sat_bind, sat_get,
        if_neg (Nat.not_le.mpr room), sat_pure, sat_bind]
      unfold diskFile
      simp only [sat_bind, sat_get, registered, sat_pure, read, sat_ofResult_ok, sat_modify]

end Rules
/-- A call, with what fails in it. -/
structure FaultyCall where
  op : PoolOp
  faults : Faults := {}

section Runs

variable (crc : List UInt8 → UInt32)

def step (w : Watched) (call : FaultyCall) : Watched := final (run crc call.faults call.op) w

/-- If the write of the page that a call evicts fails, the disk still has its contents. -/
def Spared (w : Watched) (call : FaultyCall) : Prop :=
  match call.op with
  | .getPage file page | .putPage file page _ => Spares crc call.faults w ⟨file, page⟩
  | .flushFile _ => True

def SparedRun (w : Watched) : List FaultyCall → Prop
  | [] => True
  | call :: rest => Spared crc w call ∧ SparedRun (step crc w call) rest

/-- After a read or a write of a page that fails, and not because all pages are pinned, every page
that was put and not written is read with its last contents. -/
def LosesNothing (w : Watched) (call : FaultyCall) : Prop :=
  (∀ file, call.op ≠ .flushFile file) → ∀ e ≠ .bufferPoolExhausted,
    answer (run crc call.faults call.op) w = .error e →
      ∀ key data, (step crc w call).unflushed key = some data →
        answer (BufferPool.getPage crc key.file key.page) (step crc w call).pool = .ok data

end Runs

section Runs

variable {crc : List UInt8 → UInt32} {w : Watched}

theorem sheltered_new (memoryLimitBytes : Nat) (files : DataFile → Option DiskFile) :
    Sheltered crc (new memoryLimitBytes files) where
  bounded := Nat.zero_le _
  cached _ _ _ put := nomatch put
  held _ _ put := nomatch put

theorem sat_run (call : FaultyCall) (sheltered : Sheltered crc w) (spared : Spared crc w call) :
    Sat (run crc call.faults call.op) w (fun _ after => Sheltered crc after)
      (fun e after => Sheltered crc after ∧ ((∀ file, call.op ≠ .flushFile file) →
        e ≠ .bufferPoolExhausted → after.pool.frames.keys.length < after.pool.maxPages)) := by
  obtain ⟨op, faults⟩ := call
  cases op with
  | getPage file page =>
    exact (sat_map some).mpr ((sat_getPage file page sheltered spared).mono (fun _ _ => id)
      fun _ _ done => ⟨done.1, fun _ => done.2⟩)
  | putPage file page data =>
    exact (sat_map fun _ => none).mpr ((sat_putPage file page data sheltered spared).mono
      (fun _ _ => id) fun _ _ done => ⟨done.1, fun _ => done.2⟩)
  | flushFile file =>
    exact (sat_map fun _ => none).mpr ((sat_flushFile file sheltered).mono (fun _ _ => id)
      fun _ _ done => ⟨done, fun other => absurd rfl (other file)⟩)

variable {call : FaultyCall}

theorem Sheltered.step (sheltered : Sheltered crc w) (spared : Spared crc w call) :
    Sheltered crc (step crc w call) :=
  ((sat_run call sheltered spared).mono (fun _ _ => id) fun _ _ done => done.1).final

theorem Sheltered.losesNothing (sheltered : Sheltered crc w) (spared : Spared crc w call) :
    LosesNothing crc w call := by
  intro other e pinned failed key data put
  have room := ((sat_run call sheltered spared).outcome.2 e failed).2 other pinned
  exact (sheltered.step spared).getPage room put

end Runs

def oneFile : Watched := new 0 fun file => if file = .nodes then some {} else none

def eightPuts : List FaultyCall :=
  [0, 1, 2, 3, 4, 5, 6, 7].map fun page => ⟨.putPage .nodes page newPageBuf, {}⟩

/-- A ninth page is put, and the write of the first one leaves nothing. -/
def ninthPut : FaultyCall :=
  ⟨.putPage .nodes 8 newPageBuf, { write := fun _ => some ⟨0, newPageBuf⟩ }⟩

/-- A ninth page is put, and the write of the first one fails with everything written. -/
def lateFailure : FaultyCall :=
  ⟨.putPage .nodes 8 newPageBuf, { write := fun _ => some ⟨pageSize, newPageBuf⟩ }⟩

def noCrc (_ : List UInt8) : UInt32 := 0

variable {crc : List UInt8 → UInt32}

theorem readFromDisk_blank (within : (page.toNat + 1) * pageSize ≤ disk.size)
    (blank : disk.page page = newPageBuf) : readFromDisk crc disk file page = .ok newPageBuf := by
  unfold readFromDisk validatePageBuf
  rw [if_neg (Nat.not_lt.mpr within), blank, if_pos (by simp [newPageBuf])]
  rfl

theorem spared_notFull {w : Watched} {call : FaultyCall}
    (room : w.pool.frames.keys.length < w.pool.maxPages) : Spared crc w call := by
  unfold Spared
  split
  · exact fun _ full => absurd room (Nat.not_lt.mpr full)
  · exact fun _ full => absurd room (Nat.not_lt.mpr full)
  · trivial

theorem sparedRun_lateFailure : SparedRun noCrc oneFile (eightPuts ++ [lateFailure]) := by
  refine ⟨spared_notFull (by decide), spared_notFull (by decide), spared_notFull (by decide),
    spared_notFull (by decide), spared_notFull (by decide), spared_notFull (by decide),
    spared_notFull (by decide), spared_notFull (by decide), ?_, trivial⟩
  intro _ _ victim frame found cached _
  obtain rfl : ⟨.nodes, 0⟩ = victim := Option.some.inj found
  obtain rfl : ⟨newPageBuf, true, 0⟩ = frame := Option.some.inj cached
  refine ⟨{}, rfl, ?_⟩
  rintro _ ⟨⟩
  exact readFromDisk_blank (by decide) (by simp [tearDisk])

/-- In a run whose calls spare the pages they evict, no failed call loses what was put. -/
theorem failed_call_losesNothing (crc : List UInt8 → UInt32) (memoryLimitBytes : Nat)
    (files : DataFile → Option DiskFile) (calls : List FaultyCall) (call : FaultyCall)
    (spared : SparedRun crc (new memoryLimitBytes files) (calls ++ [call])) :
    LosesNothing crc (calls.foldl (Watched.step crc) (new memoryLimitBytes files)) call := by
  have sheltered := @sheltered_new crc memoryLimitBytes files
  generalize new memoryLimitBytes files = w at sheltered spared ⊢
  induction calls generalizing w with
  | nil => exact sheltered.losesNothing spared.1
  | cons first rest ih => exact ih _ (sheltered.step spared.1) spared.2

/-- The write that failed late left the first page to be read. -/
theorem failed_call_losesNothing_late :
    answer (BufferPool.getPage noCrc .nodes 0)
      (step noCrc (eightPuts.foldl (step noCrc) oneFile) lateFailure).pool = .ok newPageBuf :=
  failed_call_losesNothing noCrc 0 _ eightPuts lateFailure sparedRun_lateFailure nofun .io nofun
    rfl ⟨.nodes, 0⟩ newPageBuf rfl

/-- The first page was put and is gone. -/
theorem ninthPut_losesFirst :
    ¬LosesNothing noCrc (eightPuts.foldl (step noCrc) oneFile) ninthPut := by
  intro kept
  have read := kept nofun .io nofun rfl ⟨.nodes, 0⟩ newPageBuf rfl
  have failed : answer (BufferPool.getPage noCrc .nodes 0)
      (step noCrc (eightPuts.foldl (step noCrc) oneFile) ninthPut).pool = .error .io := rfl
  cases read.symm.trans failed

end Watched

end ErmyaGraph.Raw
