import ErmyaGraph.Lib.Moments

/-! # Restoring a database from a snapshot

The live directory is set aside, a copy of the snapshot takes its place and is verified, and
what was set aside is dropped or put back. A program that died on the way is made good at the
next start. -/

namespace ErmyaGraph.Backup

open Moments List Function

inductive Entry where
  | file (bytes : List UInt8)
  | other
deriving DecidableEq

abbrev Dir := List (String × Entry)

namespace Dir

def entry (dir : Dir) (name : String) : Option Entry := List.lookup name dir

def isFile (dir : Dir) (name : String) : Bool :=
  match dir.entry name with
  | some (.file _) => true
  | _ => false

def write (dir : Dir) (name : String) (held : Entry) : Dir :=
  (name, held) :: dir.filter fun other => other.1 ≠ name

end Dir

/-- The directory of a database, and its siblings with fixed suffixes. What is moved to `partial_`
is about to be dropped. -/
inductive Name where
  | live
  | bak
  | stagingCopy
  | failed
  | partial_
deriving DecidableEq

abbrev Siblings := Name → Option Dir

/-- Rename a directory. It must not replace one that has files. -/
def rename (from_ upto : Name) (s : Siblings) : Option Siblings :=
  match s from_, s upto with
  | some dir, none => some (update (update s upto (some dir)) from_ none)
  | some dir, some [] => some (update (update s upto (some dir)) from_ none)
  | _, _ => none

def removeDirAll (name : Name) (s : Siblings) : Option Siblings :=
  match s name with
  | some _ => some (update s name none)
  | none => none

def createDirAll (name : Name) (s : Siblings) : Option Siblings :=
  match s name with
  | some _ => some s
  | none => some (update s name (some []))

def copyFile (held : Entry) (file : String) (name : Name) (s : Siblings) : Option Siblings :=
  (s name).map fun dir => update s name (some (dir.write file held))

def fsync (s : Siblings) : Option Siblings := some s

def requiredFiles : List String :=
  ["nodes.db", "edges.db", "adjacency.db", "strings.db", "overflow.db", "graph.meta"]

def optionalFiles : List String := ["label_index.bin", "schema.bin"]

/-- A directory has all files of a database, and its metadata are not empty. -/
def validateSnapshotSource (dir : Option Dir) : Bool :=
  match dir with
  | none => false
  | some dir => requiredFiles.all fun name =>
    match dir.entry name with
    | some (.file bytes) => name ≠ "graph.meta" || !bytes.isEmpty
    | _ => false

/-- The steps of the programs, each with a fate of its own. -/
inductive Step where
  | clearBak
  | setAside
  | syncAside
  | putBack
  | clearStaging
  | createStaging
  | copyFile (name : String)
  | discardStaging
  | clearDest
  | renameIn
  | syncIn
  | syncFiles
  | verify
  | clearPartial
  | clearFailed
  | moveFailed
  | reinstate
  | syncBack
  | dropFailed
  | dropBak
  | syncDrop
  | dropStaging
  | dropOldFailed
  | dropResidual
  | syncResidual
  | clearOldPartial
  | movePartial
  | dropPartial
  | reinstateOld
  | syncOld
deriving DecidableEq

inductive RestoreError where
  | sourceInvalid
  | copyFailed
  | validationFailed
  | rollbackFailed
deriving DecidableEq

section Programs

-- What happens to each step, which directories open as a graph whose pages are all sound, and
-- the directory of the snapshot.
variable (fates : Step → Fate) (verifies : Dir → Bool) (snapshot : Option Dir)

def step (label : Step) (f : Siblings → Option Siblings) : Io Siblings Bool := act (fates label) f

/-- Copy files that a snapshot has to have. -/
def copyRequired (source : Dir) : List String → Io Siblings Bool
  | [] => return true
  | name :: names =>
    match source.entry name with
    | some (.file bytes) => do
        if ← step fates (.copyFile name) (copyFile (.file bytes) name .stagingCopy) then
          copyRequired source names
        else return false
    | _ => return false

/-- Copy files where a snapshot has them. -/
def copyOptional (source : Dir) : List String → Io Siblings Bool
  | [] => return true
  | name :: names =>
    match source.entry name with
    | some (.file bytes) => do
        if ← step fates (.copyFile name) (copyFile (.file bytes) name .stagingCopy) then
          copyOptional source names
        else return false
    | _ => copyOptional source names

def copyIntoStaging (source : Dir) : Io Siblings Bool := do
  if ← step fates .createStaging (createDirAll .stagingCopy) then
    if ← copyRequired fates source requiredFiles then copyOptional fates source optionalFiles
    else return false
  else return false

/-- Put the staging directory in the place of the live one. -/
def replaceDest : Io Siblings Bool := do
  if ← step fates .renameIn (rename .stagingCopy .live) then step fates .syncIn fsync
  else return false

/-- Fill the staging directory, and put it in the place of the live one. -/
def stageAndReplace (source : Dir) : Io Siblings Bool := do
  if ← copyIntoStaging fates source then
    let s ← now
    if (s .live).isSome then
      if ← step fates .clearDest (removeDirAll .live) then replaceDest fates else return false
    else replaceDest fates
  else
    let _ ← step fates .discardStaging (removeDirAll .stagingCopy)
    return false

/-- Copy the files of a snapshot into the live directory, by way of a staging directory. -/
def copyDbFilesAtomic : Io Siblings Bool :=
  match snapshot with
  | none => return false
  | some source =>
    if source.isFile "graph.meta" then do
      let s ← now
      if (s .stagingCopy).isSome then
        let _ ← step fates .clearStaging (removeDirAll .stagingCopy)
        stageAndReplace fates source
      else stageAndReplace fates source
    else return false

/-- Rename the backup back, and drop what failed. -/
def reinstateOriginal : Io Siblings Bool := do
  if ← step fates .reinstate (rename .bak .live) then
    let _ ← step fates .syncBack fsync
    let _ ← step fates .dropFailed (removeDirAll .failed)
    return true
  else return false

/-- Put back what was set aside. -/
def rollbackDbFiles (hadLive : Bool) : Io Siblings Bool := do
  if hadLive then
    let _ ← step fates .clearFailed (removeDirAll .failed)
    let s ← now
    if (s .live).isSome then
      if ← step fates .moveFailed (rename .live .failed) then reinstateOriginal fates
      else return false
    else reinstateOriginal fates
  else
    let _ ← step fates .clearPartial (removeDirAll .live)
    return true

def finishWithRollback (hadLive : Bool) (original : RestoreError) :
    Io Siblings (Except RestoreError Unit) := do
  if ← rollbackDbFiles fates hadLive then return .error original
  else return .error .rollbackFailed

def validation : Io Siblings Bool := do
  let s ← now
  step fates .verify fun s' => if (s .live).any verifies then some s' else none

/-- Copy, verify and commit, where the live directory is out of the way. -/
def replaceLive (hadLive : Bool) : Io Siblings (Except RestoreError Unit) := do
  if ← copyDbFilesAtomic fates snapshot then
    if ← step fates .syncFiles fsync then
      if ← validation fates verifies then
        if hadLive then
          let _ ← step fates .dropBak (removeDirAll .bak)
          let _ ← step fates .syncDrop fsync
          return .ok ()
        else return .ok ()
      else finishWithRollback fates hadLive .validationFailed
    else finishWithRollback fates hadLive .copyFailed
  else finishWithRollback fates hadLive .copyFailed

/-- Set the live directory aside, if there is one, and replace it. -/
def setAsideAndReplace : Io Siblings (Except RestoreError Unit) := do
  let s ← now
  if (s .live).isSome then
    if ← step fates .setAside (rename .live .bak) then
      if ← step fates .syncAside fsync then replaceLive fates verifies snapshot true
      else
        let _ ← step fates .putBack (rename .bak .live)
        return .error .copyFailed
    else return .error .copyFailed
  else replaceLive fates verifies snapshot false

def restoreDbFilesAtomic : Io Siblings (Except RestoreError Unit) := do
  if validateSnapshotSource snapshot then
    let s ← now
    if (s .bak).isSome then
      if ← step fates .clearBak (removeDirAll .bak) then
        setAsideAndReplace fates verifies snapshot
      else return .error .sourceInvalid
    else setAsideAndReplace fates verifies snapshot
  else return .error .sourceInvalid

inductive ReconcileOutcome where
  | clean
  | rolledBackFromBackup
  | removedResidual
deriving DecidableEq

/-- Put the backup in the place of the live directory. `none` is an input or output error. -/
def reinstateBak : Io Siblings (Option ReconcileOutcome) := do
  if ← step fates .reinstateOld (rename .bak .live) then
    if ← step fates .syncOld fsync then return some .rolledBackFromBackup else return none
  else return none

/-- Decide between the live directory and its backup. -/
def reconcileBak : Io Siblings (Option ReconcileOutcome) := do
  let s ← now
  if (s .bak).isSome then
    if validateSnapshotSource (s .live) then
      if ← step fates .dropResidual (removeDirAll .bak) then
        if ← step fates .syncResidual fsync then return some .removedResidual else return none
      else return none
    else if (s .live).isSome then
      let _ ← step fates .clearOldPartial (removeDirAll .partial_)
      if ← step fates .movePartial (rename .live .partial_) then
        let _ ← step fates .dropPartial (removeDirAll .partial_)
        reinstateBak fates
      else return none
    else reinstateBak fates
  else return some .clean

def removeIfThere (label : Step) (name : Name) : Io Siblings Bool := do
  let s ← now
  if (s name).isSome then step fates label (removeDirAll name) else return true

def reconcileRestoreArtifacts : Io Siblings (Option ReconcileOutcome) := do
  if ← removeIfThere fates .dropStaging .stagingCopy then
    if ← removeIfThere fates .dropOldFailed .failed then reconcileBak fates else return none
  else return none

end Programs

/-- The files that a copy of a snapshot has. -/
def copyFiles (source : Dir) (names : List String) (dir : Dir) : Dir :=
  names.foldl (fun dir name =>
    match source.entry name with
    | some (.file bytes) => dir.write name (.file bytes)
    | _ => dir) dir

def copyOf (source : Dir) : Dir := copyFiles source (requiredFiles ++ optionalFiles) []

section Goodness

-- Which directories open as a graph with sound pages, the database at the start, and the
-- snapshots that are restored.
variable (verifies : Dir → Bool) (original : Dir) (snapshots : List Dir)

/-- The database at the start, or a complete copy of a snapshot that was verified. -/
def Good (dir : Dir) : Prop :=
  dir = original ∨ ∃ source ∈ snapshots, dir = copyOf source ∧
    validateSnapshotSource (some source) ∧ verifies dir

def Holds (s : Siblings) (name : Name) : Prop :=
  ∃ dir, s name = some dir ∧ Good verifies original snapshots dir

/-- The live directory or its backup is a good database. -/
def Safe (s : Siblings) : Prop :=
  Holds verifies original snapshots s .live ∨ Holds verifies original snapshots s .bak

end Goodness

theorem entry_write (dir : Dir) (name other : String) (held : Entry) :
    (dir.write name held).entry other = if other = name then some held else dir.entry other := by
  unfold Dir.entry Dir.write
  by_cases same : other = name
  · rw [if_pos same, same]
    exact lookup_cons_self
  · have ne : (other == name) = false := beq_eq_false_iff_ne.mpr same
    rw [if_neg same, lookup_cons, ne]
    dsimp only
    induction dir with
    | nil => rfl
    | cons pair dir ih =>
      by_cases dropped : pair.1 = name
      · have gone : (other == pair.1) = false := by
          rw [dropped]
          exact ne
        rw [filter_cons_of_neg (by simpa using dropped), ih, lookup_cons, gone]
      · rw [filter_cons_of_pos (by simpa using dropped), lookup_cons, lookup_cons, ih]

theorem entry_copyFiles (source : Dir) {names : List String} {name : String} {bytes : List UInt8}
    (file : source.entry name = some (.file bytes)) (dir : Dir)
    (there : name ∈ names ∨ dir.entry name = some (.file bytes)) :
    (copyFiles source names dir).entry name = some (.file bytes) := by
  induction names generalizing dir with
  | nil => exact there.resolve_left (not_mem_nil)
  | cons first names ih =>
    rw [copyFiles, foldl_cons]
    refine ih _ ?_
    by_cases same : name = first
    · right
      rw [← same, file]
      dsimp only
      rw [entry_write, if_pos rfl]
    · rcases there with mem | kept
      · left
        exact (mem_cons.mp mem).resolve_left same
      · right
        cases source.entry first with
        | none => exact kept
        | some held =>
          cases held with
          | other => exact kept
          | file other =>
            dsimp only
            rw [entry_write, if_neg same]
            exact kept

theorem validate_copyOf {source : Dir} (valid : validateSnapshotSource (some source)) :
    validateSnapshotSource (some (copyOf source)) := by
  unfold validateSnapshotSource at valid ⊢
  rw [all_eq_true] at valid ⊢
  intro name required
  have there := valid name required
  cases held : source.entry name with
  | none =>
    rw [held] at there
    cases there
  | some entry =>
    cases entry with
    | other =>
      rw [held] at there
      cases there
    | file bytes =>
      rw [held] at there
      rw [copyOf, entry_copyFiles source held [] (.inl (mem_append_left _ required))]
      exact there

section Attempt

variable {fates : Step → Fate} {inv : Siblings → Prop} {s : Siblings}

def SameBut (name : Name) (s s' : Siblings) : Prop := ∀ other ≠ name, s' other = s other

theorem SameBut.refl (name : Name) (s : Siblings) : SameBut name s s := fun _ _ => rfl

variable {name : Name} {s' : Siblings}

theorem SameBut.trans {s'' : Siblings} (first : SameBut name s s') (second : SameBut name s' s'') :
    SameBut name s s'' :=
  fun other ne => (second other ne).trans (first other ne)

theorem sameBut_update (name : Name) (s : Siblings) (dir : Option Dir) :
    SameBut name s (update s name dir) :=
  fun _ ne => update_of_ne ne dir s

theorem removeDirAll_some (ok : removeDirAll name s = some s') : s' = update s name none := by
  unfold removeDirAll at ok
  split at ok
  · exact (Option.some.inj ok).symm
  · cases ok

theorem createDirAll_some (ok : createDirAll name s = some s') :
    SameBut name s s' ∧ s' name = some ((s name).getD []) := by
  unfold createDirAll at ok
  split at ok
  · rename_i dir held
    cases ok
    rw [held]
    exact ⟨SameBut.refl name s, rfl⟩
  · rename_i absent
    cases ok
    rw [absent]
    exact ⟨sameBut_update name s _, update_self ..⟩

theorem rename_some {from_ upto : Name} (ok : rename from_ upto s = some s') :
    ∃ dir, s from_ = some dir ∧
      s' = update (update s upto (some dir)) from_ none := by
  unfold rename at ok
  split at ok
  · rename_i dir held _
    exact ⟨dir, held, (Option.some.inj ok).symm⟩
  · rename_i dir held _
    exact ⟨dir, held, (Option.some.inj ok).symm⟩
  · cases ok

variable {α : Type} {label : Step} {f : Siblings → Option Siblings} {g : Bool → Io Siblings α}
  {last : α → Siblings → Prop}

theorem through_step (taken : ∀ next, fates label = .done → f s = some next →
      inv next ∧ Through inv (g true) next last)
    (refused : fates label ≠ .crash → (fates label = .done → f s = none) →
      Through inv (g false) s last) : Through inv (step fates label f >>= g) s last := by
  have first : Through inv (step fates label f) s fun b s' => Through inv (g b) s' last :=
    through_act taken refused
  exact first.bind fun _ _ => id

theorem through_ignored (name : Name) (only : ∀ s', f s = some s' → SameBut name s s')
    (rest : ∀ b s', SameBut name s s' → inv s' ∧ Through inv (g b) s' last) :
    Through inv (step fates label f >>= g) s last :=
  through_step (fun next _ stepped => rest true next (only next stepped))
    fun _ _ => (rest false s (SameBut.refl name s)).2

theorem removeDirAll_only (s' : Siblings) (ok : removeDirAll name s = some s') :
    SameBut name s s' := by
  rw [removeDirAll_some ok]
  exact sameBut_update name s none

theorem through_sync (sofar : inv s) (done : fates label = .done → Through inv (g true) s last)
    (failed : fates label = .failed → Through inv (g false) s last) :
    Through inv (step fates label fsync >>= g) s last := by
  refine through_step (fun next fate stepped => ?_) fun running refused => ?_
  · cases stepped
    exact ⟨sofar, done fate⟩
  · cases fate : fates label with
    | done => exact absurd (refused fate) nofun
    | failed => exact failed fate
    | crash => exact absurd fate running

variable {dir : Dir}

theorem through_copyFile (name : String) (bytes : List UInt8) (staged : s .stagingCopy = some dir)
    (holds : ∀ s', SameBut .stagingCopy s s' → inv s') :
    Through inv (step fates (.copyFile name) (copyFile (.file bytes) name .stagingCopy)) s
      fun copied s' => SameBut .stagingCopy s s' ∧
        (copied = true → s' .stagingCopy = some (dir.write name (.file bytes))) := by
  refine through_act (fun next _ stepped => ?_) fun _ _ => ⟨SameBut.refl _ s, nofun⟩
  rw [copyFile, staged] at stepped
  cases stepped
  have same := sameBut_update .stagingCopy s (some (dir.write name (.file bytes)))
  exact ⟨holds _ same, same, fun _ => update_self ..⟩

theorem through_copyFile_then (name : String) (bytes : List UInt8) {copy : Dir}
    {others : Io Siblings Bool} (staged : s .stagingCopy = some dir)
    (holds : ∀ s', SameBut .stagingCopy s s' → inv s') (rest : ∀ s', SameBut .stagingCopy s s' →
      s' .stagingCopy = some (dir.write name (.file bytes)) →
      Through inv others s' fun copied s'' => SameBut .stagingCopy s' s'' ∧
        (copied = true → s'' .stagingCopy = some copy)) :
    Through inv
      (do if ← step fates (.copyFile name) (copyFile (.file bytes) name .stagingCopy)
          then others else return false) s
      fun copied s' => SameBut .stagingCopy s s' ∧
        (copied = true → s' .stagingCopy = some copy) := by
  refine (through_copyFile name bytes staged holds).bind ?_
  rintro copied s' ⟨same, written⟩
  cases copied with
  | false => exact through_pure ⟨same, nofun⟩
  | true =>
    refine (rest s' same (written rfl)).mono ?_
    rintro all s'' ⟨later, whole⟩
    exact ⟨same.trans later, whole⟩

variable (source : Dir) (names : List String)

theorem through_copyRequired (staged : s .stagingCopy = some dir)
    (holds : ∀ s', SameBut .stagingCopy s s' → inv s') :
    Through inv (copyRequired fates source names) s fun copied s' =>
      SameBut .stagingCopy s s' ∧
        (copied = true → s' .stagingCopy = some (copyFiles source names dir)) := by
  induction names generalizing s dir with
  | nil => exact through_pure ⟨SameBut.refl _ s, fun _ => staged⟩
  | cons name names ih =>
    rw [copyRequired]
    cases held : source.entry name with
    | none => exact through_pure ⟨SameBut.refl _ s, nofun⟩
    | some entry =>
      cases entry with
      | other => exact through_pure ⟨SameBut.refl _ s, nofun⟩
      | file bytes =>
        have whole : copyFiles source (name :: names) dir =
            copyFiles source names (dir.write name (.file bytes)) := by
          rw [copyFiles, copyFiles, foldl_cons, held]
        rw [whole]
        exact through_copyFile_then name bytes staged holds fun s' same written =>
          ih written fun s'' later => holds s'' (same.trans later)

theorem through_copyOptional (staged : s .stagingCopy = some dir)
    (holds : ∀ s', SameBut .stagingCopy s s' → inv s') :
    Through inv (copyOptional fates source names) s fun copied s' =>
      SameBut .stagingCopy s s' ∧
        (copied = true → s' .stagingCopy = some (copyFiles source names dir)) := by
  induction names generalizing s dir with
  | nil => exact through_pure ⟨SameBut.refl _ s, fun _ => staged⟩
  | cons name names ih =>
    have skip (none_ : copyFiles source (name :: names) dir = copyFiles source names dir) :
        Through inv (copyOptional fates source names) s fun copied s' =>
          SameBut .stagingCopy s s' ∧ (copied = true →
            s' .stagingCopy = some (copyFiles source (name :: names) dir)) := by
      rw [none_]
      exact ih staged holds
    rw [copyOptional]
    cases held : source.entry name with
    | none => exact skip (by rw [copyFiles, copyFiles, foldl_cons, held])
    | some entry =>
      cases entry with
      | other => exact skip (by rw [copyFiles, copyFiles, foldl_cons, held])
      | file bytes =>
        have whole : copyFiles source (name :: names) dir =
            copyFiles source names (dir.write name (.file bytes)) := by
          rw [copyFiles, copyFiles, foldl_cons, held]
        rw [whole]
        exact through_copyFile_then name bytes staged holds fun s' same written =>
          ih written fun s'' later => holds s'' (same.trans later)

theorem through_copyIntoStaging (clear : s .stagingCopy = none)
    (holds : ∀ s', SameBut .stagingCopy s s' → inv s') :
    Through inv (copyIntoStaging fates source) s fun copied s' =>
      SameBut .stagingCopy s s' ∧ (copied = true → s' .stagingCopy = some (copyOf source)) := by
  have created : Through inv (step fates .createStaging (createDirAll .stagingCopy)) s
      fun made s' => SameBut .stagingCopy s s' ∧ (made = true → s' .stagingCopy = some []) := by
    refine through_act (fun next _ stepped => ?_) fun _ _ => ⟨SameBut.refl _ s, nofun⟩
    obtain ⟨same, empty⟩ := createDirAll_some stepped
    rw [clear] at empty
    exact ⟨holds _ same, same, fun _ => empty⟩
  unfold copyIntoStaging
  refine created.bind ?_
  rintro made s₁ ⟨same, empty⟩
  cases made with
  | false => exact through_pure ⟨same, nofun⟩
  | true =>
    refine (through_copyRequired source requiredFiles (empty rfl)
      fun s' later => holds s' (same.trans later)).bind ?_
    rintro required s₂ ⟨later, files⟩
    cases required with
    | false => exact through_pure ⟨same.trans later, nofun⟩
    | true =>
      refine (through_copyOptional source optionalFiles (files rfl)
        fun s' last => holds s' ((same.trans later).trans last)).mono ?_
      rintro all s₃ ⟨last, whole⟩
      refine ⟨(same.trans later).trans last, fun done => ?_⟩
      rw [whole done, copyOf, copyFiles, copyFiles, copyFiles, foldl_append]

variable {d : Dir}

theorem through_replaceDest {copy : Dir} (backup : s .bak = some d)
    (staged : s .stagingCopy = some copy) (holds : ∀ s', s' .bak = some d → inv s') :
    Through inv (replaceDest fates) s fun copied s' =>
      s' .bak = some d ∧ (copied = true → s' .live = some copy) := by
  unfold replaceDest
  refine through_step (fun next _ stepped => ?_) fun _ _ => through_pure ⟨backup, nofun⟩
  obtain ⟨dir, held, rfl⟩ := rename_some stepped
  rw [staged] at held
  cases held
  have kept : (update (update s Name.live (some copy)) Name.stagingCopy none) .bak
      = some d := backup
  refine ⟨holds _ kept, ?_⟩
  rw [if_pos rfl]
  refine through_act (fun last _ done => ?_) fun _ _ => ⟨kept, nofun⟩
  cases done
  exact ⟨holds _ kept, kept, fun _ => rfl⟩

theorem through_stageAndReplace (aside : s .live = none) (backup : s .bak = some d)
    (clear : s .stagingCopy = none) (holds : ∀ s', s' .bak = some d → inv s') :
    Through inv (stageAndReplace fates source) s fun copied s' =>
      s' .bak = some d ∧ (copied = true → s' .live = some (copyOf source)) := by
  have kept : ∀ s', SameBut .stagingCopy s s' → s' .bak = some d :=
    fun s' same => (same .bak (by decide)).trans backup
  unfold stageAndReplace
  refine (through_copyIntoStaging source clear fun s' same => holds s' (kept s' same)).bind ?_
  rintro copied s₁ ⟨same, whole⟩
  cases copied with
  | false =>
    refine through_ignored .stagingCopy removeDirAll_only fun _ s' later => ?_
    have still := kept s' (same.trans later)
    exact ⟨holds s' still, through_pure ⟨still, nofun⟩⟩
  | true =>
    have gone : s₁ .live = none := (same .live (by decide)).trans aside
    refine through_now ?_
    rw [gone]
    exact through_replaceDest (kept s₁ same) (whole rfl) holds

theorem through_copyDbFilesAtomic {source : Dir} (aside : s .live = none) (backup : s .bak = some d)
    (cleared : s .stagingCopy = none ∨ fates .clearStaging ≠ .failed)
    (holds : ∀ s', s' .bak = some d → inv s') :
    Through inv (copyDbFilesAtomic fates (some source)) s fun copied s' =>
      s' .bak = some d ∧ (copied = true → s' .live = some (copyOf source)) := by
  unfold copyDbFilesAtomic
  dsimp only
  split
  · refine through_now ?_
    cases staged : s .stagingCopy with
    | none => exact through_stageAndReplace source aside backup staged holds
    | some stale =>
      refine through_step (fun next _ stepped => ?_) fun running refused => ?_
      · have removed := removeDirAll_some stepped
        have kept : next .bak = some d := by rw [removed]; exact backup
        have gone : next .live = none := by rw [removed]; exact aside
        have clear : next .stagingCopy = none := by rw [removed]; rfl
        exact ⟨holds next kept, through_stageAndReplace source gone kept clear holds⟩
      · -- The removal does not fail: its fate is not a failure, and the directory is there.
        exfalso
        have notFailed := cleared.resolve_left (by rw [staged]; nofun)
        cases fate : fates .clearStaging with
        | done =>
          have absent := refused fate
          rw [removeDirAll, staged] at absent
          cases absent
        | failed => exact notFailed fate
        | crash => exact running fate
  · exact through_pure ⟨backup, nofun⟩

theorem through_reinstateOriginal (backup : s .bak = some d)
    (holds : ∀ s', s' .bak = some d ∨ s' .live = some d → inv s') :
    Through inv (reinstateOriginal fates) s fun back s' => back = true → s' .live = some d := by
  unfold reinstateOriginal
  refine through_step (fun next _ stepped => ?_) fun _ _ => through_pure nofun
  obtain ⟨dir, held, rfl⟩ := rename_some stepped
  rw [backup] at held
  cases held
  have live : (update (update s Name.live (some d)) Name.bak none) .live = some d := rfl
  generalize update (update s Name.live (some d)) Name.bak none = s₁ at live
  have sofar := holds s₁ (.inr live)
  refine ⟨sofar, ?_⟩
  have drop : Through inv (do
      let _ ← step fates .dropFailed (removeDirAll .failed)
      return true) s₁ fun back s' => back = true → s' .live = some d := by
    refine through_ignored .failed removeDirAll_only fun _ s' same => ?_
    have still : s' .live = some d := (same .live (by decide)).trans live
    exact ⟨holds s' (.inr still), through_pure fun _ => still⟩
  exact through_sync sofar (fun _ => drop) fun _ => drop

theorem through_rollbackDbFiles (backup : s .bak = some d)
    (holds : ∀ s', s' .bak = some d ∨ s' .live = some d → inv s') :
    Through inv (rollbackDbFiles fates true) s fun back s' => back = true → s' .live = some d := by
  unfold rollbackDbFiles
  refine through_ignored .failed removeDirAll_only fun _ s₁ same => ?_
  have kept : s₁ .bak = some d := (same .bak (by decide)).trans backup
  refine ⟨holds s₁ (.inl kept), through_now ?_⟩
  split
  · refine through_step (fun next _ stepped => ?_) fun _ _ => through_pure nofun
    obtain ⟨dir, held, rfl⟩ := rename_some stepped
    have still : (update (update s₁ Name.failed (some dir)) Name.live none) .bak = some d := kept
    exact ⟨holds _ (.inl still), through_reinstateOriginal still holds⟩
  · exact through_reinstateOriginal kept holds

theorem through_finishWithRollback (backup : s .bak = some d) (cause : RestoreError)
    (holds : ∀ s', s' .bak = some d ∨ s' .live = some d → inv s') :
    Through inv (finishWithRollback fates true cause) s fun r s' =>
      ∀ e, r = .error e → e ≠ .rollbackFailed → s' .live = some d := by
  unfold finishWithRollback
  refine (through_rollbackDbFiles backup holds).bind ?_
  intro back s' reinstated
  cases back with
  | false =>
    refine through_pure ?_
    rintro e same ne
    cases same
    exact absurd rfl ne
  | true => exact through_pure fun _ _ _ => reinstated rfl

theorem through_validation (verifies : Dir → Bool) (sofar : inv s) :
    Through inv (validation fates verifies) s fun sound s' =>
      s' = s ∧ (sound = true → (s .live).any verifies = true) := by
  unfold validation
  refine through_now (through_act (fun next _ stepped => ?_) fun _ _ => ⟨rfl, nofun⟩)
  by_cases sound : (s .live).any verifies = true
  · rw [if_pos sound] at stepped
    cases stepped
    exact ⟨sofar, rfl, fun _ => sound⟩
  · rw [if_neg sound] at stepped
    cases stepped

section Restoring

variable {verifies : Dir → Bool} {original : Dir} {snapshots : List Dir}

theorem through_replaceLive {source d : Dir} (valid : validateSnapshotSource (some source))
    (among : source ∈ snapshots) (good : Good verifies original snapshots d)
    (aside : s .live = none) (backup : s .bak = some d)
    (cleared : s .stagingCopy = none ∨ fates .clearStaging ≠ .failed) :
    Through (Safe verifies original snapshots) (replaceLive fates verifies (some source) true) s
      fun r s' => ∀ e, r = .error e → e ≠ .rollbackFailed → s' .live = some d := by
  have holdsBak : ∀ s', s' .bak = some d → Safe verifies original snapshots s' :=
    fun s' held => .inr ⟨d, held, good⟩
  have holds : ∀ s', s' .bak = some d ∨ s' .live = some d → Safe verifies original snapshots s' :=
    fun s' held => held.elim (holdsBak s') fun live => .inl ⟨d, live, good⟩
  unfold replaceLive
  refine (through_copyDbFilesAtomic aside backup cleared holdsBak).bind ?_
  rintro copied s₁ ⟨kept, copy⟩
  cases copied with
  | false => exact through_finishWithRollback kept .copyFailed holds
  | true =>
    refine through_sync (holdsBak s₁ kept) (fun _ => ?_)
      fun _ => through_finishWithRollback kept .copyFailed holds
    rw [if_pos rfl]
    refine (through_validation verifies (holdsBak s₁ kept)).bind ?_
    rintro sound s₂ ⟨rfl, verified⟩
    cases sound with
    | false => exact through_finishWithRollback kept .validationFailed holds
    | true =>
      have live := copy rfl
      have sound := verified rfl
      rw [live, Option.any_some] at sound
      have committed : ∀ s', s' .live = s₂ .live → Safe verifies original snapshots s' :=
        fun s' same => .inl ⟨copyOf source, same.trans live, .inr ⟨source, among, rfl, valid, sound⟩⟩
      refine through_ignored .bak removeDirAll_only fun _ s₃ same => ?_
      have still := committed s₃ (same .live (by decide))
      exact ⟨still, through_sync still (fun _ => through_pure nofun) fun _ => through_pure nofun⟩

/-- What an attempt needs. The live directory is good unless there is no backup; a leftover staging
directory can be cleared; and what was set aside can be put back where that was not made durable. -/
structure Attemptable (verifies : Dir → Bool) (original : Dir) (snapshots : List Dir)
    (fates : Step → Fate) (s : Siblings) : Prop where
  live : s .bak = none ∨ Holds verifies original snapshots s .live
  staging : s .stagingCopy = none ∨ fates .clearStaging ≠ .failed
  putBack : fates .syncAside = .failed → fates .putBack ≠ .failed

/-- An attempt keeps a good database at every moment, and a failed one leaves the live directory
as it was. -/
theorem through_restore {snapshot : Option Dir} (safe : Safe verifies original snapshots s)
    (attemptable : Attemptable verifies original snapshots fates s)
    (among : ∀ source, snapshot = some source → source ∈ snapshots) :
    Through (Safe verifies original snapshots) (restoreDbFilesAtomic fates verifies snapshot) s
      fun r s' => ∀ e, r = .error e → e ≠ .rollbackFailed → s' .live = s .live := by
  have live : Holds verifies original snapshots s .live := by
    rcases attemptable.live with none_ | live
    · rcases safe with live | ⟨dir, held, _⟩
      · exact live
      · rw [none_] at held
        cases held
    · exact live
  obtain ⟨d, held, good⟩ := live
  unfold restoreDbFilesAtomic
  by_cases valid : validateSnapshotSource snapshot = true
  · rw [if_pos valid]
    cases snapshot with
    | none => cases valid
    | some source =>
      -- From a state without a backup on.
      have onward : ∀ s', s' .live = s .live → s' .bak = none →
          s' .stagingCopy = s .stagingCopy → Through (Safe verifies original snapshots)
            (setAsideAndReplace fates verifies (some source)) s'
            fun r s'' => ∀ e, r = .error e → e ≠ .rollbackFailed → s'' .live = s .live := by
        intro s₁ sameLive clear sameStaging
        rw [held] at sameLive
        unfold setAsideAndReplace
        refine through_now ?_
        rw [sameLive, held]
        refine through_step (fun next _ stepped => ?_) fun _ _ => through_pure fun _ _ _ => sameLive
        obtain ⟨dir, aside, rfl⟩ := rename_some stepped
        rw [sameLive] at aside
        cases aside
        have backup : (update (update s₁ Name.bak (some d)) Name.live none) .bak = some d := rfl
        have gone : (update (update s₁ Name.bak (some d)) Name.live none) .live = none := rfl
        have staging : (update (update s₁ Name.bak (some d)) Name.live none)
            .stagingCopy = s .stagingCopy := sameStaging
        generalize update (update s₁ Name.bak (some d)) Name.live none = s₂
          at backup gone staging
        have safe₂ : Safe verifies original snapshots s₂ := .inr ⟨d, backup, good⟩
        have cleared := attemptable.staging
        rw [← staging] at cleared
        refine ⟨safe₂, through_sync safe₂
          (fun _ => through_replaceLive valid (among source rfl) good gone backup cleared) ?_⟩
        intro failed
        refine through_step (fun next _ stepped => ?_) fun running refused => ?_
        · obtain ⟨dir, back, rfl⟩ := rename_some stepped
          rw [backup] at back
          cases back
          exact ⟨.inl ⟨d, rfl, good⟩, through_pure fun _ _ _ => rfl⟩
        · -- The backup was just made and nothing is in its way, so it can be put back.
          exfalso
          cases fate : fates .putBack with
          | done =>
            have absent := refused fate
            rw [rename, backup, gone] at absent
            cases absent
          | failed => exact attemptable.putBack failed fate
          | crash => exact running fate
      refine through_now ?_
      cases backup : s .bak with
      | none => exact onward s rfl backup rfl
      | some old =>
        refine through_step (fun next _ stepped => ?_) fun _ _ => through_pure fun _ _ _ => rfl
        have removed := removeDirAll_some stepped
        have sameLive : next .live = s .live := by rw [removed]; rfl
        refine ⟨.inl ⟨d, sameLive.trans held, good⟩, onward next sameLive ?_ ?_⟩
        · rw [removed]
          rfl
        · rw [removed]
          rfl
  · rw [if_neg valid]
    exact through_pure fun _ _ _ => rfl

/-- What the next start needs: a live directory that looks complete next to a backup is good. -/
def Reconcilable (verifies : Dir → Bool) (original : Dir) (snapshots : List Dir) (s : Siblings) :
    Prop :=
  s .bak = none ∨ validateSnapshotSource (s .live) = false ∨ Holds verifies original snapshots s .live

theorem Good.valid {d : Dir} (complete : validateSnapshotSource (some original) = true)
    (good : Good verifies original snapshots d) : validateSnapshotSource (some d) = true := by
  rcases good with rfl | ⟨source, _, rfl, valid, _⟩
  · exact complete
  · exact validate_copyOf valid

theorem Safe.congr {s' : Siblings} (safe : Safe verifies original snapshots s)
    (live : s' .live = s .live) (bak : s' .bak = s .bak) : Safe verifies original snapshots s' := by
  rcases safe with ⟨d, held, good⟩ | ⟨d, held, good⟩
  · exact .inl ⟨d, live.trans held, good⟩
  · exact .inr ⟨d, bak.trans held, good⟩

theorem Reconcilable.congr {s' : Siblings} (ready : Reconcilable verifies original snapshots s)
    (live : s' .live = s .live) (bak : s' .bak = s .bak) :
    Reconcilable verifies original snapshots s' := by
  rcases ready with none_ | incomplete | ⟨d, held, good⟩
  · exact .inl (bak.trans none_)
  · rw [← live] at incomplete
    exact .inr (.inl incomplete)
  · exact .inr (.inr ⟨d, live.trans held, good⟩)

theorem through_reinstateBak {d : Dir} (backup : s .bak = some d)
    (good : Good verifies original snapshots d) :
    Through (Safe verifies original snapshots) (reinstateBak fates) s
      fun r s' => r.isSome → Holds verifies original snapshots s' .live := by
  unfold reinstateBak
  refine through_step (fun next _ stepped => ?_) fun _ _ => through_pure nofun
  obtain ⟨dir, held, rfl⟩ := rename_some stepped
  rw [backup] at held
  cases held
  have live : Holds verifies original snapshots
      (update (update s Name.live (some d)) Name.bak none) .live := ⟨d, rfl, good⟩
  exact ⟨.inl live, through_sync (.inl live) (fun _ => through_pure fun _ => live)
    fun _ => through_pure nofun⟩

theorem through_reconcileBak (complete : validateSnapshotSource (some original) = true)
    (safe : Safe verifies original snapshots s)
    (ready : Reconcilable verifies original snapshots s) :
    Through (Safe verifies original snapshots) (reconcileBak fates) s
      fun r s' => r.isSome → Holds verifies original snapshots s' .live := by
  unfold reconcileBak
  refine through_now ?_
  cases backup : s .bak with
  | none =>
    refine through_pure fun _ => ?_
    rcases safe with live | ⟨d, held, _⟩
    · exact live
    · rw [backup] at held
      cases held
  | some d =>
    rw [Option.isSome_some, if_pos rfl]
    cases valid : validateSnapshotSource (s .live) with
    | true =>
      have live : Holds verifies original snapshots s .live := by
        rcases ready with none_ | incomplete | live
        · rw [backup] at none_
          cases none_
        · rw [valid] at incomplete
          cases incomplete
        · exact live
      rw [if_pos rfl]
      refine through_step (fun next _ stepped => ?_) fun _ _ => through_pure nofun
      rw [removeDirAll_some stepped]
      have kept : Holds verifies original snapshots (update s Name.bak none) .live := live
      exact ⟨.inl kept, through_sync (.inl kept) (fun _ => through_pure fun _ => kept)
        fun _ => through_pure nofun⟩
    | false =>
      have good : Good verifies original snapshots d := by
        rcases safe with ⟨other, held, good⟩ | ⟨other, held, good⟩
        · rw [held, good.valid complete] at valid
          cases valid
        · rw [backup] at held
          cases held
          exact good
      have onward : ∀ s', s' .bak = some d → Safe verifies original snapshots s' :=
        fun s' held => .inr ⟨d, held, good⟩
      rw [if_neg Bool.false_ne_true]
      split
      · refine through_ignored .partial_ removeDirAll_only fun _ s₁ same => ?_
        have kept : s₁ .bak = some d := (same .bak (by decide)).trans backup
        refine ⟨onward s₁ kept, through_step (fun next _ stepped => ?_)
          fun _ _ => through_pure nofun⟩
        obtain ⟨dir, held, rfl⟩ := rename_some stepped
        have still : (update (update s₁ Name.partial_ (some dir)) Name.live
            none) .bak = some d := kept
        refine ⟨onward _ still, through_ignored .partial_ removeDirAll_only fun _ s₃ later => ?_⟩
        have last : s₃ .bak = some d := (later .bak (by decide)).trans still
        exact ⟨onward s₃ last, through_reinstateBak last good⟩
      · exact through_reinstateBak backup good

theorem through_removeIfThere (label : Step) {name : Name}
    (holds : ∀ s', SameBut name s s' → inv s') :
    Through inv (removeIfThere fates label name) s fun _ s' => SameBut name s s' := by
  unfold removeIfThere
  refine through_now ?_
  split
  · refine through_act (fun next _ stepped => ?_) fun _ _ => SameBut.refl name s
    have same := removeDirAll_only next stepped
    exact ⟨holds next same, same⟩
  · exact through_pure (SameBut.refl name s)

/-- The next start keeps a good database at every moment, and ends with one in the live
directory if it does not fail. -/
theorem through_reconcile (complete : validateSnapshotSource (some original) = true)
    (safe : Safe verifies original snapshots s)
    (ready : Reconcilable verifies original snapshots s) :
    Through (Safe verifies original snapshots) (reconcileRestoreArtifacts fates) s
      fun r s' => r.isSome → Holds verifies original snapshots s' .live := by
  unfold reconcileRestoreArtifacts
  have first := fun s' (same : SameBut .stagingCopy s s') =>
    safe.congr (same .live (by decide)) (same .bak (by decide))
  refine (through_removeIfThere .dropStaging first).bind ?_
  intro dropped s₁ same
  cases dropped with
  | false => exact through_pure nofun
  | true =>
    have safe₁ := first s₁ same
    have ready₁ := ready.congr (same .live (by decide)) (same .bak (by decide))
    have second := fun s' (later : SameBut .failed s₁ s') =>
      safe₁.congr (later .live (by decide)) (later .bak (by decide))
    refine (through_removeIfThere .dropOldFailed second).bind ?_
    intro dropped s₂ later
    cases dropped with
    | false => exact through_pure nofun
    | true =>
      exact through_reconcileBak complete (second s₂ later)
        (ready₁.congr (later .live (by decide)) (later .bak (by decide)))

end Restoring

end Attempt

end ErmyaGraph.Backup
