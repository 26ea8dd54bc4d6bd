import ErmyaGraph.Bolt.PackStream
import ErmyaGraph.Gql.Aggregate

/-! # Result cursors

The rows of a statement wait with the session until the client has fetched them or thrown them
away, some at a time. They come from the executor as hash maps, and the statement decides in which
order their columns are sent. -/

namespace ErmyaGraph.Bolt

namespace Results

open Gql PackStream List

/-- A row, in the order in which its hash map lists it. -/
abbrev ResultRow := List (String × GqlValue)

def keys (row : ResultRow) : List String := row.map Prod.fst

/-- What a session holds of a result; the statistics are of any kind. -/
structure PendingResult (Stats : Type) where
  fields : List String
  rows : List (List Value)
  cursor : Nat := 0
  stats : Option Stats := none

variable {Stats : Type}

/-- A statement, by the items that it returns. A merge returns one variable at most. -/
inductive Statement where
  | query (items : List ReturnItem)
  | constReturn (items : List ReturnItem)
  | mutation (items : Option (List ReturnItem))
  | pipeline (items : Option (List ReturnItem))

section Pending

variable (exprSurfaceName : Expr → String) (toPackStream : Option GqlValue → Value)

def returnItemsColumns (items : List ReturnItem) : List String :=
  items.map fun item => item.columnAlias.getD (exprSurfaceName item.expr)

/-- Names that no column has yet, each once. -/
def extraColumns : (seen : List String) → List String → List String
  | _, [] => []
  | seen, key :: rest =>
    if key ∈ seen then extraColumns seen rest else key :: extraColumns (key :: seen) rest

/-- The columns that are asked for come first, then all others by their names. -/
def gqlResultToPendingWithColumns (rows : List ResultRow) (preferred : List String) :
    PendingResult Stats :=
  if rows.isEmpty && preferred.isEmpty then ⟨[], [], 0, none⟩
  else
    let columns := preferred ++ (extraColumns preferred (rows.flatMap keys)).mergeSort (· ≤ ·)
    ⟨columns, rows.map fun row => columns.map fun column => toPackStream (row.lookup column), 0,
      none⟩

/-- What waits for the client once a statement has run. -/
def handleRun (stmt : Statement) (rows : List ResultRow) (stats : Stats) :
    PendingResult Stats :=
  match stmt with
  | .query items | .constReturn items =>
    gqlResultToPendingWithColumns toPackStream rows (returnItemsColumns exprSurfaceName items)
  | .mutation _ =>
    match rows with
    | [] => ⟨[], [], 0, some stats⟩
    | first :: _ =>
      let pending := @gqlResultToPendingWithColumns Stats toPackStream rows (keys first)
      { pending with stats := some stats }
  | .pipeline items =>
    match rows with
    | [] => ⟨[], [], 0, some stats⟩
    | _ :: _ =>
      gqlResultToPendingWithColumns toPackStream rows
        (items.elim [] (returnItemsColumns exprSurfaceName))

end Pending

def readN (extra : List (String × Value)) : Int :=
  match extra.lookup "n" with
  | some (.int n) => n.toInt
  | _ => -1

inductive Request where
  | pull (extra : List (String × Value))
  | discard (extra : List (String × Value))

def Request.extra : Request → List (String × Value)
  | .pull extra | .discard extra => extra

structure Response (Stats : Type) where
  records : List (List Value) := []
  hasMore : Bool := false
  stats : Option Stats := none

/-- How many of the rows that remain a request is about. -/
def amount (n : Int) (remaining : Nat) : Nat := if n < 0 then remaining else min n.toNat remaining

/-- A request moves the cursor; a result without rows left is gone. -/
def advance (pending : PendingResult Stats) (n : Int) : PendingResult Stats × Bool :=
  let next := pending.cursor + amount n (pending.rows.length - pending.cursor)
  ({ pending with cursor := next }, decide (next < pending.rows.length))

def handlePull (extra : List (String × Value)) : Option (PendingResult Stats) →
    Response Stats × Option (PendingResult Stats)
  | none => ({}, none)
  | some pending =>
    let (moved, hasMore) := advance pending (readN extra)
    let records := (pending.rows.drop pending.cursor).take (moved.cursor - pending.cursor)
    if hasMore then (⟨records, true, none⟩, some moved)
    else (⟨records, false, moved.stats⟩, none)

def handleDiscard (extra : List (String × Value)) : Option (PendingResult Stats) →
    Response Stats × Option (PendingResult Stats)
  | none => ({}, none)
  | some pending =>
    let (moved, hasMore) := advance pending (readN extra)
    if hasMore then (⟨[], true, none⟩, some moved)
    else (⟨[], false, moved.stats⟩, none)

def handle : Request → Option (PendingResult Stats) → Response Stats × Option (PendingResult Stats)
  | .pull extra => handlePull extra
  | .discard extra => handleDiscard extra

def run : Option (PendingResult Stats) → List Request → List (Response Stats)
  | _, [] => []
  | pending, request :: rest =>
    (handle request pending).1 :: run (handle request pending).2 rest

/-- Rows are handed out from the front, those of a discard unseen; the response behind which none
remain carries the statistics. -/
def Served : List (List Value) → Option Stats → List Request → List (Response Stats) → Prop
  | _, _, [], [] => True
  | rows, stats, request :: requests, response :: responses =>
    ∃ part rest, rows = part ++ rest ∧ part.length = amount (readN request.extra) rows.length ∧
      response.records = (match request with | .pull _ => part | .discard _ => []) ∧
      response.hasMore = !rest.isEmpty ∧
      response.stats = (if rest.isEmpty then stats else none) ∧
      Served rest (if rest.isEmpty then none else stats) requests responses
  | _, _, _, _ => False

theorem length_amount (n : Int) (remaining : Nat) : amount n remaining ≤ remaining := by
  unfold amount
  split
  · exact le_rfl
  · exact min_le_right ..

variable (requests : List Request)

theorem served_gone : Served [] (none : Option Stats) requests (run none requests) := by
  induction requests with
  | nil => trivial
  | cons request rest ih =>
    refine ⟨[], [], rfl, ?_, ?_, ?_, ?_, ?_⟩
    · exact (Nat.le_zero.mp (length_amount (readN request.extra) 0)).symm
    all_goals cases request <;> first | rfl | exact ih

theorem handle_some (request : Request) (pending : PendingResult Stats) :
    ∃ part rest, pending.rows.drop pending.cursor = part ++ rest ∧
      part.length = amount (readN request.extra) (pending.rows.drop pending.cursor).length ∧
      handle request (some pending) =
        (⟨match request with | .pull _ => part | .discard _ => [], !rest.isEmpty,
          if rest.isEmpty then pending.stats else none⟩,
        if rest.isEmpty then none
        else some { pending with cursor := pending.cursor + part.length }) ∧
      rest = pending.rows.drop (pending.cursor + part.length) := by
  have taken := length_amount (readN request.extra) (pending.rows.length - pending.cursor)
  generalize isAmount : amount (readN request.extra) (pending.rows.length - pending.cursor) = count
    at taken
  have length : ((pending.rows.drop pending.cursor).take count).length = count := by
    rw [length_take, length_drop, Nat.min_eq_left taken]
  have left : (pending.rows.drop (pending.cursor + count)).isEmpty =
      !decide (pending.cursor + count < pending.rows.length) := by
    rw [Bool.eq_iff_iff]
    simp
  refine ⟨(pending.rows.drop pending.cursor).take count,
    pending.rows.drop (pending.cursor + count), ?_, ?_, ?_, ?_⟩
  · rw [← drop_drop, take_append_drop]
  · rw [length, length_drop, isAmount]
  · have moved : advance pending (readN request.extra) =
        ({ pending with cursor := pending.cursor + count },
          decide (pending.cursor + count < pending.rows.length)) := by
      rw [advance, isAmount]
    rw [length, left]
    by_cases more : pending.cursor + count < pending.rows.length
    · cases request <;>
        simp only [Request.extra] at moved <;>
        simp [handle, handlePull, handleDiscard, moved, more]
    · cases request <;>
        simp only [Request.extra] at moved <;>
        simp [handle, handlePull, handleDiscard, moved, more]
  · rw [length]

theorem run_served (pending : PendingResult Stats) (within : pending.cursor ≤ pending.rows.length) :
    Served (pending.rows.drop pending.cursor) pending.stats requests
      (run (some pending) requests) := by
  induction requests generalizing pending with
  | nil => trivial
  | cons request requests ih =>
    obtain ⟨part, rest, split, length, handled, isRest⟩ := handle_some request pending
    rw [run, handled]
    refine ⟨part, rest, split, length, rfl, rfl, rfl, ?_⟩
    cases rest with
    | nil => exact served_gone requests
    | cons row rest =>
      have inside : pending.cursor + part.length ≤ pending.rows.length := by
        have total := congrArg List.length split
        rw [length_drop, length_append] at total
        omega
      have later := ih { pending with cursor := pending.cursor + part.length } inside
      rw [← isRest] at later
      exact later

namespace Statement

def items : Statement → Option (List ReturnItem)
  | .query items | .constReturn items => some items
  | .mutation items | .pipeline items => items

def producesStats : Statement → Bool
  | .mutation _ | .pipeline none => true
  | _ => false

section Columns

variable (exprSurfaceName : Expr → String) (toPackStream : Option GqlValue → Value)

/-- The names of the columns, in the order of the statement. -/
def columns (stmt : Statement) : List String :=
  stmt.items.elim [] (returnItemsColumns exprSurfaceName)

/-- What the parser and the executor hand over: an item at least where anything is returned, and
rows with exactly the columns of the items. -/
structure Executed (stmt : Statement) (rows : List ResultRow) : Prop where
  named : ∀ items ∈ stmt.items, items ≠ []
  silent : stmt.items = none → rows = []
  keys_iff : ∀ row ∈ rows, ∀ key, key ∈ keys row ↔ key ∈ stmt.columns exprSurfaceName

/-- The fields and the records follow the statement, and requests are served from its rows. -/
structure Delivers (stmt : Statement) (rows : List ResultRow) (stats : Stats)
    (pending : PendingResult Stats) : Prop where
  fields : pending.fields = stmt.columns exprSurfaceName
  served : ∀ requests, Served
    (rows.map fun row =>
      (stmt.columns exprSurfaceName).map fun column => toPackStream (row.lookup column))
    (if stmt.producesStats then some stats else none) requests (run (some pending) requests)

/-- The first row of a mutation lists its columns like the statement, and a pipeline that returns
rows has some. -/
def InOrder (stmt : Statement) (rows : List ResultRow) : Prop :=
  match stmt with
  | .mutation (some items) => rows.head?.map keys = some (returnItemsColumns exprSurfaceName items)
  | .pipeline (some _) => rows ≠ []
  | _ => True

end Columns

theorem extraColumns_eq_nil {seen others : List String} (known : ∀ key ∈ others, key ∈ seen) :
    extraColumns seen others = [] := by
  induction others with
  | nil => rfl
  | cons key rest ih =>
    rw [extraColumns, if_pos (known key mem_cons_self)]
    exact ih fun other mem => known other (mem_cons_of_mem _ mem)

variable {exprSurfaceName : Expr → String} {toPackStream : Option GqlValue → Value}
  {stats : Stats} {rows : List ResultRow} {stmt : Statement}

theorem gqlResultToPendingWithColumns_eq {columns : List String}
    (covered : ∀ row ∈ rows, ∀ key ∈ keys row, key ∈ columns) :
    gqlResultToPendingWithColumns toPackStream rows columns =
      (⟨columns, rows.map fun row => columns.map fun column => toPackStream (row.lookup column), 0,
        none⟩ : PendingResult Stats) := by
  have nothing_else : extraColumns columns (rows.flatMap keys) = [] :=
    extraColumns_eq_nil fun key mem => by
      obtain ⟨row, isRow, isKey⟩ := mem_flatMap.mp mem
      exact covered row isRow key isKey
  rw [gqlResultToPendingWithColumns, nothing_else]
  cases rows <;> cases columns <;> simp

variable {pending : PendingResult Stats}

theorem delivers_of_eq (same : pending = ⟨stmt.columns exprSurfaceName, rows.map fun row =>
        (stmt.columns exprSurfaceName).map fun column => toPackStream (row.lookup column), 0,
      if stmt.producesStats then some stats else none⟩) :
    stmt.Delivers exprSurfaceName toPackStream rows stats pending := by
  subst same
  exact ⟨rfl, fun requests => run_served requests ⟨_, _, 0, _⟩ (Nat.zero_le _)⟩

theorem not_delivers_nil {items : List ReturnItem} (executed : stmt.Executed exprSurfaceName rows)
    (returning : stmt.items = some items) (empty : pending.fields = []) :
    ¬ stmt.Delivers exprSurfaceName toPackStream rows stats pending := by
  intro delivers
  have fields := delivers.fields
  rw [empty, columns, returning] at fields
  exact executed.named items returning (map_eq_nil_iff.mp fields.symm)

/-- **When a cursor delivers its result.** The rows come once and in order, and the statistics once
behind the last; the columns are those of the statement, except where a mutation takes them from the
hash map of its first row or nothing is there to take them from. -/
theorem rowsDelivered_iff (executed : stmt.Executed exprSurfaceName rows) :
    stmt.Delivers exprSurfaceName toPackStream rows stats
        (handleRun exprSurfaceName toPackStream stmt rows stats) ↔
      stmt.InOrder exprSurfaceName rows := by
  have covered : ∀ row ∈ rows, ∀ key ∈ keys row, key ∈ stmt.columns exprSurfaceName :=
    fun row member key => (executed.keys_iff row member key).mp
  have asked := @gqlResultToPendingWithColumns_eq Stats toPackStream rows _ covered
  cases stmt with
  | query items => exact iff_of_true (delivers_of_eq asked) trivial
  | constReturn items => exact iff_of_true (delivers_of_eq asked) trivial
  | mutation items =>
    cases items with
    | none =>
      obtain rfl := executed.silent rfl
      exact iff_of_true (delivers_of_eq rfl) trivial
    | some items =>
      cases rows with
      | nil => exact iff_of_false (not_delivers_nil executed rfl rfl) nofun
      | cons first rest =>
        constructor
        · intro delivers
          have fields : (@gqlResultToPendingWithColumns Stats toPackStream (first :: rest)
            (keys first)).fields = _ := delivers.fields
          rw [gqlResultToPendingWithColumns_eq fun row member key isKey =>
            (executed.keys_iff first mem_cons_self key).mpr (covered row member key isKey)]
            at fields
          exact congrArg some fields
        · intro inOrder
          have same : keys first = returnItemsColumns exprSurfaceName items :=
            Option.some.inj inOrder
          refine delivers_of_eq ?_
          rw [handleRun, same]
          exact congrArg (fun pending : PendingResult Stats =>
            { pending with stats := some stats }) asked
  | pipeline items =>
    cases items with
    | none =>
      obtain rfl := executed.silent rfl
      exact iff_of_true (delivers_of_eq rfl) trivial
    | some items =>
      cases rows with
      | nil =>
        exact iff_of_false (not_delivers_nil executed rfl rfl) fun some_row => some_row rfl
      | cons first rest => exact iff_of_true (delivers_of_eq asked) nofun

section Examples

def surface : Expr → String
  | .var name => name
  | _ => ""

def wire : Option GqlValue → Value
  | some (.map []) => .dict []
  | _ => .null

def setTwo : Statement := .mutation (some [{ expr := .var "a" }, { expr := .var "b" }])

theorem rowsDelivered_iff_setTwo :
    setTwo.Delivers surface wire [[("a", .map []), ("b", .map [])]] ()
    (handleRun surface wire setTwo [[("a", .map []), ("b", .map [])]] ()) := by
  refine (rowsDelivered_iff ⟨?_, (by simp [setTwo, Statement.items]), ?_⟩).mpr rfl
  · intro items isItems
    exact Option.some.inj isItems ▸ cons_ne_nil _ _
  · intro row member key
    obtain rfl := mem_singleton.mp member
    rfl

theorem columns_turned : ¬ setTwo.Delivers surface wire [[("b", .map []), ("a", .map [])]] ()
    (handleRun surface wire setTwo [[("b", .map []), ("a", .map [])]] ()) := by
  intro delivers
  have fields : (@gqlResultToPendingWithColumns Unit wire [[("b", .map []), ("a", .map [])]]
    ["b", "a"]).fields = ["a", "b"] := delivers.fields
  rw [gqlResultToPendingWithColumns_eq fun row member key isKey => by
    obtain rfl := mem_singleton.mp member
    exact isKey] at fields
  exact absurd fields (by decide)

end Examples

end Statement

end Results

end ErmyaGraph.Bolt
