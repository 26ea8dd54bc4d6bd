import ErmyaGraph.Gql.Parser

/-! # Which parser a statement goes to

A statement is offered to the parsers of calls, of the schema and of the
administration before the one of queries. Each of them recognises its statements
by how they begin. -/

namespace ErmyaGraph.Bolt

open Gql

def isWhitespace (c : Char) : Bool :=
  c.val ∈ [0x9, 0xA, 0xB, 0xC, 0xD, 0x20, 0x85, 0xA0, 0x1680, 0x2028, 0x2029, 0x202F, 0x205F,
    0x3000] || (0x2000 ≤ c.val && c.val ≤ 0x200A)

def trimStart (text : List Char) : List Char := text.dropWhile isWhitespace

def trimEndMatches (drop : Char → Bool) (text : List Char) : List Char :=
  (text.reverse.dropWhile drop).reverse

def trim (text : List Char) : List Char := trimEndMatches isWhitespace (trimStart text)

def trimStatement (input : List Char) : List Char := trim (trimEndMatches (· = ';') input)

def toAsciiUppercase (text : List Char) : List Char := text.map Char.toUpper

def startsWith (text : List Char) (words : String) : Bool := words.toList.isPrefixOf text

def isExactly (text : List Char) (words : String) : Bool := text = words.toList

inductive ProcedureKind where
  | vertexLabels
  | edgeTypes
  | snapshot
  | restore
deriving DecidableEq, Repr

inductive PipelineTerminal where
  | ret
  | set
  | create
  | delete
deriving DecidableEq, Repr

inductive DdlStatement where
  | createIndexLegacy (label prop : String)
  | createIndexFor (label prop : String)
  | dropIndex (label prop : String)
  | createUniqueConstraint (label prop : String)
  | dropConstraint (label prop : String)
  | showIndexInfo
  | showConstraintInfo
  | setLabelAppendOnly (label : String) (on : Bool)
  | showAppendOnlyInfo
deriving DecidableEq, Repr

/-- What a session distinguishes about a statement. -/
inductive Statement where
  | query
  | mutation
  | pipeline (terminal : PipelineTerminal)
  | constReturn
  | admin
  | ddl (stmt : DdlStatement)
  | call (kind : Option ProcedureKind)
deriving DecidableEq, Repr

/-- The parsers of single statements. The one of queries is told whether to translate first. -/
structure Grammars where
  parseCallBody : List Char → Except ParseError (Option ProcedureKind)
  parseCreateIndexLegacy : List Char → Except ParseError DdlStatement
  parseCreateIndexFor : List Char → Except ParseError DdlStatement
  parseDropIndex : List Char → Except ParseError DdlStatement
  parseCreateConstraint : List Char → Except ParseError DdlStatement
  parseDropConstraint : List Char → Except ParseError DdlStatement
  parseAlterLabel : List Char → Except ParseError DdlStatement
  parseCreateUser : List Char → Except ParseError Unit
  parseDropUser : List Char → Except ParseError Unit
  parseAlterUser : List Char → Except ParseError Unit
  parseCreateDatabase : List Char → Except ParseError Unit
  parseDropDatabase : List Char → Except ParseError Unit
  parseGrant : List Char → Except ParseError Unit
  parseRevoke : List Char → Except ParseError Unit
  parseShowGrants : List Char → Except ParseError Unit
  parseGql : List Char → Except ParseError Statement
  parseStrict : List Char → Except ParseError Statement
  parseCypher : List Char → Except ParseError Statement

inductive QueryLanguage where
  | gql
  | cypherCompat
  | strictGql
deriving DecidableEq, Repr

/-- These parsers see one trimmed statement, and report no position in it. -/
def syntaxErr {α : Type} (message : String) : Except ParseError α :=
  .error (.gqlSyntaxError 1 1 message)

/-- Parsers that know a few plain statements. -/
def sampleGrammars : Grammars :=
  let unknown {α : Type} (_ : List Char) : Except ParseError α := syntaxErr "Unexpected statement"
  let parse (text : List Char) : Except ParseError Statement :=
    if startsWith text "CREATE " then .ok .mutation else .ok .query
  { parseCallBody := unknown
    parseCreateIndexLegacy := unknown
    parseCreateIndexFor := unknown
    parseDropIndex := unknown
    parseCreateConstraint := unknown
    parseDropConstraint := unknown
    parseAlterLabel := fun _ => .ok (.setLabelAppendOnly "Person" true)
    parseCreateUser := unknown
    parseDropUser := unknown
    parseAlterUser := unknown
    parseCreateDatabase := unknown
    parseDropDatabase := unknown
    parseGrant := unknown
    parseRevoke := unknown
    parseShowGrants := unknown
    parseGql := parse
    parseStrict := parse
    parseCypher := parse }

section Parsers

variable (grammars : Grammars) (input : List Char)

def tryParseCall : Except ParseError (Option (Option ProcedureKind)) :=
  let trimmed := trimStatement input
  if !startsWith (toAsciiUppercase trimmed) "CALL " then .ok none
  else (grammars.parseCallBody (trimStart (trimmed.drop 5))).map some

def tryParseDdl : Except ParseError (Option DdlStatement) :=
  let trimmed := trimStatement input
  let upper := toAsciiUppercase trimmed
  if startsWith upper "CREATE INDEX ON " || startsWith upper "CREATE INDEX ON:" then
    (grammars.parseCreateIndexLegacy trimmed).map some
  else if startsWith upper "CREATE INDEX FOR " then
    (grammars.parseCreateIndexFor trimmed).map some
  else if startsWith upper "CREATE INDEX" then
    syntaxErr "CREATE INDEX requires ON :Label(prop) or FOR (n:Label) ON (n.prop)"
  else if startsWith upper "DROP INDEX ON " || startsWith upper "DROP INDEX ON:" then
    (grammars.parseDropIndex trimmed).map some
  else if startsWith upper "CREATE CONSTRAINT ON " then
    (grammars.parseCreateConstraint trimmed).map some
  else if startsWith upper "DROP CONSTRAINT ON " then
    (grammars.parseDropConstraint trimmed).map some
  else if startsWith upper "ALTER LABEL " then (grammars.parseAlterLabel trimmed).map some
  else if isExactly upper "ALTER LABEL" then
    syntaxErr "ALTER LABEL requires :Label SET APPEND ONLY or :Label REMOVE APPEND ONLY"
  else if isExactly upper "SHOW INDEX INFO" then .ok (some .showIndexInfo)
  else if isExactly upper "SHOW CONSTRAINT INFO" then .ok (some .showConstraintInfo)
  else if isExactly upper "SHOW APPEND ONLY INFO" then .ok (some .showAppendOnlyInfo)
  else .ok none

def tryParseAdmin : Except ParseError (Option Unit) :=
  let trimmed := trimStatement input
  let upper := toAsciiUppercase trimmed
  if startsWith upper "CREATE USER " then (grammars.parseCreateUser trimmed).map some
  else if startsWith upper "DROP USER " then (grammars.parseDropUser trimmed).map some
  else if startsWith upper "ALTER USER " then (grammars.parseAlterUser trimmed).map some
  else if isExactly upper "SHOW USERS" then .ok (some ())
  else if startsWith upper "CREATE DATABASE " then (grammars.parseCreateDatabase trimmed).map some
  else if startsWith upper "DROP DATABASE " then (grammars.parseDropDatabase trimmed).map some
  else if isExactly upper "SHOW DATABASES" then .ok (some ())
  else if startsWith upper "GRANT " then (grammars.parseGrant trimmed).map some
  else if startsWith upper "REVOKE " then (grammars.parseRevoke trimmed).map some
  else if isExactly upper "SHOW GRANTS" then .ok (some ())
  else if startsWith upper "SHOW GRANTS " then (grammars.parseShowGrants trimmed).map some
  else .ok none

def parseWithMode (mode : QueryLanguage) : Except ParseError Statement := do
  match ← tryParseCall grammars input with
  | some kind => return .call kind
  | none =>
    match ← tryParseDdl grammars input with
    | some stmt => return .ddl stmt
    | none =>
      match ← tryParseAdmin grammars input with
      | some _ => return .admin
      | none =>
        match mode with
        | .gql => grammars.parseGql input
        | .cypherCompat => grammars.parseCypher input
        | .strictGql => grammars.parseStrict input

end Parsers

/-- How the statements begin that are none of the administration. -/
def otherHeads : List String :=
  ["CALL ", "CREATE INDEX ON ", "CREATE INDEX ON:", "CREATE INDEX FOR ", "CREATE INDEX",
    "DROP INDEX ON ", "DROP INDEX ON:", "CREATE CONSTRAINT ON ", "DROP CONSTRAINT ON ",
    "ALTER LABEL ", "ALTER LABEL", "SHOW INDEX INFO", "SHOW CONSTRAINT INFO",
    "SHOW APPEND ONLY INFO"]

def adminHeads : List String :=
  ["CREATE USER ", "DROP USER ", "ALTER USER ", "SHOW USERS", "CREATE DATABASE ", "DROP DATABASE ",
    "SHOW DATABASES", "GRANT ", "REVOKE ", "SHOW GRANTS", "SHOW GRANTS "]

def Apart (left right : String) : Prop :=
  ¬left.toList <+: right.toList ∧ ¬right.toList <+: left.toList

instance (left right : String) : Decidable (Apart left right) := inferInstanceAs (Decidable (_ ∧ _))

theorem heads_apart : ∀ head ∈ adminHeads, ∀ other ∈ otherHeads, Apart head other := by
  decide +kernel

variable {text : List Char}

theorem startsWith_iff {words : String} :
    startsWith text words ↔ words.toList <+: text := List.isPrefixOf_iff_prefix

theorem Apart.not_startsWith {left right : String} (apart : Apart left right)
    (starts : left.toList <+: text) : ¬right.toList <+: text := fun other =>
  (List.prefix_or_prefix_of_prefix starts other).elim apart.1 apart.2

variable {upper : List Char}

theorem not_startsWith_other {head other : String} (known : head ∈ adminHeads)
    (starts : head.toList <+: upper) (listed : other ∈ otherHeads) :
    startsWith upper other = false := by
  rw [Bool.eq_false_iff, ne_eq, startsWith_iff]
  exact (heads_apart head known other listed).not_startsWith starts

theorem not_isExactly_other {head other : String} (known : head ∈ adminHeads)
    (starts : head.toList <+: upper) (listed : other ∈ otherHeads) :
    isExactly upper other = false := by
  rw [isExactly, decide_eq_false_iff_not]
  rintro rfl
  exact (heads_apart head known other listed).1 starts

section Routing

variable {grammars : Grammars} {input : List Char}

theorem exists_head_of_admin (recognised : tryParseAdmin grammars input = .ok (some ())) :
    ∃ head ∈ adminHeads, head.toList <+: toAsciiUppercase (trimStatement input) := by
  by_contra none
  push Not at none
  have begins : ∀ head ∈ adminHeads,
      startsWith (toAsciiUppercase (trimStatement input)) head = false := by
    intro head known
    rw [Bool.eq_false_iff, ne_eq, startsWith_iff]
    exact none head known
  have equals : ∀ head ∈ adminHeads,
      isExactly (toAsciiUppercase (trimStatement input)) head = false := by
    intro head known
    rw [isExactly, decide_eq_false_iff_not]
    exact fun same => none head known (same ▸ List.prefix_rfl)
  simp only [adminHeads, List.forall_mem_cons] at begins equals
  simp only [tryParseAdmin, begins, equals, Bool.false_eq_true, if_false] at recognised
  cases recognised

theorem parseWithMode_of_admin (recognised : tryParseAdmin grammars input = .ok (some ()))
    (mode : QueryLanguage) : parseWithMode grammars input mode = .ok .admin := by
  obtain ⟨head, known, starts⟩ := exists_head_of_admin recognised
  have noCall : tryParseCall grammars input = .ok none := by
    have other : startsWith (toAsciiUppercase (trimStatement input)) "CALL " = false :=
      not_startsWith_other known starts (by decide)
    simp [tryParseCall, other]
  have noDdl : tryParseDdl grammars input = .ok none := by
    have begins : ∀ other ∈ otherHeads,
        startsWith (toAsciiUppercase (trimStatement input)) other = false :=
      fun other listed => not_startsWith_other known starts listed
    have equals : ∀ other ∈ otherHeads,
        isExactly (toAsciiUppercase (trimStatement input)) other = false :=
      fun other listed => not_isExactly_other known starts listed
    simp only [otherHeads, List.forall_mem_cons] at begins equals
    simp only [tryParseDdl, begins, equals, Bool.or_self, Bool.false_eq_true, if_false]
  unfold parseWithMode
  rw [noCall, noDdl, recognised]
  rfl

end Routing

end ErmyaGraph.Bolt
