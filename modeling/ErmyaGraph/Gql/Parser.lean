import ErmyaGraph.Gql.Statement

/-! # Parsing a statement

The parser reads the tokens of a statement from left to right, and decides by the
next token how to go on. -/

namespace ErmyaGraph.Gql

inductive Token where
  | kwMatch
  | kwReturn
  | kwWhere
  | kwOrder
  | kwBy
  | kwLimit
  | kwAnd
  | kwOr
  | kwNot
  | kwIs
  | kwNull
  | kwAsc
  | kwDesc
  | kwAs
  | kwDistinct
  | kwGroup
  | kwWith
  | kwSkip
  | kwCreate
  | kwSet
  | kwDelete
  | kwDetach
  | kwMerge
  | kwUnwind
  | kwCount
  | kwSum
  | kwAvg
  | kwMin
  | kwMax
  | kwCollect
  | lParen
  | rParen
  | lBracket
  | rBracket
  | lBrace
  | rBrace
  | colon
  | comma
  | dot
  | star
  | pipe
  | dollar
  | arrowRight
  | arrowLeft
  | minus
  | eq
  | notEq
  | lt
  | gt
  | ltEq
  | gtEq
  | plus
  | plusEq
  | slash
  | dotDot
  | ident (name : String)
  | stringLit (value : String)
  | intLit (value : Int64)
  | floatLit (bits : UInt64)
  | boolLit (value : Bool)
  | eof
deriving DecidableEq, Repr

/-- A token and where it starts. -/
structure SpannedToken where
  token : Token
  line : Nat := 1
  col : Nat := 1

inductive ParseError where
  | gqlSyntaxError (line col : Nat) (message : String)
  | gqlUnsupported (message : String)
deriving DecidableEq, Repr

/-- Identifiers with other characters than letters, digits and `_` are quoted. -/
def identText (name : String) : String :=
  if name.any fun c => !c.isAlphanum && c != '_' then "\"" ++ name ++ "\"" else name

/-- A token as errors show it, for a way to write numbers. -/
def Token.display (floatText : UInt64 → String) : Token → String
  | .kwMatch => "MATCH"
  | .kwReturn => "RETURN"
  | .kwWhere => "WHERE"
  | .kwOrder => "ORDER"
  | .kwBy => "BY"
  | .kwLimit => "LIMIT"
  | .kwAnd => "AND"
  | .kwOr => "OR"
  | .kwNot => "NOT"
  | .kwIs => "IS"
  | .kwNull => "NULL"
  | .kwAsc => "ASC"
  | .kwDesc => "DESC"
  | .kwAs => "AS"
  | .kwDistinct => "DISTINCT"
  | .kwGroup => "GROUP"
  | .kwWith => "WITH"
  | .kwSkip => "SKIP"
  | .kwCreate => "CREATE"
  | .kwSet => "SET"
  | .kwDelete => "DELETE"
  | .kwDetach => "DETACH"
  | .kwMerge => "MERGE"
  | .kwUnwind => "UNWIND"
  | .kwCount => "COUNT"
  | .kwSum => "SUM"
  | .kwAvg => "AVG"
  | .kwMin => "MIN"
  | .kwMax => "MAX"
  | .kwCollect => "COLLECT"
  | .lParen => "("
  | .rParen => ")"
  | .lBracket => "["
  | .rBracket => "]"
  | .lBrace => "\x7b"
  | .rBrace => "\x7d"
  | .colon => ":"
  | .comma => ","
  | .dot => "."
  | .star => "*"
  | .pipe => "|"
  | .dollar => "$"
  | .arrowRight => "->"
  | .arrowLeft => "<-"
  | .minus => "-"
  | .eq => "="
  | .notEq => "<>"
  | .lt => "<"
  | .gt => ">"
  | .ltEq => "<="
  | .gtEq => ">="
  | .plus => "+"
  | .plusEq => "+="
  | .slash => "/"
  | .dotDot => ".."
  | .ident name => identText name
  | .stringLit value => "'" ++ value ++ "'"
  | .intLit value => toString value.toInt
  | .floatLit bits => floatText bits
  | .boolLit value => if value then "true" else "false"
  | .eof => "<end of input>"

/-- A parser takes tokens from the front of those that are left. -/
abbrev Parser := StateT (List SpannedToken) (Except ParseError)

/-- A parser that says what it read and how many tokens that took. -/
abbrev Reader (α : Type) := List SpannedToken → Except ParseError (α × Nat)

def Reader.run {α : Type} (reader : Reader α) : Parser α := fun tokens =>
  (reader tokens).map fun found => (found.1, tokens.drop found.2)

def tokenAt (offset : Nat) (tokens : List SpannedToken) : Token :=
  (tokens[offset]?).elim .eof SpannedToken.token

def peek : Parser Token := fun tokens => .ok (tokenAt 0 tokens, tokens)

def peekAhead (offset : Nat) : Parser Token := fun tokens => .ok (tokenAt offset tokens, tokens)

/-- An error at the next token. -/
def syntaxError {α : Type} (message : String) : Parser α := fun tokens =>
  match tokens with
  | [] => .error (.gqlSyntaxError 1 1 message)
  | next :: _ => .error (.gqlSyntaxError next.line next.col message)

def advance : Parser Unit := fun tokens => .ok ((), tokens.tail)

/-- What the statement parser calls: expressions at a depth of nesting, path patterns, and the rest
of a pipeline after the first MATCH. -/
structure Grammar (Pipeline : Type) where
  floatText : UInt64 → String
  parseExpr : (depth : Nat) → Reader Expr
  parsePathPattern : Reader PathPattern
  parsePipelineAfterMatch : Option UnwindClause → MatchClause → Option Expr → Reader Pipeline

section Parsing

variable {Pipeline : Type} (grammar : Grammar Pipeline)

def expect (expected : Token) : Parser Unit := do
  let found ← peek
  if found = expected then advance
  else
    syntaxError ("expected " ++ expected.display grammar.floatText ++ ", found " ++
      found.display grammar.floatText)

def expectIdent : Parser String := do
  match ← peek with
  | .ident name => do
      advance
      return name
  | found => syntaxError ("expected identifier, found " ++ found.display grammar.floatText)

def expectInt : Parser Int64 := do
  match ← peek with
  | .intLit value => do
      advance
      return value
  | found => syntaxError ("expected integer literal, found " ++ found.display grammar.floatText)

def parseExpr : Parser Expr := (grammar.parseExpr 0).run

def parseNestedExpr : Parser Expr := (grammar.parseExpr 1).run

/-- A name, if the next token is one. -/
def optionalIdent : Parser (Option String) := do
  match ← peek with
  | .ident _ => return some (← expectIdent grammar)
  | _ => return none

section Lists

variable {α : Type} (item : Parser α)

/-- Further items behind commas. Every round takes a comma, and there are no more of them than
tokens. -/
def furtherItems : (fuel : Nat) → Parser (List α)
  | 0 => return []
  | fuel + 1 => do
      if (← peek) = .comma then
        advance
        let next ← item
        let rest ← furtherItems fuel
        return next :: rest
      else return []

/-- One or more items, separated by commas. -/
def commaSeparated : Parser (List α) := do
  let first ← item
  let rest ← furtherItems item (← get).length
  return first :: rest

end Lists

def parseMatchClause : Parser MatchClause := do
  expect grammar .kwMatch
  let next ← peek
  let following ← peekAhead 1
  let pathVar ←
    match next with
    | .ident _ =>
      if following = .eq then do
        let name ← expectIdent grammar
        expect grammar .eq
        pure (some name)
      else pure none
    | _ => pure none
  let patterns ← commaSeparated grammar.parsePathPattern.run
  return ⟨patterns, pathVar⟩

def parseWhereClause : Parser (Option Expr) := do
  if (← peek) ≠ .kwWhere then return none
  else
    advance
    return some (← parseExpr grammar)

def parseReturnItem : Parser ReturnItem := do
  let expr ← parseExpr grammar
  if (← peek) = .kwAs then
    advance
    return ⟨expr, some (← expectIdent grammar)⟩
  else return ⟨expr, none⟩

def parseReturnItemsAfterKeyword : Parser ReturnClause := do
  let distinct ← do
    if (← peek) = .kwDistinct then
      advance
      pure true
    else pure false
  let items ← commaSeparated (parseReturnItem grammar)
  return ⟨distinct, items⟩

def parseReturnClause : Parser ReturnClause := do
  expect grammar .kwReturn
  parseReturnItemsAfterKeyword grammar

def parseGroupByClause : Parser (Option (List Expr)) := do
  if (← peek) ≠ .kwGroup then return none
  else
    advance
    expect grammar .kwBy
    return some (← commaSeparated (parseNestedExpr grammar))

def parseOrderItem : Parser OrderItem := do
  let expr ← parseExpr grammar
  match ← peek with
  | .kwDesc => do
      advance
      return ⟨expr, false⟩
  | .kwAsc => do
      advance
      return ⟨expr, true⟩
  | _ => return ⟨expr, true⟩

def parseOrderByClause : Parser (Option (List OrderItem)) := do
  if (← peek) ≠ .kwOrder then return none
  else
    advance
    expect grammar .kwBy
    return some (← commaSeparated (parseOrderItem grammar))

def parseLimitClause : Parser (Option Nat) := do
  if (← peek) ≠ .kwLimit then return none
  else
    advance
    let raw ← expectInt grammar
    if raw.toInt < 0 then syntaxError "LIMIT value must be a non-negative integer"
    else return some raw.toInt.toNat

def parseUnwindBody : Parser UnwindClause := do
  advance
  let expr ← parseExpr grammar
  if (← peek) ≠ .kwAs then syntaxError "expected AS after UNWIND expression"
  else
    advance
    let var ← expectIdent grammar
    return ⟨expr, var⟩

def parseUnwindClause : Parser (Option UnwindClause) := do
  if (← peek) ≠ .kwUnwind then return none
  else return some (← parseUnwindBody grammar)

def parseConstReturnQuery : Parser ConstReturnQuery := do
  expect grammar .kwReturn
  let clause ← parseReturnItemsAfterKeyword grammar
  let skip ← do
    if (← peek) = .kwSkip then
      advance
      pure (some (← parseExpr grammar))
    else pure none
  let limit ← do
    if (← peek) = .kwLimit then
      advance
      pure (some (← parseExpr grammar))
    else pure none
  return ⟨clause.items, clause.distinct, limit, skip⟩

def parseOptionalTrailingReturn : Parser (Option ReturnClause) := do
  if (← peek) ≠ .kwReturn then return none
  else
    advance
    return some (← parseReturnItemsAfterKeyword grammar)

def varRefPropsError : String :=
  "variable reference in CREATE cannot have inline properties; add a label to create a new node"

def parseCreatePropEntry : Parser (String × Expr) := do
  let key ← expectIdent grammar
  expect grammar .colon
  let value ← parseNestedExpr grammar
  return (key, value)

def parseCreateProps : Parser (List (String × Expr)) := do
  expect grammar .lBrace
  let props ← do
    if (← peek) ≠ .rBrace then commaSeparated (parseCreatePropEntry grammar) else pure []
  expect grammar .rBrace
  return props

def optionalCreateProps : Parser (List (String × Expr)) := do
  if (← peek) = .lBrace then parseCreateProps grammar else return []

/-- The edge and the node behind the first node of a pattern. -/
def parseCreateEdgeContinuation (out : List CreatePattern) (sourceVarName : String)
    (isSourceVarRef : Bool) (nodeIdx : Nat) : Parser (List CreatePattern) := do
  advance
  expect grammar .lBracket
  let _ ← optionalIdent grammar
  expect grammar .colon
  let relLabel ← expectIdent grammar
  let relProps ← optionalCreateProps grammar
  expect grammar .rBracket
  let found ← peek
  if found ≠ .arrowRight then
    syntaxError ("CREATE only supports outgoing edges (-[r:REL]->), found " ++
      found.display grammar.floatText)
  else
    advance
    expect grammar .lParen
    let targetVar ← optionalIdent grammar
    let next ← peek
    let targetIsVarRef := targetVar.isSome && next ≠ .colon
    if targetIsVarRef && next = .lBrace then syntaxError varRefPropsError
    else
      let (targetLabel, targetProps) ← do
        if targetIsVarRef then pure ("", [])
        else
          expect grammar .colon
          let label ← expectIdent grammar
          let props ← optionalCreateProps grammar
          pure (label, props)
      expect grammar .rParen
      let targetVarName := targetVar.getD ("_anon_" ++ toString out.length)
      let edgeSource :=
        if isSourceVarRef then sourceVarName
        else (out[nodeIdx]?.bind CreatePattern.var).getD sourceVarName
      let withTarget :=
        if targetIsVarRef then out else out ++ [.node targetVar targetLabel targetProps none]
      return withTarget ++ [.edge edgeSource relLabel relProps targetVarName]

/-- The properties of a new node: in braces, or all of them from a parameter. -/
def parseNodeSource : Parser (List (String × Expr) × Option Expr) := do
  match ← peek with
  | .lBrace => return (← parseCreateProps grammar, none)
  | .dollar => do
      advance
      let paramName ← expectIdent grammar
      return ([], some (.paramRef (.named paramName)))
  | _ => return ([], none)

/-- One pattern; its nodes come before the edge between them. -/
def parseCreatePatternMulti (out : List CreatePattern) : Parser (List CreatePattern) := do
  expect grammar .lParen
  let var ← optionalIdent grammar
  let next ← peek
  let following ← peekAhead 1
  let isVarRef := var.isSome && next = .rParen && (following = .minus || following = .arrowLeft)
  if var.isSome && next = .lBrace then syntaxError varRefPropsError
  else
    let (label, props, propMap) ← do
      if isVarRef then pure ("", [], none)
      else
        expect grammar .colon
        let label ← expectIdent grammar
        let source ← parseNodeSource grammar
        pure (label, source)
    expect grammar .rParen
    let sourceVarName := var.getD ("_anon_" ++ toString out.length)
    let created := if isVarRef then out else out ++ [.node var label props propMap]
    match ← peek with
    | .arrowLeft =>
      syntaxError ("CREATE only supports outgoing edges (-[r:REL]->); " ++
        "incoming edge (<-[r:REL]-) is not valid in CREATE")
    | .minus => parseCreateEdgeContinuation grammar created sourceVarName isVarRef out.length
    | _ => return created

/-- Further patterns behind commas. -/
def furtherCreatePatterns : (fuel : Nat) → List CreatePattern → Parser (List CreatePattern)
  | 0, out => return out
  | fuel + 1, out => do
      if (← peek) = .comma then
        advance
        let more ← parseCreatePatternMulti grammar out
        furtherCreatePatterns fuel more
      else return out

def parseCreateClause : Parser CreateClause := do
  expect grammar .kwCreate
  let first ← parseCreatePatternMulti grammar []
  let patterns ← furtherCreatePatterns grammar (← get).length first
  return ⟨patterns⟩

def parseDeleteClause : Parser DeleteClause := do
  let detach ← do
    if (← peek) = .kwDetach then
      advance
      pure true
    else pure false
  expect grammar .kwDelete
  let vars ← commaSeparated (expectIdent grammar)
  return ⟨detach, vars⟩

def parseSetAssignment : Parser SetAssignment := do
  let var ← expectIdent grammar
  match ← peek with
  | .eq => do
      advance
      return .entityOverwrite var (← parseExpr grammar)
  | .plusEq => do
      advance
      return .entityMerge var (← parseExpr grammar)
  | _ => do
      expect grammar .dot
      let prop ← expectIdent grammar
      expect grammar .eq
      return .property var prop (← parseExpr grammar)

def parseSetClause : Parser SetClause := do
  expect grammar .kwSet
  return ⟨← commaSeparated (parseSetAssignment grammar)⟩

/-- The word ON, which is no keyword, and a keyword behind it. -/
def peekIsOnThen (expected : Token) : Parser Bool := do
  let next ← peek
  let following ← peekAhead 1
  match next with
  | .ident name => return name.toLower = "on" && following = expected
  | _ => return false

/-- The SET clause behind ON and a keyword. -/
def optionalOnSet (keyword : Token) : Parser (Option SetClause) := do
  if ← peekIsOnThen keyword then
    advance
    advance
    return some (← parseSetClause grammar)
  else return none

def parseMergeClause : Parser MergeClause := do
  expect grammar .kwMerge
  expect grammar .lParen
  let var ← optionalIdent grammar
  expect grammar .colon
  let label ← expectIdent grammar
  let props ← optionalCreateProps grammar
  expect grammar .rParen
  let onCreate ← optionalOnSet grammar .kwCreate
  let onMatch ← optionalOnSet grammar .kwMatch
  let returnVar ← do
    if (← peek) = .kwReturn then
      advance
      pure (some (← expectIdent grammar))
    else pure none
  return ⟨var, label, props, onCreate, onMatch, returnVar⟩

def expectEnd (clause : String) : Parser Unit := do
  if (← peek) ≠ .eof then syntaxError ("unexpected tokens after " ++ clause) else return ()

/-- The WHERE clauses of several MATCH clauses in one. -/
def mergeWhere : Option Expr → Option Expr → Option Expr
  | none, next => next
  | first, none => first
  | some first, some next => some (.binaryOp first .and next)

/-- Further MATCH clauses. Every round takes a keyword, and there are no more of them than
tokens. -/
def furtherMatches : (fuel : Nat) → MatchClause → Option Expr → Parser (MatchClause × Option Expr)
  | 0, matchClause, whereClause => return (matchClause, whereClause)
  | fuel + 1, matchClause, whereClause => do
      if (← peek) = .kwMatch then
        let next ← parseMatchClause grammar
        let nextWhere ← parseWhereClause grammar
        furtherMatches fuel
          { matchClause with patterns := matchClause.patterns ++ next.patterns }
          (mergeWhere whereClause nextWhere)
      else return (matchClause, whereClause)

/-- Consecutive MATCH clauses in one, with the condition on its rows. -/
def parseMatches : Parser (MatchClause × Option Expr) := do
  let matchClause ← parseMatchClause grammar
  let whereClause ← parseWhereClause grammar
  furtherMatches grammar (← get).length matchClause whereClause

def parseAfterMatch (matchClause : MatchClause) (whereClause : Option Expr) :
    Parser (GqlStatement Pipeline) := do
  match ← peek with
  | .kwReturn => do
      let returnClause ← parseReturnClause grammar
      let groupBy ← parseGroupByClause grammar
      let orderBy ← parseOrderByClause grammar
      let limit ← parseLimitClause grammar
      expectEnd "query"
      return .query ⟨none, matchClause, whereClause, returnClause, groupBy, orderBy, limit⟩
  | .kwDelete | .kwDetach => do
      let delete ← parseDeleteClause grammar
      expectEnd "DELETE"
      return .mutation ⟨none, some matchClause, .delete delete, none, none⟩
  | .kwSet => do
      let set ← parseSetClause grammar
      let returnClause ← parseOptionalTrailingReturn grammar
      expectEnd "SET"
      return .mutation ⟨none, some matchClause, .set set, none, returnClause⟩
  | .kwCreate => do
      let create ← parseCreateClause grammar
      let returnClause ← parseOptionalTrailingReturn grammar
      expectEnd "CREATE"
      return .mutation ⟨none, some matchClause, .create create, none, returnClause⟩
  | found =>
    syntaxError ("expected RETURN, DELETE, SET, or CREATE after MATCH, found " ++
      found.display grammar.floatText)

/-- A statement from the first MATCH on. -/
def parseFromMatch (unwindClause : Option UnwindClause) : Parser (GqlStatement Pipeline) := do
  let (matchClause, whereClause) ← parseMatches grammar
  if (← peek) = .kwWith then
    let query ← (grammar.parsePipelineAfterMatch unwindClause matchClause whereClause).run
    return .pipeline query
  else
    let result ← parseAfterMatch grammar matchClause whereClause
    return injectUnwind result unwindClause

def parseMain : Parser (GqlStatement Pipeline) := do
  let unwindClause ← parseUnwindClause grammar
  match ← peek with
  | .kwMatch => parseFromMatch grammar unwindClause
  | .kwCreate => do
      let create ← parseCreateClause grammar
      let returnClause ← parseOptionalTrailingReturn grammar
      expectEnd "CREATE"
      return .mutation ⟨unwindClause, none, .create create, none, returnClause⟩
  | .kwMerge => do
      let merge ← parseMergeClause grammar
      expectEnd "MERGE"
      return .mutation ⟨unwindClause, none, .merge merge, none, none⟩
  | .kwDelete | .kwDetach =>
    syntaxError "DELETE requires a preceding MATCH clause to bind variables"
  | .kwSet => syntaxError "SET requires a preceding MATCH clause to bind variables"
  | .kwReturn => do
      if unwindClause.isSome then
        syntaxError "UNWIND before RETURN requires a binding scope (MATCH or pipeline WITH)"
      else
        let query ← parseConstReturnQuery grammar
        expectEnd "RETURN"
        return .constReturn query
  | found =>
    syntaxError ("expected MATCH, CREATE, MERGE, RETURN, or mutation keyword, found " ++
      found.display grammar.floatText)

def streamIsTerminated (tokens : List SpannedToken) : Bool :=
  tokens.getLast?.any fun last => last.token = .eof

/-- The statement that tokens stand for. -/
def parseStatement (tokens : List SpannedToken) : Except ParseError (GqlStatement Pipeline) := do
  let parser :=
    if streamIsTerminated tokens then parseMain grammar
    else syntaxError "malformed token stream: missing terminating Eof"
  let parsed ← parser tokens
  return parsed.1

end Parsing

end ErmyaGraph.Gql
