import Squaero.Gate.StmtClass

/-!
# The safe mode of a connection

`frontend/src/utils/safeMode.ts`, the twin of the gate of the core: the same blanking, the same
split and the same words, over JavaScript strings. What leads a statement is skipped by `\s`, the
words are sought in the upper-cased statement, and the texts of MongoDB go to a classifier of
their own. Where a regular expression of the source is only tested, or has one possible match, it
is a function on lists.
-/

namespace Squaero.Gate.SafeMode

open Squaero.Lib

def readLeaders : List Text :=
  ["SHOW".toList, "DESCRIBE".toList, "DESC".toList, "VALUES".toList, "TABLE".toList,
    "USE".toList]

def writeTokens : List Text :=
  ["INSERT".toList, "UPDATE".toList, "DELETE".toList, "MERGE".toList, "CREATE".toList,
    "DROP".toList, "ALTER".toList, "TRUNCATE".toList, "REPLACE".toList, "GRANT".toList,
    "REVOKE".toList, "CALL".toList, "EXEC".toList, "EXECUTE".toList, "SET".toList,
    "LOCK".toList, "UNLOCK".toList, "RENAME".toList, "COMMENT".toList, "ATTACH".toList,
    "DETACH".toList, "VACUUM".toList, "REINDEX".toList, "COPY".toList, "LOAD".toList,
    "PRAGMA".toList, "UPSERT".toList, "IMPORT".toList, "INTO".toList]

/-- One iteration of the loop of `normalize`. -/
def normalizeStep (backslashEscapes : Bool) : ModeMachine.Step Char Char Mode
  | .skip after, _, _ => (' ', after)
  | .code, c, rest =>
    if c = '-' ∧ rest.head? = some '-' then (' ', .line)
    else if c = '/' ∧ rest.head? = some '*' then (' ', .skip .block)
    else if c = '\'' ∨ c = '"' ∨ c = '`' then (c, .quote c)
    else (c, .code)
  | .line, c, _ => if c ≠ '\n' then (' ', .line) else (c, .code)
  | .block, c, rest =>
    if ¬ (c = '*' ∧ rest.head? = some '/') then (' ', .block) else (' ', .skip .code)
  | .quote q, c, rest =>
    if backslashEscapes ∧ c = '\\' ∧ rest ≠ [] then (' ', .skip (.quote q))
    else if c = q then
      if rest.head? = some q then (' ', .skip (.quote q)) else (c, .code)
    else (' ', .quote q)

def normalize (sql : Text) (backslashEscapes : Bool) : Text :=
  ModeMachine.run (normalizeStep backslashEscapes) .code sql

/-- `[A-Z_]`. -/
def isUpperWordChar (c : Char) : Bool := c.isUpper || c = '_'

/-- `s.toUpperCase().match(/[A-Z_]+/g)`. -/
def words (s : Text) : List Text :=
  ((jsUpper s).splitOnP fun c ↦ !isUpperWordChar c).filter (· ≠ [])

def statementBody (s : Text) : Text := s.dropWhile fun c ↦ isJsSpace c || c = '('

def classifyStatement (s : Text) : StmtClass :=
  let body := statementBody s
  if body = [] then .empty
  else
    let lead := jsUpper (body.takeWhile isWordChar)
    if lead = [] then .write
    else if lead = "WITH".toList ∨ lead = "EXPLAIN".toList then
      if (words body).any (· ∈ writeTokens) then .write else .read
    else if lead = "SELECT".toList then
      if "INTO".toList ∈ words body then .write else .read
    else if lead ∈ readLeaders then .read
    else .write

def classifyNormalized (norm : Text) : StmtClass :=
  tally classifyStatement .empty (norm.splitOn ';')

/-! ## MongoDB -/

/-- `.` of a regular expression does not match these. -/
def isLineTerminator (c : Char) : Bool :=
  c = '\n' || c = '\r' || c = '\u2028' || c = '\u2029'

/-- `^([A-Za-z]+)\s*\(` matches. -/
def callsNext (text : Text) : Bool :=
  let rest := (text.dropWhile Char.isAlpha).dropWhile isJsSpace
  (text.head?.any Char.isAlpha) && rest.head? = some '('

/-- `^(.+?)\.([A-Za-z]+)\s*\(` matches. -/
def callsAfterDot : Text → Bool
  | [] => false
  | c :: rest =>
    !isLineTerminator c &&
      ((rest.head? = some '.' && callsNext (rest.drop 1)) || callsAfterDot rest)

/-- `/^db\.(.+?)\.([A-Za-z]+)\s*\(/` matches. -/
def isDbCall (part : Text) : Bool :=
  "db.".toList.isPrefixOf part && callsAfterDot (part.drop 3)

/-- The word in front of the first parenthesis, `[]` where there is none. -/
def methodOf (part : Text) : Text :=
  (jsTrimEnd (part.takeWhile (· ≠ '('))).rtakeWhile Char.isAlpha

/-- A word character of a regular expression. -/
def isRegexWord (c : Char) : Bool := c.isAlphanum || c = '_'

/-- `/\$(out|merge)\b/` matches somewhere. -/
def namesWriteStage : Text → Bool
  | [] => false
  | c :: rest =>
    (c = '$' && ["out".toList, "merge".toList].any fun stage ↦
      stage.isPrefixOf rest && !((rest.drop stage.length).head?.any isRegexWord)) ||
      namesWriteStage rest

/-- The loop body of `classifyMongo` on a trimmed part. -/
def classifyCall (part : Text) : StmtClass :=
  if part = [] then .empty
  else if !isDbCall part then .write
  else if methodOf part = "find".toList then .read
  else if methodOf part = "aggregate".toList ∧ !namesWriteStage part then .read
  else .write

def classifyMongo (text : Text) : StmtClass :=
  tally (fun raw ↦ classifyCall (jsTrim raw)) .empty (text.splitOn ';')

/-- `classifySql`. -/
def classifySql (sql : Text) (engine : Option Text) : StmtClass :=
  if sql = [] then .empty
  else if jsLower (engine.getD []) = "mongodb".toList then classifyMongo sql
  else tally (fun mode ↦ classifyNormalized (normalize sql mode)) .empty [false, true]

end Squaero.Gate.SafeMode
