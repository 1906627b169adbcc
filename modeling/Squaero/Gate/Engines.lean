import Squaero.Gate.StmtClass

/-!
# How the engines read a text

What each engine takes for comments and for quoted text, as the lexical rules of the engines have
it and not as the gate does: `reading` blanks the comments and the contents of the quotes of one
engine. A statement is what stands between the semicolons of a reading, and `ReadOnlyStatement`
says which statements are reads. This is the specification the gate is measured against; nothing
in it is translated from the gate.

* MySQL: `'…'` and `"…"` with backslash escapes, backtick identifiers, `#` comments, `--` comments
  only in front of white space or a control character, and `/*! … */` whose body is code.
* PostgreSQL: `$tag$…$tag$` strings and nested block comments.
* SQL Server: `[…]` identifiers.
* Informix: `{…}` comments.
* SQLite: the quoting of the standard.
-/

namespace Squaero.Gate

open Squaero.Lib

inductive Engine
  | mysql
  | postgres
  | sqlite
  | mssql
  | informix
  deriving DecidableEq, Repr

namespace Engine

/-- The name of the driver. -/
def driver : Engine → Text
  | .mysql => "mysql".toList
  | .postgres => "postgres".toList
  | .sqlite => "sqlite".toList
  | .mssql => "mssql".toList
  | .informix => "informix".toList

/-- Where an engine's lexer stands. `exec` says that a `/*!` of MySQL is open around it, `word`
that the last character was part of a word. -/
inductive Place
  | code (exec word : Bool)
  | line (exec : Bool)
  /-- Inside a block comment and `depth` comments around it. -/
  | block (depth : ℕ) (exec : Bool)
  | quote (q : Char) (exec : Bool)
  | bracket
  | brace
  /-- Inside the dollar quote that `delimiter` opened. -/
  | dollar (delimiter : Text)
  /-- The version number behind a `/*!`. -/
  | version
  | skip (after : Place)
  deriving DecidableEq, Repr

def Place.skipMany : ℕ → Place → Place
  | 0, after => after
  | n + 1, after => .skip (skipMany n after)

def isQuote : Engine → Char → Bool
  | .mysql, c => c = '\'' || c = '"' || c = '`'
  | _, c => c = '\'' || c = '"'

/-- A letter of a word: ASCII, the underscore, or anything outside ASCII. -/
def isLetter (c : Char) : Bool := isWordChar c || isWide c

/-- The `$tag$` in front of `text`, the first `$` already read. -/
def dollarDelimiter (text : Text) : Option Text :=
  let tag := text.takeWhile fun c ↦ isLetter c || c.isDigit
  if (tag.head?.elim true isLetter) && (text.drop tag.length).head? = some '$' then
    some ('$' :: tag ++ ['$'])
  else none

/-- White space, a control character or the end of the text. -/
def endsDashes : Option Char → Bool
  | none => true
  | some c => c.toNat ≤ 32 || c.toNat = 127

def readCode (engine : Engine) (exec word : Bool) (c : Char) (rest : Text) : Char × Place :=
  if c = '-' ∧ rest.head? = some '-' ∧ (engine = .mysql → endsDashes (rest.drop 1).head?) then
    (' ', .line exec)
  else if engine = .mysql ∧ c = '#' then (' ', .line exec)
  else if engine = .mysql ∧ c = '/' ∧ ['*', '!'].isPrefixOf rest then
    (' ', .skip (.skip .version))
  else if exec ∧ c = '*' ∧ rest.head? = some '/' then (' ', .skip (.code false false))
  else if c = '/' ∧ rest.head? = some '*' then (' ', .skip (.block 0 exec))
  else if engine = .informix ∧ c = '{' then (' ', .brace)
  else if engine = .mssql ∧ c = '[' then (c, .bracket)
  else if engine.isQuote c then (c, .quote c exec)
  else if engine = .postgres ∧ c = '$' ∧ !word then
    match dollarDelimiter rest with
    | some delimiter => (c, .skipMany (delimiter.length - 1) (.dollar delimiter))
    | none => (c, .code exec false)
  else (c, .code exec (isLetter c || word && (c.isDigit || c = '$')))

def readStep (engine : Engine) : ModeMachine.Step Char Char Place
  | .skip after, _, _ => (' ', after)
  | .code exec word, c, rest => engine.readCode exec word c rest
  | .version, c, rest => if c.isDigit then (' ', .version) else engine.readCode true false c rest
  | .line exec, c, _ => if c = '\n' then (c, .code exec false) else (' ', .line exec)
  | .block depth exec, c, rest =>
    if c = '*' ∧ rest.head? = some '/' then
      (' ', .skip (match depth with
        | 0 => .code exec false
        | outer + 1 => .block outer exec))
    else if engine = .postgres ∧ c = '/' ∧ rest.head? = some '*' then
      (' ', .skip (.block (depth + 1) exec))
    else (' ', .block depth exec)
  | .quote q exec, c, rest =>
    if engine = .mysql ∧ q ≠ '`' ∧ c = '\\' ∧ rest ≠ [] then (' ', .skip (.quote q exec))
    else if c = q then
      if rest.head? = some q then (' ', .skip (.quote q exec)) else (c, .code exec false)
    else (' ', .quote q exec)
  | .bracket, c, rest =>
    if c = ']' then
      if rest.head? = some ']' then (' ', .skip .bracket) else (c, .code false false)
    else (' ', .bracket)
  | .brace, c, _ => (' ', if c = '}' then .code false false else .brace)
  | .dollar delimiter, c, rest =>
    if delimiter.isPrefixOf (c :: rest) then
      (c, .skipMany (delimiter.length - 1) (.code false false))
    else (' ', .dollar delimiter)

/-- `text` as the engine reads it: comments and the contents of quotes are blank. -/
def reading (engine : Engine) (text : Text) : Text :=
  ModeMachine.run engine.readStep (.code false false) text

example : reading .postgres "a$$b $x$'$x$ /*/**/;*/;".toList =
    "a$$b $   $            ;".toList := by decide

example : reading .mysql "/*!50001 DROP*/ 1--1 #;\n-- ;\n'\\';';".toList =
    "         DROP   1--1   \n    \n'   ';".toList := by decide

end Engine

/-! ## Statements that only read -/

/-- The words that may begin a read. -/
def readStarters : List Text :=
  ["SELECT".toList, "SHOW".toList, "DESCRIBE".toList, "DESC".toList, "VALUES".toList,
    "TABLE".toList, "USE".toList, "WITH".toList, "EXPLAIN".toList]

/-- The word that `body` begins with. -/
def leadWord (body : Text) : Text := (body.takeWhile isWordChar).map Char.toUpper

/-- Nothing is left of a statement, or it begins with a word of `readStarters` and does not name,
among its `words`, one that would make it write. -/
def ReadsOnly (body : Text) (words : List Text) : Prop :=
  body = [] ∨
    leadWord body ∈ readStarters ∧
      (leadWord body = "SELECT".toList → "INTO".toList ∉ words) ∧
      (leadWord body ∈ ["WITH".toList, "EXPLAIN".toList] →
        ∀ word ∈ words, word ∉ StmtClass.writeTokens)

/-- The words of a blanked statement, upper-cased. -/
def upperWords (statement : Text) : List Text :=
  (StmtClass.wordRuns statement).map (·.map Char.toUpper)

def ReadOnlyStatement (statement : Text) : Prop :=
  ReadsOnly (StmtClass.statementBody statement) (upperWords statement)

/-- Some statement of the reading is not a read. -/
def Writes (reading : Text) : Prop := ∃ part ∈ reading.splitOn ';', ¬ ReadOnlyStatement part

instance (body : Text) (words : List Text) : Decidable (ReadsOnly body words) :=
  inferInstanceAs (Decidable (_ ∨ _ ∧ _))

instance (statement : Text) : Decidable (ReadOnlyStatement statement) :=
  inferInstanceAs (Decidable (ReadsOnly _ _))

instance (reading : Text) : Decidable (Writes reading) :=
  inferInstanceAs (Decidable (∃ part ∈ reading.splitOn ';', ¬ ReadOnlyStatement part))

end Squaero.Gate
