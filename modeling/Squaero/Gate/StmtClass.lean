import Squaero.Lib.Text
import Squaero.Lib.ModeMachine

/-!
# The read-only gate of the core

`core/src/query/stmt_class.c`: a text is blanked (comments, and what stands between quotes),
split at the semicolons left standing, and each statement is judged by its leading word. This is
done under both quote conventions, a backslash being an escape in the second, and any write of
either taints the text.

The blanking loop is a `ModeMachine`: one iteration of the C loop that consumes two characters
is a step and a `skip`.
-/

namespace Squaero.Gate

open Squaero.Lib

/-- `stmt_class_t`. -/
inductive StmtClass
  | empty
  | read
  | write
  deriving DecidableEq, Repr

/-- Where the blanking loop stands. -/
inductive Mode
  | code
  | line
  | block
  | quote (q : Char)
  /-- The second character of a pair: blanked, whatever it is. -/
  | skip (after : Mode)
  deriving DecidableEq, Repr

/-- Judge the items in order: a write ends the loop, a read is remembered. -/
def tally {ι : Type*} (classify : ι → StmtClass) : StmtClass → List ι → StmtClass
  | overall, [] => overall
  | overall, item :: items =>
    match classify item with
    | .write => .write
    | .read => tally classify .read items
    | .empty => tally classify overall items

section Tally

variable {ι : Type*} {f : ι → StmtClass}

theorem tally_eq_write_iff {overall : StmtClass} (h : overall ≠ .write) (items : List ι) :
    tally f overall items = .write ↔ ∃ item ∈ items, f item = .write := by
  induction items generalizing overall with
  | nil => simp [tally, h]
  | cons item items ih =>
    cases hitem : f item with
    | write => simp [tally, hitem]
    | read => simp [tally, hitem, ih (by decide : StmtClass.read ≠ .write)]
    | empty => simp [tally, hitem, ih h]

theorem tally_eq_empty_iff (overall : StmtClass) (items : List ι) :
    tally f overall items = .empty ↔ overall = .empty ∧ ∀ item ∈ items, f item = .empty := by
  induction items generalizing overall with
  | nil => simp [tally]
  | cons item items ih =>
    cases hitem : f item with
    | write => simp [tally, hitem]
    | read => simp [tally, hitem, ih .read]
    | empty => simp [tally, hitem, ih overall]

end Tally

namespace StmtClass

def readLeaders : List Text :=
  ["SHOW".toList, "DESCRIBE".toList, "DESC".toList, "VALUES".toList, "TABLE".toList,
    "USE".toList]

def writeTokens : List Text :=
  ["INSERT".toList, "UPDATE".toList, "DELETE".toList, "MERGE".toList, "CREATE".toList,
    "DROP".toList, "ALTER".toList, "TRUNCATE".toList, "REPLACE".toList, "GRANT".toList,
    "REVOKE".toList, "CALL".toList, "EXEC".toList, "EXECUTE".toList, "SET".toList,
    "LOCK".toList, "UNLOCK".toList, "RENAME".toList, "COMMENT".toList, "ATTACH".toList,
    "DETACH".toList, "VACUUM".toList, "REINDEX".toList, "COPY".toList, "LOAD".toList,
    "PRAGMA".toList, "UPSERT".toList, "IMPORT".toList, "INTO".toList]

def iequal (a b : Text) : Bool := (a.zip b).all fun pair ↦ pair.1.toUpper == pair.2.toUpper

def wordIs (tok word : Text) : Bool := tok.length == word.length && iequal tok word

def isQuote (c : Char) : Bool := c = '\'' || c = '"' || c = '`'

/-- One iteration of the loop of `normalize`. -/
def normalizeStep (backslashEscapes : Bool) : ModeMachine.Step Char Char Mode
  | .skip after, _, _ => (' ', after)
  | .code, c, rest =>
    if c = '-' ∧ rest.head? = some '-' then (' ', .line)
    else if c = '/' ∧ rest.head? = some '*' then (' ', .skip .block)
    else if isQuote c then (c, .quote c)
    else (c, .code)
  | .line, c, _ => if c = '\n' then (c, .code) else (' ', .line)
  | .block, c, rest =>
    if c = '*' ∧ rest.head? = some '/' then (' ', .skip .code) else (' ', .block)
  | .quote q, c, rest =>
    if backslashEscapes ∧ c = '\\' ∧ rest ≠ [] then (' ', .skip (.quote q))
    else if c = q then
      if rest.head? = some q then (' ', .skip (.quote q)) else (q, .code)
    else (' ', .quote q)

/-- `normalize`: `sql` with its comments and the contents of its quotes blanked. -/
def normalize (sql : Text) (backslashEscapes : Bool) : Text :=
  ModeMachine.run (normalizeStep backslashEscapes) .code sql

/-- The whole words `has_word` visits: the maximal runs of letters and underscores. -/
def wordRuns (s : Text) : List Text := (s.splitOnP fun c ↦ !isWordChar c).filter (· ≠ [])

def hasWord (s : Text) (words : List Text) : Bool :=
  (wordRuns s).any fun tok ↦ words.any (wordIs tok)

/-- What is left of a statement without the blanks and parentheses that lead it. -/
def statementBody (s : Text) : Text := s.dropWhile fun c ↦ isSpace c || c = '('

def classifyStatement (s : Text) : StmtClass :=
  let body := statementBody s
  if body = [] then .empty
  else
    let tok := body.takeWhile isWordChar
    if tok = [] then .write
    else if wordIs tok "WITH".toList || wordIs tok "EXPLAIN".toList then
      if hasWord s writeTokens then .write else .read
    else if wordIs tok "SELECT".toList then
      if hasWord s ["INTO".toList] then .write else .read
    else if readLeaders.any (wordIs tok) then .read
    else .write

def classifyNormalized (norm : Text) : StmtClass :=
  tally classifyStatement .empty (norm.splitOn ';')

/-- `stmt_classify` on the bytes of `sql` (its allocation does not fail). -/
def stmtClassify (sql : Text) : StmtClass :=
  if sql = [] then .empty
  else tally (fun mode ↦ classifyNormalized (normalize sql mode)) .empty [false, true]

example : stmtClassify "SELECT 'a\\'; DROP TABLE t; -- '".toList = .write := by decide

/-! ## What the verdict says -/

theorem wordIs_iff {tok word : Text} :
    wordIs tok word ↔ tok.map Char.toUpper = word.map Char.toUpper := by
  induction tok generalizing word with
  | nil => cases word <;> simp [wordIs, iequal]
  | cons c tok ih =>
    cases word with
    | nil => simp [wordIs]
    | cons d word =>
      have := @ih word
      simp only [wordIs, iequal, Bool.and_eq_true, beq_iff_eq, List.length_cons,
        Nat.add_right_cancel_iff, List.zip_cons_cons, List.all_cons, List.map_cons,
        List.cons.injEq] at this ⊢
      tauto

theorem hasWord_iff {s : Text} {words : List Text} :
    hasWord s words ↔ ∃ tok ∈ wordRuns s, ∃ word ∈ words, wordIs tok word := by
  simp [hasWord]

theorem classifyNormalized_eq_write_iff {norm : Text} :
    classifyNormalized norm = .write ↔
      ∃ part ∈ norm.splitOn ';', classifyStatement part = .write :=
  tally_eq_write_iff (by decide) _

theorem classifyNormalized_eq_empty_iff {norm : Text} :
    classifyNormalized norm = .empty ↔
      ∀ part ∈ norm.splitOn ';', classifyStatement part = .empty := by
  simp [classifyNormalized, tally_eq_empty_iff]

theorem stmtClassify_eq_write_iff {sql : Text} :
    stmtClassify sql = .write ↔
      ∃ mode, classifyNormalized (normalize sql mode) = .write := by
  unfold stmtClassify
  split
  next h => subst h; decide
  next => simp [tally_eq_write_iff]

theorem stmtClassify_eq_empty_iff {sql : Text} :
    stmtClassify sql = .empty ↔
      ∀ mode, classifyNormalized (normalize sql mode) = .empty := by
  unfold stmtClassify
  split
  next h => subst h; decide
  next => simp [tally_eq_empty_iff]

end StmtClass

end Squaero.Gate
