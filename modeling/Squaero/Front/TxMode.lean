import Mathlib.Data.Rat.Floor
import Squaero.Front.SqlVariables
import Squaero.Gate.SafeMode
import Squaero.Lib.Patterns

/-!
# Manual transactions

`frontend/src/utils/txMode.ts`, which decides how a statement is run from its scrubbed text
(`queryTarget.ts`), and the steps of `gridPaging.ts` that run a statement again.
-/

namespace Squaero.Front

open Squaero.Lib
open Gate.SafeMode (isRegexWord)

/-! ## Scrubbing -/

/-- `(?:''|[^'])*'`: the text behind the last quote that the backtracking finds. -/
def behindString : Pattern
  | [] => none
  | '\'' :: '\'' :: rest => (behindString rest).or (some ('\'' :: rest))
  | '\'' :: rest => some rest
  | _ :: rest => behindString rest

def stringLiteral : Pattern
  | '\'' :: rest => behindString rest
  | _ => none

/-- The replacements of `scrub` that look at the code. -/
def scrubCode (sql : Text) : Text :=
  replaceAll stringLiteral ['\'', '\''] (replaceAll (lineComment ['-', '-']) [' ']
    (replaceAll blockComment [' '] sql))

def scrub (sql : Text) : Text := jsTrim (replaceAll spaces [' '] (scrubCode sql))

/-- The text that decides. -/
def normalized (sql : Text) : Text :=
  jsLower ((scrub sql).rdropWhile fun c ↦ c = ';' || isJsSpace c)

/-! ## Statements of transactions -/

inductive TxVerb
  | begin
  | commit
  | rollback
  deriving DecidableEq, Repr

structure TxStatement where
  verb : TxVerb
  bare : Bool
  deriving DecidableEq, Repr

/-- `^phrase\b` matches. -/
def startsWith (phrase s : Text) : Bool :=
  phrase.isPrefixOf s && !(s.drop phrase.length).head?.any isRegexWord

/-- `\bphrase\b` matches. -/
def hasPhrase (phrase s : Text) : Bool := occursAfter isRegexWord phrase none s

def noise : List Text := ["work".toList, "transaction".toList, "tran".toList]

/-- One of `verbs`, with a noise word or without. -/
def isBare (verbs : List Text) (s : Text) : Bool :=
  verbs.any fun verb ↦
    let more := s.drop verb.length
    verb.isPrefixOf s && (more = [] || more.head?.any isJsSpace && more.dropWhile isJsSpace ∈ noise)

def bareBegin (s : Text) : Bool := isBare ["begin".toList] s || s = "start transaction".toList

def bareCommit (s : Text) : Bool := isBare ["commit".toList, "end".toList] s

def bareRollback (s : Text) : Bool := isBare ["rollback".toList, "abort".toList] s

def beginOptions : List Text :=
  ["start transaction".toList, "begin work".toList, "begin transaction".toList, "begin tran".toList,
    "begin deferred".toList, "begin immediate".toList, "begin exclusive".toList,
    "begin isolation".toList, "begin read".toList, "begin not".toList, "begin deferrable".toList]

def beginWithOptions (s : Text) : Bool := beginOptions.any (startsWith · s)

def classifyTxStatement (sql : Text) : Option TxStatement :=
  let s := normalized sql
  if bareBegin s then some ⟨.begin, true⟩
  else if bareCommit s then some ⟨.commit, true⟩
  else if bareRollback s then some ⟨.rollback, true⟩
  else if beginWithOptions s then some ⟨.begin, false⟩
  else none

def implicitCommits : List Text :=
  ["create".toList, "drop".toList, "alter".toList, "rename".toList, "truncate".toList,
    "grant".toList, "revoke".toList, "lock".toList, "unlock".toList]

def temporary : List Text := ["create temporary".toList, "drop temporary".toList]

def commitsImplicitly (sql engine : Text) : Bool :=
  if engineFamily engine ≠ "mysql".toList then false
  else implicitCommits.any (startsWith · (normalized sql)) && !temporary.any (startsWith · (normalized sql))

/-! ## Reads -/

def readVerbs : List Text :=
  ["select".toList, "show".toList, "describe".toList, "desc".toList, "explain".toList,
    "values".toList, "table".toList]

/-- `WRITING_SELECT`. -/
def writingPhrases : List Text :=
  ["for update".toList, "for share".toList, "for no key update".toList, "for key share".toList,
    "into".toList, "lock in".toList]

/-- `DML_WORD`. -/
def dmlWords : List Text :=
  ["insert".toList, "update".toList, "delete".toList, "merge".toList]

def readsOnly (sql : Text) : Bool :=
  let s := normalized sql
  if startsWith "with".toList s then !dmlWords.any (hasPhrase · s) && !writingPhrases.any (hasPhrase · s)
  else readVerbs.any (startsWith · s) && !writingPhrases.any (hasPhrase · s)

/-! ## Plans -/

structure TxEntry where
  sql : Text
  /-- The rows it changed, where the engine said. -/
  rows : Option ℤ
  deriving DecidableEq, Repr

structure TxSession where
  manual : Bool
  opened : Bool
  statements : ℕ
  log : List TxEntry
  deriving DecidableEq, Repr

inductive TxStep
  | tx (verb : TxVerb)
  | refuse
  | run (beginFirst opens implicitCommit : Bool)
  deriving DecidableEq, Repr

def planStatement (s : TxSession) (sql engine : Text) : TxStep :=
  match classifyTxStatement sql with
  | some ⟨.begin, bare⟩ =>
    if s.opened then .refuse else if bare then .tx .begin else .run false true false
  | some ⟨verb, _⟩ => .tx verb
  | none =>
    if commitsImplicitly sql engine then .run false false s.opened
    else .run (s.manual && !s.opened && !readsOnly sql) false false

/-! ## Running a statement again -/

def rerunnable (sql : Option Text) : Bool := sql.any fun sql ↦ sql ≠ [] && readsOnly sql

structure PageableResult (P : Type*) where
  pageSql : Option Text
  offset : Option ℚ
  pageSize : Option ℚ
  preview : Bool
  cursor : Bool
  /-- The pages that have been fetched, by their numbers. -/
  pages : Option (List (Option P))

inductive PageStep
  | cached (index : ℤ)
  | cursor (index offset : ℤ)
  | preview (index offset : ℤ)
  | query (index offset : ℤ)
  deriving DecidableEq, Repr

/-- The page `delta` steps on, 1 or -1. -/
def pageStep {P : Type*} (r : Option (PageableResult P)) (delta : ℤ) : Option PageStep :=
  r.bind fun r ↦
    let size := ⌊r.pageSize.getD 0⌋
    if size < 1 then none
    else
      -- `Math.round` takes a half up.
      let index := max 0 ⌊r.offset.getD 0 / size + 1 / 2⌋
      let target := index + delta
      let offset := target * size
      if target < 0 then none
      else if (r.pages.getD [])[target.toNat]?.join.isSome then some (.cached target)
      else if delta = 1 ∧ r.cursor ∧ r.pages.map (fun pages ↦ (pages.length : ℤ)) = some target then
        some (.cursor target offset)
      else if r.preview then some (.preview target offset)
      else if rerunnable r.pageSql then some (.query target offset)
      else none

inductive RefreshAction
  | preview (offset : ℚ)
  | query (sql : Text) (offset : ℚ)
  deriving DecidableEq, Repr

def refreshAction (pageSql : Option Text) (offset : Option ℚ) (preview : Bool) : Option RefreshAction :=
  if preview then some (.preview (offset.getD 0))
  else if rerunnable pageSql then some (.query (pageSql.getD []) (offset.getD 0))
  else none

/-! ## What readsOnly lets through -/

/-- Without a transaction around it, manual mode runs only what it takes for a read, besides the statements
that begin a transaction and those that commit by themselves. -/
theorem planStatement_unprotected {s : TxSession} {sql engine : Text} (hmanual : s.manual = true)
    (hclosed : s.opened = false) (hplan : planStatement s sql engine = .run false false false)
    (hcommits : commitsImplicitly sql engine = false) : readsOnly sql = true := by
  unfold planStatement at hplan
  split at hplan
  · simp only [hclosed, Bool.false_eq_true, if_false] at hplan
    split_ifs at hplan
    simp at hplan
  · exact absurd hplan nofun
  · simpa [hcommits, hmanual, hclosed] using hplan

theorem readsOnly_of_rerunnable {sql : Option Text} (h : rerunnable sql = true) :
    ∃ text, sql = some text ∧ readsOnly text = true := by
  cases sql with
  | none => exact absurd h (by decide)
  | some text =>
    have hboth : (decide (text ≠ []) && readsOnly text) = true := h
    rw [Bool.and_eq_true] at hboth
    exact ⟨text, rfl, hboth.2⟩

/-- A page turn executes a statement again only where it is taken for a read. -/
theorem pageStep_query {P : Type*} {r : PageableResult P} {delta index offset : ℤ}
    (h : pageStep (some r) delta = some (.query index offset)) :
    ∃ text, r.pageSql = some text ∧ readsOnly text = true := by
  unfold pageStep at h
  simp only [Option.bind_some] at h
  split_ifs at h with hsize htarget hcached hcursor hpreview hagain
  · exact absurd (Option.some.inj h) nofun
  · exact absurd (Option.some.inj h) nofun
  · exact absurd (Option.some.inj h) nofun
  · exact readsOnly_of_rerunnable hagain

/-- So does a refresh. -/
theorem refreshAction_query {pageSql : Option Text} {offset : Option ℚ} {preview : Bool} {sql : Text}
    {at' : ℚ} (h : refreshAction pageSql offset preview = some (.query sql at')) :
    pageSql = some sql ∧ readsOnly sql = true := by
  unfold refreshAction at h
  split_ifs at h with hpreview hagain
  · exact absurd (Option.some.inj h) nofun
  · obtain ⟨text, rfl, hreads⟩ := readsOnly_of_rerunnable hagain
    obtain ⟨rfl, rfl⟩ := RefreshAction.query.inj (Option.some.inj h)
    exact ⟨rfl, hreads⟩

end Squaero.Front
