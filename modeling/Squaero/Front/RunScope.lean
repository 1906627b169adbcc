import Squaero.Front.SqlVariables
import Squaero.Lib.ModeMachine
import Squaero.Lib.Patterns

/-!
# The statements of a script

`frontend/src/utils/runScope.ts`: one scanner cuts a script at its semicolons for every engine. The words
around the body of a routine are looked at only where a `;`, a `BEGIN` or an `END` asks, and the piece of
the script since the last cut is at hand there.
-/

namespace Squaero.Front

open Squaero.Lib

structure Statement where
  start : ℕ
  stop : ℕ
  text : Text
  deriving DecidableEq, Repr

inductive SplitState
  | normal
  | single
  | double
  | back
  | line
  | block
  deriving DecidableEq, Repr

/-! ## Routines -/

/-- `\w` with `$`. -/
def isSplitWord (c : Char) : Bool := c.isAlphanum || c = '_' || c = '$'

/-- `\b` holds between the two, case is ignored, and `word` stands at the start. -/
def wordHere (word : Text) (before : Option Char) (text : Text) : Bool :=
  !before.any Gate.SafeMode.isRegexWord && word.isPrefixOf (text.map Char.toLower) &&
    !(text.drop word.length).head?.any Gate.SafeMode.isRegexWord

def routineKinds : List Text :=
  ["procedure".toList, "function".toList, "trigger".toList, "event".toList]

/-- The first of the kinds, at most `fuel` characters on. -/
def kindWithin : ℕ → Option Char → Text → Option Text
  | _, _, [] => none
  | fuel, before, c :: rest =>
    match routineKinds.find? (wordHere · before (c :: rest)) with
    | some kind => some kind
    | none =>
      match fuel with
      | 0 => none
      | fuel + 1 => kindWithin fuel (some c) rest

/-- `ROUTINE_HEAD`: the kind, in small letters. -/
def routineHead : Option Char → Text → Option Text
  | _, [] => none
  | before, c :: rest =>
    (if wordHere "create".toList before (c :: rest) then
      kindWithin 300 (some 'e') ((c :: rest).drop 6)
    else none).or (routineHead (some c) rest)

structure Routine where
  /-- Not looked for yet, or what was found. -/
  kind : Option (Option Text)
  depth : ℕ
  sawBegin : Bool
  bodyDone : Bool
  deriving DecidableEq, Repr

def Routine.fresh : Routine := ⟨none, 0, false, false⟩

def Routine.look (r : Routine) (head : Text) : Routine :=
  ⟨some (r.kind.getD (routineHead none head)), r.depth, r.sawBegin, r.bodyDone⟩

/-- `routineKind`. -/
def Routine.found (r : Routine) : Option Text := r.kind.getD none

def endInner : List Text :=
  ["if".toList, "loop".toList, "while".toList, "foreach".toList, "for".toList, "case".toList,
    "repeat".toList, "exception".toList]

def endBody : List Text := ["procedure".toList, "function".toList, "trigger".toList]

/-- A `BEGIN` or an `END`; `after` follows it. -/
def Routine.word (r : Routine) (informix : Bool) (head word after : Text) : Routine :=
  let lower := word.map Char.toLower
  if lower = "begin".toList ∨ lower = "end".toList then
    let r := r.look head
    if r.found = none then r
    else if lower = "begin".toList then ⟨r.kind, r.depth + 1, true, r.bodyDone⟩
    else
      let after := jsTrimStart after
      if endInner.any (wordHere · none after) then r
      else if endBody.any (wordHere · none after) then ⟨r.kind, 0, r.sawBegin, true⟩
      else
        let depth := r.depth - 1
        let informixBody := informix && r.found ≠ some "trigger".toList
        ⟨r.kind, depth, r.sawBegin, r.bodyDone || (depth = 0 && !informixBody)⟩
  else r

/-- The semicolon separates nothing. -/
def Routine.inBody (r : Routine) (informix : Bool) : Bool :=
  r.found.isSome && !r.bodyDone &&
    (r.sawBegin || (informix && r.found.isSome && r.found ≠ some "trigger".toList))

/-! ## The scanner -/

structure Scanner where
  state : SplitState
  /-- How many characters an earlier one has taken along. -/
  skip : ℕ
  /-- The script since the last cut. -/
  head : Text
  /-- `sql[i - 1]` -/
  before : Option Char
  routine : Routine
  deriving DecidableEq, Repr

def Scanner.fresh : Scanner := ⟨.normal, 0, [], none, .fresh⟩

/-- On to the next character, `skip` more in one go. -/
def Scanner.go (m : Scanner) (c : Char) (state : SplitState) (skip : ℕ) : Scanner :=
  ⟨state, skip, m.head ++ [c], some c, m.routine⟩

/-- `^\$[A-Za-z_][A-Za-z0-9_]*\$|^\$\$`, behind the first `$`. -/
def dollarTag (rest : Text) : Option Text :=
  let tag := rest.takeWhile Gate.SafeMode.isRegexWord
  if tag.head?.all isWordChar && (rest.drop tag.length).head? = some '$' then some ('$' :: (tag ++ ['$']))
  else none

/-- How far a dollar quote goes behind its first `$`, if there is one. -/
def dollarQuote (rest : Text) : Option ℕ :=
  (dollarTag rest).bind fun tag ↦
    (behindFirst tag (rest.drop (tag.length - 1))).map fun behind ↦ rest.length - behind.length

def splitNormal (informix : Bool) (m : Scanner) (c : Char) (rest : Text) : Bool × Scanner :=
  if c = '\'' then (false, m.go c .single 0)
  else if c = '"' then (false, m.go c .double 0)
  else if c = '`' then (false, m.go c .back 0)
  else if c = '-' ∧ rest.head? = some '-' then (false, m.go c .line 1)
  else if c = '/' ∧ rest.head? = some '*' then (false, m.go c .block 1)
  else if c = '$' ∧ !m.before.any isSplitWord then (false, m.go c .normal ((dollarQuote rest).getD 0))
  else if c.isAlpha ∧ !m.before.any isSplitWord then
    let word := c :: rest.takeWhile Gate.SafeMode.isRegexWord
    let routine := m.routine.word informix m.head word (rest.dropWhile Gate.SafeMode.isRegexWord)
    (false, Scanner.go { m with routine } c .normal (word.length - 1))
  else if c = ';' then
    let routine := m.routine.look m.head
    if routine.inBody informix then (false, Scanner.go { m with routine } c .normal 0)
    else (true, ⟨.normal, 0, [], some c, .fresh⟩)
  else (false, m.go c .normal 0)

/-- Inside a quote that `q` closes. -/
def splitQuoted (q : Char) (escapes : Bool) (m : Scanner) (c : Char) (rest : Text) : Bool × Scanner :=
  if escapes ∧ c = '\\' then (false, m.go c m.state 1)
  else if c = q then
    if rest.head? = some q then (false, m.go c m.state 1) else (false, m.go c .normal 0)
  else (false, m.go c m.state 0)

def splitBlock (m : Scanner) (c : Char) (rest : Text) : Bool × Scanner :=
  if c = '*' ∧ rest.head? = some '/' then (false, m.go c .normal 1) else (false, m.go c .block 0)

/-- One character: whether the script is cut at it. -/
def splitStep (informix : Bool) : ModeMachine.Step Char Bool Scanner := fun m c rest ↦
  match m.skip with
  | skip + 1 => (false, m.go c m.state skip)
  | 0 =>
    match m.state with
    | .normal => splitNormal informix m c rest
    | .single => splitQuoted '\'' true m c rest
    | .double => splitQuoted '"' true m c rest
    | .back => splitQuoted '`' false m c rest
    | .line => (false, m.go c (if c = '\n' then .normal else .line) 0)
    | .block => splitBlock m c rest

/-- The loop from the character `i` on, `start` being where the statement starts. -/
def splitFrom (informix : Bool) (m : Scanner) (start i : ℕ) : Text → List Statement
  | [] => [⟨start, i, m.head⟩]
  | c :: rest =>
    match splitStep informix m c rest with
    | (true, next) => ⟨start, i, m.head⟩ :: splitFrom informix next (i + 1) (i + 1) rest
    | (false, next) => splitFrom informix next start (i + 1) rest

def splitStatements (sql engine : Text) : List Statement :=
  splitFrom (engineFamily engine = "informix".toList) .fresh 0 0 sql

/-! ## Comments -/

/-- `\{[^}]*\}` -/
def braceComment : Pattern
  | '{' :: rest => behindFirst ['}'] rest
  | _ => none

/-- The comments of an engine, the first that matches. -/
def commentPattern (engine : Text) : Pattern := fun text ↦
  let family := engineFamily engine
  (lineComment ['-', '-'] text).or
    ((if family = "mysql".toList then lineComment ['#'] text
      else if family = "informix".toList then braceComment text
      else none).or (blockComment text))

def isCommentOnly (sql engine : Text) : Bool := jsTrim (replaceAll (commentPattern engine) [] sql) = []

def runnableStatements (sql engine : Text) : List Text :=
  ((splitStatements sql engine).map fun s ↦ jsTrim s.text).filter fun s ↦ !isCommentOnly s engine

example : (splitStatements "a;'b;';-- c;\n$x$;$x$d".toList "mysql".toList).map (·.stop) = [1, 6, 21] := by
  decide +kernel

/-! ## Segments -/

/-- Statements one behind the other, with one semicolon between them. -/
def Contiguous (script : Text) : ℕ → List Statement → Prop
  | _, [] => False
  | start, [s] => s.start = start ∧ s.stop = script.length ∧ s.text = script.drop start
  | start, s :: more@(_ :: _) => s.start = start ∧ script[s.stop]? = some ';' ∧
      s.text = (script.take s.stop).drop start ∧ Contiguous script (s.stop + 1) more

/-- Either the script is cut at `c` and all starts again, or the character is taken along. -/
def CutsOrKeeps (m : Scanner) (c : Char) (result : Bool × Scanner) : Prop :=
  (c = ';' ∧ result = (true, ⟨.normal, 0, [], some c, .fresh⟩)) ∨
    ∃ next, result = (false, next) ∧ next.head = m.head ++ [c]

theorem splitNormal_cases (informix : Bool) (m : Scanner) (c : Char) (rest : Text) :
    CutsOrKeeps m c (splitNormal informix m c rest) := by
  have hkeep (next : Scanner) (h : next.head = m.head ++ [c]) : CutsOrKeeps m c (false, next) :=
    .inr ⟨next, rfl, h⟩
  unfold splitNormal
  iterate 7 refine iteInduction (fun _ ↦ hkeep _ rfl) fun _ ↦ ?_
  refine iteInduction (fun hc ↦ ?_) fun _ ↦ hkeep _ rfl
  exact iteInduction (fun _ ↦ hkeep _ rfl) fun _ ↦ .inl ⟨hc, rfl⟩

theorem splitQuoted_head (q : Char) (escapes : Bool) (m : Scanner) (c : Char) (rest : Text) :
    ∃ next, splitQuoted q escapes m c rest = (false, next) ∧ next.head = m.head ++ [c] := by
  unfold splitQuoted
  split_ifs <;> exact ⟨_, rfl, rfl⟩

theorem splitBlock_head (m : Scanner) (c : Char) (rest : Text) :
    ∃ next, splitBlock m c rest = (false, next) ∧ next.head = m.head ++ [c] := by
  unfold splitBlock
  split_ifs <;> exact ⟨_, rfl, rfl⟩

/-- A cut is made at a semicolon, and everything starts again there. -/
theorem splitStep_cases (informix : Bool) (m : Scanner) (c : Char) (rest : Text) :
    CutsOrKeeps m c (splitStep informix m c rest) := by
  obtain ⟨state, skip, head, before, routine⟩ := m
  cases skip with
  | succ skip => exact .inr ⟨_, rfl, rfl⟩
  | zero =>
    cases state with
    | normal => exact splitNormal_cases informix _ c rest
    | single => exact .inr (splitQuoted_head '\'' true _ c rest)
    | double => exact .inr (splitQuoted_head '"' true _ c rest)
    | back => exact .inr (splitQuoted_head '`' false _ c rest)
    | line => exact .inr ⟨_, rfl, rfl⟩
    | block => exact .inr (splitBlock_head _ c rest)

/-- The statements cover the script, with one semicolon between them. -/
theorem splitFrom_contiguous (informix : Bool) (script : Text) (m : Scanner) (start : ℕ) (before rest : Text)
    (hscript : script = before ++ rest) (hstart : start ≤ before.length) (hhead : m.head = before.drop start) :
    Contiguous script start (splitFrom informix m start before.length rest) := by
  induction rest generalizing m start before with
  | nil =>
    rw [List.append_nil] at hscript
    subst hscript
    rw [splitFrom, Contiguous]
    exact ⟨rfl, rfl, hhead⟩
  | cons c rest ih =>
    have hnext : script = (before ++ [c]) ++ rest := by simpa using hscript
    have hlength : (before ++ [c]).length = before.length + 1 := by simp
    rcases splitStep_cases informix m c rest with ⟨rfl, hstep⟩ | ⟨next, hstep, hkeep⟩
    · have hmore := ih ⟨.normal, 0, [], some ';', .fresh⟩ (before.length + 1) (before ++ [';']) hnext (by simp) (by simp)
      rw [hlength] at hmore
      rw [splitFrom, hstep]
      dsimp only
      generalize hlist : splitFrom informix ⟨.normal, 0, [], some ';', .fresh⟩ (before.length + 1)
        (before.length + 1) rest = more at hmore
      cases more with
      | nil => simp [Contiguous] at hmore
      | cons first more =>
        rw [Contiguous]
        exact ⟨rfl, by simp [hscript], by simp [hscript, hhead], hmore⟩
    · have hmore := ih next start (before ++ [c]) hnext (by simp; omega)
        (by rw [hkeep, hhead, List.drop_append_of_le_length hstart])
      rw [hlength] at hmore
      rw [splitFrom, hstep]
      exact hmore

theorem splitStatements_contiguous (script engine : Text) :
    Contiguous script 0 (splitStatements script engine) :=
  splitFrom_contiguous _ script .fresh 0 [] script rfl (Nat.zero_le _) rfl

end Squaero.Front
