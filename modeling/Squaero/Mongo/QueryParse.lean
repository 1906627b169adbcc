import Mathlib.Algebra.Group.Int.Defs
import Squaero.Lib.Text

/-!
# The command parser of the MongoDB driver

`drivers/mongodb/src/utils/query_parse.c`: a mongosh-style command is checked for its shape and cut
into argument texts. Pointers into the input are the text from there on, and the pair of a start
and an end is the text between them. Allocations do not fail.
-/

namespace Squaero.Mongo

open Squaero.Lib

/-- `mongo_op`. -/
inductive Op
  | find
  | aggregate
  | insertOne
  | insertMany
  | updateOne
  | updateMany
  | replaceOne
  | deleteOne
  | deleteMany
  | count
  | distinct
  | createIndex
  | dropIndex
  | getIndexes
  | drop
  | createCollection
  | createView
  | runCommand
  | rename
  | currentOp
  | killOp
  | setProfiling
  | getProfiling
  | collectionInfos
  deriving DecidableEq, Repr

/-- `mongo_query`. A limit or skip of -1 is unset. -/
structure Query where
  op : Op
  collection : Option Text
  filter : Option Text := none
  projection : Option Text := none
  sort : Option Text := none
  explain : Option Text := none
  limit : ℤ := -1
  skip : ℤ := -1
  args : List Text := []
  deriving DecidableEq, Repr

/-- `MONGO_PARSE_SYNTAX` and `MONGO_PARSE_UNSUPPORTED`. -/
inductive Rc
  | syntaxError
  | unsupported
  deriving DecidableEq, Repr

structure Failure where
  rc : Rc
  message : String
  deriving DecidableEq, Repr

def maxArgs : ℕ := 4

abbrev Parse := Except Failure

def syntaxError {α : Type} (message : String) : Parse α := .error ⟨.syntaxError, message⟩

def skipWs (p : Text) : Text := p.dropWhile isSpace

/-- `skip_ws_back` on the text in front of a pointer. -/
def skipWsBack (before : Text) : Text := before.rdropWhile isSpace

def trim (s : Text) : Text := skipWsBack (skipWs s)

/-! ## Brackets -/

def isOpener (c : Char) : Bool := c = '(' || c = '{' || c = '['

def isCloser (c : Char) : Bool := c = ')' || c = '}' || c = ']'

def closerOf (c : Char) : Char := if c = '(' then ')' else if c = '{' then '}' else ']'

def isQuote (c : Char) : Bool := c = '"' || c = '\''

/-- Where a scan over strings stands. -/
inductive Place
  | plain
  | string (quote : Char)
  /-- Behind the backslash of a string. -/
  | escape (quote : Char)
  deriving DecidableEq, Repr

/-- One character of a string and the place behind it. -/
def stringStep (quote c : Char) (rest : Text) : Place :=
  if c = quote then .plain else if c = '\\' ∧ rest ≠ [] then .escape quote else .string quote

/-- The loop of `match_bracket` with its stack: the text up to the outermost closer, and the text
behind it. -/
def matchLoop : Place → List Char → Text → Option (Text × Text)
  | _, _, [] => none
  | place, stack, c :: rest =>
    let go := fun (place : Place) (stack : List Char) ↦
      (matchLoop place stack rest).map fun r ↦ (c :: r.1, r.2)
    match place with
    | .escape quote => go (.string quote) stack
    | .string quote => go (stringStep quote c rest) stack
    | .plain =>
      if isQuote c then go (.string c) stack
      else if isOpener c then
        if 64 ≤ stack.length then none else go .plain (closerOf c :: stack)
      else if isCloser c then
        if stack.head? ≠ some c then none
        else if stack.length = 1 then some ([], rest)
        else go .plain stack.tail
      else go .plain stack

/-- `match_bracket` on a text that starts with an opening bracket: what stands between it and its
closer, and the text behind the closer. -/
def matchBracket (p : Text) : Option (Text × Text) :=
  (matchLoop .plain [] p).map fun r ↦ (r.1.drop 1, r.2)

example : matchBracket "(\x7ba: ')'\x7d, \"\\\")\").x".toList =
    some ("\x7ba: ')'\x7d, \"\\\")\"".toList, ".x".toList) := by decide

/-- The loop of `split_args` on what is left of the arguments; `tail` is the text from their closing
parenthesis on and `skip` counts the characters of a bracketed part still to pass. -/
def splitLoop (tail : Text) : ℕ → Place → Text → Option (List Text)
  | _, place, [] => if place = .plain then some [[]] else none
  | skip, place, c :: rest =>
    let go := fun (skip : ℕ) (place : Place) ↦
      (splitLoop tail skip place rest).map (·.modifyHead (c :: ·))
    match skip, place with
    | skip + 1, place => go skip place
    | 0, .escape quote => go 0 (.string quote)
    | 0, .string quote => go 0 (stringStep quote c rest)
    | 0, .plain =>
      if isOpener c then
        match matchBracket (c :: rest ++ tail) with
        | none => none
        | some (_, after) =>
          if after.length < tail.length then none
          else go (rest.length + tail.length - after.length) .plain
      else if isQuote c then go 0 (.string c)
      else if c = ',' then (splitLoop tail 0 .plain rest).map ([] :: ·)
      else go 0 .plain

/-- `split_args`: the arguments of `body`, not yet trimmed, where there are at most `maxArgs`. -/
def splitArgs (body tail : Text) : Option (List Text) :=
  if skipWs body = [] then some []
  else (splitLoop tail 0 .plain (skipWs body)).filter (·.length ≤ maxArgs)

/-! ## String literals -/

/-- `put_utf8`. -/
def putUtf8 (cp : ℕ) : Text :=
  if cp < 0x80 then [.ofNat cp]
  else if cp < 0x800 then [.ofNat (0xC0 + cp / 0x40), .ofNat (0x80 + cp % 0x40)]
  else if cp < 0x10000 then
    [.ofNat (0xE0 + cp / 0x1000), .ofNat (0x80 + cp / 0x40 % 0x40), .ofNat (0x80 + cp % 0x40)]
  else
    [.ofNat (0xF0 + cp / 0x40000), .ofNat (0x80 + cp / 0x1000 % 0x40),
      .ofNat (0x80 + cp / 0x40 % 0x40), .ofNat (0x80 + cp % 0x40)]

/-- `hex4`: the number the first four characters write. -/
def hex4 (p : Text) : Option ℕ :=
  if p.length < 4 then none
  else (p.take 4).foldlM (fun v c ↦ (hexDigit c).map (v * 16 + ·)) 0

/-- The code point behind a backslash and a `u`, and how many characters write it. -/
def unicodeEscape (p : Text) : Option (ℕ × ℕ) :=
  (hex4 p).map fun cp ↦
    match hex4 (p.drop 6) with
    | some lo =>
      if 0xD800 ≤ cp ∧ cp ≤ 0xDBFF ∧ (p.drop 4).take 2 = ['\\', 'u'] ∧ 0xDC00 ≤ lo ∧
          lo ≤ 0xDFFF then
        (0x10000 + (cp - 0xD800) * 0x400 + (lo - 0xDC00), 10)
      else (cp, 4)
    | none => (cp, 4)

def simpleEscape (c : Char) : Char :=
  if c = 'n' then '\n'
  else if c = 'r' then '\r'
  else if c = 't' then '\t'
  else if c = 'b' then '\x08'
  else if c = 'f' then '\x0c'
  else c

/-- The loop of `mongo_unquote`: the bytes up to the closing quote, decoded, and the text behind
it. -/
def unquoteLoop (quote : Char) : ℕ → Bool → Text → Option (Text × Text)
  | _, _, [] => none
  | skip + 1, escaped, _ :: rest => unquoteLoop quote skip escaped rest
  | 0, true, c :: rest =>
    if c = 'u' then
      match unicodeEscape rest with
      | none => none
      | some (cp, used) => (unquoteLoop quote used false rest).map fun r ↦ (putUtf8 cp ++ r.1, r.2)
    else (unquoteLoop quote 0 false rest).map fun r ↦ (simpleEscape c :: r.1, r.2)
  | 0, false, c :: rest =>
    if c = quote then some ([], rest)
    else if c = '\\' then unquoteLoop quote 0 true rest
    else (unquoteLoop quote 0 false rest).map fun r ↦ (c :: r.1, r.2)

/-- `mongo_unquote`. -/
def unquote (lit : Text) : Option Text :=
  match skipWs lit with
  | [] => none
  | quote :: rest =>
    if !isQuote quote then none
    else
      match unquoteLoop quote 0 false rest with
      | none => none
      | some (out, after) => if skipWs after = [] then some (cString out) else none

/-! ## Chained calls -/

def explainVerbosityOk (v : Text) : Bool :=
  v = "queryPlanner".toList || v = "executionStats".toList || v = "allPlansExecution".toList

def setExplain (arg : Text) (out : Query) : Parse Query :=
  if arg = [] then .ok { out with explain := some "queryPlanner".toList }
  else
    match (unquote arg).filter explainVerbosityOk with
    | some verbosity => .ok { out with explain := some verbosity }
    | none =>
      syntaxError
        "explain() takes \"queryPlanner\", \"executionStats\" or \"allPlansExecution\""

/-- `LONG_MAX` where `long` has 64 bits. -/
def longMax : ℤ := 2 ^ 63 - 1

/-- `strtol` in base ten: the number and the text behind it, the whole text where there is none. -/
def strtol (arg : Text) : ℤ × Text :=
  let s := skipWs arg
  let signed := s.head? = some '-' ∨ s.head? = some '+'
  let unsigned := if signed then s.drop 1 else s
  let digits := unsigned.takeWhile Char.isDigit
  if digits = [] then (0, arg)
  else
    let magnitude : ℤ := digits.foldl (fun n c ↦ n * 10 + (c.toNat - '0'.toNat : ℕ)) 0
    let value := if s.head? = some '-' then -magnitude else magnitude
    (max (-longMax - 1) (min longMax value), unsigned.drop digits.length)

/-- One chained call of `parse_chain`. -/
def chainCall (explainOnly : Bool) (name arg : Text) (out : Query) : Parse Query :=
  if name = "explain".toList then setExplain arg out
  else if explainOnly then syntaxError "aggregate() accepts only a trailing .explain()"
  else if name = "sort".toList then .ok { out with sort := some arg }
  else if name = "limit".toList ∨ name = "skip".toList then
    let (v, rest) := strtol arg
    if arg = [] ∨ skipWs rest ≠ [] ∨ v < 0 then
      syntaxError "limit()/skip() take a non-negative integer"
    else if name = "limit".toList then .ok { out with limit := v }
    else .ok { out with skip := v }
  else syntaxError "unsupported chained method (only sort/skip/limit/explain)"

/-- `parse_chain`; each round reads at least a dot, so fuel above the length does not run out. -/
def parseChain (explainOnly : Bool) : ℕ → Text → Query → Parse Query
  | 0, _, out => .ok out
  | fuel + 1, p, out =>
    let p := skipWs p
    if p = [] ∨ p.head? = some ';' then .ok out
    else if out.explain.isSome then
      syntaxError "explain() must be the last call of the query"
    else if p.head? ≠ some '.' then
      syntaxError "unexpected trailing characters after the query"
    else
      let p := skipWs (p.drop 1)
      let name := p.takeWhile Char.isAlpha
      let p := skipWs (p.dropWhile Char.isAlpha)
      if p.head? ≠ some '(' then syntaxError "expected '(' after chained method"
      else
        match matchBracket p with
        | none => syntaxError "unbalanced parentheses in chained method"
        | some (raw, after) =>
          match chainCall explainOnly name (trim raw) out with
          | .error failure => .error failure
          | .ok out => parseChain explainOnly fuel after out

theorem matchLoop_length {place : Place} {stack : List Char} {p : Text} {r : Text × Text}
    (h : matchLoop place stack p = some r) : r.2.length < p.length := by
  induction p generalizing place stack r with
  | nil => simp [matchLoop] at h
  | cons c rest ih =>
    have hgo : ∀ {place : Place} {stack : List Char},
        (matchLoop place stack rest).map (fun r ↦ (c :: r.1, r.2)) = some r →
          r.2.length < (c :: rest).length := by
      intro place stack hmap
      obtain ⟨inner, hinner, rfl⟩ := Option.map_eq_some_iff.1 hmap
      exact (ih hinner).trans (Nat.lt_succ_self _)
    cases place with
    | escape quote => exact hgo h
    | string quote => exact hgo h
    | plain =>
      simp only [matchLoop] at h
      split_ifs at h
      · exact hgo h
      · exact hgo h
      · cases h
        exact Nat.lt_succ_self _
      · exact hgo h
      · exact hgo h

theorem matchBracket_length {p raw after : Text} (h : matchBracket p = some (raw, after)) :
    after.length < p.length := by
  obtain ⟨r, hr, heq⟩ := Option.map_eq_some_iff.1 h
  cases heq
  exact matchLoop_length hr

/-- Fuel above the length of the text is never used up. -/
theorem parseChain_succ (explainOnly : Bool) {fuel : ℕ} {p : Text} (h : p.length < fuel)
    (out : Query) : parseChain explainOnly (fuel + 1) p out = parseChain explainOnly fuel p out := by
  induction fuel generalizing p out with
  | zero => simp at h
  | succ fuel ih =>
    rw [parseChain, parseChain]
    dsimp only
    split_ifs
    · rfl
    · rfl
    · rfl
    · rfl
    · split
      · rfl
      next hmatch =>
        split
        · rfl
        · apply ih
          have hafter := matchBracket_length hmatch
          have hshorter : (skipWs ((skipWs ((skipWs p).drop 1)).dropWhile Char.isAlpha)).length ≤
              p.length := by
            refine (List.dropWhile_sublist _).length_le.trans ?_
            refine (List.dropWhile_sublist _).length_le.trans ?_
            refine (List.dropWhile_sublist _).length_le.trans ?_
            exact (List.drop_sublist 1 _).length_le.trans (List.dropWhile_sublist _).length_le
          omega

/-! ## Methods -/

/-- `method_def`. -/
structure MethodDef where
  name : String
  op : Op
  needsColl : Bool
  minArgs : ℕ
  shapes : Text
  deriving DecidableEq, Repr

/-- `k_methods`. -/
def methods : List MethodDef :=
  [⟨"insertOne", .insertOne, true, 1, "dd".toList⟩,
    ⟨"insertMany", .insertMany, true, 1, "ad".toList⟩,
    ⟨"updateOne", .updateOne, true, 2, "dud".toList⟩,
    ⟨"updateMany", .updateMany, true, 2, "dud".toList⟩,
    ⟨"replaceOne", .replaceOne, true, 2, "ddd".toList⟩,
    ⟨"deleteOne", .deleteOne, true, 1, "dd".toList⟩,
    ⟨"deleteMany", .deleteMany, true, 1, "dd".toList⟩,
    ⟨"countDocuments", .count, true, 0, "dd".toList⟩,
    ⟨"distinct", .distinct, true, 1, "sdd".toList⟩,
    ⟨"createIndex", .createIndex, true, 1, "dd".toList⟩,
    ⟨"dropIndex", .dropIndex, true, 1, "x".toList⟩,
    ⟨"getIndexes", .getIndexes, true, 0, []⟩,
    ⟨"drop", .drop, true, 0, "d".toList⟩,
    ⟨"createCollection", .createCollection, false, 1, "sd".toList⟩,
    ⟨"runCommand", .runCommand, false, 1, "xd".toList⟩,
    ⟨"createView", .createView, false, 3, "ssad".toList⟩,
    ⟨"renameCollection", .rename, true, 1, "sb".toList⟩,
    ⟨"currentOp", .currentOp, false, 0, "d".toList⟩,
    ⟨"killOp", .killOp, false, 1, "o".toList⟩,
    ⟨"setProfilingLevel", .setProfiling, false, 1, "nq".toList⟩,
    ⟨"getProfilingStatus", .getProfiling, false, 0, []⟩,
    ⟨"getCollectionInfos", .collectionInfos, false, 0, "dd".toList⟩]

def findMethod (name : Text) : Option MethodDef := methods.find? (·.name.toList = name)

def isNumberText (text : Text) : Bool :=
  let p := if text.head? = some '-' then text.drop 1 else text
  p.head?.any Char.isDigit && p.all fun c ↦ c.isDigit || c = '.'

def shapeOk (shape : Char) (text : Text) : Bool :=
  let quoted := text.head?.any isQuote
  let document := text.head? = some '{'
  let array := text.head? = some '['
  match shape with
  | 'n' => isNumberText text
  | 'o' => isNumberText text || quoted
  | 'q' => isNumberText text || document
  | 'b' => text = "true".toList || text = "false".toList
  | 'd' => document
  | 'a' => array
  | 'u' => document || array
  | 's' => quoted
  | _ => document || quoted

def shapeName (shape : Char) : String :=
  match shape with
  | 'd' => "a document"
  | 'a' => "an array"
  | 'u' => "an update document or pipeline"
  | 's' => "a string"
  | 'n' => "a number"
  | 'o' => "a number or a string"
  | 'q' => "a number or a document"
  | 'b' => "true or false"
  | _ => "a document or a string"

def plural (n : ℕ) : String := if n = 1 then "" else "s"

/-- The arguments of `parse_generic` from number `i` on, against their shapes. -/
def checkShapes (m : MethodDef) : ℕ → List Char → List Text → Parse (List Text)
  | i, shape :: shapes, arg :: args =>
    let arg := trim arg
    if !shapeOk shape arg then
      syntaxError s!"argument {i + 1} of {m.name}() must be {shapeName shape}"
    else (checkShapes m (i + 1) shapes args).map (arg :: ·)
  | _, _, _ => .ok []

def parseGeneric (m : MethodDef) (args : Option (List Text)) (out : Query) : Parse Query :=
  let maxArgs := m.shapes.length
  match args.filter (·.length ≤ maxArgs) with
  | none => syntaxError s!"{m.name}() takes at most {maxArgs} argument{plural maxArgs}"
  | some args =>
    if args.length < m.minArgs then
      syntaxError s!"{m.name}() needs at least {m.minArgs} argument{plural m.minArgs}"
    else (checkShapes m 0 m.shapes args).map fun args ↦ { out with args := args }

/-! ## Commands -/

/-- The call a command starts with: `collection` is none at the level of the database, and `paren`
is the text from the opening parenthesis on. -/
structure Call where
  collection : Option Text
  method : Text
  paren : Text
  deriving DecidableEq, Repr

/-- `coll_start` is `getCollection` and, behind blanks, a parenthesis. -/
def isGetCollection (collStart : Text) : Bool :=
  "getCollection".toList.isPrefixOf collStart && (skipWs (collStart.drop 13)).head? = some '('

/-- The name in `getCollection("name").` and the text behind the dot. -/
def parseNamed (collStart : Text) : Parse (Text × Text) :=
  let failed := syntaxError "expected db.getCollection(\"name\").<method>(...)"
  match matchBracket (skipWs (collStart.drop 13)) with
  | none => failed
  | some (lit, rest) =>
    let after := skipWs rest
    match unquote lit with
    | none => failed
    | some name =>
      if name = [] ∨ after.head? ≠ some '.' then failed else .ok (name, skipWs (after.drop 1))

/-- The operation is the identifier in front of the first parenthesis, the collection what stands
between `db.` and the dot in front of that identifier. -/
def locateMethod (named : Option Text) (collStart : Text) : Parse Call :=
  let before := skipWsBack (collStart.takeWhile (· ≠ '('))
  let method := before.rtakeWhile Char.isAlpha
  let m := before.rdropWhile Char.isAlpha
  let dbLevel := named = none ∧ m = []
  if '(' ∉ collStart then
    syntaxError "expected a call such as 'db.<collection>.find(...)'"
  else if method = [] ∨ named ≠ none ∧ m ≠ [] ∨
      named = none ∧ ¬ dbLevel ∧ m.getLast? ≠ some '.' then
    syntaxError "expected 'db.<collection>.<method>(...)'"
  else if named = none ∧ ¬ dbLevel ∧ m.length ≤ 1 then syntaxError "missing collection name"
  else
    .ok {
      collection := if dbLevel then none else some (named.getD m.dropLast)
      method := method
      paren := collStart.dropWhile (· ≠ '(') }

def parseCall (input : Text) : Parse Call :=
  let p := skipWs input
  if !"db.".toList.isPrefixOf p then
    syntaxError "query must start with 'db.<collection>.' or 'db.'"
  else if isGetCollection (p.drop 3) then
    match parseNamed (p.drop 3) with
    | .error failure => .error failure
    | .ok (name, collStart) => locateMethod (some name) collStart
  else locateMethod none (p.drop 3)

def unsupportedMessage (method : Text) : String :=
  s!"unsupported operation '{String.ofList method}' (supported: find, findOne, aggregate, " ++
    "countDocuments, distinct, insertOne/Many, updateOne/Many, replaceOne, " ++
    "deleteOne/Many, createIndex, dropIndex, getIndexes, drop, " ++
    "renameCollection, createCollection, createView, runCommand, " ++
    "currentOp, killOp, setProfilingLevel, getProfilingStatus, " ++
    "getCollectionInfos)"

/-- The driver's other methods. -/
def finishGeneric (call : Call) : Parse Query :=
  match findMethod call.method with
  | none => .error ⟨.unsupported, unsupportedMessage call.method⟩
  | some m =>
    if m.needsColl = call.collection.isNone then
      syntaxError (if m.needsColl then
        s!"{m.name}() runs on a collection: db.<collection>.{m.name}(...)"
      else s!"{m.name}() runs on the database: db.{m.name}(...)")
    else
      match matchBracket call.paren with
      | none => syntaxError "unbalanced parentheses"
      | some (body, after) =>
        let out : Query := { op := m.op, collection := call.collection }
        match parseGeneric m (splitArgs body (')' :: after)) out with
        | .error failure => .error failure
        | .ok out =>
          let rest := skipWs after
          if rest ≠ [] ∧ rest.head? ≠ some ';' then
            syntaxError "unexpected characters after the call"
          else .ok out

/-- `aggregate(pipeline)`, and a trailing `explain`. -/
def finishAggregate (call : Call) : Parse Query :=
  if call.collection = none then
    syntaxError "expected 'db.<collection>.find/aggregate(...)'"
  else
    match matchBracket call.paren with
    | none => syntaxError "unbalanced parentheses"
    | some (body, after) =>
      match (splitArgs body (')' :: after)).filter (·.length ≤ 1) with
      | none => syntaxError "aggregate() takes a single pipeline array"
      | some args =>
        parseChain true (after.length + 1) after {
          op := .aggregate
          collection := call.collection
          filter := some (match args with
            | [] => "[]".toList
            | arg :: _ => trim arg) }

/-- The query of `find(filter, projection)`: an empty filter is the empty document. -/
def findQuery (collection : Option Text) (args : List Text) : Query :=
  let filter := trim (args.head?.getD [])
  let projection := trim (args[1]?.getD [])
  { op := .find
    collection := collection
    filter := some (if filter = [] then "\x7b\x7d".toList else filter)
    projection := if projection = [] then none else some projection }

/-- `find` with its chain, and `findOne`. -/
def finishFind (call : Call) (isFindOne : Bool) : Parse Query :=
  if call.collection = none then
    syntaxError "expected 'db.<collection>.find/aggregate(...)'"
  else
    match matchBracket call.paren with
    | none => syntaxError "unbalanced parentheses"
    | some (body, after) =>
      match (splitArgs body (')' :: after)).filter (·.length ≤ 2) with
      | none =>
        syntaxError (if isFindOne then "findOne() takes at most a filter and a projection"
          else "find() takes at most a filter and a projection")
      | some args =>
        let out := findQuery call.collection args
        if isFindOne then
          let rest := skipWs after
          if rest ≠ [] ∧ rest.head? ≠ some ';' then
            syntaxError "unexpected characters after findOne()"
          else .ok { out with limit := 1 }
        else parseChain false (after.length + 1) after out

/-- `mongo_query_parse` on the bytes of a C string. -/
def mongoQueryParse (input : Text) : Parse Query :=
  match parseCall input with
  | .error failure => .error failure
  | .ok call =>
    if call.method = "find".toList then finishFind call false
    else if call.method = "findOne".toList then finishFind call true
    else if call.method = "aggregate".toList then finishAggregate call
    else finishGeneric call

end Squaero.Mongo
