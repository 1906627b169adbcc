import Squaero.Front.Edit
import Squaero.Lib.SqlMisread
import Mathlib.Data.List.ModifyLast

/-!
# Filters

`renderWhere` of `frontend/src/utils/queryBuilder.ts`: the criteria of the filter panel as the body of a
`WHERE`. The strings double their quotes and leave backslashes alone, which MySQL takes for escapes, so
there a filter says what the panel shows exactly when no string has a backslash that means something else.
-/

namespace Squaero.Front

open Squaero.Lib Squaero.Lib.SqlLex

inductive Operator
  | eq
  | ne
  | lt
  | gt
  | le
  | ge
  | like
  | contains
  | startsWith
  | between
  | isIn
  | isNull
  | isNotNull
  deriving DecidableEq, Repr

def Operator.text : Operator → Text
  | .eq => "=".toList
  | .ne => "!=".toList
  | .lt => "<".toList
  | .gt => ">".toList
  | .le => "<=".toList
  | .ge => ">=".toList
  | .like => "LIKE".toList
  | .contains => "CONTAINS".toList
  | .startsWith => "STARTS_WITH".toList
  | .between => "BETWEEN".toList
  | .isIn => "IN".toList
  | .isNull => "IS NULL".toList
  | .isNotNull => "IS NOT NULL".toList

inductive Join
  | and
  | or
  deriving DecidableEq, Repr

structure Condition where
  column : Text
  op : Operator
  value : Text
  enabled : Option Bool
  join : Option Join

/-- `quoteIdentifier` of `schema.ts`. -/
def quoteIdentifier (id engine : Text) : Text :=
  let twice (close : Char) : Text := id.flatMap fun c ↦ if c = close then [c, c] else [c]
  let e := jsLower engine
  if e = "mysql".toList ∨ e = "mariadb".toList then '`' :: (twice '`' ++ ['`'])
  else if e = "mssql".toList then '[' :: (twice ']' ++ [']'])
  else if e = "informix".toList then id
  else '"' :: (twice '"' ++ ['"'])

/-- `classifyType(type) === "number"`. -/
def isNumberType (type : Text) : Bool :=
  jsLower type = "int".toList || jsLower type = "float".toList

/-- `/^\d+(\.\d+)?$/`. -/
def isPlainDecimal (text : Text) : Bool :=
  let whole := text.takeWhile Char.isDigit
  let rest := text.dropWhile Char.isDigit
  whole ≠ [] &&
    match rest with
    | [] => true
    | '.' :: fraction => fraction ≠ [] && fraction.all Char.isDigit
    | _ => false

/-- `/^-?\d+(\.\d+)?$/`. -/
def isPlainNumber : Text → Bool
  | '-' :: text => isPlainDecimal text
  | text => isPlainDecimal text

def sqlLiteral (value : Text) (type : Option Text) : Text :=
  if type.any isNumberType ∧ isPlainNumber (jsTrim value) then jsTrim value
  else '\'' :: (doubled value ++ ['\''])

/-- The declared type of `column`, matched case-insensitively as catalogs vary. -/
def typeOf (types : Option ColumnTypes) (column : Text) : Option Text :=
  types.bind fun types ↦ (types.find? fun (k, _) ↦ jsLower k = jsLower column).map Prod.snd

/-- The items of an `IN` list. -/
def listItems (value : Text) : List Text := ((value.splitOn ',').map jsTrim).filter (· ≠ [])

/-- How a `BETWEEN` row's two bounds travel inside one value. -/
def rangeSeparator : Char := '…'

/-- The two bounds, unless one of them is missing. -/
def rangeBounds (value : Text) : Option (Text × Text) :=
  match (value.splitOn rangeSeparator).map jsTrim with
  | low :: high :: _ => if low = [] ∨ high = [] then none else some (low, high)
  | _ => none

/-- The pattern of `CONTAINS` and `STARTS_WITH`. -/
def likePattern (op : Operator) (value : Text) : Text :=
  (if op = .contains then ['%'] else []) ++ value ++ ['%']

section

variable (engine : Text) (types : Option ColumnTypes)

/-- Empty for a criterion that says nothing. -/
def renderCondition (c : Condition) : Text :=
  if jsTrim c.column = [] then []
  else
    let col := quoteIdentifier c.column engine
    let lit (v : Text) : Text := sqlLiteral v (typeOf types c.column)
    match c.op with
    | .isNull | .isNotNull => col ++ ' ' :: c.op.text
    | .isIn =>
      let items := (listItems c.value).map lit
      if items = [] then [] else col ++ (" IN (".toList ++ (", ".toList.intercalate items ++ [')']))
    | .contains | .startsWith =>
      if jsTrim c.value = [] then []
      else col ++ (" LIKE ".toList ++ sqlLiteral (likePattern c.op c.value) none)
    | .between =>
      match rangeBounds c.value with
      | none => []
      | some (low, high) => col ++ (" BETWEEN ".toList ++ (lit low ++ (" AND ".toList ++ lit high)))
    | .eq | .ne | .lt | .gt | .le | .ge | .like => col ++ (' ' :: c.op.text ++ (' ' :: lit c.value))

/-- An item behind the groups so far: an `OR` opens a group, an `AND` goes on with the last one. -/
def addToGroups {α : Type} (groups : List (List α)) (row : Join × α) : List (List α) :=
  if groups = [] ∨ row.1 = .or then groups ++ [[row.2]] else groups.modifyLast (· ++ [row.2])

/-- The criteria that are on and say something, each with how it joins the one before it. -/
def rendered (conditions : List Condition) (conjunction : Join) : List (Join × Text) :=
  conditions.filterMap fun c ↦
    let sql := renderCondition engine types c
    if c.enabled = some false ∨ sql = [] then none else some (c.join.getD conjunction, sql)

def renderGroup (group : List Text) : Text :=
  if 1 < group.length then '(' :: (" AND ".toList.intercalate group ++ [')'])
  else group.headD []

def renderWhere (conditions : List Condition) (conjunction : Join) : Text :=
  match (rendered engine types conditions conjunction).foldl addToGroups [] with
  | [group] => " AND ".toList.intercalate group
  | groups => " OR ".toList.intercalate (groups.map renderGroup)

end

/-! ## What the panel says -/

inductive Literal
  | text (value : Text)
  | number (value : Text)
  deriving DecidableEq, Repr, Inhabited

/-- One criterion, with its values taken apart. -/
inductive Atom
  | compare (column op : Text) (value : Literal)
  | isNull (column : Text)
  | isNotNull (column : Text)
  | oneOf (column : Text) (values : List Literal)
  | between (column : Text) (low high : Literal)
  deriving DecidableEq, Repr, Inhabited

/-- A value is a number where the column's type says so and it is one, else the text as it is. -/
def literalOf (value : Text) (type : Option Text) : Literal :=
  if type.any isNumberType ∧ isPlainNumber (jsTrim value) then .number (jsTrim value)
  else .text value

def atomOf (types : Option ColumnTypes) (c : Condition) : Option Atom :=
  if jsTrim c.column = [] then none
  else
    let lit (v : Text) : Literal := literalOf v (typeOf types c.column)
    match c.op with
    | .isNull => some (.isNull c.column)
    | .isNotNull => some (.isNotNull c.column)
    | .isIn => if listItems c.value = [] then none else some (.oneOf c.column ((listItems c.value).map lit))
    | .contains | .startsWith =>
      if jsTrim c.value = [] then none
      else some (.compare c.column "LIKE".toList (.text (likePattern c.op c.value)))
    | .between => (rangeBounds c.value).map fun (low, high) ↦ .between c.column (lit low) (lit high)
    | .eq | .ne | .lt | .gt | .le | .ge | .like => some (.compare c.column c.op.text (lit c.value))

/-- The criteria that are on and say something, each with how it joins the one before it. -/
def panelRows (types : Option ColumnTypes) (conditions : List Condition) (conjunction : Join) :
    List (Join × Atom) :=
  conditions.filterMap fun c ↦
    if c.enabled = some false then none
    else (atomOf types c).map fun atom ↦ (c.join.getD conjunction, atom)

inductive Expr
  | atom (a : Atom)
  | and (left right : Expr)
  | or (left right : Expr)
  deriving DecidableEq, Repr, Inhabited

/-- Rows behind `done`, the alternatives before the current run of `AND`s, and that run. -/
def panelFrom (done : Option Expr) (run : Expr) : List (Join × Atom) → Expr
  | [] => done.elim run (.or · run)
  | (.and, a) :: rows => panelFrom done (.and run (.atom a)) rows
  | (.or, a) :: rows => panelFrom (some (done.elim run (.or · run))) (.atom a) rows

/-- Each row joined to the one before it, with `AND` binding tighter. -/
def panelExpr : List (Join × Atom) → Option Expr
  | [] => none
  | (_, a) :: rows => some (panelFrom none (.atom a) rows)

/-! ## What an engine reads -/

/-- The lexical rules of an engine, by the name of its driver. -/
def dialectOf (engine : Text) : Dialect :=
  let e := jsLower engine
  if e = "mysql".toList ∨ e = "mariadb".toList then mysql
  else if e = "mssql".toList then transactSql
  else if e = "informix".toList then informix
  else ansi

def parseColumn : List Token → Option (Text × List Token)
  | .ident name :: rest => some (name, rest)
  | .word name :: rest => some (name, rest)
  | _ => none

def parseLiteral : List Token → Option (Literal × List Token)
  | .str text :: rest => some (.text text, rest)
  | .num text :: rest => some (.number text, rest)
  | .op sign :: .num text :: rest => if sign = ['-'] then some (.number (sign ++ text), rest) else none
  | _ => none

def parseAtom (tokens : List Token) : Option (Atom × List Token) := do
  let (column, rest) ← parseColumn tokens
  match rest with
  | .op op :: rest =>
    let (value, rest) ← parseLiteral rest
    some (.compare column op value, rest)
  | verb :: rest =>
    if verb = keyword "LIKE" then
      let (value, rest) ← parseLiteral rest
      some (.compare column "LIKE".toList value, rest)
    else if verb = keyword "IS" then
      match eat (keyword "NOT") rest with
      | none =>
        let rest ← eat (keyword "NULL") rest
        some (.isNull column, rest)
      | some rest =>
        let rest ← eat (keyword "NULL") rest
        some (.isNotNull column, rest)
    else if verb = keyword "IN" then
      let rest ← eat (.punct '(') rest
      let (values, rest) ← parseSeparated parseLiteral (.punct ',') rest.length rest
      let rest ← eat (.punct ')') rest
      some (.oneOf column values, rest)
    else if verb = keyword "BETWEEN" then
      let (low, rest) ← parseLiteral rest
      let rest ← eat (keyword "AND") rest
      let (high, rest) ← parseLiteral rest
      some (.between column low high, rest)
    else none
  | [] => none

/-- Operands of one operator, taken together from the left. -/
def chain (op : Expr → Expr → Expr) : List Expr → Option Expr
  | [] => none
  | first :: rest => some (rest.foldl op first)

def parseChain (op : Expr → Expr → Expr) (sep : Token)
    (item : List Token → Option (Expr × List Token)) (tokens : List Token) :
    Option (Expr × List Token) := do
  let (items, rest) ← parseSeparated item sep tokens.length tokens
  let e ← chain op items
  some (e, rest)

/-- `OR` over `AND` over the items. -/
def parseOr (item : List Token → Option (Expr × List Token)) :
    List Token → Option (Expr × List Token) :=
  parseChain .or (keyword "OR") (parseChain .and (keyword "AND") item)

/-- A criterion, or an expression in parentheses as deep as the fuel. -/
def parsePrimary : ℕ → List Token → Option (Expr × List Token)
  | 0, _ => none
  | fuel + 1, tokens =>
    match eat (.punct '(') tokens with
    | some rest => do
      let (e, rest) ← parseOr (parsePrimary fuel) rest
      let rest ← eat (.punct ')') rest
      some (e, rest)
    | none => (parseAtom tokens).map fun (a, rest) ↦ (.atom a, rest)

def parseFilter (tokens : List Token) : Option Expr := do
  let (e, rest) ← parseOr (parsePrimary tokens.length) tokens
  if rest = [] then some e else none

/-! ## The tokens of a filter -/

def columnToken (engine column : Text) : Token :=
  if jsLower engine = "informix".toList then .word column else .ident column

def literalTokens : Literal → List Token
  | .text value => [.str value]
  | .number value => numberTokens value

def opToken (op : Text) : Token := if op = "LIKE".toList then keyword "LIKE" else .op op

def atomTokens (engine : Text) : Atom → List Token
  | .compare column op value => columnToken engine column :: opToken op :: literalTokens value
  | .isNull column => [columnToken engine column, keyword "IS", keyword "NULL"]
  | .isNotNull column => [columnToken engine column, keyword "IS", keyword "NOT", keyword "NULL"]
  | .oneOf column values =>
    columnToken engine column :: keyword "IN" :: .punct '(' ::
      ([Token.punct ','].intercalate (values.map literalTokens) ++ [.punct ')'])
  | .between column low high =>
    columnToken engine column :: keyword "BETWEEN" ::
      (literalTokens low ++ keyword "AND" :: literalTokens high)

def runTokens (engine : Text) (run : List Atom) : List Token :=
  [keyword "AND"].intercalate (run.map (atomTokens engine))

def groupTokens (engine : Text) (group : List Atom) : List Token :=
  if 1 < group.length then .punct '(' :: (runTokens engine group ++ [.punct ')'])
  else runTokens engine group

/-- The criteria in their order, each with exactly its column, its operator and its literals, and
between them the connectives with the parentheses of the text. -/
def filterTokens (engine : Text) (rows : List (Join × Atom)) : List Token :=
  match rows.foldl addToGroups [] with
  | [group] => runTokens engine group
  | groups => [keyword "OR"].intercalate (groups.map (groupTokens engine))

/-! ## When a filter reads as the panel shows it -/

/-- The engines whose strings have backslash escapes. -/
def escapes (engine : Text) : Prop :=
  jsLower engine = "mysql".toList ∨ jsLower engine = "mariadb".toList

/-- Where a backslash escapes, each backslash of a string is before a `%` or `_`. -/
def Literal.Safe (engine : Text) : Literal → Prop
  | .text value => escapes engine → backslashSafe value = true
  | .number _ => True

/-- Where names go without quotes, a column is a plain word. -/
def ColumnSafe (engine column : Text) : Prop :=
  jsLower engine = "informix".toList → isWord column = true

def Atom.Safe (engine : Text) : Atom → Prop
  | .compare column _ value => ColumnSafe engine column ∧ value.Safe engine
  | .isNull column => ColumnSafe engine column
  | .isNotNull column => ColumnSafe engine column
  | .oneOf column values => ColumnSafe engine column ∧ ∀ value ∈ values, value.Safe engine
  | .between column low high => ColumnSafe engine column ∧ low.Safe engine ∧ high.Safe engine

/-- The operators between a column and one value. -/
def comparisons : List Text :=
  ["=".toList, "!=".toList, "<".toList, ">".toList, "<=".toList, ">=".toList, "LIKE".toList]

def Literal.Valid : Literal → Prop
  | .text _ => True
  | .number value => isPlainNumber value = true

def Atom.Valid : Atom → Prop
  | .compare _ op value => op ∈ comparisons ∧ value.Valid
  | .isNull _ => True
  | .isNotNull _ => True
  | .oneOf _ values => values ≠ [] ∧ ∀ value ∈ values, value.Valid
  | .between _ low high => low.Valid ∧ high.Valid

theorem literalOf_valid (value : Text) (type : Option Text) : (literalOf value type).Valid := by
  unfold literalOf
  split_ifs with h
  · exact h.2
  · trivial

theorem atomOf_valid {types : Option ColumnTypes} {c : Condition} {atom : Atom}
    (h : atomOf types c = some atom) : atom.Valid := by
  obtain ⟨column, op, value, enabled, join⟩ := c
  unfold atomOf at h
  by_cases hcolumn : jsTrim column = []
  · simp [hcolumn] at h
  rw [if_neg hcolumn] at h
  cases op
  case isNull | isNotNull =>
    obtain rfl := Option.some.inj h
    trivial
  case isIn =>
    obtain ⟨hitems, heq⟩ := Option.ite_none_left_eq_some.mp h
    obtain rfl := Option.some.inj heq
    refine ⟨by simpa using hitems, fun value hvalue ↦ ?_⟩
    obtain ⟨item, _, rfl⟩ := List.mem_map.mp hvalue
    exact literalOf_valid _ _
  case contains | startsWith =>
    obtain ⟨_, heq⟩ := Option.ite_none_left_eq_some.mp h
    obtain rfl := Option.some.inj heq
    exact ⟨by decide, trivial⟩
  case between =>
    obtain ⟨bounds, _, rfl⟩ := Option.map_eq_some_iff.mp h
    exact ⟨literalOf_valid _ _, literalOf_valid _ _⟩
  all_goals
    obtain rfl := Option.some.inj h
    exact ⟨by dsimp only; decide, literalOf_valid _ _⟩

def spellLiteral : Literal → Text
  | .text value => '\'' :: (doubled value ++ ['\''])
  | .number value => value

def spellAtom (engine : Text) : Atom → Text
  | .compare column op value =>
    quoteIdentifier column engine ++ ((' ' :: op ++ [' ']) ++ spellLiteral value)
  | .isNull column => quoteIdentifier column engine ++ " IS NULL".toList
  | .isNotNull column => quoteIdentifier column engine ++ " IS NOT NULL".toList
  | .oneOf column values =>
    quoteIdentifier column engine ++
      (" IN (".toList ++ (", ".toList.intercalate (values.map spellLiteral) ++ [')']))
  | .between column low high =>
    quoteIdentifier column engine ++
      (" BETWEEN ".toList ++ (spellLiteral low ++ (" AND ".toList ++ spellLiteral high)))

theorem spellLiteral_literalOf (value : Text) (type : Option Text) :
    spellLiteral (literalOf value type) = sqlLiteral value type := by
  unfold literalOf sqlLiteral
  split_ifs <;> rfl

theorem spellAtom_ne_nil (engine : Text) (atom : Atom) : spellAtom engine atom ≠ [] := by
  cases atom <;> simp [spellAtom]

/-- `renderCondition` spells the criterion, and gives nothing where there is none. -/
theorem renderCondition_eq (engine : Text) (types : Option ColumnTypes) (c : Condition) :
    renderCondition engine types c = (atomOf types c).elim [] (spellAtom engine) := by
  obtain ⟨column, op, value, enabled, join⟩ := c
  unfold renderCondition atomOf
  by_cases hcolumn : jsTrim column = []
  · simp [hcolumn]
  rw [if_neg hcolumn, if_neg hcolumn]
  cases op
  case isIn =>
    by_cases hitems : listItems value = []
    · simp [hitems]
    · simp [hitems, spellAtom, Function.comp_def, spellLiteral_literalOf]
  case contains | startsWith =>
    by_cases hvalue : jsTrim value = []
    · simp [hvalue]
    · simp [hvalue, spellAtom, spellLiteral, sqlLiteral]
  case between =>
    cases hbounds : rangeBounds value with
    | none => rfl
    | some bounds => simp [spellAtom, spellLiteral_literalOf]
  case isNull | isNotNull => rfl
  all_goals simp [spellAtom, spellLiteral_literalOf]

theorem rendered_eq (engine : Text) (types : Option ColumnTypes) (conditions : List Condition)
    (conjunction : Join) :
    rendered engine types conditions conjunction =
      (panelRows types conditions conjunction).map fun row ↦ (row.1, spellAtom engine row.2) := by
  unfold rendered panelRows
  rw [List.map_filterMap]
  apply List.filterMap_congr
  intro c _
  rw [renderCondition_eq]
  by_cases henabled : c.enabled = some false
  · simp [henabled]
  · cases hatom : atomOf types c with
    | none => simp
    | some atom => simp [henabled, spellAtom_ne_nil]

theorem panelRows_valid {types : Option ColumnTypes} {conditions : List Condition} {conjunction : Join}
    {row : Join × Atom} (h : row ∈ panelRows types conditions conjunction) : row.2.Valid := by
  obtain ⟨c, _, hrow⟩ := List.mem_filterMap.mp h
  obtain ⟨_, hmap⟩ := Option.ite_none_left_eq_some.mp hrow
  obtain ⟨atom, hatom, rfl⟩ := Option.map_eq_some_iff.mp hmap
  exact atomOf_valid hatom

/-! ## Reading the pieces -/

theorem dialectOf_usual (engine : Text) : Usual (dialectOf engine) := by
  unfold dialectOf
  dsimp only
  split_ifs
  · exact mysql_usual
  · exact transactSql_usual
  · exact informix_usual
  · exact ansi_usual

theorem piece_cuts (engine : Text) {piece : Text} {tokens : List Token}
    (hpiece : ∀ c ∈ piece, c ∉ ['\'', '"', '`', '[']) (hread : phrase piece = some tokens) :
    Cuts (dialectOf engine) piece tokens := cuts_phrase (dialectOf_usual engine) hpiece hread

theorem quoteIdentifier_readsIff (engine column : Text) :
    ReadsIff (dialectOf engine) (quoteIdentifier column engine) [columnToken engine column]
      (ColumnSafe engine column) := by
  unfold quoteIdentifier dialectOf columnToken ColumnSafe
  by_cases hmysql : jsLower engine = "mysql".toList ∨ jsLower engine = "mariadb".toList
  · have hbare : jsLower engine ≠ "informix".toList := by rcases hmysql with h | h <;> rw [h] <;> decide
    have hread : Reads mysql _ _ := reads_quoted (q := ⟨'`', false, false⟩) (c := '`') rfl (by decide)
      (spells_doubled rfl column)
    simp only [if_pos hmysql, if_neg hbare]
    exact hread.readsIff.congr (iff_of_true trivial fun h ↦ absurd h hbare)
  by_cases hmssql : jsLower engine = "mssql".toList
  · have hbare : jsLower engine ≠ "informix".toList := by rw [hmssql]; decide
    have hread : Reads transactSql _ _ := reads_quoted (q := ⟨']', false, false⟩) (c := '[') rfl (by decide)
      (spells_doubled rfl column)
    simp only [if_neg hmysql, if_pos hmssql, if_neg hbare]
    exact hread.readsIff.congr (iff_of_true trivial fun h ↦ absurd h hbare)
  by_cases hbare : jsLower engine = "informix".toList
  · simp only [if_neg hmysql, if_neg hmssql, if_pos hbare]
    exact (readsIff_word informix_usual column).congr ⟨fun h _ ↦ h, fun h ↦ h hbare⟩
  · have hread : Reads ansi _ _ := reads_quoted (q := ⟨'"', false, false⟩) (c := '"') rfl (by decide)
      (spells_doubled rfl column)
    simp only [if_neg hmysql, if_neg hmssql, if_neg hbare]
    exact hread.readsIff.congr (iff_of_true trivial fun h ↦ absurd h hbare)

theorem count_dot_of_digits {text : Text} (h : ∀ c ∈ text, c.isDigit = true) : text.count '.' = 0 := by
  refine List.count_eq_zero.mpr fun hdot ↦ ?_
  exact absurd (h '.' hdot) (by decide)

theorem isNumber_of_isPlainDecimal {text : Text} (h : isPlainDecimal text = true) :
    isNumber text = true := by
  simp only [isPlainDecimal, Bool.and_eq_true, decide_eq_true_eq] at h
  obtain ⟨hwhole, hfraction⟩ := h
  have hsplit := List.takeWhile_append_dropWhile (p := Char.isDigit) (l := text)
  have hdigits : ∀ c ∈ text.takeWhile Char.isDigit, c.isDigit = true := fun c hc ↦
    List.mem_takeWhile_imp hc
  obtain ⟨first, whole, hfirst⟩ := List.exists_cons_of_ne_nil hwhole
  have hrest : (∀ c ∈ text.dropWhile Char.isDigit, c.isDigit = true ∨ c = '.') ∧
      (text.dropWhile Char.isDigit).count '.' ≤ 1 := by
    split at hfraction
    · next hnil => simp [hnil]
    · next fraction hdot =>
      have hall : ∀ c ∈ fraction, c.isDigit = true := by simp_all
      rw [hdot, List.count_cons_self, count_dot_of_digits hall]
      exact ⟨List.forall_mem_cons.mpr ⟨.inr rfl, fun c hc ↦ .inl (hall c hc)⟩, le_rfl⟩
    · exact absurd hfraction Bool.false_ne_true
  have hmem : first ∈ text := by
    rw [← hsplit, hfirst]
    exact List.mem_append_left _ (.head _)
  have hdigit := hdigits first (hfirst ▸ .head _)
  simp only [isNumber, Bool.and_eq_true, List.any_eq_true, List.all_eq_true, Bool.or_eq_true,
    decide_eq_true_eq]
  refine ⟨⟨⟨first, hmem, hdigit⟩, fun c hc ↦ ?_⟩, ?_⟩
  · rw [← hsplit] at hc
    exact (List.mem_append.mp hc).elim (fun hc ↦ .inl (hdigits c hc)) (hrest.1 c)
  · rw [← hsplit, List.count_append, count_dot_of_digits hdigits, Nat.zero_add]
    exact hrest.2

/-- A number starts with a digit, behind its sign. -/
theorem isPlainDecimal_head {c : Char} {text : Text} (h : isPlainDecimal (c :: text) = true) :
    c.isDigit = true := by
  by_contra hc
  have hc : c.isDigit = false := by simpa using hc
  simp [isPlainDecimal, hc] at h

theorem isSigned_of_isPlainNumber {text : Text} (h : isPlainNumber text = true) :
    isSigned text = true := by
  unfold isPlainNumber at h
  split at h
  · exact isNumber_of_isPlainDecimal h
  · next hminus =>
    unfold isSigned
    split
    · exact absurd (isPlainDecimal_head h) (by decide)
    · exact absurd rfl (hminus _)
    · exact isNumber_of_isPlainDecimal h

theorem spellLiteral_readsIff (engine : Text) {value : Literal} (hvalid : value.Valid) :
    ReadsIff (dialectOf engine) (spellLiteral value) (literalTokens value) (value.Safe engine) := by
  cases value with
  | number value =>
    exact (reads_signed (dialectOf_usual engine) (isSigned_of_isPlainNumber hvalid)).readsIff
  | text value =>
    unfold spellLiteral literalTokens Literal.Safe escapes dialectOf
    by_cases hmysql : jsLower engine = "mysql".toList ∨ jsLower engine = "mariadb".toList
    · simp only [if_pos hmysql]
      exact (readsIff_doubled rfl value).congr ⟨fun h _ ↦ h, fun h ↦ h hmysql⟩
    · have hread (d : Dialect) (hopen : d '\'' = some ⟨'\'', true, false⟩) :
          Reads d ('\'' :: (doubled value ++ ['\''])) [.str value] :=
        reads_quoted hopen (by decide) (spells_doubled rfl value)
      simp only [if_neg hmysql]
      have hsafe : True ↔ (jsLower engine = "mysql".toList ∨ jsLower engine = "mariadb".toList →
          backslashSafe value = true) := iff_of_true trivial fun h ↦ absurd h hmysql
      split_ifs
      · exact (hread transactSql rfl).readsIff.congr hsafe
      · exact (hread informix rfl).readsIff.congr hsafe
      · exact (hread ansi rfl).readsIff.congr hsafe

theorem comparison_cuts (engine : Text) {op : Text} (hop : op ∈ comparisons) :
    Cuts (dialectOf engine) (' ' :: op ++ [' ']) [opToken op] := by
  simp only [comparisons, List.mem_cons, List.not_mem_nil, or_false] at hop
  rcases hop with rfl | rfl | rfl | rfl | rfl | rfl | rfl <;>
    exact piece_cuts engine (by decide) (by decide)

theorem spellAtom_readsIff (engine : Text) {atom : Atom} (hvalid : atom.Valid) :
    ReadsIff (dialectOf engine) (spellAtom engine atom) (atomTokens engine atom) (atom.Safe engine) := by
  cases atom with
  | compare column op value =>
    have hvalue := (comparison_cuts engine hvalid.1).append_readsIff
      (spellLiteral_readsIff engine hvalid.2)
    exact (quoteIdentifier_readsIff engine column).append hvalue ⟨' ', _, rfl, by decide⟩
  | isNull column =>
    have his : Cuts (dialectOf engine) " IS ".toList [keyword "IS"] :=
      piece_cuts engine (by decide) (by decide)
    have hnull : Reads (dialectOf engine) "NULL".toList [keyword "NULL"] :=
      reads_word (dialectOf_usual engine) (by decide)
    exact ((quoteIdentifier_readsIff engine column).append (his.append_reads hnull).readsIff
      ⟨' ', _, rfl, by decide⟩).congr (by simp [Atom.Safe])
  | isNotNull column =>
    have his : Cuts (dialectOf engine) " IS NOT ".toList [keyword "IS", keyword "NOT"] :=
      piece_cuts engine (by decide) (by decide)
    have hnull : Reads (dialectOf engine) "NULL".toList [keyword "NULL"] :=
      reads_word (dialectOf_usual engine) (by decide)
    exact ((quoteIdentifier_readsIff engine column).append (his.append_reads hnull).readsIff
      ⟨' ', _, rfl, by decide⟩).congr (by simp [Atom.Safe])
  | oneOf column values =>
    obtain ⟨hne, hvalues⟩ := hvalid
    obtain ⟨first, values, rfl⟩ := List.exists_cons_of_ne_nil hne
    have hopen : Cuts (dialectOf engine) " IN (".toList [keyword "IN", .punct '('] :=
      piece_cuts engine (by decide) (by decide)
    have hcomma : Cuts (dialectOf engine) ", ".toList [.punct ','] :=
      piece_cuts engine (by decide) (by decide)
    have hclose : Cuts (dialectOf engine) [')'] [.punct ')'] :=
      piece_cuts engine (by decide) (by decide)
    have hlist := readsIff_intercalate hcomma ⟨',', _, rfl, by decide⟩ spellLiteral literalTokens
      (Literal.Safe engine) first values fun value hvalue ↦ spellLiteral_readsIff engine (hvalues value hvalue)
    have hitems := hlist.append hclose.reads.readsIff ⟨')', _, rfl, by decide⟩
    exact ((quoteIdentifier_readsIff engine column).append (hopen.append_readsIff hitems)
      ⟨' ', _, rfl, by decide⟩).congr (by simp [Atom.Safe])
  | between column low high =>
    have hopen : Cuts (dialectOf engine) " BETWEEN ".toList [keyword "BETWEEN"] :=
      piece_cuts engine (by decide) (by decide)
    have hand : Cuts (dialectOf engine) " AND ".toList [keyword "AND"] :=
      piece_cuts engine (by decide) (by decide)
    have hhigh := hand.append_readsIff (spellLiteral_readsIff engine hvalid.2)
    have hbounds := (spellLiteral_readsIff engine hvalid.1).append hhigh ⟨' ', _, rfl, by decide⟩
    exact (quoteIdentifier_readsIff engine column).append (hopen.append_readsIff hbounds)
      ⟨' ', _, rfl, by decide⟩

/-! ## Reading the tokens back -/

theorem parseLiteral_tokens {value : Literal} (hvalid : value.Valid) (rest : List Token) :
    parseLiteral (literalTokens value ++ rest) = some (value, rest) := by
  cases value with
  | text value => rfl
  | number value =>
    change parseLiteral (numberTokens value ++ rest) = _
    unfold numberTokens
    split
    · next text =>
      have hplain : isPlainDecimal ('+' :: text) = true := hvalid
      exact absurd (isPlainDecimal_head hplain) (by decide)
    · rfl
    · rfl

theorem literalTokens_ne_nil (value : Literal) : literalTokens value ≠ [] := by
  cases value with
  | text value => exact nofun
  | number value =>
    change numberTokens value ≠ []
    unfold numberTokens
    split <;> exact nofun

theorem parseColumn_token (engine column : Text) (rest : List Token) :
    parseColumn (columnToken engine column :: rest) = some (column, rest) := by
  unfold columnToken
  split_ifs <;> rfl

theorem parseAtom_tokens (engine : Text) {atom : Atom} (hvalid : atom.Valid) (rest : List Token) :
    parseAtom (atomTokens engine atom ++ rest) = some (atom, rest) := by
  unfold parseAtom
  cases atom with
  | compare column op value =>
    have hliteral := parseLiteral_tokens hvalid.2 rest
    simp only [atomTokens, List.cons_append, parseColumn_token, Option.bind_eq_bind, Option.bind_some]
    by_cases hlike : op = "LIKE".toList
    · subst hlike
      simp only [opToken, keyword, if_true, hliteral, Option.bind_some]
    · simp only [opToken, if_neg hlike, hliteral, Option.bind_some]
  | isNull column =>
    simp only [atomTokens, List.cons_append, parseColumn_token, Option.bind_eq_bind, Option.bind_some]
    rfl
  | isNotNull column =>
    simp only [atomTokens, List.cons_append, parseColumn_token, Option.bind_eq_bind, Option.bind_some]
    rfl
  | oneOf column values =>
    obtain ⟨hne, hvalues⟩ := hvalid
    have hend (rest : List Token) : eat (.punct ',') (.punct ')' :: rest) = none := rfl
    have hlist := parseSeparated_tokens literalTokens id (hend rest) hne
      (fun value _ ↦ literalTokens_ne_nil value) fun value hvalue rest _ ↦ parseLiteral_tokens (hvalues value hvalue) rest
    rw [List.map_id] at hlist
    have hlike : Token.word "IN".toList ≠ .word "LIKE".toList := by decide
    have his : Token.word "IN".toList ≠ .word "IS".toList := by decide
    simp only [atomTokens, List.cons_append, parseColumn_token, Option.bind_eq_bind, Option.bind_some,
      List.append_assoc, List.nil_append, keyword, if_neg hlike, if_neg his, if_true, eat_cons, hlist]
  | between column low high =>
    have hlow := parseLiteral_tokens hvalid.1 (keyword "AND" :: (literalTokens high ++ rest))
    have hhigh := parseLiteral_tokens hvalid.2 rest
    have hlike : Token.word "BETWEEN".toList ≠ .word "LIKE".toList := by decide
    have his : Token.word "BETWEEN".toList ≠ .word "IS".toList := by decide
    have hin : Token.word "BETWEEN".toList ≠ .word "IN".toList := by decide
    rw [keyword] at hlow
    simp only [atomTokens, List.cons_append, parseColumn_token, Option.bind_eq_bind, Option.bind_some,
      List.append_assoc, keyword, if_neg hlike, if_neg his, if_neg hin, if_true, eat_cons, hlow, hhigh]

/-! ## The shape of the expression -/

theorem atomTokens_ne_nil (engine : Text) (atom : Atom) : atomTokens engine atom ≠ [] := by
  cases atom <;> exact List.cons_ne_nil _ _

/-- A criterion does not begin with a parenthesis. -/
theorem eat_paren_atomTokens (engine : Text) (atom : Atom) (rest : List Token) :
    eat (.punct '(') (atomTokens engine atom ++ rest) = none := by
  have hcolumn (column : Text) : columnToken engine column ≠ .punct '(' := by
    unfold columnToken
    split_ifs <;> exact nofun
  cases atom <;> exact if_neg (hcolumn _)

theorem parsePrimary_atom (engine : Text) {atom : Atom} (hvalid : atom.Valid) (fuel : ℕ)
    (rest : List Token) :
    parsePrimary (fuel + 1) (atomTokens engine atom ++ rest) = some (.atom atom, rest) := by
  rw [parsePrimary, eat_paren_atomTokens]
  simp [parseAtom_tokens engine hvalid]

/-- The criteria of a run taken together with `AND`. -/
def runExpr (run : List Atom) : Expr := (chain .and (run.map .atom)).getD default

theorem chain_runExpr {run : List Atom} (hne : run ≠ []) :
    chain .and (run.map .atom) = some (runExpr run) := by
  obtain ⟨first, run, rfl⟩ := List.exists_cons_of_ne_nil hne
  rfl

theorem chain_concat (op : Expr → Expr → Expr) (items : List Expr) (e : Expr) :
    chain op (items ++ [e]) = some ((chain op items).elim e (op · e)) := by
  cases items with
  | nil => rfl
  | cons first items => simp [chain]

theorem runExpr_concat {run : List Atom} (hne : run ≠ []) (a : Atom) :
    runExpr (run ++ [a]) = .and (runExpr run) (.atom a) := by
  have hchain := chain_concat .and (run.map .atom) (.atom a)
  rw [chain_runExpr hne] at hchain
  rw [runExpr, List.map_append, List.map_singleton, hchain]
  rfl

theorem parseChain_of_separated {op : Expr → Expr → Expr} {sep : Token}
    {item : List Token → Option (Expr × List Token)} {tokens rest : List Token} {items : List Expr}
    (h : parseSeparated item sep tokens.length tokens = some (items, rest)) :
    parseChain op sep item tokens = (chain op items).map fun e ↦ (e, rest) := by
  unfold parseChain
  rw [h]
  cases hchain : chain op items <;> simp [hchain]

theorem parseChain_single {op : Expr → Expr → Expr} {sep : Token}
    {item : List Token → Option (Expr × List Token)} {write rest : List Token} {e : Expr}
    (hwrite : write ≠ []) (hrest : eat sep rest = none) (hitem : item (write ++ rest) = some (e, rest)) :
    parseChain op sep item (write ++ rest) = some (e, rest) := by
  have hpos : 0 < (write ++ rest).length := List.length_pos_of_ne_nil (by simp [hwrite])
  obtain ⟨fuel, hfuel⟩ := Nat.exists_eq_add_one_of_ne_zero (Nat.ne_of_gt hpos)
  unfold parseChain
  rw [hfuel, parseSeparated]
  simp [hitem, hrest, chain]

section

variable (engine : Text) {fuel : ℕ} {group : List Atom} (hne : group ≠ [])
  (hvalid : ∀ atom ∈ group, atom.Valid)

include hne

theorem runTokens_ne_nil : runTokens engine group ≠ [] := by
  obtain ⟨first, group, rfl⟩ := List.exists_cons_of_ne_nil hne
  have hlength := length_lt_intercalate (keyword "AND") (atomTokens engine) first group
    fun atom _ ↦ atomTokens_ne_nil engine atom
  exact List.ne_nil_of_length_pos (Nat.zero_lt_of_lt hlength)

theorem groupTokens_ne_nil : groupTokens engine group ≠ [] := by
  unfold groupTokens
  split_ifs
  · exact List.cons_ne_nil _ _
  · exact runTokens_ne_nil engine hne

include hvalid

theorem parseRun {rest : List Token} (hrest : eat (keyword "AND") rest = none) :
    parseChain .and (keyword "AND") (parsePrimary (fuel + 1)) (runTokens engine group ++ rest) =
      some (runExpr group, rest) := by
  have hitems := parseSeparated_tokens (atomTokens engine) Expr.atom hrest hne
    (fun atom _ ↦ atomTokens_ne_nil engine atom) fun atom hatom rest _ ↦ parsePrimary_atom engine (hvalid atom hatom) fuel rest
  unfold runTokens
  rw [parseChain_of_separated hitems, chain_runExpr hne]
  rfl

/-- A run is read as one alternative, in parentheses or without. -/
theorem parseOr_run {rest : List Token} (hand : eat (keyword "AND") rest = none)
    (hor : eat (keyword "OR") rest = none) :
    parseOr (parsePrimary (fuel + 1)) (runTokens engine group ++ rest) = some (runExpr group, rest) :=
  parseChain_single (runTokens_ne_nil engine hne) hor (parseRun engine hne hvalid hand)

theorem parseGroup {rest : List Token} (hrest : eat (keyword "AND") rest = none) :
    parseChain .and (keyword "AND") (parsePrimary (fuel + 2)) (groupTokens engine group ++ rest) =
      some (runExpr group, rest) := by
  by_cases hlength : 1 < group.length
  · have hinner : parseOr (parsePrimary (fuel + 1)) (runTokens engine group ++ .punct ')' :: rest) = _ :=
      parseOr_run engine hne hvalid rfl rfl
    have hprimary : parsePrimary (fuel + 2) (groupTokens engine group ++ rest) =
        some (runExpr group, rest) := by
      rw [groupTokens, if_pos hlength, parsePrimary, List.cons_append, eat_cons, List.append_assoc,
        List.singleton_append]
      simp [hinner]
    exact parseChain_single (groupTokens_ne_nil engine hne) hrest hprimary
  · rw [groupTokens, if_neg hlength]
    exact parseRun engine hne hvalid hrest

end

/-! ## The groups -/

theorem addToGroups_or {α : Type} (groups : List (List α)) (a : α) :
    addToGroups groups (.or, a) = groups ++ [[a]] := if_pos (.inr rfl)

theorem addToGroups_and {α : Type} (before : List (List α)) (run : List α) (a : α) :
    addToGroups (before ++ [run]) (.and, a) = before ++ [run ++ [a]] := by
  unfold addToGroups
  rw [if_neg (by simp), List.modifyLast_concat]

theorem addToGroups_first {α : Type} (row : Join × α) :
    addToGroups ([] : List (List α)) row = [] ++ [[row.2]] := if_pos (.inl rfl)

/-- Induction over the rows behind the groups so far: some complete ones, and the one that an `AND` goes
on with. -/
theorem groups_induction {α : Type} {P : List (List α) → List (Join × α) → Prop}
    (hnil : ∀ before run, run ≠ [] → (∀ g ∈ before, g ≠ []) → P (before ++ [run]) [])
    (hand : ∀ before run a rows, run ≠ [] → P (before ++ [run ++ [a]]) rows →
      P (before ++ [run]) ((.and, a) :: rows))
    (hor : ∀ before run a rows, run ≠ [] → P (before ++ [run] ++ [[a]]) rows →
      P (before ++ [run]) ((.or, a) :: rows))
    (before : List (List α)) (run : List α) (rows : List (Join × α)) (hrun : run ≠ [])
    (hbefore : ∀ g ∈ before, g ≠ []) : P (before ++ [run]) rows := by
  induction rows generalizing before run with
  | nil => exact hnil before run hrun hbefore
  | cons row rows ih =>
    obtain ⟨join, a⟩ := row
    cases join with
    | and => exact hand before run a rows hrun (ih before (run ++ [a]) (by simp) hbefore)
    | or =>
      refine hor before run a rows hrun (ih (before ++ [run]) [a] (by simp) ?_)
      simpa [or_imp, forall_and] using ⟨hbefore, hrun⟩

section

variable {α : Type} (row : Join × α) (rows : List (Join × α))

/-- What holds behind the first row, by induction over the others. -/
theorem groups_induction_first {P : List (List α) → List (Join × α) → Prop}
    (hnil : ∀ before run, run ≠ [] → (∀ g ∈ before, g ≠ []) → P (before ++ [run]) [])
    (hand : ∀ before run a rows, run ≠ [] → P (before ++ [run ++ [a]]) rows →
      P (before ++ [run]) ((.and, a) :: rows))
    (hor : ∀ before run a rows, run ≠ [] → P (before ++ [run] ++ [[a]]) rows →
      P (before ++ [run]) ((.or, a) :: rows)) : P [[row.2]] rows :=
  groups_induction hnil hand hor [] [row.2] rows (by simp) (by simp)

theorem groups_ne_nil : (row :: rows).foldl addToGroups [] ≠ [] ∧
    ∀ g ∈ (row :: rows).foldl addToGroups [], g ≠ [] := by
  rw [List.foldl_cons, addToGroups_first, List.nil_append]
  refine groups_induction_first
    (P := fun groups rows ↦ rows.foldl addToGroups groups ≠ [] ∧
      ∀ g ∈ rows.foldl addToGroups groups, g ≠ []) row rows ?_ ?_ ?_
  · intro before run hrun hbefore
    refine ⟨by simp, ?_⟩
    simpa [or_imp, forall_and] using ⟨hbefore, hrun⟩
  · intro before run a rows _ ih
    rwa [List.foldl_cons, addToGroups_and]
  · intro before run a rows _ ih
    rwa [List.foldl_cons, addToGroups_or]

theorem groups_flatten :
    ((row :: rows).foldl addToGroups []).flatten = (row :: rows).map Prod.snd := by
  rw [List.foldl_cons, addToGroups_first, List.nil_append, List.map_cons]
  refine groups_induction_first
    (P := fun groups rows ↦ (rows.foldl addToGroups groups).flatten =
      groups.flatten ++ rows.map Prod.snd) row rows ?_ ?_ ?_
  · intro before run _ _
    simp
  · intro before run a rows _ ih
    rw [List.foldl_cons, addToGroups_and, ih]
    simp
  · intro before run a rows _ ih
    rw [List.foldl_cons, addToGroups_or, ih]
    simp

theorem forall_groups (P : α → Prop) :
    (∀ row' ∈ row :: rows, P row'.2) ↔ ∀ g ∈ (row :: rows).foldl addToGroups [], ∀ a ∈ g, P a := by
  calc (∀ row' ∈ row :: rows, P row'.2) ↔ ∀ a ∈ (row :: rows).map Prod.snd, P a := by
        rw [List.forall_mem_map]
    _ ↔ ∀ a ∈ ((row :: rows).foldl addToGroups []).flatten, P a := by rw [groups_flatten]
    _ ↔ _ := List.forall_mem_flatten

theorem groups_map {β : Type} (f : α → β) :
    ((row :: rows).map fun row ↦ (row.1, f row.2)).foldl addToGroups [] =
      ((row :: rows).foldl addToGroups []).map (List.map f) := by
  rw [List.map_cons, List.foldl_cons, List.foldl_cons, addToGroups_first, addToGroups_first,
    List.nil_append, List.nil_append]
  refine groups_induction_first
    (P := fun groups rows ↦ (rows.map fun row ↦ (row.1, f row.2)).foldl addToGroups
      (groups.map (List.map f)) = (rows.foldl addToGroups groups).map (List.map f)) row rows ?_ ?_ ?_
  · intro before run _ _
    rfl
  · intro before run a rows _ ih
    rw [List.map_cons, List.foldl_cons, List.foldl_cons, addToGroups_and, ← ih, List.map_append,
      List.map_singleton, addToGroups_and]
    simp
  · intro before run a rows _ ih
    rw [List.map_cons, List.foldl_cons, List.foldl_cons, addToGroups_or, addToGroups_or, ← ih]
    simp

end

/-- The groups, each taken together with `AND` and all with `OR`, are what the panel says. -/
theorem panelExpr_groups (row : Join × Atom) (rows : List (Join × Atom)) :
    chain .or (((row :: rows).foldl addToGroups []).map runExpr) = panelExpr (row :: rows) := by
  rw [List.foldl_cons, addToGroups_first, List.nil_append]
  have hall := groups_induction_first
    (P := fun groups rows ↦ ∀ before run, groups = before ++ [run] →
      chain .or ((rows.foldl addToGroups groups).map runExpr) =
        some (panelFrom (chain .or (before.map runExpr)) (runExpr run) rows)) row rows ?_ ?_ ?_
  · exact hall [] [row.2] rfl
  · rintro before run _ _ before' run' heq
    obtain ⟨rfl, hlast⟩ := List.append_inj' heq rfl
    obtain rfl := List.singleton_inj.mp hlast
    rw [List.foldl_nil, List.map_append, List.map_singleton, chain_concat]
    rfl
  · rintro before run a rows hrun ih before' run' heq
    obtain ⟨rfl, hlast⟩ := List.append_inj' heq rfl
    obtain rfl := List.singleton_inj.mp hlast
    rw [List.foldl_cons, addToGroups_and, ih before (run ++ [a]) rfl, runExpr_concat hrun]
    rfl
  · rintro before run a rows _ ih before' run' heq
    obtain ⟨rfl, hlast⟩ := List.append_inj' heq rfl
    obtain rfl := List.singleton_inj.mp hlast
    rw [List.foldl_cons, addToGroups_or, ih (before ++ [run]) [a] rfl, List.map_append,
      List.map_singleton, chain_concat]
    rfl

/-! ## The filter -/

/-- The groups of a filter that is not empty. -/
structure Groups (groups : List (List Atom)) : Prop where
  ne_nil : groups ≠ []
  run_ne_nil : ∀ group ∈ groups, group ≠ []
  valid : ∀ group ∈ groups, ∀ atom ∈ group, atom.Valid

theorem groups_of_rows {row : Join × Atom} {rows : List (Join × Atom)}
    (hvalid : ∀ row' ∈ row :: rows, row'.2.Valid) : Groups ((row :: rows).foldl addToGroups []) := by
  obtain ⟨hgroups, hne⟩ := groups_ne_nil row rows
  exact ⟨hgroups, hne, (forall_groups row rows Atom.Valid).mp hvalid⟩

/-- One group stands without parentheses. -/
theorem parseFilter_run (engine : Text) {group : List Atom} (hgroups : Groups [group]) :
    parseFilter (runTokens engine group) = some (runExpr group) := by
  have hne := hgroups.run_ne_nil group (.head _)
  have hpos := List.length_pos_of_ne_nil (runTokens_ne_nil engine hne)
  obtain ⟨fuel, hfuel⟩ := Nat.exists_eq_add_one_of_ne_zero (Nat.ne_of_gt hpos)
  have hrun : parseOr (parsePrimary (fuel + 1)) (runTokens engine group ++ []) = _ :=
    parseOr_run engine hne (hgroups.valid group (.head _)) rfl rfl
  rw [List.append_nil] at hrun
  unfold parseFilter
  rw [hfuel, hrun]
  rfl

theorem parseFilter_groups (engine : Text) {first second : List Atom} {groups : List (List Atom)}
    (hgroups : Groups (first :: second :: groups)) :
    parseFilter ([keyword "OR"].intercalate ((first :: second :: groups).map (groupTokens engine))) =
      chain .or ((first :: second :: groups).map runExpr) := by
  have hne : ∀ group ∈ first :: second :: groups, groupTokens engine group ≠ [] :=
    fun group hgroup ↦ groupTokens_ne_nil engine (hgroups.run_ne_nil group hgroup)
  have hlength := length_lt_intercalate (keyword "OR") (groupTokens engine) first (second :: groups) hne
  unfold parseFilter parseOr
  generalize hfuel : ([keyword "OR"].intercalate
    ((first :: second :: groups).map (groupTokens engine))).length = length at hlength ⊢
  obtain ⟨fuel, rfl⟩ : ∃ fuel, length = fuel + 2 :=
    Nat.exists_eq_add_of_le' (by simp only [List.length_cons] at hlength; omega)
  have hitems : ∀ group ∈ first :: second :: groups, ∀ rest,
      (rest = [] ∨ ∃ later, rest = keyword "OR" :: later) →
      parseChain .and (keyword "AND") (parsePrimary (fuel + 2)) (groupTokens engine group ++ rest) =
        some (runExpr group, rest) := fun group hgroup rest hrest ↦
    parseGroup engine (hgroups.run_ne_nil group hgroup) (hgroups.valid group hgroup)
      (by rcases hrest with rfl | ⟨later, rfl⟩ <;> rfl)
  have hread := parseSeparated_tokens (groupTokens engine) runExpr (rfl : eat (keyword "OR") [] = none)
    hgroups.ne_nil hne hitems
  rw [List.append_nil] at hread
  rw [parseChain_of_separated hread]
  simp [chain]

theorem parseFilter_tokens (engine : Text) (rows : List (Join × Atom))
    (hvalid : ∀ row ∈ rows, row.2.Valid) :
    parseFilter (filterTokens engine rows) = panelExpr rows := by
  cases rows with
  | nil => rfl
  | cons row rows =>
    have hgroups := groups_of_rows hvalid
    rw [← panelExpr_groups]
    unfold filterTokens
    generalize (row :: rows).foldl addToGroups [] = groups at hgroups ⊢
    match groups with
    | [] => exact absurd rfl hgroups.ne_nil
    | [group] => exact parseFilter_run engine hgroups
    | first :: second :: groups => exact parseFilter_groups engine hgroups

/-! ## Reading the text -/

section

variable (engine : Text) {group : List Atom} (hne : group ≠ []) (hvalid : ∀ atom ∈ group, atom.Valid)

include hne hvalid

theorem run_readsIff : ReadsIff (dialectOf engine) (" AND ".toList.intercalate (group.map (spellAtom engine)))
    (runTokens engine group) (∀ atom ∈ group, atom.Safe engine) := by
  obtain ⟨first, group, rfl⟩ := List.exists_cons_of_ne_nil hne
  have hand : Cuts (dialectOf engine) " AND ".toList [keyword "AND"] :=
    piece_cuts engine (by decide) (by decide)
  exact readsIff_intercalate hand ⟨' ', _, rfl, by decide⟩ (spellAtom engine) (atomTokens engine)
    (Atom.Safe engine) first group fun atom hatom ↦ spellAtom_readsIff engine (hvalid atom hatom)

theorem group_readsIff : ReadsIff (dialectOf engine) (renderGroup (group.map (spellAtom engine)))
    (groupTokens engine group) (∀ atom ∈ group, atom.Safe engine) := by
  have hrun := run_readsIff engine hne hvalid
  unfold renderGroup groupTokens
  rw [List.length_map]
  split_ifs with hlength
  · have hopen : Cuts (dialectOf engine) ['('] [.punct '('] := piece_cuts engine (by decide) (by decide)
    have hclose : Cuts (dialectOf engine) [')'] [.punct ')'] := piece_cuts engine (by decide) (by decide)
    have hinner := hrun.append hclose.reads.readsIff ⟨')', _, rfl, by decide⟩
    exact (hopen.append_readsIff hinner).congr (iff_of_eq (and_true _))
  · -- a group of one criterion is that criterion
    obtain ⟨atom, group, rfl⟩ := List.exists_cons_of_ne_nil hne
    obtain rfl : group = [] := by simpa using hlength
    simpa [List.intercalate_singleton] using hrun

end

theorem renderWhere_eq (engine : Text) (types : Option ColumnTypes) (conditions : List Condition)
    (conjunction : Join) {row : Join × Atom} {rows : List (Join × Atom)}
    (h : panelRows types conditions conjunction = row :: rows) :
    renderWhere engine types conditions conjunction =
      match ((row :: rows).foldl addToGroups []).map (List.map (spellAtom engine)) with
      | [group] => " AND ".toList.intercalate group
      | groups => " OR ".toList.intercalate (groups.map renderGroup) := by
  unfold renderWhere
  rw [rendered_eq, h, groups_map]

theorem renderWhere_readsIff (engine : Text) (types : Option ColumnTypes) (conditions : List Condition)
    (conjunction : Join) :
    ReadsIff (dialectOf engine) (renderWhere engine types conditions conjunction)
      (filterTokens engine (panelRows types conditions conjunction))
      (∀ row ∈ panelRows types conditions conjunction, row.2.Safe engine) := by
  have hvalid : ∀ row ∈ panelRows types conditions conjunction, row.2.Valid := fun _ ↦ panelRows_valid
  cases hrows : panelRows types conditions conjunction with
  | nil =>
    have hnil : renderWhere engine types conditions conjunction = [] := by
      unfold renderWhere
      rw [rendered_eq, hrows]
      rfl
    rw [hnil]
    exact cuts_nil.reads.readsIff.congr (by simp)
  | cons row rows =>
    rw [hrows] at hvalid
    have hgroups := groups_of_rows hvalid
    rw [renderWhere_eq engine types conditions conjunction hrows]
    unfold filterTokens
    refine ReadsIff.congr ?_ (forall_groups row rows (Atom.Safe engine)).symm
    generalize (row :: rows).foldl addToGroups [] = groups at hgroups ⊢
    match groups with
    | [] => exact absurd rfl hgroups.ne_nil
    | [group] =>
      have hrun := run_readsIff engine (hgroups.run_ne_nil group (.head _)) (hgroups.valid group (.head _))
      exact hrun.congr (by simp)
    | first :: second :: groups =>
      have hor : Cuts (dialectOf engine) " OR ".toList [keyword "OR"] :=
        piece_cuts engine (by decide) (by decide)
      have hall := readsIff_intercalate hor ⟨' ', _, rfl, by decide⟩
        (fun group ↦ renderGroup (group.map (spellAtom engine))) (groupTokens engine)
        (fun group ↦ ∀ atom ∈ group, atom.Safe engine) first (second :: groups)
        fun group hgroup ↦ group_readsIff engine (hgroups.run_ne_nil group hgroup)
          (hgroups.valid group hgroup)
      simpa [Function.comp_def] using hall

/-- By the engine's rules the text has exactly the columns, operators and literals of the criteria, and
says what the panel says. -/
def FilterIsData (engine : Text) (types : Option ColumnTypes) (conditions : List Condition)
    (conjunction : Join) : Prop :=
  let rows := panelRows types conditions conjunction
  ∃ tokens, lex (dialectOf engine) (renderWhere engine types conditions conjunction) = some tokens ∧
    tokens = filterTokens engine rows ∧ parseFilter tokens = panelExpr rows

instance (engine : Text) (types : Option ColumnTypes) (conditions : List Condition) (conjunction : Join) :
    Decidable (FilterIsData engine types conditions conjunction) :=
  decidable_of_iff (∃ tokens ∈ lex (dialectOf engine) (renderWhere engine types conditions conjunction),
    tokens = filterTokens engine (panelRows types conditions conjunction) ∧
      parseFilter tokens = panelExpr (panelRows types conditions conjunction)) Iff.rfl

/-- A filter says what the panel shows exactly when no string of its criteria has a backslash that its
engine takes for an escape, and no column of one that has no quotes for names is other than a word. -/
theorem renderWhere_iff (engine : Text) (types : Option ColumnTypes) (conditions : List Condition)
    (conjunction : Join) :
    FilterIsData engine types conditions conjunction ↔
      ∀ row ∈ panelRows types conditions conjunction, row.2.Safe engine := by
  have hread := (renderWhere_readsIff engine types conditions conjunction).lex_iff
  have hparse := parseFilter_tokens engine (panelRows types conditions conjunction) fun _ ↦ panelRows_valid
  calc FilterIsData engine types conditions conjunction
      ↔ lex (dialectOf engine) (renderWhere engine types conditions conjunction) =
        some (filterTokens engine (panelRows types conditions conjunction)) := by
        unfold FilterIsData
        refine ⟨fun h ↦ ?_, fun h ↦ ⟨_, h, rfl, hparse⟩⟩
        obtain ⟨tokens, hlex, rfl, _⟩ := h
        exact hlex
    _ ↔ _ := hread

/-- On MySQL the backslash takes the closing quote with it, and the string goes on into what follows. -/
theorem backslash_not_data : ¬ FilterIsData "mysql".toList none
    [⟨"a".toList, .eq, "\\".toList, none, none⟩] .and := by
  decide

end Squaero.Front
