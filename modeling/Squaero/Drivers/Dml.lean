import Squaero.Core.Driver
import Squaero.Lib.SqlLex

/-!
# Row statements

`utils/dml.c` of the MySQL, PostgreSQL and SQLite drivers: a neutral row change rendered to one `INSERT`,
`UPDATE` or `DELETE`. The three emitters are one with the engine's quoting for a parameter. Whatever the
names and values are, the text reads back as the change asked for.
-/

namespace Squaero.Drivers

open Squaero.Lib Squaero.Lib.SqlLex Squaero.Core

/-- `dbc_dml_kind`. As an enum of C it may hold a value that is none of its constants. -/
inductive DmlKind
  | insert
  | update
  | delete
  | other (value : ℤ)
  deriving DecidableEq, Repr

/-- A column with its value, which is `NULL` when there is none. -/
abbrev ColumnValue := Text × Option Text

/-- `dbc_dml_row`: the parallel arrays as lists. -/
structure DmlRow where
  schema : Option Text
  table : Option Text
  set : List ColumnValue
  where_ : List ColumnValue
  setTypes : Option (List DbcType)
  parallel : ∀ types ∈ setTypes, types.length = set.length

/-- How an engine quotes: the character around an identifier, doubled inside it, and the spelling of a
character in a string. -/
structure SqlStyle where
  quote : Char
  escape : Char → Text

def mysqlStyle : SqlStyle where
  quote := '`'
  escape c := if c = '\'' ∨ c = '\\' then ['\\', c] else [c]

def ansiStyle : SqlStyle where
  quote := '"'
  escape c := if c = '\'' then ['\'', c] else [c]

/-- The loop of `dml_is_bare_numeric`. -/
def bareLoop (type : DbcType) (digits dot : Bool) : Text → Bool
  | [] => digits
  | c :: rest =>
    if c.isDigit then bareLoop type true dot rest
    else if c = '.' ∧ !dot ∧ type = .float then bareLoop type digits true rest
    else false

/-- A plain optionally-signed decimal of a numeric column. -/
def dmlIsBareNumeric (type : DbcType) (val : Text) : Bool :=
  if val = [] then false
  else if type ≠ .int ∧ type ≠ .float then false
  else
    match val with
    | '+' :: rest => bareLoop type false false rest
    | '-' :: rest => bareLoop type false false rest
    | _ => bareLoop type false false val

/-- `set_types != NULL ? set_types[i] : DBC_TYPE_TEXT`, along the set columns. -/
def DmlRow.typedSet (row : DmlRow) : List (ColumnValue × DbcType) :=
  row.set.zip (row.setTypes.getD (List.replicate row.set.length .text))

section

variable (style : SqlStyle)

def sbIdent (name : Text) : Text :=
  style.quote :: (name.flatMap (fun c ↦ if c = style.quote then [c, c] else [c]) ++ [style.quote])

def sbLiteral : Option Text → Text
  | none => "NULL".toList
  | some val => '\'' :: (val.flatMap style.escape ++ ['\''])

def sbValue (val : Option Text) (type : DbcType) : Text :=
  match val with
  | some text => if dmlIsBareNumeric type text then text else sbLiteral style val
  | none => sbLiteral style val

def sbQualified (schema : Option Text) (table : Text) : Text :=
  match schema with
  | some (c :: rest) => sbIdent style (c :: rest) ++ '.' :: sbIdent style table
  | _ => sbIdent style table

def sbCondition : ColumnValue → Text
  | (col, none) => sbIdent style col ++ " IS NULL".toList
  | (col, some val) => sbIdent style col ++ (" = ".toList ++ sbLiteral style (some val))

def sbWhere (conditions : List ColumnValue) : Text :=
  " AND ".toList.intercalate (conditions.map (sbCondition style))

def sbAssignment (item : ColumnValue × DbcType) : Text :=
  sbIdent style item.1.1 ++ (" = ".toList ++ sbValue style item.1.2 item.2)

/-- `*_build_dml_sql` behind its guards. -/
def renderDml (kind : DmlKind) (row : DmlRow) (table : Text) : Option Text :=
  let comma := ", ".toList
  match kind with
  | .insert => some <|
    "INSERT INTO ".toList ++ (sbQualified style row.schema table ++ (" (".toList ++
      (comma.intercalate (row.typedSet.map fun item ↦ sbIdent style item.1.1) ++
        (") VALUES (".toList ++
          (comma.intercalate (row.typedSet.map fun item ↦ sbValue style item.1.2 item.2) ++ [')'])))))
  | .update => some <|
    "UPDATE ".toList ++ (sbQualified style row.schema table ++ (" SET ".toList ++
      (comma.intercalate (row.typedSet.map (sbAssignment style)) ++
        (" WHERE ".toList ++ sbWhere style row.where_))))
  | .delete => some <|
    "DELETE FROM ".toList ++ (sbQualified style row.schema table ++
      (" WHERE ".toList ++ sbWhere style row.where_))
  | .other _ => none

/-- The body that `mysql_build_dml_sql`, `pg_build_dml_sql` and `sqlite_build_dml_sql` share. -/
def buildDmlSql (kind : DmlKind) : Option DmlRow → Option Text
  | none => none
  | some row =>
    match row.table with
    | none => none
    | some table =>
      if table = [] then none
      else if kind = .insert ∧ row.set = [] then none
      else if kind = .update ∧ (row.set = [] ∨ row.where_ = []) then none
      else if kind = .delete ∧ row.where_ = [] then none
      else renderDml style kind row table

end

def mysqlBuildDmlSql : DmlKind → Option DmlRow → Option Text := buildDmlSql mysqlStyle

def pgBuildDmlSql : DmlKind → Option DmlRow → Option Text := buildDmlSql ansiStyle

def sqliteBuildDmlSql : DmlKind → Option DmlRow → Option Text := buildDmlSql ansiStyle

/-! ## What a row statement says -/

/-- A row statement as an engine takes it. -/
inductive DmlStatement
  | insert (schema : Option Text) (table : Text) (columns : List Text) (values : List (Option Text))
  | update (schema : Option Text) (table : Text) (set : List ColumnValue) (where_ : List ColumnValue)
  | delete (schema : Option Text) (table : Text) (where_ : List ColumnValue)
  deriving DecidableEq, Repr

def parseName : List Token → Option (Text × List Token)
  | .ident name :: rest => some (name, rest)
  | _ => none

def parseQualified (tokens : List Token) : Option ((Option Text × Text) × List Token) := do
  let (first, rest) ← parseName tokens
  match eat (.punct '.') rest with
  | none => some ((none, first), rest)
  | some rest =>
    let (second, rest) ← parseName rest
    some ((some first, second), rest)

/-- A string, a number with or without a sign, or `NULL`. -/
def parseValue : List Token → Option (Option Text × List Token)
  | .str text :: rest => some (some text, rest)
  | .num text :: rest => some (some text, rest)
  | .op sign :: .num text :: rest =>
    if sign = ['+'] ∨ sign = ['-'] then some (some (sign ++ text), rest) else none
  | .word name :: rest => if name = "NULL".toList then some (none, rest) else none
  | _ => none

def parseAssignment (tokens : List Token) : Option (ColumnValue × List Token) := do
  let (column, rest) ← parseName tokens
  let rest ← eat (.op ['=']) rest
  let (value, rest) ← parseValue rest
  some ((column, value), rest)

/-- `column = 'value'` or `column IS NULL`. -/
def parseCondition (tokens : List Token) : Option (ColumnValue × List Token) := do
  let (column, rest) ← parseName tokens
  match rest with
  | .op op :: .str text :: rest => if op = ['='] then some ((column, some text), rest) else none
  | rest =>
    let rest ← eat (keyword "IS") rest
    let rest ← eat (keyword "NULL") rest
    some ((column, none), rest)

def parseWhere (tokens : List Token) : Option (List ColumnValue) := do
  let tokens ← eat (keyword "WHERE") tokens
  let (conditions, tokens) ← parseSeparated parseCondition (keyword "AND") tokens.length tokens
  if tokens = [] then some conditions else none

/-- A whole text that is one row statement. -/
def parseDml : List Token → Option DmlStatement
  | [] => none
  | verb :: tokens =>
    if verb = keyword "INSERT" then do
      let tokens ← eat (keyword "INTO") tokens
      let ((schema, table), tokens) ← parseQualified tokens
      let tokens ← eat (.punct '(') tokens
      let (columns, tokens) ← parseSeparated parseName (.punct ',') tokens.length tokens
      let tokens ← eat (.punct ')') tokens
      let tokens ← eat (keyword "VALUES") tokens
      let tokens ← eat (.punct '(') tokens
      let (values, tokens) ← parseSeparated parseValue (.punct ',') tokens.length tokens
      let tokens ← eat (.punct ')') tokens
      if tokens = [] then some (.insert schema table columns values) else none
    else if verb = keyword "UPDATE" then do
      let ((schema, table), tokens) ← parseQualified tokens
      let tokens ← eat (keyword "SET") tokens
      let (set, tokens) ← parseSeparated parseAssignment (.punct ',') tokens.length tokens
      let conditions ← parseWhere tokens
      some (.update schema table set conditions)
    else if verb = keyword "DELETE" then do
      let tokens ← eat (keyword "FROM") tokens
      let ((schema, table), tokens) ← parseQualified tokens
      let conditions ← parseWhere tokens
      some (.delete schema table conditions)
    else none

/-! ## The tokens of what the emitters write -/

/-- The style spells names and texts the way the engine reads them. -/
structure SqlStyle.Fits (style : SqlStyle) (d : Dialect) : Prop where
  usual : Usual d
  ident : d style.quote = some ⟨style.quote, false, false⟩
  quote_goes_on : isBoundary style.quote = false
  string : ∃ q, d '\'' = some q ∧ q.close = '\'' ∧ q.isString = true ∧
    ∀ text : Text, Spells q (text.flatMap style.escape) text

theorem ansiStyle_fits : ansiStyle.Fits ansi where
  usual := ansi_usual
  ident := rfl
  quote_goes_on := by decide
  string := by
    refine ⟨⟨'\'', true, false⟩, rfl, rfl, rfl, fun text ↦ ?_⟩
    have hescape : ansiStyle.escape = fun c ↦ if c = '\'' then [c, c] else [c] := by
      funext c
      by_cases hc : c = '\'' <;> simp [ansiStyle, hc]
    rw [hescape]
    exact spells_doubled rfl text

theorem mysqlStyle_fits : mysqlStyle.Fits mysql where
  usual := mysql_usual
  ident := rfl
  quote_goes_on := by decide
  string := by
    refine ⟨⟨'\'', true, true⟩, rfl, rfl, rfl, fun text ↦ ?_⟩
    induction text with
    | nil => exact .nil
    | cons c text ih =>
      by_cases hc : c = '\'' ∨ c = '\\'
      · have hself : unescape c = [c] := by rcases hc with rfl | rfl <;> rfl
        have hescaped := Spells.escaped (c := c) rfl (by decide) ih
        rw [hself] at hescaped
        simpa [mysqlStyle, hc] using hescaped
      · have hc := not_or.mp hc
        simpa [mysqlStyle, hc] using ih.plain hc.1 (by simp [hc])

def valueTokens (val : Option Text) (type : DbcType) : List Token :=
  match val with
  | some text => if dmlIsBareNumeric type text then numberTokens text else [.str text]
  | none => [keyword "NULL"]

def qualifiedTokens (schema : Option Text) (table : Text) : List Token :=
  match schema with
  | some (c :: rest) => [.ident (c :: rest), .punct '.', .ident table]
  | _ => [.ident table]

def conditionTokens : ColumnValue → List Token
  | (col, none) => [.ident col, keyword "IS", keyword "NULL"]
  | (col, some val) => [.ident col, .op ['='], .str val]

def assignmentTokens (item : ColumnValue × DbcType) : List Token :=
  .ident item.1.1 :: .op ['='] :: valueTokens item.1.2 item.2

theorem bareLoop_number {type : DbcType} {digits dot : Bool} {text : Text}
    (h : bareLoop type digits dot text = true) :
    (digits = true ∨ ∃ c ∈ text, c.isDigit = true) ∧ (∀ c ∈ text, c.isDigit = true ∨ c = '.') ∧
      text.count '.' ≤ if dot then 0 else 1 := by
  induction text generalizing digits dot with
  | nil => simpa [bareLoop] using h
  | cons c text ih =>
    unfold bareLoop at h
    split_ifs at h with hdigit hdot
    · obtain ⟨_, hall, hcount⟩ := ih h
      have hne : c ≠ '.' := by
        rintro rfl
        exact absurd hdigit (by decide)
      refine ⟨.inr ⟨c, .head _, hdigit⟩, ?_, ?_⟩
      · exact List.forall_mem_cons.mpr ⟨.inl hdigit, hall⟩
      · rwa [List.count_cons_of_ne hne]
    · obtain ⟨hany, hall, hcount⟩ := ih h
      obtain ⟨rfl, hfirst, _⟩ := hdot
      have hfirst : dot = false := by simpa using hfirst
      refine ⟨hany.imp_right fun ⟨c, hc, hd⟩ ↦ ⟨c, .tail _ hc, hd⟩, ?_, ?_⟩
      · exact List.forall_mem_cons.mpr ⟨.inr rfl, hall⟩
      · rw [List.count_cons_self, hfirst]
        simpa using hcount

theorem isNumber_of_bareLoop {type : DbcType} {text : Text}
    (h : bareLoop type false false text = true) : isNumber text = true := by
  obtain ⟨hany, hall, hcount⟩ := bareLoop_number h
  have hany := hany.resolve_left Bool.false_ne_true
  simp only [isNumber, Bool.and_eq_true, List.any_eq_true, List.all_eq_true, Bool.or_eq_true,
    decide_eq_true_eq]
  exact ⟨⟨hany, hall⟩, by simpa using hcount⟩

theorem isSigned_of_bareNumeric {type : DbcType} {text : Text}
    (h : dmlIsBareNumeric type text = true) : isSigned text = true := by
  unfold dmlIsBareNumeric at h
  split_ifs at h with hempty htype
  unfold isSigned
  split at h
  · exact isNumber_of_bareLoop h
  · exact isNumber_of_bareLoop h
  · next hplus hminus =>
    have hnumber := isNumber_of_bareLoop h
    simpa using hnumber

theorem comma_opens : Opens ", ".toList := ⟨',', [' '], rfl, by decide⟩

theorem equals_opens : Opens " = ".toList := ⟨' ', ['=', ' '], rfl, by decide⟩

section

variable {style : SqlStyle} {d : Dialect} (h : style.Fits d)

include h

theorem sbIdent_reads (name : Text) : Reads d (sbIdent style name) [.ident name] :=
  reads_quoted h.ident h.quote_goes_on (spells_doubled rfl name)

theorem sbString_reads (text : Text) : Reads d (sbLiteral style (some text)) [.str text] := by
  obtain ⟨q, hopen, hclose, hstring, hspells⟩ := h.string
  have hread := reads_quoted hopen (by rw [hclose]; decide) (hspells text)
  rw [hclose, Quoting.token, if_pos hstring] at hread
  exact hread

theorem null_reads : Reads d "NULL".toList [keyword "NULL"] := reads_word h.usual (by decide)

theorem sbValue_reads (val : Option Text) (type : DbcType) :
    Reads d (sbValue style val type) (valueTokens val type) := by
  cases val with
  | none => exact null_reads h
  | some text =>
    unfold sbValue valueTokens
    by_cases hbare : dmlIsBareNumeric type text = true
    · simp only [hbare, if_true]
      exact reads_signed h.usual (isSigned_of_bareNumeric hbare)
    · simp only [hbare]
      exact sbString_reads h text

theorem phrase_cuts {phrase : String} {tokens : List Token}
    (hphrase : ∀ c ∈ phrase.toList, c ∉ ['\'', '"', '`', '['])
    (hread : SqlLex.phrase phrase.toList = some tokens) : Cuts d phrase.toList tokens :=
  cuts_phrase h.usual hphrase hread

theorem comma_cuts : Cuts d ", ".toList [.punct ','] := phrase_cuts h (by decide) (by decide)

theorem equals_cuts : Cuts d " = ".toList [.op ['=']] := phrase_cuts h (by decide) (by decide)

theorem sbCondition_reads (condition : ColumnValue) :
    Reads d (sbCondition style condition) (conditionTokens condition) := by
  obtain ⟨col, val⟩ := condition
  have hcol := sbIdent_reads h col
  cases val with
  | none =>
    have his : Cuts d " IS ".toList [keyword "IS"] := phrase_cuts h (by decide) (by decide)
    have hnull : Reads d " IS NULL".toList [keyword "IS", keyword "NULL"] :=
      his.append_reads (null_reads h)
    exact hcol.append hnull ⟨' ', _, rfl, by decide⟩
  | some val =>
    have hvalue := (equals_cuts h).append_reads (sbString_reads h val)
    exact hcol.append hvalue (equals_opens.append _)

theorem sbAssignment_reads (item : ColumnValue × DbcType) :
    Reads d (sbAssignment style item) (assignmentTokens item) := by
  have hvalue := (equals_cuts h).append_reads (sbValue_reads h item.1.2 item.2)
  exact (sbIdent_reads h item.1.1).append hvalue (equals_opens.append _)

theorem sbQualified_reads (schema : Option Text) (table : Text) :
    Reads d (sbQualified style schema table) (qualifiedTokens schema table) := by
  unfold sbQualified qualifiedTokens
  split
  · next c rest =>
    intro out more hmore
    have hquote : style.quote ≠ '.' := by
      intro hdot
      have hnone := h.usual '.' (by decide)
      rw [← hdot, h.ident] at hnone
      exact absurd hnone nofun
    have hdigit : style.quote.isDigit = false := by
      by_contra hdigit
      have hpart : isWordPart style.quote = true := by
        simp only [isWordPart, Bool.not_eq_false] at hdigit ⊢
        simp [hdigit]
      have hnone := h.usual _ (not_quote_of_isWordPart hpart)
      rw [h.ident] at hnone
      exact absurd hnone nofun
    have htable := sbIdent_reads h table
    have hdot : scan d .between (.ident (c :: rest) :: out) ('.' :: (sbIdent style table ++ more)) =
        scan d .between (.punct '.' :: .ident (c :: rest) :: out) (sbIdent style table ++ more) := by
      refine scan_dot h.usual (fun next hnext ↦ ?_) _
      obtain rfl : style.quote = next := by simpa [sbIdent] using hnext
      exact hdigit
    have hnext : ('.' :: (sbIdent style table ++ more)).head? ≠ some style.quote := by
      simpa using hquote.symm
    have hschema := scan_quoted h.ident (spells_doubled rfl (c :: rest)) hnext out
    calc
      _ = scan d .between (.ident (c :: rest) :: out) ('.' :: (sbIdent style table ++ more)) := by
        rw [← show Quoting.token ⟨style.quote, false, false⟩ (c :: rest) = .ident (c :: rest) from rfl,
          ← hschema]
        simp [sbIdent]
      _ = _ := by
        rw [hdot, htable _ _ hmore]
        rfl
  · exact sbIdent_reads h table

theorem comma_separated_reads (piece : ColumnValue × DbcType → Text)
    (read : ColumnValue × DbcType → List Token) (hpieces : ∀ item, Reads d (piece item) (read item))
    {items : List (ColumnValue × DbcType)} (hitems : items ≠ []) :
    Reads d (", ".toList.intercalate (items.map piece))
      ([Token.punct ','].intercalate (items.map read)) := by
  obtain ⟨first, items, rfl⟩ := List.exists_cons_of_ne_nil hitems
  exact reads_intercalate (comma_cuts h) comma_opens piece read first items fun i _ ↦ hpieces i

def whereTokens (conditions : List ColumnValue) : List Token :=
  keyword "WHERE" :: [keyword "AND"].intercalate (conditions.map conditionTokens)

theorem sbWhere_reads {conditions : List ColumnValue} (hconditions : conditions ≠ []) :
    Reads d (" WHERE ".toList ++ sbWhere style conditions) (whereTokens conditions) := by
  obtain ⟨first, conditions, rfl⟩ := List.exists_cons_of_ne_nil hconditions
  have hwhere : Cuts d " WHERE ".toList [keyword "WHERE"] := phrase_cuts h (by decide) (by decide)
  have hand : Cuts d " AND ".toList [keyword "AND"] := phrase_cuts h (by decide) (by decide)
  exact hwhere.append_reads (reads_intercalate hand ⟨' ', _, rfl, by decide⟩ (sbCondition style)
    conditionTokens first conditions fun i _ ↦ sbCondition_reads h i)

/-- The tokens of a row statement. -/
def dmlTokens (kind : DmlKind) (row : DmlRow) (table : Text) : List Token :=
  let qualified := qualifiedTokens row.schema table
  let comma := [Token.punct ',']
  match kind with
  | .insert => keyword "INSERT" :: keyword "INTO" :: (qualified ++ .punct '(' ::
      (comma.intercalate (row.typedSet.map fun item ↦ [.ident item.1.1]) ++
        .punct ')' :: keyword "VALUES" :: .punct '(' ::
          (comma.intercalate (row.typedSet.map fun item ↦ valueTokens item.1.2 item.2) ++
            [.punct ')'])))
  | .update => keyword "UPDATE" :: (qualified ++ keyword "SET" ::
      (comma.intercalate (row.typedSet.map assignmentTokens) ++ whereTokens row.where_))
  | .delete => keyword "DELETE" :: keyword "FROM" :: (qualified ++ whereTokens row.where_)
  | .other _ => []

theorem insert_reads (row : DmlRow) (table : Text) (hset : row.typedSet ≠ []) {sql : Text}
    (hsql : renderDml style .insert row table = some sql) :
    Reads d sql (dmlTokens .insert row table) := by
  have hinsert : Cuts d "INSERT INTO ".toList [keyword "INSERT", keyword "INTO"] :=
    phrase_cuts h (by decide) (by decide)
  have hopen : Cuts d " (".toList [.punct '('] := phrase_cuts h (by decide) (by decide)
  have hvalues : Cuts d ") VALUES (".toList [.punct ')', keyword "VALUES", .punct '('] :=
    phrase_cuts h (by decide) (by decide)
  have hclose : Cuts d ")".toList [.punct ')'] := phrase_cuts h (by decide) (by decide)
  have hnames := comma_separated_reads h (fun item ↦ sbIdent style item.1.1)
    (fun item ↦ [.ident item.1.1]) (fun item ↦ sbIdent_reads h item.1.1) hset
  have hvals := comma_separated_reads h (fun item ↦ sbValue style item.1.2 item.2)
    (fun item ↦ valueTokens item.1.2 item.2) (fun item ↦ sbValue_reads h item.1.2 item.2) hset
  have hlist := hvals.append hclose.reads ⟨')', _, rfl, by decide⟩
  have hcolumns := hnames.append (hvalues.append_reads hlist) ⟨')', _, rfl, by decide⟩
  have htable := (sbQualified_reads h row.schema table).append (hopen.append_reads hcolumns)
    ⟨' ', _, rfl, by decide⟩
  obtain rfl := Option.some.inj hsql
  exact hinsert.append_reads htable

theorem update_reads (row : DmlRow) (table : Text) (hset : row.typedSet ≠ []) (hwhere : row.where_ ≠ [])
    {sql : Text} (hsql : renderDml style .update row table = some sql) :
    Reads d sql (dmlTokens .update row table) := by
  have hupdate : Cuts d "UPDATE ".toList [keyword "UPDATE"] := phrase_cuts h (by decide) (by decide)
  have hkeyword : Cuts d " SET ".toList [keyword "SET"] := phrase_cuts h (by decide) (by decide)
  have hassignments := comma_separated_reads h (sbAssignment style) assignmentTokens
    (sbAssignment_reads h) hset
  have htail := hassignments.append (sbWhere_reads h hwhere) ⟨' ', _, rfl, by decide⟩
  have htable := (sbQualified_reads h row.schema table).append (hkeyword.append_reads htail)
    ⟨' ', _, rfl, by decide⟩
  obtain rfl := Option.some.inj hsql
  exact hupdate.append_reads htable

theorem delete_reads (row : DmlRow) (table : Text) (hwhere : row.where_ ≠ []) {sql : Text}
    (hsql : renderDml style .delete row table = some sql) :
    Reads d sql (dmlTokens .delete row table) := by
  have hdelete : Cuts d "DELETE FROM ".toList [keyword "DELETE", keyword "FROM"] :=
    phrase_cuts h (by decide) (by decide)
  have htable := (sbQualified_reads h row.schema table).append (sbWhere_reads h hwhere)
    ⟨' ', _, rfl, by decide⟩
  obtain rfl := Option.some.inj hsql
  exact hdelete.append_reads htable

end

/-! ## The tokens read back -/

theorem parseValue_tokens (val : Option Text) (type : DbcType) (rest : List Token) :
    parseValue (valueTokens val type ++ rest) = some (val, rest) := by
  cases val with
  | none => rfl
  | some text =>
    by_cases hbare : dmlIsBareNumeric type text = true
    · simp only [valueTokens, hbare, if_true]
      unfold numberTokens
      split <;> rfl
    · simp only [valueTokens, hbare]
      rfl

theorem valueTokens_ne_nil (val : Option Text) (type : DbcType) : valueTokens val type ≠ [] := by
  intro hnil
  have hparse := parseValue_tokens val type []
  rw [hnil] at hparse
  exact absurd hparse nofun

theorem parseAssignment_tokens (item : ColumnValue × DbcType) (rest : List Token) :
    parseAssignment (assignmentTokens item ++ rest) = some (item.1, rest) := by
  unfold parseAssignment assignmentTokens
  simp [parseName, parseValue_tokens]

theorem parseCondition_tokens (condition : ColumnValue) (rest : List Token) :
    parseCondition (conditionTokens condition ++ rest) = some (condition, rest) := by
  obtain ⟨col, val⟩ := condition
  cases val <;> rfl

theorem conditionTokens_ne_nil (condition : ColumnValue) : conditionTokens condition ≠ [] := by
  obtain ⟨col, val⟩ := condition
  cases val <;> exact nofun

theorem parseQualified_tokens (schema : Option Text) (table : Text) {rest : List Token}
    (hrest : eat (.punct '.') rest = none) :
    parseQualified (qualifiedTokens schema table ++ rest) =
      some ((schema.filter (· ≠ []), table), rest) := by
  unfold qualifiedTokens
  split
  · simp [parseQualified, parseName, Option.filter]
  · next hempty =>
    have hfilter : schema.filter (· ≠ []) = none := by
      cases schema with
      | none => rfl
      | some schema =>
        cases schema with
        | nil => rfl
        | cons c schema => exact absurd rfl (hempty c schema)
    rw [hfilter]
    simp [parseQualified, parseName, hrest]

theorem parseWhere_tokens {conditions : List ColumnValue} (hne : conditions ≠ []) :
    parseWhere (whereTokens conditions) = some conditions := by
  have hread := parseSeparated_tokens conditionTokens id (rfl : eat (keyword "AND") [] = none) hne
    (fun condition _ ↦ conditionTokens_ne_nil condition)
    fun condition _ rest _ ↦ parseCondition_tokens condition rest
  rw [List.append_nil, List.map_id] at hread
  unfold parseWhere whereTokens
  simp [hread]

/-- The change a row asks for, as a statement. -/
def requested (kind : DmlKind) (row : DmlRow) (table : Text) : Option DmlStatement :=
  let schema := row.schema.filter (· ≠ [])
  match kind with
  | .insert => some (.insert schema table (row.set.map Prod.fst) (row.set.map Prod.snd))
  | .update => some (.update schema table row.set row.where_)
  | .delete => some (.delete schema table row.where_)
  | .other _ => none

theorem typedSet_fst (row : DmlRow) : row.typedSet.map Prod.fst = row.set := by
  refine List.map_fst_zip (le_of_eq ?_)
  cases htypes : row.setTypes with
  | none => simp
  | some types => exact (row.parallel types htypes).symm

theorem typedSet_ne_nil {row : DmlRow} (hset : row.set ≠ []) : row.typedSet ≠ [] := by
  intro hnil
  have hfst := typedSet_fst row
  rw [hnil] at hfst
  exact hset hfst.symm

theorem parseDml_insert (row : DmlRow) (table : Text) (hset : row.set ≠ []) :
    parseDml (dmlTokens .insert row table) = requested .insert row table := by
  have htyped := typedSet_ne_nil hset
  have hcolumns (rest : List Token) := parseSeparated_tokens
    (fun item : ColumnValue × DbcType ↦ [.ident item.1.1]) (fun item ↦ item.1.1)
    (rfl : eat (.punct ',') (.punct ')' :: rest) = none) htyped (fun _ _ ↦ List.cons_ne_nil _ _)
    fun _ _ _ _ ↦ (rfl : parseName _ = _)
  have hvalues := parseSeparated_tokens
    (fun item : ColumnValue × DbcType ↦ valueTokens item.1.2 item.2) (fun item ↦ item.1.2)
    (rfl : eat (.punct ',') [.punct ')'] = none) htyped (fun _ _ ↦ valueTokens_ne_nil _ _)
    fun item _ rest _ ↦ parseValue_tokens item.1.2 item.2 rest
  have hqualified (rest : List Token) := parseQualified_tokens row.schema table
    (rfl : eat (.punct '.') (.punct '(' :: rest) = none)
  unfold parseDml dmlTokens
  simp only [if_true, eat_cons, Option.bind_eq_bind, Option.bind_some, hqualified, hcolumns, hvalues]
  unfold requested
  rw [← typedSet_fst row, List.map_map, List.map_map]
  rfl

theorem parseDml_update (row : DmlRow) (table : Text) (hset : row.set ≠ []) (hwhere : row.where_ ≠ []) :
    parseDml (dmlTokens .update row table) = requested .update row table := by
  have htyped := typedSet_ne_nil hset
  have hassignments := parseSeparated_tokens assignmentTokens Prod.fst
    (rfl : eat (.punct ',') (whereTokens row.where_) = none) htyped (fun _ _ ↦ List.cons_ne_nil _ _)
    fun item _ rest _ ↦ parseAssignment_tokens item rest
  have hqualified (rest : List Token) := parseQualified_tokens row.schema table
    (rfl : eat (.punct '.') (keyword "SET" :: rest) = none)
  have hverb : keyword "UPDATE" ≠ keyword "INSERT" := by decide
  unfold parseDml dmlTokens
  simp only [if_neg hverb, if_true, eat_cons, Option.bind_eq_bind, Option.bind_some, hqualified,
    hassignments, parseWhere_tokens hwhere, typedSet_fst]
  rfl

theorem parseDml_delete (row : DmlRow) (table : Text) (hwhere : row.where_ ≠ []) :
    parseDml (dmlTokens .delete row table) = requested .delete row table := by
  have hqualified := parseQualified_tokens row.schema table
    (rfl : eat (.punct '.') (whereTokens row.where_) = none)
  have hinsert : keyword "DELETE" ≠ keyword "INSERT" := by decide
  have hupdate : keyword "DELETE" ≠ keyword "UPDATE" := by decide
  unfold parseDml dmlTokens
  simp only [if_neg hinsert, if_neg hupdate, if_true, eat_cons, Option.bind_eq_bind, Option.bind_some,
    hqualified, parseWhere_tokens hwhere]
  rfl

/-! ## The three drivers -/

/-- What the guards of a builder let through. -/
def Accepts (kind : DmlKind) (row : DmlRow) : Prop :=
  match kind with
  | .insert => row.set ≠ []
  | .update => row.set ≠ [] ∧ row.where_ ≠ []
  | .delete => row.where_ ≠ []
  | .other _ => False

inductive DmlEngine
  | mysql
  | postgres
  | sqlite

def DmlEngine.build : DmlEngine → DmlKind → Option DmlRow → Option Text
  | .mysql => mysqlBuildDmlSql
  | .postgres => pgBuildDmlSql
  | .sqlite => sqliteBuildDmlSql

def DmlEngine.dialect : DmlEngine → Dialect
  | .mysql => SqlLex.mysql
  | .postgres => ansi
  | .sqlite => ansi

/-- The rows that pass the guards: a row with a named table, with something to set and a row to
identify where the statement needs them. -/
def Accepted (kind : DmlKind) (row : Option DmlRow) : Prop :=
  ∃ r table, row = some r ∧ r.table = some table ∧ table ≠ [] ∧ Accepts kind r

def DmlStatement.conditions : DmlStatement → Option (List ColumnValue)
  | .insert _ _ _ _ => none
  | .update _ _ _ conditions => some conditions
  | .delete _ _ conditions => some conditions

theorem buildDmlSql_accepted (style : SqlStyle) {kind : DmlKind} {row : DmlRow} {table : Text}
    (htable : row.table = some table) (hne : table ≠ []) (haccepts : Accepts kind row) :
    buildDmlSql style kind (some row) = renderDml style kind row table := by
  unfold buildDmlSql
  cases kind <;> simp_all [Accepts]

theorem buildDmlSql_rejected (style : SqlStyle) {kind : DmlKind} {row : Option DmlRow}
    (hrejected : ¬ Accepted kind row) : buildDmlSql style kind row = none := by
  unfold buildDmlSql
  cases row with
  | none => rfl
  | some row =>
    cases htable : row.table with
    | none => simp [htable]
    | some table =>
      have haccepts : table ≠ [] → ¬ Accepts kind row := fun hne haccepts ↦
        hrejected ⟨row, table, rfl, htable, hne, haccepts⟩
      cases kind <;> simp_all [Accepts, renderDml]

section

variable {style : SqlStyle} {d : Dialect}

/-- What a builder writes is one statement, and the one that was asked for. -/
theorem renderDml_parses (h : style.Fits d) {kind : DmlKind} {row : DmlRow} (table : Text)
    (haccepts : Accepts kind row) :
    ∃ sql statement, renderDml style kind row table = some sql ∧
      requested kind row table = some statement ∧ (lex d sql).bind parseDml = some statement ∧
      ∀ conditions, statement.conditions = some conditions → conditions ≠ [] := by
  cases kind with
  | insert =>
    have hread := (insert_reads h row table (typedSet_ne_nil haccepts) rfl).lex
    refine ⟨_, _, rfl, rfl, ?_, nofun⟩
    rw [hread]
    exact parseDml_insert row table haccepts
  | update =>
    have hread := (update_reads h row table (typedSet_ne_nil haccepts.1) haccepts.2 rfl).lex
    refine ⟨_, _, rfl, rfl, ?_, fun conditions hconditions ↦ ?_⟩
    · rw [hread]
      exact parseDml_update row table haccepts.1 haccepts.2
    · exact Option.some.inj hconditions ▸ haccepts.2
  | delete =>
    have hread := (delete_reads h row table haccepts rfl).lex
    refine ⟨_, _, rfl, rfl, ?_, fun conditions hconditions ↦ ?_⟩
    · rw [hread]
      exact parseDml_delete row table haccepts
    · exact Option.some.inj hconditions ▸ haccepts
  | other value => exact absurd haccepts id

theorem buildDmlSql_parses (h : style.Fits d) (kind : DmlKind) (row : Option DmlRow) :
    (buildDmlSql style kind row = none ↔ ¬ Accepted kind row) ∧
      ∀ sql, buildDmlSql style kind row = some sql →
        ∃ r table statement, row = some r ∧ r.table = some table ∧
          requested kind r table = some statement ∧ (lex d sql).bind parseDml = some statement ∧
          ∀ conditions, statement.conditions = some conditions → conditions ≠ [] := by
  by_cases haccepted : Accepted kind row
  · obtain ⟨r, table, rfl, htable, hne, haccepts⟩ := haccepted
    obtain ⟨sql, statement, hrender, hrequested, hparses, hwhere⟩ := renderDml_parses h table haccepts
    have hbuild := (buildDmlSql_accepted style htable hne haccepts).trans hrender
    have hmust : Accepted kind (some r) := ⟨r, table, rfl, htable, hne, haccepts⟩
    refine ⟨by simp [hbuild, hmust], fun text htext ↦ ?_⟩
    obtain rfl := Option.some.inj (hbuild.symm.trans htext)
    exact ⟨r, table, statement, rfl, htable, hrequested, hparses, hwhere⟩
  · have hbuild := buildDmlSql_rejected style haccepted
    exact ⟨by simp [hbuild, haccepted], fun sql hsql ↦ absurd (hbuild.symm.trans hsql) nofun⟩

end

/-- Each driver's builder gives nothing exactly when its guards reject the row, and otherwise one
statement that reads back, by the engine's lexical rules, as the change asked for. -/
theorem build_parses (engine : DmlEngine) (kind : DmlKind) (row : Option DmlRow) :
    (engine.build kind row = none ↔ ¬ Accepted kind row) ∧
      ∀ sql, engine.build kind row = some sql →
        ∃ r table statement, row = some r ∧ r.table = some table ∧
          requested kind r table = some statement ∧
          (lex engine.dialect sql).bind parseDml = some statement ∧
          ∀ conditions, statement.conditions = some conditions → conditions ≠ [] := by
  cases engine with
  | mysql => exact buildDmlSql_parses mysqlStyle_fits kind row
  | postgres => exact buildDmlSql_parses ansiStyle_fits kind row
  | sqlite => exact buildDmlSql_parses ansiStyle_fits kind row

end Squaero.Drivers
