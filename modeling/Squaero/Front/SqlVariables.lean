import Squaero.Front.QueryBuilder
import Squaero.Lib.SqlEngines
import Squaero.Lib.SqlLiterals

/-!
# Variables

`frontend/src/utils/sqlVariables.ts`: `:name` in the editor's SQL is replaced with a literal, `${name}` with
the text as typed. The literal is written where the variable stood, so it is a token of its own there only
when its neighbours leave it alone.
-/

namespace Squaero.Front

open Squaero.Lib Squaero.Lib.SqlScript

inductive VarKind
  | value
  | raw
  deriving DecidableEq, Repr

/-- A name, as `readName` reads it. -/
abbrev VarName := {name : Text // isName name = true}

structure SqlVariable where
  name : VarName
  kind : VarKind
  deriving DecidableEq, Repr

structure VarValue where
  text : Text
  isNull : Option Bool

/-- Values by token. -/
abbrev VarValues := List (Text × VarValue)

def varToken (v : SqlVariable) : Text :=
  match v.kind with
  | .raw => '$' :: '{' :: (v.name ++ ['}'])
  | .value => ':' :: v.name

/-! ## Scanning -/

/-- `NAME_CHAR`. -/
def isVarChar (c : Char) : Bool := isWordChar c || c.isDigit

/-- The name that a text starts with. -/
def readName : Text → Option VarName
  | [] => none
  | c :: rest =>
    if h : isWordChar c = true then
      some ⟨c :: rest.takeWhile isVarChar, by
        rw [isName, h, Bool.true_and, List.all_eq_true]
        exact fun d hd ↦ (List.mem_takeWhile_imp hd : isVarChar d = true)⟩
    else none

inductive ScanState
  | normal
  | single
  | double
  | back
  | line
  | block
  | dollar (tag : Text)
  deriving DecidableEq, Repr

/-- What the scanner makes of a character and `extra` ones behind it. -/
inductive Scanned
  | pass (extra : ℕ) (state : ScanState)
  | found (v : SqlVariable) (extra : ℕ)

/-- The name in `${name}`, behind the dollar. -/
def rawName : Text → Option VarName
  | '{' :: rest => (readName rest).filter fun name ↦ (rest.drop name.1.length).head? = some '}'
  | _ => none

/-- `/^[A-Za-z_][A-Za-z0-9_]*$|^$/`. -/
def isTag (candidate : Text) : Bool := candidate = [] || isName candidate

def scanDollar (rest : Text) : Scanned :=
  match rawName rest with
  | some name => .found ⟨name, .raw⟩ (name.1.length + 2)
  | none =>
    let candidate := rest.takeWhile (· ≠ '$')
    if '$' ∈ rest ∧ isTag candidate then .pass (candidate.length + 1) (.dollar ('$' :: (candidate ++ ['$'])))
    else .pass 0 .normal

def scanColon (prev : Option Char) (rest : Text) : Scanned :=
  if rest.head? = some ':' then .pass 1 .normal
  else if prev = some ':' then .pass 0 .normal
  else if prev.any isVarChar then .pass 0 .normal
  else
    match readName rest with
    | some name => .found ⟨name, .value⟩ name.1.length
    | none => .pass 0 .normal

def scanNormal (colons : Bool) (prev : Option Char) (c : Char) (rest : Text) : Scanned :=
  if c = '\'' then .pass 0 .single
  else if c = '"' then .pass 0 .double
  else if c = '`' then .pass 0 .back
  else if c = '-' ∧ rest.head? = some '-' then .pass 1 .line
  else if c = '/' ∧ rest.head? = some '*' then .pass 1 .block
  else if c = '$' then scanDollar rest
  else if colons ∧ c = ':' then scanColon prev rest
  else .pass 0 .normal

def scanQuoted (close : Char) (escapes : Bool) (state : ScanState) (c : Char) (rest : Text) : Scanned :=
  if escapes ∧ c = '\\' ∧ rest ≠ [] then .pass 1 state
  else if c = close ∧ rest.head? = some close then .pass 1 state
  else if c = close then .pass 0 .normal
  else .pass 0 state

def scanStep (colons : Bool) (state : ScanState) (prev : Option Char) (c : Char) (rest : Text) : Scanned :=
  match state with
  | .normal => scanNormal colons prev c rest
  | .single => scanQuoted '\'' true .single c rest
  | .double => scanQuoted '"' true .double c rest
  | .back => scanQuoted '`' false .back c rest
  | .line => .pass 0 (if c = '\n' then .normal else .line)
  | .block => if c = '*' ∧ rest.head? = some '/' then .pass 1 .normal else .pass 0 .block
  | .dollar tag => if tag.isPrefixOf (c :: rest) then .pass (tag.length - 1) .normal else .pass 0 (.dollar tag)

/-- The loop of `scan`: `skip` characters belong to what came before, and to a variable if `hidden`. -/
def scanFrom (colons : Bool) : ℕ → Bool → ScanState → Option Char → Text → List (Item Char SqlVariable)
  | _, _, _, _, [] => []
  | skip + 1, hidden, state, _, c :: rest =>
    (if hidden then [] else [.char c]) ++ scanFrom colons skip hidden state (some c) rest
  | 0, _, state, prev, c :: rest =>
    match scanStep colons state prev c rest with
    | .pass extra state => .char c :: scanFrom colons extra false state (some c) rest
    | .found v extra => .hole v :: scanFrom colons extra true .normal (some c) rest

/-- `engineFamily`. -/
def engineFamily (engine : Text) : Text :=
  let e := jsLower engine
  if e = "mysql".toList ∨ e = "mariadb".toList then "mysql".toList
  else if e = "postgres".toList ∨ e = "postgresql".toList then "postgres".toList
  else e

/-- The text, with its variables as holes. -/
def scan (sql engine : Text) : List (Item Char SqlVariable) :=
  scanFrom (engineFamily engine ≠ "mongodb".toList) 0 false .normal none sql

/-- What one variable contributes. -/
def render (value : VarValue) (kind : VarKind) (engine : Text) : Text :=
  match kind with
  | .raw => value.text
  | .value =>
    if value.isNull = some true then "NULL".toList
    else if isPlainNumber (jsTrim value.text) then jsTrim value.text
    else
      let escaped := if engineFamily engine = "mysql".toList then
        value.text.flatMap fun c ↦ if c = '\\' then ['\\', '\\'] else [c] else value.text
      '\'' :: (SqlLex.doubled escaped ++ ['\''])

/-- What stands for a variable when it runs. -/
def replacement (values : VarValues) (engine : Text) (v : SqlVariable) : Text :=
  match values.lookup (varToken v) with
  | none => varToken v
  | some value => render value v.kind engine

def applyVariables (sql : Text) (values : VarValues) (engine : Text) : Text :=
  (scan sql engine).flatMap (Item.text (replacement values engine))

/-! ## The tokens around -/

/-- The lexical rules of an engine; a driver that is not known reads standard SQL. -/
def rulesOf (engine : Text) : Rules :=
  let family := engineFamily engine
  if family = "mysql".toList then mysqlRules
  else if family = "postgres".toList then postgresRules
  else if family = "sqlite".toList then sqliteRules
  else if family = "mssql".toList then transactSqlRules
  else if family = "informix".toList then informixRules
  else ansiRules

def tokensOf (engine sql : Text) : List Text := (lexer (rulesOf engine)).tokens sql

/-- The text with only its values as holes. -/
def valueItem : Item Char SqlVariable → List (Item Char VarName)
  | .char c => [.char c]
  | .hole ⟨name, .value⟩ => [.hole name]
  | .hole ⟨name, .raw⟩ => (varToken ⟨name, .raw⟩).map .char

def colonName (name : VarName) : Text := varToken ⟨name, .value⟩

/-- The tokens of `sql`, those that `scan` reports as values marked: every one reported is a token. -/
structure MarksVariables (sql engine : Text) (marked : List (Marked Char VarName)) : Prop where
  tokens : marked.map (Marked.text colonName) = tokensOf engine sql
  reported : marked.flatMap Marked.items = (scan sql engine).flatMap valueItem

/-- The tokens of a literal: a negative number is a sign and a number. -/
def renderedTokens (value : VarValue) (engine : Text) : List Text :=
  match render value .value engine with
  | '-' :: digits => [['-'], digits]
  | literal => [literal]

/-- The tokens that stand for a value when it runs. -/
def replacementTokens (values : VarValues) (engine : Text) (name : VarName) : List Text :=
  match values.lookup (colonName name) with
  | none => [colonName name]
  | some value => renderedTokens value engine

/-- What the literal of a value is: `NULL`, a number with its sign, or a string that spells the text. -/
inductive Denotes (engine : Text) (value : VarValue) : List Text → Prop
  | null (h : value.isNull = some true) : Denotes engine value ["NULL".toList]
  | number {digits : Text} (h : jsTrim value.text = digits) (hdigits : isPlainDecimal digits = true) :
    Denotes engine value [digits]
  | negative {digits : Text} (h : jsTrim value.text = '-' :: digits) (hdigits : isPlainDecimal digits = true) :
    Denotes engine value [['-'], digits]
  | string {spelled : Text} (h : SqlLex.Spells ⟨'\'', true, (rulesOf engine).string.backslash⟩ spelled value.text) :
    Denotes engine value ['\'' :: (spelled ++ ['\''])]

/-- Every value stands as one literal where its variable was, and no other token changes. -/
def KeepsShape (sql : Text) (values : VarValues) (engine : Text) (marked : List (Marked Char VarName)) : Prop :=
  tokensOf engine (applyVariables sql values engine) =
      marked.flatMap (Marked.filled (replacementTokens values engine)) ∧
    ∀ name value, values.lookup (colonName name) = some value →
      Denotes engine value (replacementTokens values engine name)

/-- The token before a literal goes on with it. -/
def joinsBefore (r : Rules) (m : Mode) (literal : Text) : Bool := literal.head?.any (joins r m)

/-- The literal goes on with what is behind it: a string with a quote, a whole number with a dot. -/
def joinsBehind (r : Rules) (literal rest : Text) : Bool :=
  match literal.getLast? with
  | some '\'' => rest.head? = some '\''
  | some c => c.isDigit && '.' ∉ literal && dotBehind r rest
  | none => false

/-- A value is written where its neighbours go on with its literal. -/
def Joined (values : VarValues) (engine : Text) (m : Mode) (name : VarName) (rest : Text) : Prop :=
  ∃ value, values.lookup (colonName name) = some value ∧
    (joinsBefore (rulesOf engine) m (render value .value engine) ∨
      joinsBehind (rulesOf engine) (render value .value engine) rest)

/-! ## What the scanner reports -/

theorem readName_eq {rest : Text} {name : VarName} (h : readName rest = some name) :
    name.1 = rest.takeWhile isVarChar ∧ name.1 = rest.take name.1.length := by
  have hname : name.1 = rest.takeWhile isVarChar := by
    cases rest with
    | nil => exact absurd h nofun
    | cons c rest =>
      rw [readName] at h
      split_ifs at h with hc
      obtain rfl := Option.some.inj h
      exact (List.takeWhile_cons_of_pos (by simp [isVarChar, hc])).symm
  refine ⟨hname, ?_⟩
  rw [hname]
  exact List.prefix_iff_eq_take.mp (List.takeWhile_prefix _)

theorem rawName_eq {rest : Text} {name : VarName} (h : rawName rest = some name) :
    rest.take (name.1.length + 2) = '{' :: (name.1 ++ ['}']) := by
  unfold rawName at h
  split at h
  · next rest =>
    obtain ⟨hname, hclose⟩ := Option.filter_eq_some_iff.mp h
    have hclose : rest[name.1.length]? = some '}' := by
      rw [List.head?_drop] at hclose
      exact of_decide_eq_true hclose
    rw [List.take_succ_cons, List.take_add_one, hclose, ← (readName_eq hname).2]
    rfl
  · exact absurd h nofun

theorem scanDollar_found {rest : Text} {v : SqlVariable} {extra : ℕ} (h : scanDollar rest = .found v extra) :
    varToken v = '$' :: rest.take extra ∧ v.kind = .raw := by
  unfold scanDollar at h
  split at h
  · next name hname =>
    obtain ⟨rfl, rfl⟩ := Scanned.found.inj h
    exact ⟨congrArg _ (rawName_eq hname).symm, rfl⟩
  · dsimp only at h
    split_ifs at h

theorem scanColon_found {prev : Option Char} {rest : Text} {v : SqlVariable} {extra : ℕ}
    (h : scanColon prev rest = .found v extra) :
    varToken v = ':' :: rest.take extra ∧ prev.any isVarChar = false ∧ extra = v.name.1.length := by
  unfold scanColon at h
  split_ifs at h with hcast hcolon hprev
  split at h
  · next name hname =>
    obtain ⟨rfl, rfl⟩ := Scanned.found.inj h
    exact ⟨congrArg _ (readName_eq hname).2, Bool.of_not_eq_true hprev, rfl⟩
  · exact absurd h nofun

/-- What is reported is in the text, and no value is reported right behind a name. -/
theorem scanStep_found {colons : Bool} {state : ScanState} {prev : Option Char} {c : Char} {rest : Text}
    {v : SqlVariable} {extra : ℕ} (h : scanStep colons state prev c rest = .found v extra) :
    varToken v = c :: rest.take extra ∧
      (v.kind = .value → prev.any isVarChar = false ∧ extra = v.name.1.length) := by
  have hquoted {close : Char} {escapes : Bool} {state : ScanState} :
      scanQuoted close escapes state c rest ≠ .found v extra := by
    unfold scanQuoted
    split_ifs <;> nofun
  cases state with
  | normal =>
    rw [scanStep, scanNormal] at h
    split_ifs at h with hsingle hdouble hback hline hblock hdollar hcolon
    · obtain ⟨htoken, hkind⟩ := scanDollar_found h
      exact ⟨hdollar ▸ htoken, fun hvalue ↦ absurd (hvalue.symm.trans hkind) nofun⟩
    · obtain ⟨htoken, hprev, hextra⟩ := scanColon_found h
      exact ⟨hcolon.2 ▸ htoken, fun _ ↦ ⟨hprev, hextra⟩⟩
  | single => exact absurd h hquoted
  | double => exact absurd h hquoted
  | back => exact absurd h hquoted
  | line => exact absurd h nofun
  | block =>
    rw [scanStep] at h
    split_ifs at h
  | dollar tag =>
    rw [scanStep] at h
    split_ifs at h

/-- The scanner drops nothing. -/
theorem scanFrom_text (colons : Bool) (skip : ℕ) (hidden : Bool) (state : ScanState) (prev : Option Char)
    (text : Text) : (scanFrom colons skip hidden state prev text).flatMap (Item.text varToken) =
      if hidden then text.drop skip else text := by
  induction text generalizing skip hidden state prev with
  | nil => cases skip <;> simp [scanFrom]
  | cons c rest ih =>
    cases skip with
    | succ skip =>
      rw [scanFrom, List.flatMap_append, ih]
      cases hidden <;> simp [Item.text]
    | zero =>
      rw [scanFrom]
      split
      · rw [List.flatMap_cons, ih]
        simp [Item.text]
      · next v extra hfound =>
        rw [List.flatMap_cons, ih, Item.text, (scanStep_found hfound).1]
        simp

theorem valueItem_text (item : Item Char SqlVariable) :
    (valueItem item).flatMap (Item.text colonName) = Item.text varToken item := by
  cases item with
  | char c => rfl
  | hole v =>
    obtain ⟨name, kind⟩ := v
    cases kind with
    | value => exact List.flatMap_singleton _ _
    | raw =>
      rw [valueItem, List.flatMap_map]
      exact List.flatMap_singleton' _

theorem valueItems_text (sql engine : Text) :
    ((scan sql engine).flatMap valueItem).flatMap (Item.text colonName) = sql := by
  rw [List.flatMap_assoc]
  simp only [valueItem_text]
  exact scanFrom_text _ 0 false .normal none sql

/-- The character before what comes next is part of a name. -/
def Glued (skip : ℕ) (prev : Option Char) (text : Text) : Prop :=
  match skip with
  | 0 => prev.any isVarChar = true
  | skip + 1 => text[skip]?.any isVarChar = true

theorem separated_chars (text : Text) {items : List (Item Char VarName)} (h : Lexer.Separated items) :
    Lexer.Separated (text.map .char ++ items) := by
  induction text with
  | nil => exact h
  | cons c text ih => exact ih

theorem isVarChar_of_isName {name : Text} (h : isName name = true) : ∀ c ∈ name, isVarChar c = true := by
  intro c hc
  cases name with
  | nil => exact absurd hc List.not_mem_nil
  | cons d name =>
    simp only [isName, Bool.and_eq_true, List.all_eq_true] at h
    cases hc with
    | head => simp [isVarChar, h.1]
    | tail _ hc => exact h.2 c hc

/-- No value is reported right behind another one. -/
theorem scanFrom_separated (colons : Bool) (skip : ℕ) (hidden : Bool) (state : ScanState) (prev : Option Char)
    (text : Text) : Lexer.Separated ((scanFrom colons skip hidden state prev text).flatMap valueItem) ∧
      (hidden = true → Glued skip prev text → ∀ name,
        ((scanFrom colons skip hidden state prev text).flatMap valueItem).head? ≠ some (.hole name)) := by
  induction text generalizing skip hidden state prev with
  | nil => cases skip <;> exact ⟨trivial, fun _ _ _ ↦ nofun⟩
  | cons c rest ih =>
    cases skip with
    | succ skip =>
      rw [scanFrom]
      cases hidden with
      | false =>
        refine ⟨(ih skip false state (some c)).1, nofun⟩
      | true =>
        obtain ⟨hsep, hhead⟩ := ih skip true state (some c)
        refine ⟨hsep, fun _ hglued ↦ hhead rfl ?_⟩
        cases skip with
        | zero => exact hglued
        | succ skip => exact hglued
    | zero =>
      rw [scanFrom]
      split
      · next extra state hpass => exact ⟨(ih extra false state (some c)).1, fun _ _ _ ↦ nofun⟩
      · next v extra hfound =>
        obtain ⟨htoken, hvalue⟩ := scanStep_found hfound
        obtain ⟨hsep, hhead⟩ := ih extra true .normal (some c)
        rw [List.flatMap_cons]
        obtain ⟨name, kind⟩ := v
        cases kind with
        | raw => exact ⟨separated_chars _ hsep, fun _ _ _ ↦ nofun⟩
        | value =>
          obtain ⟨hprev, rfl⟩ := hvalue rfl
          refine ⟨⟨hhead rfl ?_, hsep⟩, fun _ hglued ↦ absurd (hprev.symm.trans hglued) nofun⟩
          have hname : name.1 = rest.take name.1.length := (List.cons.inj htoken).2
          obtain ⟨length, hlength⟩ : ∃ length, name.1.length = length + 1 :=
            Nat.exists_eq_succ_of_ne_zero fun hnil ↦ by
              have hvalid := name.2
              rw [List.length_eq_zero_iff.mp hnil] at hvalid
              exact absurd hvalid nofun
          have hlast : length < name.1.length := by omega
          have hmem : name.1[length] ∈ name.1 := List.getElem_mem hlast
          have hrest : rest[length]? = some name.1[length] := by
            rw [← List.getElem?_take_of_lt hlast, ← hname, List.getElem?_eq_getElem hlast]
          have hglued : Glued (length + 1) (some c) rest := by
            simpa [Glued, hrest] using isVarChar_of_isName name.2 _ hmem
          rwa [← hlength] at hglued

/-! ## Literals -/

theorem spells_escaped (text : Text) : SqlLex.Spells ⟨'\'', true, true⟩
    (SqlLex.doubled (text.flatMap fun c ↦ if c = '\\' then ['\\', '\\'] else [c])) text := by
  induction text with
  | nil => exact .nil
  | cons c text ih =>
    rw [List.flatMap_cons, SqlLex.doubled, List.flatMap_append]
    by_cases hbackslash : c = '\\'
    · subst hbackslash
      exact .escaped rfl (by decide) ih
    · by_cases hquote : c = '\''
      · subst hquote
        exact .doubled ih
      · rw [if_neg hbackslash, List.flatMap_singleton, if_neg hquote]
        exact .plain hquote (fun h ↦ hbackslash h.1) ih

theorem rulesOf_string (engine : Text) :
    (rulesOf engine).string.backslash = decide (engineFamily engine = "mysql".toList) := by
  unfold rulesOf
  dsimp only
  by_cases hmysql : engineFamily engine = "mysql".toList
  · rw [if_pos hmysql, decide_eq_true hmysql]
    rfl
  · rw [if_neg hmysql, decide_eq_false hmysql]
    split_ifs <;> rfl

/-- The string literal of a value spells its text. -/
theorem render_string {value : VarValue} {engine : Text} (hnull : value.isNull ≠ some true)
    (hnumber : isPlainNumber (jsTrim value.text) = false) :
    ∃ spelled, render value .value engine = '\'' :: (spelled ++ ['\'']) ∧
      SqlLex.Spells ⟨'\'', true, (rulesOf engine).string.backslash⟩ spelled value.text := by
  have hrender : render value .value engine = _ := if_neg hnull
  rw [hnumber, if_neg Bool.false_ne_true] at hrender
  refine ⟨_, hrender, ?_⟩
  rw [rulesOf_string]
  by_cases hmysql : engineFamily engine = "mysql".toList
  · rw [if_pos hmysql, decide_eq_true hmysql]
    exact spells_escaped value.text
  · rw [if_neg hmysql, decide_eq_false hmysql]
    exact SqlLex.spells_doubled rfl value.text

/-- Digits, with a fraction or without. -/
theorem decimal_forms {text : Text} (h : isPlainDecimal text = true) :
    ∃ c digits, c.isDigit = true ∧ (∀ d ∈ digits, d.isDigit = true) ∧ (text = c :: digits ∨
      ∃ d more, d.isDigit = true ∧ (∀ d ∈ more, d.isDigit = true) ∧ text = c :: digits ++ '.' :: d :: more) := by
  unfold isPlainDecimal at h
  obtain ⟨hwhole, hrest⟩ := Bool.and_eq_true_iff.mp h
  have htext := List.takeWhile_append_dropWhile (p := Char.isDigit) (l := text)
  have hdigits : ∀ d ∈ text.takeWhile Char.isDigit, d.isDigit = true := fun d hd ↦ List.mem_takeWhile_imp hd
  obtain ⟨c, digits, hcons⟩ := List.exists_cons_of_ne_nil (of_decide_eq_true hwhole)
  rw [hcons] at htext hdigits
  refine ⟨c, digits, hdigits c List.mem_cons_self, fun d hd ↦ hdigits d (List.mem_cons_of_mem _ hd), ?_⟩
  split at hrest
  · next hnil => exact .inl (by rw [← htext, hnil, List.append_nil])
  · next fraction hfraction =>
    obtain ⟨hne, hall⟩ := Bool.and_eq_true_iff.mp hrest
    obtain ⟨d, more, rfl⟩ := List.exists_cons_of_ne_nil (of_decide_eq_true hne)
    rw [List.all_eq_true] at hall
    exact .inr ⟨d, more, hall d List.mem_cons_self, fun d hd ↦ hall d (List.mem_cons_of_mem _ hd),
      by rw [← htext, hfraction]⟩
  · exact absurd hrest nofun

theorem decimal_starts {text : Text} (h : isPlainDecimal text = true) :
    ∃ d more, d.isDigit = true ∧ text = d :: more := by
  obtain ⟨c, digits, hc, -, htext | ⟨d, more, -, -, htext⟩⟩ := decimal_forms h
  · exact ⟨c, _, hc, htext⟩
  · exact ⟨c, _, hc, htext⟩

theorem joinsBehind_number {r : Rules} {literal rest : Text} {d : Char} (hlast : literal.getLast? = some d)
    (hd : d.isDigit = true) : joinsBehind r literal rest = (decide ('.' ∉ literal) && dotBehind r rest) := by
  unfold joinsBehind
  rw [hlast]
  split
  · next hquote => exact absurd (Option.some.inj hquote ▸ hd) (by decide)
  · next hsome => simp [← Option.some.inj hsome, hd]
  · next hnone => exact absurd hnone nofun

theorem getLast?_digits {c : Char} {digits : Text} (hc : c.isDigit = true)
    (hdigits : ∀ d ∈ digits, d.isDigit = true) : ∃ d, (c :: digits).getLast? = some d ∧ d.isDigit = true := by
  refine ⟨_, List.getLast?_eq_getLast_of_ne_nil (List.cons_ne_nil _ _), ?_⟩
  obtain hhead | hmem := List.mem_cons.mp (List.getLast_mem (List.cons_ne_nil c digits))
  · rw [hhead]
    exact hc
  · exact hdigits _ hmem

/-- A number stands alone unless a dot goes on with it. -/
theorem scan_decimal_iff {r : Rules} {text : Text} (h : isPlainDecimal text = true) {rest : Text}
    (hrest : ∀ c, rest.head? = some c → isWord r c = false) {others : List Text} :
    (lexer r).scan .idle (text ++ rest) = text :: others ↔
      joinsBehind r text rest = false ∧ (lexer r).scan .idle rest = others := by
  obtain ⟨c, digits, hc, hdigits, rfl | ⟨d, more, hd, hmore, rfl⟩⟩ := decimal_forms h
  · have hbehind : joinsBehind r (c :: digits) rest = dotBehind r rest := by
      obtain ⟨last, hlast, hlastDigit⟩ := getLast?_digits hc hdigits
      have hdot : '.' ∉ c :: digits := fun hmem ↦ by
        rcases List.mem_cons.mp hmem with rfl | hmem
        · exact absurd hc (by decide)
        · exact absurd (hdigits _ hmem) (by decide)
      rw [joinsBehind_number hlast hlastDigit, decide_eq_true hdot, Bool.true_and]
    rw [hbehind, scan_number hc hdigits]
    exact ends_whole (p := ⟨c, digits⟩) hrest
  · have hbehind : joinsBehind r (c :: digits ++ '.' :: d :: more) rest = false := by
      obtain ⟨last, hlast, hlastDigit⟩ := getLast?_digits hd hmore
      have hlast : (c :: digits ++ '.' :: d :: more).getLast? = some last := by
        rw [List.getLast?_append, List.getLast?_cons_cons, hlast]
        rfl
      rw [joinsBehind_number hlast hlastDigit]
      simp
    rw [hbehind, scan_fraction hc hdigits hd hmore hrest]
    simp

theorem renderedTokens_plain {value : VarValue} {engine : Text} {c : Char} {rest : Text}
    (h : render value .value engine = c :: rest) (hc : c ≠ '-') : renderedTokens value engine = [c :: rest] := by
  unfold renderedTokens
  rw [h]
  split
  · next heq => exact absurd (List.cons.inj heq).1 hc
  · rfl

theorem renderedTokens_negative {value : VarValue} {engine : Text} {digits : Text}
    (h : render value .value engine = '-' :: digits) : renderedTokens value engine = [['-'], digits] := by
  unfold renderedTokens
  rw [h]
  rfl

/-- A literal stands alone in the place of a variable exactly when nothing joins it. -/
theorem scan_rendered_iff {value : VarValue} {engine : Text} {m : Mode} {rest : Text}
    (hrest : ∀ c, rest.head? = some c → isWord (rulesOf engine) c = false) {others : List Text} :
    (lexer (rulesOf engine)).scan m (render value .value engine ++ rest) =
        pieces (rulesOf engine) m ++ (renderedTokens value engine ++ others) ↔
      (joinsBefore (rulesOf engine) m (render value .value engine) = false ∧
        joinsBehind (rulesOf engine) (render value .value engine) rest = false) ∧
      (lexer (rulesOf engine)).scan .idle rest = others := by
  generalize hr : rulesOf engine = r at hrest ⊢
  have hnot (c : Char) (hc : c.isAlpha = true ∨ c.isDigit = true ∨ c = '\'') : c ∉ r.operators := by
    intro hmem
    obtain ⟨hquote, hdigit, halpha⟩ := r.operators_usual c hmem
    rcases hc with hc | hc | rfl
    · exact absurd (halpha.symm.trans hc) nofun
    · exact absurd (hdigit.symm.trans hc) nofun
    · exact absurd hquote (by decide)
  have hbegins {c : Char} {literal : Text} (hc : c.isAlpha = true ∨ c.isDigit = true ∨ c = '\'')
      (hread : (lexer r).scan .idle (c :: literal ++ rest) = (c :: literal) :: others ↔
        joinsBehind r (c :: literal) rest = false ∧ (lexer r).scan .idle rest = others) :
      (lexer r).scan m (c :: literal ++ rest) = pieces r m ++ ([c :: literal] ++ others) ↔
        (joinsBefore r m (c :: literal) = false ∧ joinsBehind r (c :: literal) rest = false) ∧
          (lexer r).scan .idle rest = others := by
    have hdot : c ≠ '.' := fun heq ↦ by
      rw [heq] at hc
      exact absurd hc (by decide)
    have hleft : (lexer r).scan m (c :: (literal ++ rest)) = pieces r m ++ (c :: literal) :: others ↔
        joins r m c = false ∧ (lexer r).scan .idle (c :: (literal ++ rest)) = (c :: literal) :: others :=
      scan_literal_iff hdot fun hmem ↦ absurd hmem (hnot c hc)
    rw [and_assoc]
    exact hleft.trans (and_congr_right fun _ ↦ hread)
  by_cases hnull : value.isNull = some true
  · have hrender : render value .value engine = ['N', 'U', 'L', 'L'] := if_pos hnull
    have htokens := renderedTokens_plain hrender (by decide)
    have hread : (lexer r).scan .idle (['N', 'U', 'L', 'L'] ++ rest) =
        ['N', 'U', 'L', 'L'] :: (lexer r).scan .idle rest := by
      refine scan_keyword ⟨_, _, rfl, by decide⟩ (fun c hc ↦ isWord_of_isWordChar ?_) (by decide) hrest
      revert c
      decide
    have hbehind : joinsBehind r ['N', 'U', 'L', 'L'] rest = false := by simp [joinsBehind]
    rw [hrender, htokens]
    refine hbegins (.inl (by decide)) ?_
    rw [hbehind, hread]
    simp
  by_cases hnumber : isPlainNumber (jsTrim value.text) = true
  · have hrender : render value .value engine = jsTrim value.text := (if_neg hnull).trans (if_pos hnumber)
    unfold isPlainNumber at hnumber
    split at hnumber
    · next digits htrim =>
      rw [htrim] at hrender
      have htokens := renderedTokens_negative hrender
      obtain ⟨d, more, hd, hmore⟩ := decimal_starts hnumber
      have hdigit (run : Part) : ∀ c, (digits ++ rest).head? = some c → (lexer r).more (.op run) c = none := by
        intro c hc
        rw [hmore, List.cons_append, List.head?_cons] at hc
        exact more_op_digit (Option.some.inj hc ▸ hd) run
      have hleft : (lexer r).scan m ('-' :: (digits ++ rest)) = pieces r m ++ ['-'] :: digits :: others ↔
          joins r m '-' = false ∧ (lexer r).scan .idle ('-' :: (digits ++ rest)) = ['-'] :: digits :: others :=
        scan_literal_iff (by decide) fun _ ↦ ⟨rfl, start_minus, fun c hc run ↦ hdigit run c hc⟩
      have hread : (lexer r).scan .idle ('-' :: (digits ++ rest)) = ['-'] :: (lexer r).scan .idle (digits ++ rest) := by
        have hstart : (lexer r).start '-' = .op (.of '-') := start_minus
        calc
          _ = (lexer r).scan ((lexer r).start '-') (digits ++ rest) := Lexer.scan_idle_cons
          _ = r.split ['-'] ++ (lexer r).scan .idle (digits ++ rest) := by
            rw [hstart]
            exact Lexer.scan_of_ends (hdigit _)
          _ = _ := by rw [r.split_single]; rfl
      have hbehind : joinsBehind r ('-' :: digits) rest = joinsBehind r digits rest := by
        rw [hmore]
        simp [joinsBehind]
      rw [hrender, htokens, hbehind, and_assoc]
      refine hleft.trans (and_congr_right fun _ ↦ ?_)
      rw [hread, List.cons_inj_right]
      exact scan_decimal_iff hnumber hrest
    · next htrim hminus =>
      obtain ⟨d, more, hd, hmore⟩ := decimal_starts hnumber
      rw [hmore] at hrender hnumber
      have htokens := renderedTokens_plain hrender fun heq ↦ absurd (heq ▸ hd) (by decide)
      rw [hrender, htokens]
      exact hbegins (.inr (.inl hd)) (scan_decimal_iff hnumber hrest)
  · obtain ⟨spelled, hrender, hspells⟩ := render_string hnull (Bool.of_not_eq_true hnumber)
    have htokens := renderedTokens_plain hrender (by decide)
    have hbehind : joinsBehind r ('\'' :: (spelled ++ ['\''])) rest = decide (rest.head? = some '\'') := by
      have hlast : ('\'' :: (spelled ++ ['\''])).getLast? = some '\'' := by
        rw [← List.cons_append, List.getLast?_concat]
      rw [joinsBehind, hlast]
      rfl
    rw [hr] at hspells
    rw [hrender, htokens]
    refine hbegins (.inr (.inr rfl)) ?_
    rw [hbehind, decide_eq_false_iff_not]
    exact scan_string_iff hspells

theorem renderedTokens_denotes (value : VarValue) (engine : Text) : Denotes engine value (renderedTokens value engine) := by
  by_cases hnull : value.isNull = some true
  · have hrender : render value .value engine = ['N', 'U', 'L', 'L'] := if_pos hnull
    rw [renderedTokens_plain hrender (by decide)]
    exact .null hnull
  by_cases hnumber : isPlainNumber (jsTrim value.text) = true
  · have hrender : render value .value engine = jsTrim value.text := (if_neg hnull).trans (if_pos hnumber)
    unfold isPlainNumber at hnumber
    split at hnumber
    · next digits htrim =>
      rw [renderedTokens_negative (hrender.trans htrim)]
      exact .negative htrim hnumber
    · next htrim hminus =>
      obtain ⟨d, more, hd, hmore⟩ := decimal_starts hnumber
      rw [hmore] at hnumber
      rw [renderedTokens_plain (hrender.trans hmore) fun heq ↦ absurd (heq ▸ hd) (by decide)]
      exact .number hmore hnumber
  · obtain ⟨spelled, hrender, hspells⟩ := render_string hnull (Bool.of_not_eq_true hnumber)
    rw [renderedTokens_plain hrender (by decide)]
    exact .string hspells

/-! ## Replacing the variables -/

section

variable {out : VarName → Text} {rest : List (Item Char VarName)}

/-- Behind a variable is a character or nothing. -/
theorem separated_forms {name : VarName} (h : Lexer.Separated (.hole name :: rest)) :
    rest = [] ∨ ∃ c more, rest = .char c :: more := by
  cases rest with
  | nil => exact .inl rfl
  | cons item more =>
    cases item with
    | char c => exact .inr ⟨c, more, rfl⟩
    | hole name' => exact absurd rfl (h.1 name')

theorem head_replaced {name : VarName} (h : Lexer.Separated (.hole name :: rest)) :
    (rest.flatMap (Item.text out)).head? = (rest.flatMap (Item.text colonName)).head? := by
  obtain rfl | ⟨c, more, rfl⟩ := separated_forms h <;> rfl

theorem dotBehind_replaced {r : Rules} {name : VarName} (h : Lexer.Separated (.hole name :: rest))
    (hout : ∀ name, ∃ c more, out name = c :: more ∧ c ≠ '.') :
    dotBehind r (rest.flatMap (Item.text out)) = dotBehind r (rest.flatMap (Item.text colonName)) := by
  obtain rfl | ⟨c, more, rfl⟩ := separated_forms h
  · rfl
  rw [List.flatMap_cons, List.flatMap_cons, Item.text, Item.text, List.singleton_append, List.singleton_append]
  by_cases hc : c = '.'
  · subst hc
    rw [dotBehind, dotBehind]
    cases more with
    | nil => rfl
    | cons item more =>
      cases item with
      | char d => rfl
      | hole name' =>
        obtain ⟨d, literal, hliteral, hd⟩ := hout name'
        simp [Item.text, hliteral, hd, colonName, varToken]
  · have hnone (text : Text) : dotBehind r (c :: text) = false := by
      unfold dotBehind
      split
      · next heq => exact absurd (List.cons.inj heq).1 hc
      · rfl
    rw [hnone, hnone]

/-- Whether something goes on with a literal does not depend on what fills the variables behind it. -/
theorem joinsBehind_replaced {r : Rules} {name : VarName} (h : Lexer.Separated (.hole name :: rest))
    (hout : ∀ name, ∃ c more, out name = c :: more ∧ c ≠ '.') (literal : Text) :
    joinsBehind r literal (rest.flatMap (Item.text out)) =
      joinsBehind r literal (rest.flatMap (Item.text colonName)) := by
  unfold joinsBehind
  rw [head_replaced h, dotBehind_replaced h hout]

end

theorem render_head (value : VarValue) (engine : Text) :
    ∃ c more, render value .value engine = c :: more ∧ c ≠ '.' := by
  by_cases hnull : value.isNull = some true
  · exact ⟨'N', ['U', 'L', 'L'], if_pos hnull, by decide⟩
  by_cases hnumber : isPlainNumber (jsTrim value.text) = true
  · have hrender : render value .value engine = jsTrim value.text := (if_neg hnull).trans (if_pos hnumber)
    unfold isPlainNumber at hnumber
    split at hnumber
    · next digits htrim => exact ⟨'-', digits, hrender.trans htrim, by decide⟩
    · next htrim hminus =>
      obtain ⟨d, more, hd, hmore⟩ := decimal_starts hnumber
      exact ⟨d, more, hrender.trans hmore, fun heq ↦ absurd (heq ▸ hd) (by decide)⟩
  · obtain ⟨spelled, hrender, -⟩ := render_string hnull (Bool.of_not_eq_true hnumber)
    exact ⟨'\'', _, hrender, by decide⟩

section

variable {values : VarValues} {engine : Text} {name : VarName}

theorem replacement_none (h : values.lookup (colonName name) = none) :
    replacement values engine ⟨name, .value⟩ = colonName name := by
  unfold replacement
  rw [show varToken ⟨name, .value⟩ = colonName name from rfl, h]

theorem replacement_some {value : VarValue} (h : values.lookup (colonName name) = some value) :
    replacement values engine ⟨name, .value⟩ = render value .value engine := by
  unfold replacement
  rw [show varToken ⟨name, .value⟩ = colonName name from rfl, h]

/-- What a variable is replaced with is not empty and starts with no dot. -/
theorem replacement_head (values : VarValues) (engine : Text) (name : VarName) :
    ∃ c more, replacement values engine ⟨name, .value⟩ = c :: more ∧ c ≠ '.' := by
  cases hvalue : values.lookup (colonName name) with
  | none => exact ⟨':', name, replacement_none hvalue, by decide⟩
  | some value =>
    obtain ⟨c, more, hrender, hc⟩ := render_head value engine
    exact ⟨c, more, (replacement_some hvalue).trans hrender, hc⟩

/-- What replaces a variable stands alone exactly when nothing joins it. -/
theorem scan_replacement_iff {m : Mode} {rest : List (Item Char VarName)} {others : List Text}
    {out : VarName → Text} (hout : ∀ name, out name = replacement values engine ⟨name, .value⟩)
    (hsep : Lexer.Separated (.hole name :: rest))
    (htoken : (lexer (rulesOf engine)).IsToken colonName m name (rest.flatMap (Item.text colonName))) :
    (lexer (rulesOf engine)).scan m (out name ++ rest.flatMap (Item.text out)) =
        (lexer (rulesOf engine)).pieces m ++ (replacementTokens values engine name ++ others) ↔
      ¬ Joined values engine m name (rest.flatMap (Item.text colonName)) ∧
        (lexer (rulesOf engine)).scan .idle (rest.flatMap (Item.text out)) = others := by
  have hcolon : colonName name = ':' :: name.1 := rfl
  obtain ⟨hcut, hword⟩ := cut_of_isToken hcolon name.2 htoken
  have hhead : ∀ c, (rest.flatMap (Item.text out)).head? = some c → isWord (rulesOf engine) c = false :=
    fun c hc ↦ hword c ((head_replaced hsep).symm.trans hc)
  cases hvalue : values.lookup (colonName name) with
  | none =>
    have htokens : replacementTokens values engine name = [colonName name] := by rw [replacementTokens, hvalue]
    have hjoined : ¬ Joined values engine m name (rest.flatMap (Item.text colonName)) := by
      rintro ⟨value, hsome, -⟩
      exact absurd (hvalue.symm.trans hsome) nofun
    have hread : (lexer (rulesOf engine)).scan m (':' :: name.1 ++ rest.flatMap (Item.text out)) =
        pieces (rulesOf engine) m ++ (':' :: name.1) ::
          (lexer (rulesOf engine)).scan .idle (rest.flatMap (Item.text out)) := by
      rw [List.cons_append, Lexer.scan_cut hcut]
      refine congrArg _ ((scan_variable name.2 _).trans ?_)
      exact ends_word (variable_plain name) hhead
    rw [hout, replacement_none hvalue, htokens, hcolon, hread]
    simp [hjoined, lexer]
  | some value =>
    have htokens : replacementTokens values engine name = renderedTokens value engine := by
      rw [replacementTokens, hvalue]
    have hjoined : ¬ Joined values engine m name (rest.flatMap (Item.text colonName)) ↔
        joinsBefore (rulesOf engine) m (render value .value engine) = false ∧
          joinsBehind (rulesOf engine) (render value .value engine) (rest.flatMap (Item.text out)) = false := by
      rw [joinsBehind_replaced hsep fun name ↦ hout name ▸ replacement_head values engine name]
      simp [Joined, hvalue]
    rw [hout, replacement_some hvalue, htokens, hjoined]
    exact scan_rendered_iff hhead

end

/-- Every value stands as one literal where its variable was, and no other token changes, exactly when
nothing goes on with the literal of a value and no literal goes on with what is behind it. -/
theorem applyVariables_keepsShape_iff {sql engine : Text} {values : VarValues}
    {marked : List (Marked Char VarName)} (hmarked : MarksVariables sql engine marked)
    (hvalues : ∀ entry ∈ values, ∃ name, entry.1 = colonName name) :
    KeepsShape sql values engine marked ↔
      ∀ before name after, (scan sql engine).flatMap valueItem = before ++ .hole name :: after →
        ¬ Joined values engine ((lexer (rulesOf engine)).modeAfter .idle (before.flatMap (Item.text colonName))) name
          (after.flatMap (Item.text colonName)) := by
  let out (name : VarName) : Text := replacement values engine ⟨name, .value⟩
  have hraw (item : Item Char SqlVariable) :
      Item.text (replacement values engine) item = (valueItem item).flatMap (Item.text out) := by
    cases item with
    | char c => rfl
    | hole v =>
      obtain ⟨name, kind⟩ := v
      cases kind with
      | value => exact (List.flatMap_singleton _ _).symm
      | raw =>
        have hnone : values.lookup (varToken ⟨name, .raw⟩) = none := by
          rw [List.lookup_eq_none_iff]
          intro entry hentry
          obtain ⟨name', hname'⟩ := hvalues entry hentry
          rw [hname']
          exact bne_iff_ne.mpr nofun
        rw [Item.text, replacement, hnone, valueItem, List.flatMap_map]
        exact (List.flatMap_singleton' _).symm
  have happly : applyVariables sql values engine =
      ((scan sql engine).flatMap valueItem).flatMap (Item.text out) := by
    rw [List.flatMap_assoc]
    exact List.flatMap_congr fun item _ ↦ hraw item
  have hmarks : (lexer (rulesOf engine)).Marks colonName ((scan sql engine).flatMap valueItem) marked :=
    ⟨by rw [hmarked.tokens, valueItems_text]; rfl, hmarked.reported⟩
  have hdenotes : ∀ name value, values.lookup (colonName name) = some value →
      Denotes engine value (replacementTokens values engine name) := by
    intro name value hvalue
    rw [replacementTokens, hvalue]
    exact renderedTokens_denotes value engine
  have hkeeps : KeepsShape sql values engine marked ↔ (lexer (rulesOf engine)).tokens
      (((scan sql engine).flatMap valueItem).flatMap (Item.text out)) =
        marked.flatMap (Marked.filled (replacementTokens values engine)) := by
    rw [KeepsShape, happly]
    exact and_iff_left hdenotes
  rw [hkeeps]
  refine Lexer.tokens_fill_iff (fun name ↦ List.cons_ne_nil _ _) ?_ ?_ hmarks
    (scanFrom_separated _ 0 false .normal none sql).1
  · exact fun m name rest before after ↦ isToken_of_read (show colonName name = ':' :: name.1 from rfl) name.2
  · exact fun m name rest hsep htoken others ↦ scan_replacement_iff (fun _ ↦ rfl) hsep htoken

/-- A difference whose second operand is a variable. -/
def difference : Text := "5-:n".toList

def variableN : VarName := ⟨['n'], by decide⟩

/-- Its tokens. -/
def differenceMarked : List (Marked Char VarName) := [.token ['5'], .token ['-'], .hole variableN]

/-- A negative value for it. -/
def minusThree : VarValues := [(":n".toList, ⟨"-3".toList, none⟩)]

theorem difference_marked : MarksVariables difference "postgres".toList differenceMarked where
  tokens := by decide
  reported := rfl

theorem difference_keepsShape_iff : KeepsShape difference minusThree "postgres".toList differenceMarked ↔
    ∀ before name after, (scan difference "postgres".toList).flatMap valueItem = before ++ .hole name :: after →
      ¬ Joined minusThree "postgres".toList
        ((lexer (rulesOf "postgres".toList)).modeAfter .idle (before.flatMap (Item.text colonName))) name
        (after.flatMap (Item.text colonName)) :=
  applyVariables_keepsShape_iff difference_marked fun entry hentry ↦ ⟨variableN, by
    rw [List.mem_singleton.mp hentry]
    rfl⟩

/-- `5--3` ends in a comment. -/
theorem difference_loses_operand : MarksVariables difference "postgres".toList differenceMarked ∧
    ¬ KeepsShape difference minusThree "postgres".toList differenceMarked := by
  refine ⟨difference_marked, fun hkeeps ↦ ?_⟩
  have htokens : [['5'], "--3".toList] = [['5'], ['-'], ['-'], ['3']] := hkeeps.1
  exact absurd htokens (by decide)

end Squaero.Front
