import Mathlib.Data.Rat.Floor
import Squaero.Front.Preview
import Squaero.Lib.Like
import Squaero.Lib.Patterns

/-!
# Searching a text in the tables

`frontend/src/utils/dataSearch.ts`: one bounded query for each table with a predicate for each column that can hold the
text.
-/

namespace Squaero.Front.DataSearch

open Squaero.Lib Squaero.Front.Preview
open Squaero.Lib.SqlStrings (Piece)

inductive MatchMode
  | contains
  | exact
  | startsWith
  deriving DecidableEq

structure SearchOptions where
  text : Text
  mode : MatchMode
  ignoreCase : Bool
  numeric : Bool
  ignoreAccents : Bool
  /-- None where it is not finite. -/
  limit : Option ℚ

inductive Kind
  | text
  | number
  deriving DecidableEq

inductive TablePlan
  | planned (sql openSql : Text) (columns : List Text)
  | skipped (reason : Text)
  deriving DecidableEq

def clampLimit : Option ℚ → ℤ
  | none => 100
  | some n => min 10000 (max 1 ⌊n⌋)

/-! ## Columns -/

def numericTypes : List Text :=
  ["tinyint".toList, "smallint".toList, "mediumint".toList, "int".toList, "integer".toList, "bigint".toList,
    "int2".toList, "int4".toList, "int8".toList, "serial".toList, "serial8".toList, "bigserial".toList,
    "smallserial".toList, "float".toList, "float4".toList, "float8".toList, "smallfloat".toList, "double".toList,
    "decimal".toList, "dec".toList, "numeric".toList, "number".toList, "real".toList, "money".toList,
    "smallmoney".toList]

/-- `\w` -/
def isRegexWord (c : Char) : Bool := isWordChar c || c.isDigit

/-- `columnKind` -/
def columnKind (type engine : Text) : Option Kind :=
  let t := jsLower (jsTrim type)
  let family := engineFamily engine
  let isText :=
    if family = "informix".toList then
      t.takeWhile isRegexWord ∈ ["char".toList, "nchar".toList, "varchar".toList, "nvarchar".toList, "lvarchar".toList]
    else if family = "mssql".toList then "char".toList <:+: t ∨ t = "sysname".toList
    else "char".toList <:+: t ∨ "text".toList <:+: t ∨ "clob".toList <:+: t ∨ t.takeWhile isRegexWord = "enum".toList
  if t = [] ∨ t.getLast? = some ']' then none
  else if isText then some .text
  else if (runs isRegexWord t).any (· ∈ numericTypes) then some .number
  else none

/-- `likePattern`; only the two modes with a pattern have one. -/
def likePattern (text : Text) (mode : MatchMode) (engine : Text) : Text :=
  let special (c : Char) : Bool :=
    if engineFamily engine = "mssql".toList then c ∈ ['!', '%', '_', '['] else c ∈ ['!', '%', '_']
  let body := text.flatMap fun c ↦ if special c then ['!', c] else [c]
  (if mode = .contains then ['%'] else []) ++ body ++ ['%']

def accents : List (Char × Char) :=
  [('á', 'a'), ('à', 'a'), ('é', 'e'), ('è', 'e'), ('í', 'i'), ('ì', 'i'), ('ó', 'o'), ('ò', 'o'), ('ú', 'u'), ('ù', 'u'),
    ('ü', 'u')]

def accentsBoth : List (Char × Char) :=
  accents ++ [('Á', 'A'), ('À', 'A'), ('É', 'E'), ('È', 'E'), ('Í', 'I'), ('Ì', 'I'), ('Ó', 'O'), ('Ò', 'O'), ('Ú', 'U'),
    ('Ù', 'U'), ('Ü', 'U')]

/-- `foldAccents` -/
def foldAccents (text : Text) : Text :=
  accentsBoth.foldl (fun out pair ↦ out.map fun c ↦ if c = pair.1 then pair.2 else c) text

def foldAccentsSql (expr : Text) (lowered : Bool) (engine : Text) : Text :=
  let pairs := if lowered ∧ engineFamily engine ≠ "sqlite".toList then accents else accentsBoth
  pairs.foldl (fun e pair ↦ "REPLACE(".toList ++ e ++ ", '".toList ++ [pair.1] ++ "', '".toList ++ [pair.2] ++ "')".toList)
    expr

/-! ## Statements -/

/-- The number that the numeric columns are compared with, where they are. -/
def numberOf (opts : SearchOptions) : Option Text :=
  if opts.numeric ∧ isPlainNumber (jsTrim opts.text) then some (jsTrim opts.text) else none

/-- `lit` -/
def lit (engine s : Text) : List Piece :=
  if engineFamily engine = "mssql".toList then [.code ['N'], .literal s] else [.literal s]

/-- `predicate` -/
def predicate (toLowerCase : Text → Text) (column : Text) (kind : Kind) (engine : Text) (opts : SearchOptions) :
    Option (List Piece) :=
  let col := quoteIdentifier column engine
  let lowerCol := "LOWER(".toList ++ col ++ [')']
  match kind with
  | .number => (numberOf opts).map fun n ↦ [.code (col ++ " = ".toList ++ n)]
  | .text =>
    let family := engineFamily engine
    let esc : Piece := .code " ESCAPE '!'".toList
    if opts.ignoreAccents then
      let expr := foldAccentsSql (if opts.ignoreCase then lowerCol else col) opts.ignoreCase engine
      let raw := if opts.mode = .exact then opts.text else likePattern opts.text opts.mode engine
      let folded := foldAccents (if opts.ignoreCase then toLowerCase raw else raw)
      if opts.mode = .exact then some (.code (expr ++ " = ".toList) :: lit engine folded)
      else some (.code (expr ++ " LIKE ".toList) :: (lit engine folded ++ [esc]))
    else if opts.mode = .exact then
      if opts.ignoreCase then
        some (.code (lowerCol ++ " = LOWER(".toList) :: (lit engine opts.text ++ [.code [')']]))
      else some (.code (col ++ " = ".toList) :: lit engine opts.text)
    else
      let pattern := likePattern opts.text opts.mode engine
      if ¬ opts.ignoreCase then some (.code (col ++ " LIKE ".toList) :: (lit engine pattern ++ [esc]))
      else if family = "postgres".toList then
        some (.code (col ++ " ILIKE ".toList) :: (lit engine pattern ++ [esc]))
      else if family = "informix".toList then
        some (.code (lowerCol ++ " LIKE ".toList) :: (lit engine (toLowerCase pattern) ++ [esc]))
      else some (.code (lowerCol ++ " LIKE LOWER(".toList) :: (lit engine pattern ++ [.code [')'], esc]))

section

variable (toLowerCase : Text → Text) (columns : List (Text × Text)) (engine : Text) (opts : SearchOptions)

/-- The columns that take part, each with its predicate. -/
def predicates : List (Text × List Piece) :=
  columns.filterMap fun column ↦
    (columnKind column.2 engine).bind fun kind ↦
      (predicate toLowerCase column.1 kind engine opts).map fun p ↦ (column.1, p)

/-- A table's query, of at most `limit` rows where that is positive. -/
def statementOf (table : TableRef) (limit : ℤ) : List Piece :=
  previewSelect (qualifiedName table engine) engine limit 0
    ([.code " OR ".toList].intercalate ((predicates toLowerCase columns engine opts).map Prod.snd)) []

/-- `planTable` -/
def planTable (table : TableRef) : TablePlan :=
  let preds := predicates toLowerCase columns engine opts
  if preds = [] then .skipped "ds.skipNoColumns".toList
  else
    .planned ((statementOf toLowerCase columns engine opts table (clampLimit opts.limit)).flatMap (pieceText engine))
      ((statementOf toLowerCase columns engine opts table 0).flatMap (pieceText engine)) (preds.map Prod.fst)

/-! ## What the literals stand for -/

/-- How the engine reads a `LIKE` pattern with the escape character of the search. -/
def likeRules : Like.Rules where
  escape := '!'
  classes := engineFamily engine = "mssql".toList

/-- What the text columns are compared with. -/
def searched : Text :=
  let raw := if opts.mode = .exact then opts.text else likePattern opts.text opts.mode engine
  let isLowered :=
    opts.ignoreCase ∧ (opts.ignoreAccents ∨ opts.mode ≠ .exact ∧ engineFamily engine = "informix".toList)
  let lowered := if isLowered then toLowerCase raw else raw
  if opts.ignoreAccents then foldAccents lowered else lowered

end

section

variable {toLowerCase : Text → Text} {columns : List (Text × Text)} {engine : Text} {opts : SearchOptions}

theorem likePattern_eq (text : Text) (mode : MatchMode) :
    likePattern text mode engine =
      (if mode = .contains then ['%'] else []) ++ Like.escapeAll (likeRules engine) text ++ ['%'] := by
  have hspecial (c : Char) : (if engineFamily engine = "mssql".toList then decide (c ∈ ['!', '%', '_', '['])
      else decide (c ∈ ['!', '%', '_'])) = Like.isSpecial (likeRules engine) c := by
    unfold Like.isSpecial likeRules
    dsimp only
    by_cases hmssql : engineFamily engine = "mssql".toList
    · rw [if_pos hmssql, decide_eq_true hmssql]
      simp [Bool.or_assoc]
    · rw [if_neg hmssql, decide_eq_false hmssql]
      simp [Bool.or_assoc]
  unfold likePattern Like.escapeAll
  simp only [hspecial]
  rfl

theorem apart_lit {r : SqlStrings.Rules} {s : Text} {more : List Piece} (hmore : SqlStrings.Apart r more)
    (hnext : (SqlStrings.textOf r more).head? ≠ some '\'') : SqlStrings.Apart r (lit engine s ++ more) := by
  unfold lit
  split_ifs
  · exact ⟨hnext, hmore⟩
  · exact ⟨hnext, hmore⟩

theorem literal_mem_lit {s v : Text} (h : .literal v ∈ lit engine s) : v = s := by
  unfold lit at h
  split_ifs at h <;> simpa using h

/-- A predicate with one literal: code, the literal, and more code that does not begin with a quote. -/
theorem spec_of_lit {r : SqlStrings.Rules} {before : Text} {s value : Text} {codes : List Text} (hvalue : s = value)
    (hcodes : (codes.flatMap id).head? ≠ some '\'') :
    SqlStrings.Apart r (.code before :: (lit engine s ++ codes.map Piece.code)) ∧
      ∀ v, .literal v ∈ Piece.code before :: (lit engine s ++ codes.map Piece.code) → v = value := by
  have htext (more : List Text) : SqlStrings.textOf r (more.map Piece.code) = more.flatMap id := by
    unfold SqlStrings.textOf
    rw [List.flatMap_map]
    rfl
  have hapart (more : List Text) : SqlStrings.Apart r (more.map Piece.code) := by
    induction more with
    | nil => trivial
    | cons text more ih => exact ih
  refine ⟨apart_lit (hapart codes) (by rwa [htext]), fun v hv ↦ ?_⟩
  rcases List.mem_cons.mp hv with hv | hv
  · cases hv
  rcases List.mem_append.mp hv with hv | hv
  · exact (literal_mem_lit hv).trans hvalue
  · obtain ⟨text, _, heq⟩ := List.mem_map.mp hv
    cases heq

theorem spec_of_lit_last {r : SqlStrings.Rules} {before : Text} {s value : Text} (hvalue : s = value) :
    SqlStrings.Apart r (.code before :: lit engine s) ∧
      ∀ v, .literal v ∈ Piece.code before :: lit engine s → v = value := by
  have hspec := @spec_of_lit engine r before s value [] hvalue nofun
  rwa [List.map_nil, List.append_nil] at hspec

theorem searched_of_accents (haccents : opts.ignoreAccents = true) :
    searched toLowerCase engine opts =
      let raw := if opts.mode = .exact then opts.text else likePattern opts.text opts.mode engine
      foldAccents (if opts.ignoreCase then toLowerCase raw else raw) := by
  have hlowered : (opts.ignoreCase = true ∧ (opts.ignoreAccents = true ∨ opts.mode ≠ .exact ∧
      engineFamily engine = "informix".toList)) = (opts.ignoreCase = true) :=
    propext ⟨And.left, fun hcase ↦ ⟨hcase, .inl haccents⟩⟩
  unfold searched
  dsimp only
  rw [if_pos haccents]
  simp only [hlowered]

theorem searched_of_exact (haccents : ¬ opts.ignoreAccents = true) (hmode : opts.mode = .exact) :
    searched toLowerCase engine opts = opts.text := by
  unfold searched
  dsimp only
  rw [if_neg haccents, if_neg fun h ↦ h.2.elim haccents fun h ↦ h.1 hmode, if_pos hmode]

theorem searched_of_pattern (haccents : ¬ opts.ignoreAccents = true) (hmode : ¬ opts.mode = .exact) :
    searched toLowerCase engine opts =
      let pattern := likePattern opts.text opts.mode engine
      if opts.ignoreCase ∧ engineFamily engine = "informix".toList then toLowerCase pattern else pattern := by
  have hlowered : (opts.ignoreCase = true ∧ (opts.ignoreAccents = true ∨ opts.mode ≠ .exact ∧
      engineFamily engine = "informix".toList)) =
      (opts.ignoreCase = true ∧ engineFamily engine = "informix".toList) :=
    propext (and_congr_right fun _ ↦ ⟨fun h ↦ (h.resolve_left haccents).2, fun h ↦ .inr ⟨hmode, h⟩⟩)
  unfold searched
  dsimp only
  rw [if_neg haccents]
  simp only [hlowered, if_neg hmode]

/-- A predicate's literals are apart, and they are what is searched. -/
theorem predicate_spec {r : SqlStrings.Rules} {column : Text} {kind : Kind} {p : List Piece}
    (h : predicate toLowerCase column kind engine opts = some p) :
    SqlStrings.Apart r p ∧ ∀ v, .literal v ∈ p → v = searched toLowerCase engine opts := by
  unfold predicate at h
  cases kind with
  | number =>
    obtain ⟨n, _, rfl⟩ := Option.map_eq_some_iff.mp h
    exact ⟨trivial, fun v hv ↦ by cases List.mem_singleton.mp hv⟩
  | text =>
    dsimp only at h
    by_cases haccents : opts.ignoreAccents = true
    · rw [if_pos haccents] at h
      have hsearched := (@searched_of_accents toLowerCase engine opts haccents).symm
      by_cases hmode : opts.mode = .exact
      · rw [if_pos hmode] at h
        obtain rfl := Option.some.inj h
        exact spec_of_lit_last hsearched
      · rw [if_neg hmode] at h
        obtain rfl := Option.some.inj h
        exact @spec_of_lit engine r _ _ _ [" ESCAPE '!'".toList] hsearched (by decide)
    rw [if_neg haccents] at h
    by_cases hmode : opts.mode = .exact
    · rw [if_pos hmode] at h
      have hsearched := (@searched_of_exact toLowerCase engine opts haccents hmode).symm
      split_ifs at h with hcase
      · obtain rfl := Option.some.inj h
        exact @spec_of_lit engine r _ _ _ [[')']] hsearched (by decide)
      · obtain rfl := Option.some.inj h
        exact spec_of_lit_last hsearched
    · rw [if_neg hmode] at h
      have hsearched := (@searched_of_pattern toLowerCase engine opts haccents hmode).symm
      dsimp only at hsearched
      by_cases hcase : opts.ignoreCase = true
      swap
      · rw [if_pos hcase] at h
        rw [if_neg fun h ↦ hcase h.1] at hsearched
        obtain rfl := Option.some.inj h
        exact @spec_of_lit engine r _ _ _ [" ESCAPE '!'".toList] hsearched (by decide)
      rw [if_neg (not_not.mpr hcase)] at h
      by_cases hpostgres : engineFamily engine = "postgres".toList
      · rw [if_pos hpostgres] at h
        rw [if_neg fun h ↦ absurd (hpostgres.symm.trans h.2) (by decide)] at hsearched
        obtain rfl := Option.some.inj h
        exact @spec_of_lit engine r _ _ _ [" ESCAPE '!'".toList] hsearched (by decide)
      rw [if_neg hpostgres] at h
      by_cases hinformix : engineFamily engine = "informix".toList
      · rw [if_pos hinformix] at h
        rw [if_pos ⟨hcase, hinformix⟩] at hsearched
        obtain rfl := Option.some.inj h
        exact @spec_of_lit engine r _ _ _ [" ESCAPE '!'".toList] hsearched (by decide)
      · rw [if_neg hinformix] at h
        rw [if_neg fun h ↦ hinformix h.2] at hsearched
        obtain rfl := Option.some.inj h
        exact @spec_of_lit engine r _ _ _ [[')'], " ESCAPE '!'".toList] hsearched (by decide)

/-! ## The whole statement -/

theorem predicates_spec {r : SqlStrings.Rules} {part : List Piece}
    (h : part ∈ (predicates toLowerCase columns engine opts).map Prod.snd) :
    SqlStrings.Apart r part ∧ ∀ v, .literal v ∈ part → v = searched toLowerCase engine opts := by
  obtain ⟨⟨name, part⟩, hpart, rfl⟩ := List.mem_map.mp h
  obtain ⟨column, _, hpart⟩ := List.mem_filterMap.mp hpart
  obtain ⟨kind, _, hpart⟩ := Option.bind_eq_some_iff.mp hpart
  obtain ⟨p, hp, heq⟩ := Option.map_eq_some_iff.mp hpart
  obtain ⟨_, rfl⟩ := Prod.mk.inj heq
  exact predicate_spec hp

/-- No literal goes on behind its place, and each is what is searched. -/
theorem statementOf_spec {r : SqlStrings.Rules} {table : TableRef} {limit : ℤ} :
    SqlStrings.Apart r (statementOf toLowerCase columns engine opts table limit) ∧
      ∀ v, .literal v ∈ statementOf toLowerCase columns engine opts table limit →
        v = searched toLowerCase engine opts := by
  refine previewSelect_spec (SqlStrings.Apart.intercalate (by decide) fun part hpart ↦ (predicates_spec hpart).1) ?_
  intro v hv
  obtain ⟨part, hpart, hv⟩ := SqlStrings.literal_mem_intercalate hv
  have hspec : SqlStrings.Apart r part ∧ _ := predicates_spec hpart
  exact hspec.2 v hv

/-! ## The code of a statement -/

theorem lit_code (s : Text) :
    (lit engine s).map Piece.code? = if engineFamily engine = "mssql".toList then [some ['N'], none] else [none] := by
  unfold lit
  split_ifs <;> rfl

/-- Another text with the same number for the numeric columns. -/
theorem predicate_code {column : Text} {kind : Kind} {other : Text}
    (hnumber : numberOf { opts with text := other } = numberOf opts) :
    (predicate toLowerCase column kind engine { opts with text := other }).map (List.map Piece.code?) =
      (predicate toLowerCase column kind engine opts).map (List.map Piece.code?) := by
  unfold predicate
  cases kind with
  | number =>
    dsimp only
    rw [hnumber]
  | text =>
    dsimp only
    split_ifs <;> simp only [Option.map_some, List.map_cons, List.map_append, lit_code]

/-- Another text with the same number for the numeric columns changes the literals only. -/
theorem statementOf_code {table : TableRef} {limit : ℤ} {other : Text}
    (hnumber : numberOf { opts with text := other } = numberOf opts) :
    (statementOf toLowerCase columns engine { opts with text := other } table limit).map Piece.code? =
      (statementOf toLowerCase columns engine opts table limit).map Piece.code? := by
  refine previewSelect_code ?_
  have hparts : ((predicates toLowerCase columns engine { opts with text := other }).map Prod.snd).map
      (List.map Piece.code?) = ((predicates toLowerCase columns engine opts).map Prod.snd).map (List.map Piece.code?) := by
    unfold predicates
    rw [List.map_map, List.map_map, List.map_filterMap, List.map_filterMap]
    refine congrArg (List.filterMap · columns) (funext fun column ↦ ?_)
    rw [Option.map_bind, Option.map_bind]
    refine congrArg (Option.bind _) (funext fun kind ↦ ?_)
    have hpredicate := @predicate_code toLowerCase engine opts column.1 kind other hnumber
    rw [Function.comp_apply, Function.comp_apply, Option.map_map, Option.map_map]
    exact hpredicate
  rw [SqlStrings.map_intercalate, SqlStrings.map_intercalate, hparts]

/-- A table with a column that takes part is queried. -/
theorem planTable_eq_planned_iff {table : TableRef} {sql openSql : Text} {used : List Text} :
    planTable toLowerCase columns engine opts table = .planned sql openSql used ↔
      predicates toLowerCase columns engine opts ≠ [] ∧
        (statementOf toLowerCase columns engine opts table (clampLimit opts.limit)).flatMap (pieceText engine) = sql ∧
        (statementOf toLowerCase columns engine opts table 0).flatMap (pieceText engine) = openSql ∧
        (predicates toLowerCase columns engine opts).map Prod.fst = used := by
  unfold planTable
  dsimp only
  split_ifs with hnil
  · exact iff_of_false nofun fun h ↦ h.1 hnil
  · rw [TablePlan.planned.injEq]
    exact (and_iff_right hnil).symm

theorem statementOf_readsAs {table : TableRef} {limit : ℤ}
    (hline : engineFamily engine = "mssql".toList →
      ¬ SqlStrings.HasContinuation (searched toLowerCase engine opts)) :
    SqlStrings.ReadsAs (stringRules engine) (statementOf toLowerCase columns engine opts table limit)
      ((statementOf toLowerCase columns engine opts table limit).flatMap (pieceText engine)) := by
  rw [flatMap_pieceText]
  obtain ⟨hapart, hvalues⟩ := @statementOf_spec toLowerCase columns engine opts (stringRules engine) table limit
  refine SqlStrings.readsAs_textOf hapart fun v hv _ hcontinues ↦ ?_
  rw [hvalues v hv]
  exact hline (of_decide_eq_true hcontinues)

end

/-- A table with one column of text. -/
def oneColumn : List (Text × Text) := [("n".toList, "text".toList)]

def plainTable : TableRef where
  name := "t".toList
  db := none
  schema := none

def percentSearch : SearchOptions where
  text := "50%".toList
  mode := .contains
  ignoreCase := false
  numeric := false
  ignoreAccents := false
  limit := none

def accentSearch : SearchOptions where
  text := "á".toList
  mode := .exact
  ignoreCase := false
  numeric := false
  ignoreAccents := true
  limit := none

end Squaero.Front.DataSearch
