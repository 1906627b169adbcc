import Squaero.Front.QueryBuilder
import Squaero.Front.SqlVariables
import Squaero.Lib.SqlStrings

/-!
# Statements that read a table

`previewSelect` of `frontend/src/utils/pagination.ts`, `qualifiedName` of `schema.ts` and `sqlLiteral` of `backup.ts`. A
statement is kept as code and literals, and a condition goes into it as it is.
-/

namespace Squaero.Front.Preview

open Squaero.Lib
open Squaero.Lib.SqlStrings (Piece)

/-- A table as the object tree names it. -/
structure TableRef where
  name : Text
  db : Option Text
  schema : Option Text

/-- `sqlLiteral` -/
def sqlLiteral (value engine : Text) : Text :=
  let v := value.flatMap fun c ↦ if c = '\'' then ['\'', '\''] else [c]
  let v := if engineFamily engine = "mysql".toList then v.flatMap fun c ↦ if c = '\\' then ['\\', '\\'] else [c] else v
  '\'' :: (v ++ ['\''])

def pieceText (engine : Text) : Piece → Text
  | .code text => text
  | .literal value => sqlLiteral value engine

/-- `qualifiedName` -/
def qualifiedName (parts : TableRef) (engine : Text) : Text :=
  let q (s : Text) : Text := quoteIdentifier s engine
  if engineFamily engine = "informix".toList then
    match parts.db.filter (· ≠ []) with
    | some db => q db ++ [':'] ++ q parts.name
    | none => q parts.name
  else
    ['.'].intercalate (([parts.db, parts.schema, some parts.name].reduceOption.filter (· ≠ [])).map q)

/-- `previewSelect` -/
def previewSelect (qualified engine : Text) (limit offset : ℤ) (condition : List Piece) (orderBy : Text) : List Piece :=
  let m := max 0 offset
  let digits (n : ℤ) : Text := Nat.toDigits 10 n.toNat
  let filter : List Piece := if condition = [] then [] else .code " WHERE ".toList :: condition
  let order := if orderBy = [] then [] else " ORDER BY ".toList ++ orderBy
  if engineFamily engine = "informix".toList then
    let skip := if 0 < m then "SKIP ".toList ++ digits m ++ [' '] else []
    let first := if 1 ≤ limit then "FIRST ".toList ++ digits limit ++ [' '] else []
    .code ("SELECT ".toList ++ skip ++ first ++ "* FROM ".toList ++ qualified) :: (filter ++ [.code (order ++ [';'])])
  else
    let head : Piece := .code ("SELECT * FROM ".toList ++ qualified)
    if limit < 1 then head :: (filter ++ [.code (order ++ [';'])])
    else if engineFamily engine = "mssql".toList then
      let by_ := if order = [] then " ORDER BY (SELECT NULL)".toList else order
      head :: (filter ++ [.code (by_ ++ " OFFSET ".toList ++ digits m ++ " ROWS FETCH NEXT ".toList ++ digits limit ++
        " ROWS ONLY;".toList)])
    else
      let off := if 0 < m then " OFFSET ".toList ++ digits m else []
      head :: (filter ++ [.code (order ++ " LIMIT ".toList ++ digits limit ++ off ++ [';'])])

/-! ## Literals -/

/-- How the engine reads a string literal. -/
def stringRules (engine : Text) : SqlStrings.Rules where
  escapes := engineFamily engine = "mysql".toList
  continues := engineFamily engine = "mssql".toList

section

variable {engine : Text}

theorem sqlLiteral_eq (value : Text) :
    sqlLiteral value engine = '\'' :: (SqlStrings.spell (stringRules engine) value ++ ['\'']) := by
  unfold sqlLiteral SqlStrings.spell stringRules
  dsimp only
  by_cases hmysql : engineFamily engine = "mysql".toList
  · rw [if_pos hmysql, List.flatMap_assoc, decide_eq_true hmysql]
    refine congrArg (fun v ↦ '\'' :: (v ++ ['\''])) (congrArg (List.flatMap · value) (funext fun c ↦ ?_))
    by_cases hquote : c = '\''
    · rw [hquote]
      rfl
    · rw [if_neg hquote, if_neg hquote, List.flatMap_singleton]
      simp
  · rw [if_neg hmysql, decide_eq_false hmysql]
    simp

theorem pieceText_eq (piece : Piece) : pieceText engine piece = piece.text (stringRules engine) := by
  cases piece with
  | code text => rfl
  | literal value => exact sqlLiteral_eq value

theorem flatMap_pieceText (pieces : List Piece) :
    pieces.flatMap (pieceText engine) = SqlStrings.textOf (stringRules engine) pieces :=
  congrArg (List.flatMap · pieces) (funext pieceText_eq)

/-! ## Around the condition -/

/-- What is around the condition is code. -/
theorem around_spec {r : SqlStrings.Rules} {before behind : Text} {condition : List Piece}
    (hcondition : SqlStrings.Apart r condition) {value : Text} (hvalues : ∀ v, .literal v ∈ condition → v = value)
    (hbehind : behind.head? ≠ some '\'') :
    let filter : List Piece := if condition = [] then [] else .code " WHERE ".toList :: condition
    SqlStrings.Apart r (.code before :: (filter ++ [.code behind])) ∧
      ∀ v, .literal v ∈ Piece.code before :: (filter ++ [.code behind]) → v = value := by
  intro filter
  have hfilter : SqlStrings.Apart r filter ∧ ∀ v, .literal v ∈ filter → v = value := by
    by_cases hnil : condition = []
    · rw [show filter = [] from if_pos hnil]
      exact ⟨trivial, nofun⟩
    · rw [show filter = .code " WHERE ".toList :: condition from if_neg hnil]
      exact ⟨hcondition, fun v hv ↦ hvalues v ((List.mem_cons.mp hv).resolve_left nofun)⟩
  have htext : SqlStrings.textOf r [.code behind] = behind := by
    unfold SqlStrings.textOf
    exact List.flatMap_singleton _ _
  refine ⟨hfilter.1.append trivial (htext.symm ▸ hbehind), fun v hv ↦ ?_⟩
  rcases List.mem_append.mp ((List.mem_cons.mp hv).resolve_left nofun) with hv | hv
  · exact hfilter.2 v hv
  · cases List.mem_singleton.mp hv

theorem previewSelect_spec {r : SqlStrings.Rules} {qualified : Text} {limit offset : ℤ} {condition : List Piece}
    (hcondition : SqlStrings.Apart r condition) {value : Text} (hvalues : ∀ v, .literal v ∈ condition → v = value) :
    SqlStrings.Apart r (previewSelect qualified engine limit offset condition []) ∧
      ∀ v, .literal v ∈ previewSelect qualified engine limit offset condition [] → v = value := by
  unfold previewSelect
  dsimp only
  rw [if_pos rfl]
  by_cases hinformix : engineFamily engine = "informix".toList
  · rw [if_pos hinformix]
    exact around_spec hcondition hvalues (by decide)
  rw [if_neg hinformix]
  by_cases hlimit : limit < 1
  · rw [if_pos hlimit]
    exact around_spec hcondition hvalues (by decide)
  rw [if_neg hlimit]
  by_cases hmssql : engineFamily engine = "mssql".toList
  · rw [if_pos hmssql, if_pos rfl]
    exact around_spec hcondition hvalues nofun
  · rw [if_neg hmssql]
    exact around_spec hcondition hvalues nofun

theorem previewSelect_code {qualified : Text} {limit offset : ℤ} {condition condition' : List Piece} {orderBy : Text}
    (h : condition'.map Piece.code? = condition.map Piece.code?) :
    (previewSelect qualified engine limit offset condition' orderBy).map Piece.code? =
      (previewSelect qualified engine limit offset condition orderBy).map Piece.code? := by
  have hnil : condition' = [] ↔ condition = [] := by rw [← List.map_eq_nil_iff, h, List.map_eq_nil_iff]
  have hfilter : (if condition' = [] then [] else Piece.code " WHERE ".toList :: condition').map Piece.code? =
      (if condition = [] then [] else Piece.code " WHERE ".toList :: condition).map Piece.code? := by
    simp only [hnil]
    split_ifs
    · rfl
    · rw [List.map_cons, List.map_cons, h]
  unfold previewSelect
  dsimp only
  generalize (if condition' = [] then [] else Piece.code " WHERE ".toList :: condition') = filter' at hfilter ⊢
  generalize (if condition = [] then [] else Piece.code " WHERE ".toList :: condition) = filter at hfilter ⊢
  split_ifs <;> simp only [List.map_cons, List.map_append, hfilter]

end

end Squaero.Front.Preview
