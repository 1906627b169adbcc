import Mathlib.Algebra.Order.Floor.Ring
import Mathlib.Data.Rat.Floor
import Squaero.Lib.Utf8
import Squaero.Mongo.Commands

/-!
# Commands for MongoDB

The commands that `frontend/src/utils/mongoStatements.ts` writes for the tools of a collection, and the
preview of `pagination.ts`. The driver's parser reads their UTF-8 bytes.
-/

namespace Squaero.Front

open Squaero.Lib Squaero.Mongo

/-! ## Builders -/

/-- `[A-Za-z_][A-Za-z0-9_]*` -/
def isIdentifierText (s : Text) : Bool :=
  s.head?.any isWordChar && s.all fun c ↦ isWordChar c || c.isDigit

/-- The expression of `mongoCollRef`: identifiers with dots between them. -/
def isPlainName (name : Text) : Bool := (name.splitOn '.').all isIdentifierText

def mongoCollRef (name : Text) : Text :=
  if isPlainName name then "db.".toList ++ name
  else "db.getCollection(".toList ++ (Json.printString name ++ [')'])

def mongoDropSql (name : Text) : Text := mongoCollRef name ++ ".drop()".toList

def mongoEmptySql (name : Text) : Text := mongoCollRef name ++ ".deleteMany(\x7b\x7d)".toList

/-- A call with one string for its argument. -/
def stringCall (name : Text) (method : String) (s : Text) : Text :=
  mongoCollRef name ++ '.' :: (method.toList ++ '(' :: (Json.printString s ++ [')']))

def mongoRenameSql (name newName : Text) : Option Text :=
  let target := jsTrim newName
  if target = [] ∨ target = name then none
  else if '$' ∈ target ∨ '\x00' ∈ target ∨ "system.".toList.isPrefixOf target then none
  else some (stringCall name "renameCollection" target)

def mongoIndexListSql (table : Text) : Text := mongoCollRef table ++ ".getIndexes()".toList

/-- The keys of an index, all ascending. -/
def indexKeys (columns : List Text) : Text :=
  '{' :: (", ".toList.intercalate (columns.map fun c ↦ Json.printString c ++ ": 1".toList) ++ ['}'])

def indexOptions (name : Text) (unique : Bool) : Text :=
  "\x7b\"name\": ".toList ++ (Json.printString name ++
    ((if unique then ", \"unique\": true".toList else []) ++ ['}']))

def mongoCreateIndexSql (table name : Text) (columns : List Text) (unique : Bool) : Text :=
  mongoCollRef table ++ ".createIndex(".toList ++
    (indexKeys columns ++ ", ".toList ++ indexOptions name unique ++ [')'])

def mongoDropIndexSql (table name : Text) : Text := stringCall table "dropIndex" name

/-- How a template writes a whole number: its digits, from 10^21 on with an exponent. -/
structure NumberText where
  toText : ℕ → Text
  small : ∀ n < 10 ^ 21, toText n = Nat.toDigits 10 n
  large : ∀ n ≥ 10 ^ 21, ∃ d c more, toText n = d :: c :: more ∧ d.isDigit = true ∧ (c = '.' ∨ c = 'e')
  chars : ∀ n, ∀ c ∈ toText n, c.isDigit = true ∨ c ∈ ['.', 'e', '+']

/-- `objectPreviewQuery` on MongoDB. -/
def objectPreviewQuery (numbers : NumberText) (name : Text) (limit offset : ℚ) : Text :=
  let n := ⌊limit⌋
  let m := max 0 ⌊offset⌋
  let skip := if m > 0 then ".skip(".toList ++ (numbers.toText m.toNat ++ [')']) else []
  let cap := if n ≥ 1 then ".limit(".toList ++ (numbers.toText n.toNat ++ [')']) else []
  "db.".toList ++ name ++ ".find(\x7b\x7d)".toList ++ skip ++ cap

/-! ## Bytes -/

theorem escape_of_isWide {c : Char} (h : isWide c = true) : Json.escape c = [c] := by
  have hlow : 0x80 ≤ c.toNat := by simpa [isWide] using h
  have hne (d : Char) (hd : isWide d = false) : c ≠ d := ne_of_isWide h hd
  unfold Json.escape
  simp [hne '"' (by decide), hne '\\' (by decide), hne '\x08' (by decide), hne '\x0c' (by decide),
    hne '\n' (by decide), hne '\r' (by decide), hne '\t' (by decide)]
  omega

theorem ascii_escape {c : Char} (h : isWide c = false) : ∀ d ∈ Json.escape c, isWide d = false := by
  have hhex : ∀ n < 0x20, isWide (n / 16).digitChar = false ∧ isWide (n % 16).digitChar = false := by
    decide
  unfold Json.escape
  split_ifs with hself hb hf hn hr ht hcontrol
  · simpa using ⟨by decide, h⟩
  · decide
  · decide
  · decide
  · decide
  · decide
  · obtain ⟨hhigh, hlow⟩ := hhex c.toNat hcontrol
    intro d hd
    simp only [List.mem_append, List.mem_cons, List.not_mem_nil, or_false] at hd
    rcases hd with hd | rfl | rfl
    · have hall : ∀ d ∈ "\\u00".toList, isWide d = false := by decide
      exact hall d hd
    · exact hhigh
    · exact hlow
  · simpa using h

/-- A literal of the bytes is the bytes of the literal. -/
theorem utf8_printString (s : Text) : utf8 (Json.printString s) = Json.printString (utf8 s) := by
  have hescape (c : Char) : utf8 (Json.escape c) = (utf8Bytes c).flatMap Json.escape := by
    cases hc : isWide c with
    | true =>
      obtain ⟨first, second, more, -, hall⟩ := utf8Bytes_of_isWide hc
      have hsame : (utf8Bytes c).flatMap Json.escape = (utf8Bytes c).flatMap fun b ↦ [b] :=
        List.flatMap_congr fun b hb ↦ escape_of_isWide (hall b hb)
      rw [escape_of_isWide hc, utf8_singleton, hsame, List.flatMap_singleton']
    | false =>
      rw [utf8_of_ascii (ascii_escape hc), utf8Bytes_of_not_isWide hc, List.flatMap_singleton]
  have hbody : utf8 (s.flatMap Json.escape) = (utf8 s).flatMap Json.escape := by
    induction s with
    | nil => rfl
    | cons c s ih => rw [List.flatMap_cons, utf8_append, ih, hescape, utf8_cons, List.flatMap_append]
  unfold Json.printString
  rw [utf8_append, utf8_cons, hbody]
  rfl

theorem mem_piece_of_mem (sep : Char) {c : Char} {text : Text} (h : c ∈ text) :
    c = sep ∨ ∃ piece ∈ text.splitOn sep, c ∈ piece := by
  induction text with
  | nil => cases h
  | cons d text ih =>
    rw [List.splitOn_cons_eq_if_modifyHead]
    obtain ⟨first, more, hsplit⟩ := List.exists_cons_of_ne_nil (List.splitOn_ne_nil sep text)
    rw [hsplit] at ih ⊢
    split_ifs with hsep
    · rcases List.mem_cons.mp h with rfl | hmem
      · exact .inl (by simpa using hsep)
      · exact (ih hmem).imp_right fun ⟨piece, hpiece, hc⟩ ↦ ⟨piece, .tail _ hpiece, hc⟩
    · rw [List.modifyHead_cons]
      rcases List.mem_cons.mp h with rfl | hmem
      · exact .inr ⟨_, .head _, .head _⟩
      · refine (ih hmem).imp_right fun ⟨piece, hpiece, hc⟩ ↦ ?_
        rcases List.mem_cons.mp hpiece with rfl | hpiece
        · exact ⟨_, .head _, .tail _ hc⟩
        · exact ⟨piece, .tail _ hpiece, hc⟩

theorem nameChars_of_isPlainName {name : Text} (h : isPlainName name = true) :
    ∀ c ∈ name, isNameChar c = true := by
  intro c hc
  unfold isNameChar
  rcases mem_piece_of_mem '.' hc with rfl | ⟨piece, hpiece, hmem⟩
  · decide
  · have hidentifier := List.all_eq_true.mp h piece hpiece
    unfold isIdentifierText at hidentifier
    rw [Bool.and_eq_true, List.all_eq_true] at hidentifier
    simp [hidentifier.2 c hmem]

theorem ascii_of_isNameChar {c : Char} (h : isNameChar c = true) : isWide c = false := by
  simp only [isNameChar, isWordChar, Bool.or_eq_true, decide_eq_true_eq] at h
  rcases h with ((halpha | rfl) | hdigit) | rfl
  · exact isWide_of_isAlpha halpha
  · decide
  · exact isWide_of_isDigit hdigit
  · decide

theorem utf8_mongoCollRef (name : Text) : utf8 (mongoCollRef name) = mongoCollRef (utf8 name) := by
  have hplain {s : Text} (h : isPlainName s = true) : ∀ c ∈ s, isWide c = false :=
    fun c hc ↦ ascii_of_isNameChar (nameChars_of_isPlainName h c hc)
  unfold mongoCollRef
  by_cases h : isPlainName name = true
  · have hsame := utf8_of_ascii (hplain h)
    rw [hsame, if_pos h, utf8_append, hsame]
    rfl
  · have hbytes : ¬ isPlainName (utf8 name) = true := by
      intro hutf8
      have hsame := utf8_of_ascii (ascii_of_utf8 (hplain hutf8))
      exact h (hsame ▸ hutf8)
    rw [if_neg h, if_neg hbytes, utf8_append, utf8_append, utf8_printString]
    rfl

/-! ## String literals -/

theorem unquoteLoop_escape (c : Char) (rest : Text) : unquoteLoop '"' 0 false (Json.escape c ++ rest) =
    (unquoteLoop '"' 0 false rest).map fun r ↦ (c :: r.1, r.2) := by
  unfold Json.escape
  split_ifs with hself hb hf hn hr ht hcontrol
  · rcases hself with rfl | rfl
    · exact unquoteLoop_escaped '"' (by decide) rest
    · exact unquoteLoop_escaped '\\' (by decide) rest
  · exact hb ▸ unquoteLoop_escaped 'b' (by decide) rest
  · exact hf ▸ unquoteLoop_escaped 'f' (by decide) rest
  · exact hn ▸ unquoteLoop_escaped 'n' (by decide) rest
  · exact hr ▸ unquoteLoop_escaped 'r' (by decide) rest
  · exact ht ▸ unquoteLoop_escaped 't' (by decide) rest
  · exact unquoteLoop_control hcontrol rest
  · exact unquoteLoop_plain (fun hc ↦ hself (.inl hc)) (fun hc ↦ hself (.inr hc)) rest

/-- The driver reads a literal up to the first NUL of its text. -/
theorem unquote_printString (s : Text) : unquote (Json.printString s) = some (cString s) := by
  have hloop : unquoteLoop '"' 0 false (s.flatMap Json.escape ++ ['"']) = some (s, []) := by
    induction s with
    | nil => rfl
    | cons c s ih =>
      rw [List.flatMap_cons, List.append_assoc, unquoteLoop_escape, ih]
      rfl
  have hskip : skipWs (Json.printString s) = '"' :: (s.flatMap Json.escape ++ ['"']) := rfl
  unfold unquote
  rw [hskip]
  simp only [isQuote, hloop]
  simp [skipWs]

theorem passes_printString (s : Text) : Passes 0 (Json.printString s) :=
  passes_string (Json.body_flatMap_escape s)

theorem trim_printString (s : Text) : trim (Json.printString s) = Json.printString s := by
  have hskip : skipWs (Json.printString s) = Json.printString s := rfl
  unfold trim skipWsBack
  rw [hskip]
  exact List.rdropWhile_concat_neg _ _ _ (by decide)

/-- The parser finds the collection, whatever it is called. -/
theorem refersTo_mongoCollRef {name : Text} (hname : name ≠ []) (hnul : '\x00' ∉ name) :
    RefersTo (mongoCollRef name) name := by
  unfold mongoCollRef
  split_ifs with hplain
  · exact refersTo_plain hname (not_mem_paren_of_isNameChar (nameChars_of_isPlainName hplain))
  · refine refersTo_literal (passes_printString name) (by decide) ?_ hname
    rw [unquote_printString, cString_eq_self_iff.mpr hnul]

end Squaero.Front
