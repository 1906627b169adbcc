import Mathlib.Data.List.Infix
import Squaero.Lib.Text

/-!
# `LIKE` patterns

What a pattern with an escape character stands for, and which texts it matches. Classes in brackets are a matter of the
engine. A text whose special characters are escaped matches itself only.
-/

namespace Squaero.Lib.Like

inductive Item
  /-- `%` -/
  | many
  /-- `_` -/
  | one
  | char (c : Char)
  /-- A class of single characters and ranges, or what is not in it. -/
  | among (negated : Bool) (ranges : List (Char × Char))
  deriving DecidableEq

/-- How an engine reads patterns. -/
structure Rules where
  escape : Char
  classes : Bool

def isSpecial (r : Rules) (c : Char) : Bool :=
  c = r.escape || c = '%' || c = '_' || (r.classes && c = '[')

/-- The ranges of a class: `a-z`, or a character by itself. -/
def rangesOf : Text → List (Char × Char)
  | a :: '-' :: b :: rest => (a, b) :: rangesOf rest
  | c :: rest => (c, c) :: rangesOf rest
  | [] => []

/-- What is between the brackets of a class. -/
def classOf : Text → Item
  | '^' :: text => .among true (rangesOf text)
  | text => .among false (rangesOf text)

inductive Mode
  | plain
  | escaped
  | inClass (text : Text)

/-- The items of a pattern: none where an escape or a class has no end. -/
def parse (r : Rules) : Mode → Text → Option (List Item)
  | .plain, [] => some []
  | .escaped, [] => none
  | .inClass _, [] => none
  | .plain, c :: rest =>
    if c = r.escape then parse r .escaped rest
    else if c = '%' then (parse r .plain rest).map (.many :: ·)
    else if c = '_' then (parse r .plain rest).map (.one :: ·)
    else if r.classes ∧ c = '[' then parse r (.inClass []) rest
    else (parse r .plain rest).map (.char c :: ·)
  | .escaped, c :: rest => (parse r .plain rest).map (.char c :: ·)
  | .inClass text, c :: rest =>
    if c = ']' then (parse r .plain rest).map (classOf text :: ·) else parse r (.inClass (text ++ [c])) rest

def accepts : List Item → Text → Bool
  | [], value => value.isEmpty
  | .many :: items, value => value.tails.any (accepts items)
  | .one :: _, [] => false
  | .one :: items, _ :: value => accepts items value
  | .char _ :: _, [] => false
  | .char c :: items, d :: value => c = d && accepts items value
  | .among _ _ :: _, [] => false
  | .among negated ranges :: items, d :: value =>
    ((ranges.any fun range ↦ range.1 ≤ d && d ≤ range.2) != negated) && accepts items value

/-- `value LIKE pattern ESCAPE escape` -/
def like (r : Rules) (pattern value : Text) : Bool :=
  ((parse r .plain pattern).map fun items ↦ accepts items value).getD false

/-- The text with its special characters escaped. -/
def escapeAll (r : Rules) (text : Text) : Text := text.flatMap fun c ↦ if isSpecial r c then [r.escape, c] else [c]

variable {r : Rules}

theorem parse_escapeAll (text rest : Text) :
    parse r .plain (escapeAll r text ++ rest) = (parse r .plain rest).map (text.map Item.char ++ ·) := by
  induction text with
  | nil => exact Option.map_id'.symm
  | cons c text ih =>
    have hmore : (parse r .plain (escapeAll r text ++ rest)).map (Item.char c :: ·) =
        (parse r .plain rest).map ((c :: text).map Item.char ++ ·) := by
      rw [ih, Option.map_map]
      rfl
    unfold escapeAll at hmore ⊢
    rw [List.flatMap_cons, List.append_assoc, ← hmore]
    by_cases hspecial : isSpecial r c = true
    · rw [if_pos hspecial, List.cons_append, List.singleton_append, parse, if_pos rfl, parse]
    · rw [if_neg hspecial, List.singleton_append, parse]
      simp only [isSpecial, Bool.or_eq_true, Bool.and_eq_true, decide_eq_true_eq, not_or] at hspecial
      obtain ⟨⟨⟨hescape, hmany⟩, hone⟩, hclass⟩ := hspecial
      rw [if_neg hescape, if_neg hmany, if_neg hone, if_neg hclass]

theorem accepts_many_nil (value : Text) : accepts [.many] value = true := by
  unfold accepts
  exact List.any_eq_true.mpr ⟨[], (List.mem_tails _ _).mpr (List.nil_suffix), rfl⟩

/-- Literal characters match a beginning of the value. -/
theorem accepts_chars_iff (text : Text) {items : List Item} {value : Text} :
    accepts (text.map Item.char ++ items) value = true ↔ ∃ rest, value = text ++ rest ∧ accepts items rest = true := by
  induction text generalizing value with
  | nil => exact ⟨fun h ↦ ⟨value, rfl, h⟩, fun ⟨rest, hvalue, h⟩ ↦ hvalue ▸ h⟩
  | cons c text ih =>
    cases value with
    | nil => exact iff_of_false nofun fun ⟨rest, hnil, _⟩ ↦ List.cons_ne_nil _ _ hnil.symm
    | cons d value =>
      rw [List.map_cons, List.cons_append, accepts, Bool.and_eq_true, decide_eq_true_eq, ih]
      constructor
      · rintro ⟨rfl, rest, rfl, h⟩
        exact ⟨rest, rfl, h⟩
      · rintro ⟨rest, hvalue, h⟩
        obtain ⟨rfl, rfl⟩ := List.cons.inj hvalue
        exact ⟨rfl, rest, rfl, h⟩

/-- A text that anything may follow matches its continuations. -/
theorem accepts_prefix_iff {text value : Text} :
    accepts (text.map Item.char ++ [.many]) value = true ↔ text <+: value := by
  rw [accepts_chars_iff]
  exact exists_congr fun rest ↦ ⟨fun h ↦ h.1.symm, fun h ↦ ⟨h.symm, accepts_many_nil rest⟩⟩

variable (hmany : '%' ≠ r.escape)

include hmany

theorem parse_many (rest : Text) : parse r .plain ('%' :: rest) = (parse r .plain rest).map (.many :: ·) := by
  rw [parse, if_neg hmany, if_pos rfl]

/-- An escaped text in front of `%` matches what starts with the text. -/
theorem like_startsWith_iff {text value : Text} :
    like r (escapeAll r text ++ ['%']) value = true ↔ text <+: value := by
  have hparse : parse r .plain (escapeAll r text ++ ['%']) = some (text.map Item.char ++ [.many]) := by
    rw [parse_escapeAll, parse_many hmany]
    rfl
  unfold like
  rw [hparse]
  exact accepts_prefix_iff

/-- An escaped text between two `%` matches what contains the text. -/
theorem like_contains_iff {text value : Text} :
    like r ('%' :: (escapeAll r text ++ ['%'])) value = true ↔ text <:+: value := by
  have hparse : parse r .plain ('%' :: (escapeAll r text ++ ['%'])) =
      some (.many :: (text.map Item.char ++ [.many])) := by
    rw [parse_many hmany, parse_escapeAll, parse_many hmany]
    rfl
  have haccepts : like r ('%' :: (escapeAll r text ++ ['%'])) value =
      value.tails.any (accepts (text.map Item.char ++ [.many])) := by
    unfold like
    rw [hparse]
    rfl
  rw [haccepts, List.any_eq_true, List.infix_iff_prefix_suffix]
  refine exists_congr fun rest ↦ ?_
  rw [List.mem_tails, accepts_prefix_iff, and_comm]

end Squaero.Lib.Like
