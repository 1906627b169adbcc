import Mathlib.Data.List.Infix
import Squaero.Lib.SqlLex

/-!
# String literals at their place

How an engine reads the literals of a statement: up to a quote that is not doubled. A backslash escapes in some engines;
in others it goes on with the literal on the next line.
-/

namespace Squaero.Lib.SqlStrings

structure Rules where
  /-- A backslash escapes the character behind it. -/
  escapes : Bool
  /-- A backslash at the end of a line is left out with it. -/
  continues : Bool

/-- The value of the literal whose opening quote is read, and the text behind the literal. -/
def read (r : Rules) : Text → Option (Text × Text)
  | [] => none
  | c :: rest =>
    if c = '\'' then
      match rest with
      | '\'' :: rest => (read r rest).map fun (value, behind) ↦ ('\'' :: value, behind)
      | rest => some ([], rest)
    else if c = '\\' ∧ r.escapes then
      match rest with
      | [] => none
      | d :: rest => (read r rest).map fun (value, behind) ↦ (SqlLex.unescape d ++ value, behind)
    else if c = '\\' ∧ r.continues then
      match rest with
      | '\n' :: rest => read r rest
      | '\r' :: '\n' :: rest => read r rest
      | rest => (read r rest).map fun (value, behind) ↦ ('\\' :: value, behind)
    else (read r rest).map fun (value, behind) ↦ (c :: value, behind)

attribute [local grind =] read

/-- A backslash at the end of a line. -/
def HasContinuation (text : Text) : Prop := ['\\', '\n'] <:+: text ∨ ['\\', '\r', '\n'] <:+: text

/-- The text between the quotes of a literal. -/
def spell (r : Rules) (value : Text) : Text :=
  value.flatMap fun c ↦ if c = '\'' then ['\'', '\''] else if c = '\\' ∧ r.escapes then ['\\', '\\'] else [c]

variable {r : Rules} {rest : Text}

theorem HasContinuation.cons {c : Char} {text : Text} (h : HasContinuation text) : HasContinuation (c :: text) :=
  h.imp (fun h ↦ h.trans (List.suffix_cons c text).isInfix) fun h ↦ h.trans (List.suffix_cons c text).isInfix

theorem read_plain {c : Char} (hquote : c ≠ '\'') (hbackslash : c ≠ '\\') :
    read r (c :: rest) = (read r rest).map fun (value, behind) ↦ (c :: value, behind) := by
  rw [read.eq_def]
  dsimp only
  rw [if_neg hquote, if_neg fun h ↦ hbackslash h.1, if_neg fun h ↦ hbackslash h.1]

theorem spell_cons (c : Char) (value : Text) :
    spell r (c :: value) =
      (if c = '\'' then ['\'', '\''] else if c = '\\' ∧ r.escapes then ['\\', '\\'] else [c]) ++ spell r value := rfl

/-- What a literal begins with is in its value, quotes and backslashes apart. -/
theorem prefix_of_spell {line value : Text} (hline : ∀ c ∈ line, c ≠ '\'' ∧ c ≠ '\\')
    (h : line <+: spell r value ++ '\'' :: rest) : line <+: value := by
  induction line generalizing value with
  | nil => exact List.nil_prefix
  | cons c line ih =>
    obtain ⟨hquote, hbackslash⟩ := hline c (.head _)
    cases value with
    | nil =>
      obtain ⟨more, hmore⟩ := h
      exact absurd (List.cons.inj hmore).1 hquote
    | cons d value =>
      rw [spell_cons] at h
      obtain ⟨more, hmore⟩ := h
      split_ifs at hmore with hd hd'
      · exact absurd (List.cons.inj hmore).1 hquote
      · exact absurd (List.cons.inj hmore).1 hbackslash
      · rw [List.singleton_append] at hmore
        obtain ⟨rfl, htail⟩ := List.cons.inj hmore
        exact List.cons_prefix_cons.mpr ⟨rfl, ih (fun e he ↦ hline e (.tail _ he)) ⟨more, htail⟩⟩

/-- Within a line a backslash that does not escape is one. -/
theorem read_backslash (hescapes : r.escapes = false) (hline : r.continues = true → ¬ ['\n'] <+: rest)
    (hreturn : r.continues = true → ¬ ['\r', '\n'] <+: rest) :
    read r ('\\' :: rest) = (read r rest).map fun (value, behind) ↦ ('\\' :: value, behind) := by
  rw [read.eq_def]
  dsimp only
  rw [if_neg (by decide), if_neg (by simp [hescapes])]
  split_ifs with hcontinues
  · split
    · exact absurd (List.prefix_append ['\n'] _) (hline hcontinues.2)
    · exact absurd (List.prefix_append ['\r', '\n'] _) (hreturn hcontinues.2)
    · rfl
  · rfl

/-- A literal reads as its value, up to where it ends. -/
theorem read_spell {value : Text} (hvalue : r.escapes = false → r.continues = true → ¬ HasContinuation value)
    (hrest : rest.head? ≠ some '\'') : read r (spell r value ++ '\'' :: rest) = some (value, rest) := by
  induction value with
  | nil =>
    have hend : read r ('\'' :: rest) = some ([], rest) := by
      rw [read.eq_def]
      dsimp only
      rw [if_pos rfl]
      split
      · exact absurd rfl hrest
      · rfl
    exact hend
  | cons c value ih =>
    have ih := ih fun hescapes hcontinues h ↦ hvalue hescapes hcontinues h.cons
    rw [spell_cons]
    split_ifs with hquote hescape
    · subst hquote
      have hdoubled : read r ('\'' :: '\'' :: (spell r value ++ '\'' :: rest)) = some ('\'' :: value, rest) := by
        rw [read.eq_def]
        dsimp only
        rw [if_pos rfl]
        exact congrArg (Option.map fun p : Text × Text ↦ ('\'' :: p.1, p.2)) ih
      exact hdoubled
    · obtain ⟨rfl, hescapes⟩ := hescape
      have hescaped : read r ('\\' :: '\\' :: (spell r value ++ '\'' :: rest)) = some ('\\' :: value, rest) := by
        rw [read.eq_def]
        dsimp only
        rw [if_neg (by decide), if_pos ⟨rfl, hescapes⟩, ih]
        rfl
      exact hescaped
    · rw [List.append_assoc, List.singleton_append]
      by_cases hbackslash : c = '\\'
      · subst hbackslash
        have hescapes : r.escapes = false := Bool.eq_false_iff.mpr fun h ↦ hescape ⟨rfl, h⟩
        have hline (hcontinues : r.continues = true) : ¬ ['\n'] <+: spell r value ++ '\'' :: rest := fun h ↦
          have hvalue' := prefix_of_spell (by decide) h
          hvalue hescapes hcontinues (.inl (List.cons_prefix_cons.mpr ⟨rfl, hvalue'⟩).isInfix)
        have hreturn (hcontinues : r.continues = true) : ¬ ['\r', '\n'] <+: spell r value ++ '\'' :: rest := fun h ↦
          have hvalue' := prefix_of_spell (by decide) h
          hvalue hescapes hcontinues (.inr (List.cons_prefix_cons.mpr ⟨rfl, hvalue'⟩).isInfix)
        rw [read_backslash hescapes hline hreturn, ih]
        rfl
      · rw [read_plain hquote hbackslash, ih]
        rfl

/-! ## Statements -/

/-- A part of a statement: code, or a literal by its value. -/
inductive Piece
  | code (text : Text)
  | literal (value : Text)
  deriving DecidableEq

/-- The code, nothing for a literal. -/
def Piece.code? : Piece → Option Text
  | .code text => some text
  | .literal _ => none

def Piece.text (r : Rules) : Piece → Text
  | .code text => text
  | .literal value => '\'' :: (spell r value ++ ['\''])

def textOf (r : Rules) (pieces : List Piece) : Text := pieces.flatMap (Piece.text r)

/-- The text reads as the pieces, each literal at its place as its value. -/
inductive ReadsAs (r : Rules) : List Piece → Text → Prop
  | nil : ReadsAs r [] []
  | code (text : Text) {pieces : List Piece} {rest : Text} (h : ReadsAs r pieces rest) :
    ReadsAs r (.code text :: pieces) (text ++ rest)
  | literal {spelled value behind : Text} {pieces : List Piece} (hread : read r spelled = some (value, behind))
    (h : ReadsAs r pieces behind) : ReadsAs r (.literal value :: pieces) ('\'' :: spelled)

/-- No literal goes on with a quote behind it. -/
def Apart (r : Rules) : List Piece → Prop
  | [] => True
  | .code _ :: pieces => Apart r pieces
  | .literal _ :: pieces => (textOf r pieces).head? ≠ some '\'' ∧ Apart r pieces

theorem textOf_append (pieces more : List Piece) : textOf r (pieces ++ more) = textOf r pieces ++ textOf r more :=
  List.flatMap_append

theorem Apart.append {pieces more : List Piece} (h : Apart r pieces) (hmore : Apart r more)
    (hnext : (textOf r more).head? ≠ some '\'') : Apart r (pieces ++ more) := by
  induction pieces with
  | nil => exact hmore
  | cons piece pieces ih =>
    cases piece with
    | code text => exact ih h
    | literal value =>
      have hbehind : (textOf r (pieces ++ more)).head? ≠ some '\'' := by
        rw [textOf_append, List.head?_append]
        cases hhead : (textOf r pieces).head? with
        | none => exact hnext
        | some c =>
          have hfirst := h.1
          rw [hhead] at hfirst
          exact hfirst
      exact ⟨hbehind, ih h.2⟩

/-- Parts that are apart stay so with code between them. -/
theorem Apart.intercalate {text : Text} (htext : text ≠ [] ∧ text.head? ≠ some '\'') {parts : List (List Piece)}
    (hparts : ∀ part ∈ parts, Apart r part) : Apart r ([.code text].intercalate parts) := by
  induction parts with
  | nil => trivial
  | cons part parts ih =>
    have hpart := hparts part (.head _)
    have ih := ih fun part hpart ↦ hparts part (.tail _ hpart)
    cases parts with
    | nil =>
      rw [List.intercalate_singleton]
      exact hpart
    | cons other parts =>
      rw [List.intercalate_cons_cons, List.append_assoc]
      refine hpart.append ih ?_
      rw [List.singleton_append, textOf, List.flatMap_cons, Piece.text, List.head?_append_of_ne_nil _ htext.1]
      exact htext.2

theorem literal_mem_intercalate {text value : Text} {parts : List (List Piece)}
    (h : .literal value ∈ [.code text].intercalate parts) : ∃ part ∈ parts, .literal value ∈ part := by
  induction parts with
  | nil => cases h
  | cons part parts ih =>
    cases parts with
    | nil =>
      rw [List.intercalate_singleton] at h
      exact ⟨part, .head _, h⟩
    | cons other parts =>
      rw [List.intercalate_cons_cons] at h
      rcases List.mem_append.mp h with h | h
      · rcases List.mem_append.mp h with h | h
        · exact ⟨part, .head _, h⟩
        · cases List.mem_singleton.mp h
      · obtain ⟨part, hpart, h⟩ := ih h
        exact ⟨part, .tail _ hpart, h⟩

theorem map_intercalate {α β : Type} (f : α → β) (sep : List α) (parts : List (List α)) :
    (sep.intercalate parts).map f = (sep.map f).intercalate (parts.map (List.map f)) := by
  induction parts with
  | nil => rfl
  | cons part parts ih =>
    cases parts with
    | nil => simp only [List.intercalate_singleton, List.map_cons, List.map_nil]
    | cons other parts =>
      rw [List.intercalate_cons_cons, List.map_append, List.map_append, ih]
      simp only [List.map_cons, List.intercalate_cons_cons]

theorem readsAs_textOf {pieces : List Piece} (hapart : Apart r pieces)
    (hvalues : ∀ value, .literal value ∈ pieces → r.escapes = false → r.continues = true → ¬ HasContinuation value) :
    ReadsAs r pieces (textOf r pieces) := by
  induction pieces with
  | nil => exact .nil
  | cons piece pieces ih =>
    cases piece with
    | code text => exact .code text (ih hapart fun value hvalue ↦ hvalues value (.tail _ hvalue))
    | literal value =>
      have hrest := ih hapart.2 fun value hvalue ↦ hvalues value (.tail _ hvalue)
      have htext : textOf r (.literal value :: pieces) = '\'' :: (spell r value ++ '\'' :: textOf r pieces) := by
        unfold textOf
        rw [List.flatMap_cons, Piece.text, List.cons_append, List.append_assoc, List.singleton_append]
      rw [htext]
      exact .literal (read_spell (hvalues value (.head _)) hapart.1) hrest

end Squaero.Lib.SqlStrings
