import Squaero.Lib.SqlLiterals
import Mathlib.Data.List.DropRight

/-!
# The lexical rules of the engines

The `Rules` of the engines, as their manuals have them. PostgreSQL takes a run of operator characters for
one operator when a character in it could not be in a standard one; the other engines know a list of
operators and read the longest of them.
-/

namespace Squaero.Lib.SqlScript

/-! ## Operators -/

section

variable (known : List Text)

/-- The longest operators that are known, of up to three characters, and single characters. -/
def knownOperators : Text → List Text
  | [] => []
  | [a] => [[a]]
  | [a, b] => if [a, b] ∈ known then [[a, b]] else [[a], [b]]
  | a :: b :: c :: rest =>
    if [a, b, c] ∈ known then [a, b, c] :: knownOperators rest
    else if [a, b] ∈ known then [a, b] :: knownOperators (c :: rest)
    else [a] :: knownOperators (b :: c :: rest)

theorem flatten_knownOperators (run : Text) : (knownOperators known run).flatten = run := by
  fun_induction knownOperators known run <;> simp_all

theorem knownOperators_ne (run : Text) : [] ∉ knownOperators known run := by
  fun_induction knownOperators known run <;> simp_all

end

/-- The characters that no standard operator has. -/
def unusual : List Char := ['~', '!', '@', '#', '%', '^', '&', '|', '`', '?']

def isSign (c : Char) : Bool := c = '+' || c = '-'

/-- Without an unusual character an operator of PostgreSQL does not end in a sign. -/
def postgresOperators (run : Text) : List Text :=
  if run.any (· ∈ unusual) then [run]
  else
    (if run.rdropWhile isSign = [] then [] else [run.rdropWhile isSign]) ++ (run.rtakeWhile isSign).map fun c ↦ [c]

theorem flatten_postgresOperators (run : Text) : (postgresOperators run).flatten = run := by
  have hsplit : run.rdropWhile isSign ++ run.rtakeWhile isSign = run := List.rdropWhile_append_rtakeWhile
  have hsingle (l : Text) : (l.map fun c ↦ [c]).flatten = l := by
    rw [← List.flatMap_def]
    exact List.flatMap_singleton' l
  unfold postgresOperators
  split_ifs with hany hnil
  · simp
  · rw [hnil, List.nil_append] at hsplit
    rw [List.nil_append, hsingle, hsplit]
  · rw [List.flatten_append, hsingle, List.flatten_singleton, hsplit]

theorem postgresOperators_ne (run : Text) : [] ∉ postgresOperators run := by
  unfold postgresOperators
  split_ifs with hany hnil
  · rw [List.any_eq_true] at hany
    obtain ⟨c, hc, -⟩ := hany
    intro hmem
    exact List.ne_nil_of_mem hc (List.mem_singleton.mp hmem).symm
  · simp
  · intro hmem
    simp only [List.mem_append, List.mem_singleton, List.mem_map] at hmem
    obtain hcore | ⟨c, -, hc⟩ := hmem
    · exact hnil hcore.symm
    · exact absurd hc (List.cons_ne_nil _ _)

theorem postgresOperators_single (c : Char) : postgresOperators [c] = [[c]] := by
  have htake : List.rtakeWhile isSign [c] = if isSign c then [c] else [] := by
    have hconcat := List.rtakeWhile_concat isSign [] c
    simpa using hconcat
  unfold postgresOperators
  rw [List.rdropWhile_singleton, htake]
  split_ifs <;> simp_all

/-! ## Rules -/

/-- Up to which character, with it doubled inside. -/
def Quote.plain (close : Char) : Quote := ⟨close, false, true⟩

/-- With backslash escapes as well. -/
def Quote.escaping (close : Char) : Quote := ⟨close, true, true⟩

/-- Up to the first such character. -/
def Quote.upTo (close : Char) : Quote := ⟨close, false, false⟩

def comparisons : List Text := ["<=", ">=", "<>", "!=", "||"].map String.toList

/-- What the SQL standard has, and nested comments. -/
def ansiRules : Rules where
  quotes := [('\'', .plain '\''), ('"', .plain '"')]
  prefixes := []
  sigils := []
  extras := []
  operators := ['+', '-', '*', '/', '<', '>', '=', '!', '%', '^', '&', '|']
  split := knownOperators comparisons
  blankDashes := false
  hash := false
  nested := true
  versions := false
  dollars := false
  ranges := false
  string := .plain '\''
  string_quotes := rfl
  string_doubled := ⟨rfl, rfl⟩
  quotes_usual := by decide
  prefixes_usual := by decide
  sigils_usual := by decide
  extras_usual := by decide
  operators_usual := by decide
  minus_operator := by decide
  flatten_split := flatten_knownOperators _
  split_ne := knownOperators_ne _
  split_single _ := rfl

/-- MySQL and MariaDB with their default `sql_mode`. -/
def mysqlRules : Rules where
  quotes := [('\'', .escaping '\''), ('"', .escaping '"'), ('`', .plain '`')]
  prefixes := [(['@'], '\'', .escaping '\''), (['@'], '"', .escaping '"'), (['@'], '`', .plain '`')]
  sigils := ['@', '$']
  extras := ['$']
  operators := ['+', '-', '*', '/', '<', '>', '=', '~', '!', '%', '^', '&', '|']
  split := knownOperators (comparisons ++ ["<=>", "<<", ">>", "&&", "->", "->>", "*/"].map String.toList)
  blankDashes := true
  hash := true
  nested := false
  versions := true
  dollars := false
  ranges := false
  string := .escaping '\''
  string_quotes := rfl
  string_doubled := ⟨rfl, rfl⟩
  quotes_usual := by decide
  prefixes_usual := by decide
  sigils_usual := by decide
  extras_usual := by decide
  operators_usual := by decide
  minus_operator := by decide
  flatten_split := flatten_knownOperators _
  split_ne := knownOperators_ne _
  split_single _ := rfl

/-- PostgreSQL with `standard_conforming_strings`. -/
def postgresRules : Rules where
  quotes := [('\'', .plain '\''), ('"', .plain '"')]
  prefixes := [(['e'], '\'', .escaping '\''), (['E'], '\'', .escaping '\'')]
  sigils := []
  extras := ['$']
  operators := ['+', '-', '*', '/', '<', '>', '=', '~', '!', '@', '#', '%', '^', '&', '|', '`', '?']
  split := postgresOperators
  blankDashes := false
  hash := false
  nested := true
  versions := false
  dollars := true
  ranges := true
  string := .plain '\''
  string_quotes := rfl
  string_doubled := ⟨rfl, rfl⟩
  quotes_usual := by decide
  prefixes_usual := by decide
  sigils_usual := by decide
  extras_usual := by decide
  operators_usual := by decide
  minus_operator := by decide
  flatten_split := flatten_postgresOperators
  split_ne := postgresOperators_ne
  split_single := postgresOperators_single

def sqliteRules : Rules where
  quotes := [('\'', .plain '\''), ('"', .plain '"'), ('`', .plain '`'), ('[', .upTo ']')]
  prefixes := []
  sigils := ['@', '#', '$', '?']
  extras := ['$']
  operators := ['+', '-', '*', '/', '<', '>', '=', '~', '!', '%', '&', '|']
  split := knownOperators (comparisons ++ ["==", "<<", ">>", "->", "->>"].map String.toList)
  blankDashes := false
  hash := false
  nested := false
  versions := false
  dollars := false
  ranges := false
  string := .plain '\''
  string_quotes := rfl
  string_doubled := ⟨rfl, rfl⟩
  quotes_usual := by decide
  prefixes_usual := by decide
  sigils_usual := by decide
  extras_usual := by decide
  operators_usual := by decide
  minus_operator := by decide
  flatten_split := flatten_knownOperators _
  split_ne := knownOperators_ne _
  split_single _ := rfl

/-- SQL Server. -/
def transactSqlRules : Rules where
  quotes := [('\'', .plain '\''), ('"', .plain '"'), ('[', .plain ']')]
  prefixes := []
  sigils := ['@', '#', '$']
  extras := ['@', '#', '$']
  operators := ['+', '-', '*', '/', '<', '>', '=', '~', '!', '%', '^', '&', '|']
  split := knownOperators (comparisons ++
    ["!<", "!>", "+=", "-=", "*=", "/=", "%=", "&=", "^=", "|="].map String.toList)
  blankDashes := false
  hash := false
  nested := true
  versions := false
  dollars := false
  ranges := false
  string := .plain '\''
  string_quotes := rfl
  string_doubled := ⟨rfl, rfl⟩
  quotes_usual := by decide
  prefixes_usual := by decide
  sigils_usual := by decide
  extras_usual := by decide
  operators_usual := by decide
  minus_operator := by decide
  flatten_split := flatten_knownOperators _
  split_ne := knownOperators_ne _
  split_single _ := rfl

/-- Informix without `DELIMIDENT`; braces are comments. -/
def informixRules : Rules where
  quotes := [('\'', .plain '\''), ('"', .plain '"'), ('{', .upTo '}')]
  prefixes := []
  sigils := []
  extras := ['$']
  operators := ['+', '-', '*', '/', '<', '>', '=', '!', '|']
  split := knownOperators comparisons
  blankDashes := false
  hash := false
  nested := false
  versions := false
  dollars := false
  ranges := false
  string := .plain '\''
  string_quotes := rfl
  string_doubled := ⟨rfl, rfl⟩
  quotes_usual := by decide
  prefixes_usual := by decide
  sigils_usual := by decide
  extras_usual := by decide
  operators_usual := by decide
  minus_operator := by decide
  flatten_split := flatten_knownOperators _
  split_ne := knownOperators_ne _
  split_single _ := rfl

/-! ## A sign behind an operator -/

end Squaero.Lib.SqlScript
