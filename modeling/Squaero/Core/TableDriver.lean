import Mathlib.Logic.Function.Basic
import Squaero.Core.QueryPages

/-!
# A driver over tables in memory

The least a driver may do and keep its contract: a statement is the name of a table, and its state is
the record of the executions. It shows that the contract can be met.
-/

namespace Squaero.Core

open Squaero.Lib

/-- The columns and rows of a table, as an execution that fetched none of them. -/
abbrev Tables := Text → Option Execution

abbrev Records := ResultId → Option Execution

def Execution.named (e : Execution) (sql : Text) : Execution := { e with sql := sql, fetched := 0 }

def Execution.cell (e : Execution) (col : ℕ) : Option Text :=
  ((e.rows[e.fetched - 1]?).bind fun row ↦ row[col]?).join

/-- What the driver answers, and the record it leaves. -/
def tableAnswer (tables : Tables) : {α : Type} → Call α → Records → α × Records
  | _, .connect _ _, s => ((.ok, true), s)
  | _, .disconnect _, s => ((), s)
  | _, .lastError _, s => (none, s)
  | _, .query _ sql r, s =>
    match tables sql with
    | some e => ((.ok, true), Function.update s r (some (e.named sql)))
    | none => ((.query, false), s)
  | _, .freeResult _, s => ((), s)
  | _, .colCount r, s => ((s r).elim 0 fun e ↦ e.columns.length, s)
  | _, .colName r col, s => ((s r).bind fun e ↦ e.columns[col]?.bind Column.name, s)
  | _, .colType r col, s => (((s r).bind fun e ↦ e.columns[col]?).elim .null Column.type, s)
  | _, .nextRow r, s =>
    match s r with
    | some e =>
      if e.fetched < e.rows.length then (1, Function.update s r (some (e.at (e.fetched + 1))))
      else (0, s)
    | none => (-1, s)
  | _, .cellText r col, s => ((s r).bind fun e ↦ e.cell col, s)
  | _, .rowsAffected _, s => (0, s)
  | _, .begin _, s => (.ok, s)
  | _, .commit _, s => (.ok, s)
  | _, .rollback _, s => (.ok, s)

attribute [local grind =] tableAnswer

/-- One driver with every feature, under any name, without tunnels. -/
def tableEnv (tables : Tables) : Env Records where
  findDriver _ := some ⟨⟨true, true, true, true, true, true⟩, true, true, true, true, true, true⟩
  answer _ := tableAnswer tables
  tunnelDsn dsn s := (.ok dsn, s)
  printNumber _ := []

/-- The driver's state is the record. -/
def tableRecord (s : Records) : Records := s

variable {tables : Tables}

theorem tableEnv_nextRow {s : Records} {r : ResultId} {e : Execution} (hs : s r = some e)
    (driver : Text) :
    (tableEnv tables).answer driver (.nextRow r) s =
      if e.fetched < e.rows.length then (1, Function.update s r (some (e.at (e.fetched + 1))))
      else (0, s) := by
  change tableAnswer tables (.nextRow r) s = _
  rw [tableAnswer, hs]

theorem tableEnv_contract : Contract (tableEnv tables) tableRecord where
  frame driver α call s r hmoves := by
    change (tableAnswer tables call s).2 r = s r
    cases call with
    | query handle sql result =>
      have hne : r ≠ result := fun heq ↦ hmoves (by rw [heq]; rfl)
      rw [tableAnswer]
      split
      next => exact Function.update_of_ne hne _ _
      next => rfl
    | nextRow result =>
      have hne : r ≠ result := fun heq ↦ hmoves (by rw [heq]; rfl)
      rw [tableAnswer]
      split
      next =>
        split
        next => exact Function.update_of_ne hne _ _
        next => rfl
      next => rfl
    | _ => rfl
  query driver handle sql r s hok := by
    change (tableAnswer tables (.query handle sql r) s).1 = _ at hok
    change ∃ e, (tableAnswer tables (.query handle sql r) s).2 r = some e ∧ _
    rw [tableAnswer] at hok ⊢
    cases htable : tables sql with
    | none =>
      rw [htable] at hok
      cases hok
    | some e => exact ⟨e.named sql, Function.update_self _ _ _, rfl, rfl⟩
  colCount driver s r e hs := by
    change (s r).elim 0 _ = _
    rw [show s r = some e from hs]
    rfl
  colName driver s r e hs col hcol := by
    change (s r).bind _ = _
    rw [show s r = some e from hs, Option.bind_some, List.getElem?_eq_getElem hcol,
      Option.bind_some]
  colType driver s r e hs col hcol := by
    change ((s r).bind _).elim _ _ = _
    rw [show s r = some e from hs, Option.bind_some, List.getElem?_eq_getElem hcol]
    rfl
  nextRow driver s r e hs := by
    rw [@tableEnv_nextRow _ s r e hs]
    by_cases hrow : e.fetched < e.rows.length
    · rw [if_pos hrow]
      exact .inr (.inl ⟨rfl, hrow, Function.update_self _ _ _⟩)
    · rw [if_neg hrow]
      exact .inr (.inr ⟨rfl, Nat.le_of_not_lt hrow, hs⟩)
  cellText driver s r e hs row hrow col hcol := by
    change (s r).bind _ = _
    rw [show s r = some e from hs, Option.bind_some, Execution.cell, hrow, Option.bind_some,
      List.getElem?_eq_getElem hcol]
    rfl

theorem tableEnv_neverFails : NeverFails (tableEnv tables) tableRecord := by
  intro driver s r e hs
  rw [@tableEnv_nextRow _ s r e hs]
  by_cases hrow : e.fetched < e.rows.length
  · rw [if_pos hrow]
    exact zero_le_one
  · rw [if_neg hrow]

/-- A statement that names a table always runs. -/
theorem tableEnv_runs {sql : Text} {e : Execution} (htable : tables sql = some e) (driver : Text) :
    Succeeds (tableEnv tables) driver sql ∧
      Runs (tableEnv tables) tableRecord driver sql fun e' ↦ e' = e.named sql := by
  have hanswer (handle : Handle) (r : ResultId) (s : Records) :
      tableAnswer tables (.query handle sql r) s =
        ((.ok, true), Function.update s r (some (e.named sql))) := by
    rw [tableAnswer, htable]
  refine ⟨fun handle r s ↦ ?_, fun handle r s _ ↦ ⟨e.named sql, rfl, ?_⟩⟩
  · exact congrArg Prod.fst (hanswer handle r s)
  · change (tableAnswer tables (.query handle sql r) s).2 r = _
    rw [hanswer]
    exact Function.update_self _ _ _

end Squaero.Core
