import Mathlib.Tactic.NormNum
import Mathlib.Tactic.Positivity
import Squaero.Core.Query

/-!
# Executions

A driver that keeps its word runs a statement once for each result it hands out, and hands out the
rows of that execution one after the other. `record` is a history variable: it says which execution
each result stands for and how many of its rows were fetched.
-/

namespace Squaero.Core

open Squaero.Lib

/-- A statement run once: its columns, its rows, and how many rows were fetched so far. -/
structure Execution where
  sql : Text
  columns : List Column
  rows : List Row
  fetched : ℕ
  columns_le : columns.length ≤ intMax
  width : ∀ row ∈ rows, row.length = columns.length
  rows_nil : columns = [] → rows = []

/-- The result whose execution a call starts or moves on. -/
def Call.moves : {α : Type} → Call α → Option ResultId
  | _, .query _ _ result => some result
  | _, .nextRow result => some result
  | _, _ => none

/-- The execution with `fetched` rows fetched. -/
def Execution.at (e : Execution) (fetched : ℕ) : Execution := { e with fetched := fetched }

/-- What `driver.h` says of results. A driver may fail to fetch a row at any time. -/
structure Contract {σ : Type} (env : Env σ) (record : σ → ResultId → Option Execution) : Prop where
  frame : ∀ driver {α : Type} (call : Call α) s r, call.moves ≠ some r →
    record (env.answer driver call s).2 r = record s r
  query : ∀ driver handle sql r s,
    (env.answer driver (.query handle sql r) s).1 = (.ok, true) →
      ∃ e, record (env.answer driver (.query handle sql r) s).2 r = some e ∧
        e.sql = sql ∧ e.fetched = 0
  colCount : ∀ driver s r e, record s r = some e →
    (env.answer driver (.colCount r) s).1 = e.columns.length
  colName : ∀ driver s r e, record s r = some e → ∀ col (h : col < e.columns.length),
    (env.answer driver (.colName r col) s).1 = e.columns[col].name
  colType : ∀ driver s r e, record s r = some e → ∀ col (h : col < e.columns.length),
    (env.answer driver (.colType r col) s).1 = e.columns[col].type
  nextRow : ∀ driver s r e, record s r = some e →
    (env.answer driver (.nextRow r) s).1 < 0 ∨
    (env.answer driver (.nextRow r) s).1 = 1 ∧ e.fetched < e.rows.length ∧
      record (env.answer driver (.nextRow r) s).2 r = some (e.at (e.fetched + 1)) ∨
    (env.answer driver (.nextRow r) s).1 = 0 ∧ e.rows.length ≤ e.fetched ∧
      record (env.answer driver (.nextRow r) s).2 r = some e
  cellText : ∀ driver s r e, record s r = some e → ∀ row, e.rows[e.fetched - 1]? = some row →
    ∀ col (h : col < row.length), (env.answer driver (.cellText r col) s).1 = row[col]

/-- No row of a recorded result ever fails to be fetched. -/
def NeverFails {σ : Type} (env : Env σ) (record : σ → ResultId → Option Execution) : Prop :=
  ∀ driver s r e, record s r = some e → 0 ≤ (env.answer driver (.nextRow r) s).1

/-- The most rows one page can hold: the array doubles up to here, and not past `INT_MAX`. -/
def maxPageRows : ℕ := 2 ^ 30

/-! ## The array of cells -/

/-- The array of a result grew by doubling, and no further than its rows asked for. -/
structure Stored (res : Result) : Prop where
  rows_le : res.rows.length ≤ res.rowCap
  rowCap : res.rowCap = 0 ∨ ∃ k ≤ 27, res.rowCap = 8 * 2 ^ k
  tight : res.rowCap ≤ 8 ∨ res.rowCap < 2 * res.rows.length

variable {res : Result} {cells : Row}

theorem Stored.rows_le_max (h : Stored res) : res.rows.length ≤ maxPageRows := by
  refine h.rows_le.trans ?_
  rcases h.rowCap with hcap | ⟨k, hk, hcap⟩
  · omega
  · have hpow : 2 ^ k ≤ 2 ^ 27 := Nat.pow_le_pow_right (by omega) hk
    rw [hcap, maxPageRows]
    omega

/-- A row fits while the page is not at its limit, -/
theorem addRow_eq_some (h : Stored res) (hrows : res.rows.length < maxPageRows)
    (hcolumns : res.columns ≠ []) (hlen : res.columns.length ≤ intMax) :
    ∃ cap, addRow res cells = some { res with rows := res.rows ++ [cells], rowCap := cap } ∧
      Stored { res with rows := res.rows ++ [cells], rowCap := cap } := by
  obtain ⟨hle, hcap, htight⟩ := h
  have hlength : (res.rows ++ [cells]).length = res.rows.length + 1 := List.length_append
  by_cases hfull : res.rows.length = res.rowCap
  · have hnew : ∃ k ≤ 27, grownCap res.rowCap = 8 * 2 ^ k := by
      rcases hcap with hzero | ⟨k, hk, hcap⟩
      · exact ⟨0, by omega, if_pos hzero⟩
      · have hpos : res.rowCap ≠ 0 := by
          rw [hcap]
          positivity
        have hk : k < 27 := by
          rw [hfull, hcap, maxPageRows] at hrows
          by_contra hge
          have hpow : 2 ^ 27 ≤ 2 ^ k := Nat.pow_le_pow_right (by omega) (by omega)
          omega
        refine ⟨k + 1, hk, (if_neg hpos).trans ?_⟩
        rw [hcap, pow_succ, mul_assoc]
    have hmax : grownCap res.rowCap ≤ maxPageRows := by
      obtain ⟨k, hk, hnew⟩ := hnew
      have hpow : 2 ^ k ≤ 2 ^ 27 := Nat.pow_le_pow_right (by omega) hk
      rw [hnew, maxPageRows]
      omega
    have hgrow : ¬ (intMax < grownCap res.rowCap ∨
        sizeMax / (res.columns.length * 8) < grownCap res.rowCap) := by
      have hpos : 0 < res.columns.length := List.length_pos_of_ne_nil hcolumns
      rw [intMax] at hlen ⊢
      rw [maxPageRows] at hmax
      rw [not_or, not_lt, not_lt, Nat.le_div_iff_mul_le (by omega), sizeMax]
      refine ⟨by omega, ?_⟩
      calc grownCap res.rowCap * (res.columns.length * 8) ≤ 2 ^ 30 * ((2 ^ 31 - 1) * 8) :=
            Nat.mul_le_mul hmax (by omega)
        _ ≤ 2 ^ 64 - 1 := by norm_num
    refine ⟨grownCap res.rowCap, ?_, ?_, .inr hnew, ?_⟩
    · rw [addRow, if_neg hcolumns, if_pos hfull]
      exact if_neg hgrow
    all_goals
      simp only [hlength]
      by_cases hzero : res.rowCap = 0
      · simp only [grownCap, if_pos hzero]
        omega
      · simp only [grownCap, if_neg hzero]
        omega
  · refine ⟨res.rowCap, ?_, ?_, hcap, ?_⟩
    · rw [addRow, if_neg hcolumns, if_neg hfull]
    all_goals
      simp only [hlength]
      omega

/-- and no row fits behind that. -/
theorem addRow_eq_none (h : Stored res) (hrows : res.rows.length = maxPageRows)
    (hcolumns : res.columns ≠ []) : addRow res cells = none := by
  obtain ⟨hle, hcap, htight⟩ := h
  rw [maxPageRows] at hrows
  have hfull : res.rowCap = 2 ^ 30 := by
    rcases hcap with hzero | ⟨k, hk, hcap⟩
    · omega
    · have hpow : 2 ^ k ≤ 2 ^ 27 := Nat.pow_le_pow_right (by omega) hk
      omega
  have hroom : intMax < grownCap res.rowCap := by
    rw [grownCap, hfull, intMax]
    norm_num
  rw [addRow, if_neg hcolumns, if_pos (hrows.trans hfull.symm)]
  exact if_pos (Or.inl hroom)

/-! ## Ranges of rows -/

namespace Execution

variable (e : Execution)

/-- The rows not fetched yet, less the first `toSkip` of them. -/
def left (toSkip : ℕ) : List Row := e.rows.drop (e.fetched + toSkip)

/-- The next `count` rows behind `toSkip` others. -/
def window (toSkip count : ℕ) : List Row := (e.left toSkip).take count

theorem left_succ (toSkip : ℕ) : (e.at (e.fetched + 1)).left toSkip = e.left (toSkip + 1) := by
  rw [left, left, Execution.at, Nat.add_right_comm, Nat.add_assoc]

variable {e}

theorem left_zero_of_lt (h : e.fetched < e.rows.length) :
    e.left 0 = e.rows[e.fetched] :: (e.at (e.fetched + 1)).left 0 := by
  rw [left_succ, left, left, Nat.add_zero, Nat.zero_add]
  exact List.drop_eq_getElem_cons h

theorem left_of_le {toSkip : ℕ} (h : e.rows.length ≤ e.fetched) : e.left toSkip = [] :=
  List.drop_eq_nil_of_le (by omega)

theorem window_zero_succ (h : e.fetched < e.rows.length) (count : ℕ) :
    e.window 0 (count + 1) = e.rows[e.fetched] :: (e.at (e.fetched + 1)).window 0 count := by
  rw [window, left_zero_of_lt h, List.take_succ_cons]
  rfl

end Execution

end Squaero.Core
