import Squaero.Core.Manager

/-!
# Running a query

`core/src/query/result.c`, `materialize.c` and `run.c`: a driver's result is copied into a result of
the core, row by row, up to a limit. A result whose paging goes on is left open.
-/

namespace Squaero.Core

open Squaero.Lib

variable {σ : Type} (env : Env σ)

structure Column where
  name : Option Text
  type : DbcType
  deriving DecidableEq, Repr

/-- The cells of a row; `none` is the NULL of SQL. -/
abbrev Row := List (Option Text)

/-- `dbcore_result`. -/
structure Result where
  columns : List Column
  rows : List Row := []
  /-- The rows the array of cells can hold. -/
  rowCap : ℕ := 0
  rowsAffected : ℤ := 0
  truncated : Bool := false
  deriving DecidableEq, Repr

/-- `INT_MAX`. -/
def intMax : ℕ := 2 ^ 31 - 1

/-- `SIZE_MAX` where `size_t` has 64 bits. -/
def sizeMax : ℕ := 2 ^ 64 - 1

/-- The next size of the array of cells. -/
def grownCap (cap : ℕ) : ℕ := if cap = 0 then 8 else cap * 2

/-- `dbcore_result_add_row`; none where the array of cells may not grow. -/
def addRow (res : Result) (cells : Row) : Option Result :=
  if res.columns = [] then some { res with rows := res.rows ++ [[]] }
  else if res.rows.length = res.rowCap then
    if intMax < grownCap res.rowCap ∨ sizeMax / (res.columns.length * 8) < grownCap res.rowCap then
      none
    else some { res with rows := res.rows ++ [cells], rowCap := grownCap res.rowCap }
  else some { res with rows := res.rows ++ [cells] }

/-- The columns from number `col` on, `count` of them. -/
def readColumns (driver : Text) (dr : ResultId) : ℕ → ℕ → CoreM σ (List Column)
  | _, 0 => return []
  | col, count + 1 => do
    let name ← perform env driver (.colName dr col)
    let type ← perform env driver (.colType dr col)
    let columns ← readColumns driver dr (col + 1) count
    return ⟨name, type⟩ :: columns

/-- The cells from column `col` on, `count` of them. -/
def readCells (driver : Text) (dr : ResultId) : ℕ → ℕ → CoreM σ Row
  | _, 0 => return []
  | col, count + 1 => do
    let cell ← perform env driver (.cellText dr col)
    let cells ← readCells driver dr (col + 1) count
    return cell :: cells

/-- The loop of `materialize`: the rows fetched and the last `rc`, or none where a row did not fit.
Each round skips a row, takes one, or ends, so `toSkip + maxRows + 1` rounds are enough for a
positive limit. -/
def fetchRows (driver : Text) (dr : ResultId) (maxRows : ℕ) (keepOpen : Bool) :
    ℕ → ℕ → Result → CoreM σ (Option (Result × ℤ))
  | 0, _, res => return some (res, 0)
  | fuel + 1, toSkip, res => do
    if keepOpen ∧ 0 < maxRows ∧ maxRows ≤ res.rows.length then
      return some ({ res with truncated := true }, 0)
    else
      let rc ← perform env driver (.nextRow dr)
      if rc ≠ 1 then return some (res, rc)
      else if 0 < toSkip then fetchRows driver dr maxRows keepOpen fuel (toSkip - 1) res
      else if 0 < maxRows ∧ maxRows ≤ res.rows.length then
        return some ({ res with truncated := true }, rc)
      else
        let cells ← readCells env driver dr 0 res.columns.length
        match addRow res cells with
        | none => return none
        | some res => fetchRows driver dr maxRows keepOpen fuel 0 res

theorem addRow_rows {res res' : Result} {cells : Row} (h : addRow res cells = some res') :
    res'.rows.length = res.rows.length + 1 := by
  rw [addRow] at h
  split at h
  next =>
    cases h
    exact List.length_append
  next =>
    split at h
    next =>
      split at h
      next => cases h
      next =>
        cases h
        exact List.length_append
    next =>
      cases h
      exact List.length_append

/-- With a limit the loop ends by itself: more fuel changes nothing. -/
theorem fetchRows_fuel {driver : Text} {dr : ResultId} {maxRows fuel toSkip : ℕ} {keepOpen : Bool}
    {res : Result} (hmax : 0 < maxRows)
    (hfuel : toSkip + (maxRows - res.rows.length) < fuel) :
    fetchRows env driver dr maxRows keepOpen (fuel + 1) toSkip res =
      fetchRows env driver dr maxRows keepOpen fuel toSkip res := by
  induction fuel generalizing toSkip res with
  | zero => omega
  | succ fuel ih =>
    rw [fetchRows, fetchRows]
    congr 1
    apply congrArg
    funext rc
    congr 1
    by_cases hskip : 0 < toSkip
    · rw [if_pos hskip, if_pos hskip]
      exact ih (by omega)
    rw [if_neg hskip, if_neg hskip]
    by_cases hpeek : 0 < maxRows ∧ maxRows ≤ res.rows.length
    · rw [if_pos hpeek, if_pos hpeek]
    rw [if_neg hpeek, if_neg hpeek]
    apply congrArg
    funext cells
    cases hadd : addRow res cells with
    | none => rfl
    | some res' =>
      have hrows := addRow_rows hadd
      have hroom : ¬ maxRows ≤ res.rows.length := fun hle ↦ hpeek ⟨hmax, hle⟩
      exact ih (by omega)

/-- The rows behind the columns of `res`: only a result set has any. -/
def fetchPage (driver : Text) (dr : ResultId) (maxRows offset : ℕ) (keepOpen : Bool)
    (res : Result) : CoreM σ (Option (Result × ℤ)) :=
  if res.columns = [] then return some (res, 0)
  else fetchRows env driver dr maxRows keepOpen (offset + maxRows + 1) offset res

/-- `materialize`. With `keepOpen` the driver's result stays open where rows may be left. -/
def materialize (driver : Text) (handle : Handle) (dr : ResultId) (maxRows offset : ℕ)
    (keepOpen : Bool) : CoreM σ (Except (Status × Text) Result) := do
  let colCount ← perform env driver (.colCount dr)
  let columns ← readColumns env driver dr 0 colCount.toNat
  let rowsAffected ← perform env driver (.rowsAffected dr)
  match ← fetchPage env driver dr maxRows offset keepOpen
      { columns := columns, rowsAffected := rowsAffected } with
  | none =>
    perform env driver (.freeResult dr)
    return .error (.nomem, copyError (some "out of memory".toList))
  | some (res, rc) =>
    if rc < 0 then
      let msg ← perform env driver (.lastError handle)
      perform env driver (.freeResult dr)
      return .error (.query, copyError msg)
    else if !keepOpen || !res.truncated then
      perform env driver (.freeResult dr)
      return .ok res
    else return .ok res

/-- What `dbcore_query_run` and `dbcore_query_open` begin with: the driver runs the statement. -/
def openResult (driver : Text) (handle : Handle) (sql : Text) :
    CoreM σ (Except (Status × Text) ResultId) := do
  let dr ← offer
  let (st, given) ← perform env driver (.query handle sql dr)
  if st ≠ .ok then
    let msg ← perform env driver (.lastError handle)
    if given then
      perform env driver (.freeResult dr)
      return .error (st, copyError msg)
    else return .error (st, copyError msg)
  else if !given then
    return .error (.query,
      copyError (some "driver reported success but returned no result".toList))
  else return .ok dr

/-- `dbcore_query_run`. -/
def queryRun (driver : Text) (handle : Handle) (sql : Text) (maxRows offset : ℕ) :
    CoreM σ (Except (Status × Text) Result) := do
  match ← openResult env driver handle sql with
  | .error failure => return .error failure
  | .ok dr => materialize env driver handle dr maxRows offset false

/-- `dbcore_query_open`: the first page, and the cursor while there may be more to read. -/
def queryOpen (driver : Text) (handle : Handle) (sql : Text) (maxRows : ℕ) :
    CoreM σ (Except (Status × Text) (Result × Option ResultId)) := do
  match ← openResult env driver handle sql with
  | .error failure => return .error failure
  | .ok dr =>
    match ← materialize env driver handle dr maxRows 0 true with
    | .error failure => return .error failure
    | .ok res => return .ok (res, if res.truncated then some dr else none)

/-- `dbcore_query_next`: the next page, and whether the cursor is still open. -/
def queryNext (driver : Text) (handle : Handle) (cursor : ResultId) (maxRows : ℕ) :
    CoreM σ (Except (Status × Text) (Result × Bool)) := do
  match ← materialize env driver handle cursor maxRows 0 true with
  | .error failure => return .error failure
  | .ok res => return .ok (res, res.truncated)

end Squaero.Core
