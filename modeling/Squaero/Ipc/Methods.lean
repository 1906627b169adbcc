import Squaero.Ipc.Rpc

/-!
# The handlers of connections, queries and transactions

`core/src/ipc/conn_methods.c`, `query_methods.c`, `tx_methods.c` and `core/src/query/tx.c`. A handler
answers with the result of the response or with its error.
-/

namespace Squaero.Ipc

open Squaero.Lib Squaero.Core

variable {σ : Type} (env : Env σ)

abbrev Answer := Except IpcError Json

/-- A request on the connection `id`: its driver and handle, or an error. -/
def withConn (id : ℕ) (method : Text → Handle → CoreM σ Answer) : CoreM σ Answer := do
  match ← connManagerGet id with
  | none => return .error unknownConn
  | some (driver, handle) => method driver handle

/-! ## Connections -/

/-- `ipc_driver_features_json`. -/
def ipcDriverFeaturesJson (driver : Driver) : Json :=
  .obj [("cancel".toList, .bool (driver.features.cancel && driver.hasCancel)),
    ("transactions".toList, .bool (driver.features.transactions && driver.hasBegin &&
      driver.hasCommit && driver.hasRollback)),
    ("ddl".toList, .bool (driver.features.ddl && driver.hasGetDdl)),
    ("dml".toList, .bool (driver.features.dml && driver.hasBuildDml)),
    ("schemas".toList, .bool driver.features.schemas),
    ("introspection".toList, .bool driver.features.introspection)]

/-- The DSN as the connection manager gets it: a string as it is, anything else printed. -/
def dsnText : Json → Text
  | .str s => s
  | dsn => dsn.print env.printNumber

def ipcMethodConnOpen (params : Option Json) : CoreM σ Answer := do
  match field params "driver" with
  | some (.str driver) =>
    match field params "dsn" with
    | none => return .error ⟨ipcErrParams, "params.dsn is required".toList⟩
    | some dsn =>
      match env.findDriver driver with
      | none => return .error ⟨ipcErrNotFound, "unknown driver".toList⟩
      | some drv =>
        match ← connManagerOpen env driver (dsnText env dsn) with
        | .error failure => return .error (failureError "could not connect" failure)
        | .ok id =>
          return .ok (.obj [("connId".toList, .str (ipcConnIdFormat id)),
            ("features".toList, ipcDriverFeaturesJson drv)])
  | _ => return .error ⟨ipcErrParams, "params.driver (string) is required".toList⟩

def ipcMethodConnClose (params : Option Json) : CoreM σ Answer := do
  match ipcConnId params with
  | .error e => return .error e
  | .ok id =>
    let st ← connManagerClose env id
    if st ≠ .ok then return .error unknownConn
    else return .ok (.obj [("closed".toList, .bool true)])

/-! ## Queries -/

/-- `IPC_QUERY_DEFAULT_LIMIT`. -/
def ipcQueryDefaultLimit : ℕ := 1000

/-- `ipc_query_limit`. -/
def ipcQueryLimit (params : Option Json) : Except IpcError ℕ :=
  match field params "limit" with
  | none => .ok ipcQueryDefaultLimit
  | some item =>
    match wholeNumber 1 item with
    | some limit => .ok limit
    | none => .error ⟨ipcErrParams, "params.limit must be a positive integer".toList⟩

/-- A limit is at least one. -/
theorem ipcQueryLimit_pos {params : Option Json} {limit : ℕ}
    (h : ipcQueryLimit params = .ok limit) : 0 < limit := by
  rw [ipcQueryLimit] at h
  split at h
  next =>
    cases h
    exact Nat.succ_pos 999
  next item hitem =>
    cases hnumber : wholeNumber 1 item with
    | none =>
      rw [hnumber] at h
      cases h
    | some number =>
      rw [hnumber] at h
      cases h
      exact wholeNumber_ge hnumber

def ipcQueryOffset (params : Option Json) : Except IpcError ℕ :=
  match field params "offset" with
  | none => .ok 0
  | some item =>
    match wholeNumber 0 item with
    | some offset => .ok offset
    | none => .error ⟨ipcErrParams, "params.offset must be a non-negative integer".toList⟩

def ipcQueryCursor (params : Option Json) : Except IpcError Bool :=
  match field params "cursor" with
  | none => .ok false
  | some (.bool keepCursor) => .ok keepCursor
  | some _ => .error ⟨ipcErrParams, "params.cursor must be a boolean".toList⟩

structure QueryRunParams where
  id : ℕ
  sql : Text
  limit : ℕ
  offset : ℕ
  keepCursor : Bool
  deriving DecidableEq, Repr

/-- What `ipc_method_query_run` checks before it looks for the connection. -/
def queryRunParams (params : Option Json) : Except IpcError QueryRunParams := do
  let id ← ipcConnId params
  match field params "sql" with
  | some (.str sql) =>
    let limit ← ipcQueryLimit params
    let offset ← ipcQueryOffset params
    let keepCursor ← ipcQueryCursor params
    if keepCursor ∧ 0 < offset then
      .error ⟨ipcErrParams, "params.cursor cannot be combined with params.offset".toList⟩
    else .ok ⟨id, sql, limit, offset, keepCursor⟩
  | _ => .error ⟨ipcErrParams, "params.sql (string) is required".toList⟩

theorem queryRunParams_ok {params : Option Json} {p : QueryRunParams}
    (h : queryRunParams params = .ok p) :
    ipcConnId params = .ok p.id ∧ field params "sql" = some (.str p.sql) ∧
      ipcQueryLimit params = .ok p.limit ∧ ipcQueryOffset params = .ok p.offset ∧
      ipcQueryCursor params = .ok p.keepCursor ∧ ¬ (p.keepCursor ∧ 0 < p.offset) := by
  rw [queryRunParams] at h
  cases hid : ipcConnId params with
  | error e =>
    rw [hid] at h
    cases h
  | ok id =>
    rw [hid] at h
    simp only [bind, Except.bind] at h
    split at h
    next sql hsql =>
      split at h
      next => cases h
      next limit hlimit =>
        split at h
        next => cases h
        next offset hoffset =>
          split at h
          next => cases h
          next keepCursor hkeep =>
            split at h
            next => cases h
            next hboth =>
              cases h
              exact ⟨rfl, hsql, hlimit, hoffset, hkeep, hboth⟩
    next => cases h

/-- Leave `cursor` with the connection, or free it where the connection is gone; whether it is
there. -/
def storeCursor (driver : Text) (id : ℕ) : Option ResultId → CoreM σ Bool
  | none => return false
  | some cursor => do
    if ← setCursor env id (some cursor) then return true
    else
      perform env driver (.freeResult cursor)
      return false

/-- A plain run leaves the cursor of the connection alone. -/
def runPlain (driver : Text) (handle : Handle) (p : QueryRunParams) : CoreM σ Answer := do
  match ← queryRun env driver handle p.sql p.limit p.offset with
  | .error failure => return .error (failureError "query failed" failure)
  | .ok res => return .ok (ipcPageToJson res false)

def runCursor (driver : Text) (handle : Handle) (p : QueryRunParams) : CoreM σ Answer := do
  let _ ← setCursor env p.id none
  match ← queryOpen env driver handle p.sql p.limit with
  | .error failure => return .error (failureError "query failed" failure)
  | .ok (res, cursor) =>
    let isHeld ← storeCursor env driver p.id cursor
    return .ok (ipcPageToJson res isHeld)

def ipcMethodQueryRun (params : Option Json) : CoreM σ Answer := do
  match queryRunParams params with
  | .error e => return .error e
  | .ok p =>
    withConn p.id fun driver handle ↦
      if p.keepCursor then runCursor env driver handle p else runPlain env driver handle p

structure QueryNextParams where
  id : ℕ
  limit : ℕ
  deriving DecidableEq, Repr

def queryNextParams (params : Option Json) : Except IpcError QueryNextParams := do
  let id ← ipcConnId params
  let limit ← ipcQueryLimit params
  .ok ⟨id, limit⟩

theorem queryNextParams_ok {params : Option Json} {p : QueryNextParams}
    (h : queryNextParams params = .ok p) :
    ipcConnId params = .ok p.id ∧ ipcQueryLimit params = .ok p.limit := by
  rw [queryNextParams] at h
  cases hid : ipcConnId params with
  | error e =>
    rw [hid] at h
    cases h
  | ok id =>
    rw [hid] at h
    simp only [bind, Except.bind] at h
    split at h
    next => cases h
    next limit hlimit =>
      cases h
      exact ⟨rfl, hlimit⟩

def nextPage (driver : Text) (handle : Handle) (p : QueryNextParams) : CoreM σ Answer := do
  match ← takeCursor p.id with
  | none => return .error ⟨ipcErrNotFound, "no open cursor for this connection".toList⟩
  | some cursor =>
    match ← queryNext env driver handle cursor p.limit with
    | .error failure => return .error (failureError "query failed" failure)
    | .ok (res, isOpen) =>
      let isHeld ← storeCursor env driver p.id (if isOpen then some cursor else none)
      return .ok (ipcPageToJson res isHeld)

def ipcMethodQueryNext (params : Option Json) : CoreM σ Answer := do
  match queryNextParams params with
  | .error e => return .error e
  | .ok p => withConn p.id fun driver handle ↦ nextPage env driver handle p

def closeCursor (driver : Text) (id : ℕ) : CoreM σ Answer := do
  match ← takeCursor id with
  | none => return .ok (.obj [("closed".toList, .bool false)])
  | some cursor =>
    perform env driver (.freeResult cursor)
    return .ok (.obj [("closed".toList, .bool true)])

def ipcMethodQueryCursorClose (params : Option Json) : CoreM σ Answer := do
  match ipcConnId params with
  | .error e => return .error e
  | .ok id => withConn id fun driver _ ↦ closeCursor env driver id

/-! ## Transactions -/

inductive TxOp
  | begin
  | commit
  | rollback
  deriving DecidableEq, Repr

/-- Whether the driver has the member behind `op`. -/
def TxOp.member (driver : Driver) : TxOp → Bool
  | .begin => driver.hasBegin
  | .commit => driver.hasCommit
  | .rollback => driver.hasRollback

def TxOp.call (handle : Handle) : TxOp → Call Status
  | .begin => .begin handle
  | .commit => .commit handle
  | .rollback => .rollback handle

/-- `run_tx`. -/
def runTx (driver : Text) (handle : Handle) (op : TxOp) : CoreM σ (Status × Text) := do
  if (env.findDriver driver).any fun drv ↦ drv.features.transactions && op.member drv then
    let st ← perform env driver (op.call handle)
    if st ≠ .ok then
      let msg ← perform env driver (.lastError handle)
      return (st, copyError msg)
    else return (.ok, [])
  else
    return (.unsupported,
      copyError (some "this engine does not support transactions".toList))

def alreadyInTx : IpcError :=
  ⟨ipcErrQuery, ("a transaction is already open on this connection; " ++
    "commit or roll it back first").toList⟩

/-- A rollback clears the flag of the connection whatever it met, the others set it once they
succeed. -/
def noteTx (id : ℕ) (op : TxOp) (st : Status) : CoreM σ Unit := do
  if op = .rollback ∨ st = .ok then
    let _ ← setInTx id (op = .begin)
  else return

/-- `tx_dispatch` on a connection there is. -/
def txOnConn (op : TxOp) (id : ℕ) (driver : Text) (handle : Handle) : CoreM σ Answer := do
  let mgr ← getManager
  if op = .begin ∧ mgr.inTx id then return .error alreadyInTx
  else
    let (st, msg) ← runTx env driver handle op
    noteTx id op st
    if st ≠ .ok then return .error (failureError "transaction failed" (st, msg))
    else return .ok (.obj [("ok".toList, .bool true)])

/-- `tx_dispatch`. -/
def txDispatch (op : TxOp) (params : Option Json) : CoreM σ Answer := do
  match ipcConnId params with
  | .error e => return .error e
  | .ok id => withConn id (txOnConn env op id)

/-! ## Requests in any order -/

/-- A request to the core, or the end of its connection manager. -/
inductive Op
  | connOpen (params : Option Json)
  | connClose (params : Option Json)
  | queryRun (params : Option Json)
  | queryNext (params : Option Json)
  | queryCursorClose (params : Option Json)
  | tx (op : TxOp) (params : Option Json)
  | connManagerFree

/-- The answer of the handler; freeing the manager answers nobody. -/
def Op.handle : Op → CoreM σ (Option Answer)
  | .connOpen params => some <$> ipcMethodConnOpen env params
  | .connClose params => some <$> ipcMethodConnClose env params
  | .queryRun params => some <$> ipcMethodQueryRun env params
  | .queryNext params => some <$> ipcMethodQueryNext env params
  | .queryCursorClose params => some <$> ipcMethodQueryCursorClose env params
  | .tx op params => some <$> txDispatch env op params
  | .connManagerFree => do
    Core.connManagerFree env
    return none

/-- One operation after the other. -/
def runOps : List Op → CoreM σ (List (Option Answer))
  | [] => return []
  | op :: ops => do
    let answer ← op.handle env
    let answers ← runOps ops
    return answer :: answers

/-- The core before its first request. -/
def initialWorld (drivers : σ) : World σ := ⟨drivers, .new, 0, []⟩

/-- The core after a run of operations. -/
def worldAfter (drivers : σ) (ops : List Op) : World σ :=
  ((runOps env ops).run (initialWorld drivers)).2

end Squaero.Ipc
