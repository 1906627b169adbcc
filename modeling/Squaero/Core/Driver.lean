import Mathlib.Data.Rat.Defs
import Squaero.Lib.Ledger
import Squaero.Lib.StateSpec
import Squaero.Lib.Text

/-!
# Drivers and the state of the core

`core/include/dbcore/driver.h` is a table of functions the core calls. A `Call` is one such call, and
what the drivers do is an arbitrary function that answers a call in a state of their own. Pointers to
connections and results are the numbers the core passes along with the call that may allocate them;
each is passed once. The `history` of a world lists what happened to connections and results, for the
statements about them; no function of the core reads it.
-/

namespace Squaero.Core

open Squaero.Lib

abbrev Handle := ℕ

abbrev ResultId := ℕ

/-- `dbc_status`. -/
inductive Status
  | ok
  | conn
  | query
  | param
  | unsupported
  | abi
  | nomem
  deriving DecidableEq, Repr

/-- `dbc_type`. -/
inductive DbcType
  | null
  | int
  | float
  | bool
  | text
  | blob
  | date
  | time
  | timestamp
  | json
  deriving DecidableEq, Repr

/-- The `features` of a driver. -/
structure Features where
  cancel : Bool
  transactions : Bool
  ddl : Bool
  dml : Bool
  schemas : Bool
  introspection : Bool
  deriving DecidableEq, Repr

/-- What `dbc_driver_t` says of itself: its features, and which of the members that may be null it
has. -/
structure Driver where
  features : Features
  hasCancel : Bool
  hasBegin : Bool
  hasCommit : Bool
  hasRollback : Bool
  hasGetDdl : Bool
  hasBuildDml : Bool
  deriving DecidableEq, Repr

/-- The members of `dbc_driver_t` the modelled functions call. A Boolean says whether the call gave
out the connection or result it was offered, whatever its status. -/
inductive Call : Type → Type
  | connect (dsn : Text) (handle : Handle) : Call (Status × Bool)
  | disconnect (handle : Handle) : Call Unit
  | lastError (handle : Handle) : Call (Option Text)
  | query (handle : Handle) (sql : Text) (result : ResultId) : Call (Status × Bool)
  | freeResult (result : ResultId) : Call Unit
  | colCount (result : ResultId) : Call ℤ
  | colName (result : ResultId) (col : ℕ) : Call (Option Text)
  | colType (result : ResultId) (col : ℕ) : Call DbcType
  | nextRow (result : ResultId) : Call ℤ
  | cellText (result : ResultId) (col : ℕ) : Call (Option Text)
  | rowsAffected (result : ResultId) : Call ℤ
  | begin (handle : Handle) : Call Status
  | commit (handle : Handle) : Call Status
  | rollback (handle : Handle) : Call Status

abbrev Event := Ledger.Event Handle ResultId

/-- What a call and its answer did to connections and results, the latest first. -/
def Call.events : {α : Type} → Call α → α → List Event
  | _, .connect _ handle, (_, given) => if given then [.open handle] else []
  | _, .disconnect handle, _ => [.dispose handle]
  | _, .lastError handle, _ => [.touch handle]
  | _, .query handle _ result, (_, given) =>
    if given then [.acquire handle result, .touch handle] else [.touch handle]
  | _, .freeResult result, _ => [.release result]
  | _, .colCount result, _ => [.use result]
  | _, .colName result _, _ => [.use result]
  | _, .colType result _, _ => [.use result]
  | _, .nextRow result, _ => [.use result]
  | _, .cellText result _, _ => [.use result]
  | _, .rowsAffected result, _ => [.use result]
  | _, .begin handle, _ => [.touch handle]
  | _, .commit handle, _ => [.touch handle]
  | _, .rollback handle, _ => [.touch handle]

/-- What the core runs in: the registered drivers by name, their answers, the DSN an SSH tunnel
leaves for the driver or why there is no tunnel, and how cJSON prints a number. -/
structure Env (σ : Type) where
  findDriver : Text → Option Driver
  answer : Text → {α : Type} → Call α → σ → α × σ
  tunnelDsn : Text → σ → Except (Status × Text) Text × σ
  printNumber : ℚ → Text

/-- `conn_slot` in use. -/
structure Slot where
  id : ℕ
  driver : Text
  handle : Handle
  cursor : Option ResultId
  inTx : Bool
  deriving DecidableEq, Repr

/-- `dbcore_conn_manager`; a free slot is `none`. -/
structure Manager where
  slots : List (Option Slot)
  nextId : ℕ
  deriving DecidableEq, Repr

/-- The state of the core, of the drivers under it, and the history of both. -/
structure World (σ : Type) where
  drivers : σ
  manager : Manager
  fresh : ℕ
  history : List Event

variable {σ : Type}

/-- A program of the core. -/
abbrev CoreM (σ : Type) := StateM (World σ)

variable (env : Env σ)

/-- The next pointer an allocation may give out. -/
def offer : CoreM σ ℕ := fun w ↦ (w.fresh, { w with fresh := w.fresh + 1 })

/-- Call a member of the driver called `driver`. -/
def perform (driver : Text) {α : Type} (call : Call α) : CoreM σ α := fun w ↦
  let r := env.answer driver call w.drivers
  (r.1, { w with drivers := r.2, history := call.events r.1 ++ w.history })

/-- `ssh_config_parse` to `dsn_rewrite_loopback`: the DSN the driver gets. -/
def openTunnel (dsn : Text) : CoreM σ (Except (Status × Text) Text) := fun w ↦
  let r := env.tunnelDsn dsn w.drivers
  (r.1, { w with drivers := r.2 })

def setManager (manager : Manager) : CoreM σ Unit := modify fun w ↦ { w with manager := manager }

/-- `dbcore_copy_error` and `conn_copy_err` into a buffer of 256 bytes. -/
def copyError (msg : Option Text) : Text := (msg.getD "unknown error".toList).take 255

end Squaero.Core
