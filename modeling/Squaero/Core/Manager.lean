import Squaero.Core.Driver

/-!
# The connection manager

`core/src/conn/manager.c`: the slots of the open connections. A pointer to a slot is its index. No
allocation fails, and the array grows as the code grows it.
-/

namespace Squaero.Core

open Squaero.Lib

variable {σ : Type} (env : Env σ)

namespace Manager

def new : Manager := ⟨[], 1⟩

/-- The slots in use, in the order of the array. -/
def live (mgr : Manager) : List Slot := mgr.slots.reduceOption

def setSlot (mgr : Manager) (i : ℕ) (s : Option Slot) : Manager :=
  { mgr with slots := mgr.slots.set i s }

def findIn (id : ℕ) : List (Option Slot) → Option (ℕ × Slot)
  | [] => none
  | none :: rest => (findIn id rest).map fun r ↦ (r.1 + 1, r.2)
  | some s :: rest =>
    if s.id = id then some (0, s) else (findIn id rest).map fun r ↦ (r.1 + 1, r.2)

/-- `find_slot`. -/
def findSlot (mgr : Manager) (id : ℕ) : Option (ℕ × Slot) :=
  if id = 0 then none else findIn id mgr.slots

/-- `acquire_slot`, and the slot it returns filled with `s`. -/
def acquire (mgr : Manager) (s : Slot) : Manager :=
  match mgr.slots.idxOf? none with
  | some i => mgr.setSlot i (some s)
  | none =>
    let cap := mgr.slots.length
    let newcap := if cap = 0 then 4 else cap * 2
    { mgr with slots := mgr.slots ++ some s :: List.replicate (newcap - cap - 1) none }

/-- The cursor of a connection, as the statements below speak of it. -/
def cursorOf (mgr : Manager) (id : ℕ) : Option ResultId :=
  (mgr.findSlot id).bind fun r ↦ r.2.cursor

/-- `dbcore_conn_manager_in_tx`. -/
def inTx (mgr : Manager) (id : ℕ) : Bool := (mgr.findSlot id).any fun r ↦ r.2.inTx

end Manager

def getManager : CoreM σ Manager := World.manager <$> get

/-- Free the cursor `old` of a slot unless it is the one that stays there. -/
def freeOther (driver : Text) (cursor : Option ResultId) : Option ResultId → CoreM σ Unit
  | some old => if cursor ≠ some old then perform env driver (.freeResult old) else return
  | none => return

/-- `release_slot` on the slot at `i`. -/
def releaseSlot (i : ℕ) (s : Slot) : CoreM σ Unit := do
  freeOther env s.driver none s.cursor
  let mgr ← getManager
  setManager (mgr.setSlot i (some { s with cursor := none }))
  perform env s.driver (.disconnect s.handle)
  let mgr ← getManager
  setManager (mgr.setSlot i none)

/-- The loop of `dbcore_conn_manager_free` from index `i` on. -/
def releaseAll (i : ℕ) : List (Option Slot) → CoreM σ Unit
  | [] => pure ()
  | none :: rest => releaseAll (i + 1) rest
  | some s :: rest => do
    releaseSlot env i s
    releaseAll (i + 1) rest

/-- `dbcore_conn_manager_free`; the manager the next call finds is a new one. -/
def connManagerFree : CoreM σ Unit := do
  let mgr ← getManager
  releaseAll env 0 mgr.slots
  setManager .new

/-- `dbcore_conn_manager_open`: the new id, or a status and its text. -/
def connManagerOpen (driver dsn : Text) : CoreM σ (Except (Status × Text) ℕ) := do
  match ← openTunnel env dsn with
  | .error failure => return .error failure
  | .ok effectiveDsn =>
    let handle ← offer
    let (st, given) ← perform env driver (.connect effectiveDsn handle)
    if st ≠ .ok then
      if given then
        let msg ← perform env driver (.lastError handle)
        perform env driver (.disconnect handle)
        return .error (st, copyError msg)
      else return .error (st, copyError (some "could not connect".toList))
    else if !given then
      return .error (.param,
        copyError (some "driver reported success but returned no handle".toList))
    else
      let mgr ← getManager
      let id := mgr.nextId
      setManager ({ mgr with nextId := id + 1 }.acquire ⟨id, driver, handle, none, false⟩)
      return .ok id

/-- `dbcore_conn_manager_close`. -/
def connManagerClose (id : ℕ) : CoreM σ Status := do
  let mgr ← getManager
  match mgr.findSlot id with
  | none => return .param
  | some (i, s) =>
    releaseSlot env i s
    return .ok

/-- `dbcore_conn_manager_get`: the driver and the handle of a connection. -/
def connManagerGet (id : ℕ) : CoreM σ (Option (Text × Handle)) := do
  let mgr ← getManager
  return (mgr.findSlot id).map fun r ↦ (r.2.driver, r.2.handle)

/-- `dbcore_conn_manager_set_in_tx`. -/
def setInTx (id : ℕ) (isOpen : Bool) : CoreM σ Bool := do
  let mgr ← getManager
  match mgr.findSlot id with
  | none => return false
  | some (i, s) =>
    setManager (mgr.setSlot i (some { s with inTx := isOpen }))
    return true

/-- `dbcore_conn_manager_set_cursor`. -/
def setCursor (id : ℕ) (cursor : Option ResultId) : CoreM σ Bool := do
  let mgr ← getManager
  match mgr.findSlot id with
  | none => return false
  | some (i, s) =>
    freeOther env s.driver cursor s.cursor
    let mgr ← getManager
    setManager (mgr.setSlot i (some { s with cursor := cursor }))
    return true

/-- `dbcore_conn_manager_take_cursor`. -/
def takeCursor (id : ℕ) : CoreM σ (Option ResultId) := do
  let mgr ← getManager
  match mgr.findSlot id with
  | none => return none
  | some (i, s) =>
    setManager (mgr.setSlot i (some { s with cursor := none }))
    return s.cursor

end Squaero.Core
