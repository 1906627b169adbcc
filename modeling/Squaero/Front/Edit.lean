import Squaero.Front.Transport

/-!
# Applying an edit plan

`frontend/src/utils/edit.ts` and `editApply.ts`: the requests of a plan, and `applyPlan`, which commits
when every change went through and otherwise rolls back and begins anew. `txBegin`, `txCommit` and
`txRollback` do not look at the response, so an error response passes for success.
-/

namespace Squaero.Front

open Squaero.Lib

structure EditTarget where
  table : Text
  db : Option Text
  schema : Option Text

/-- A `{column: value}` map as its entries. -/
abbrev RowValues := List (Text × Option Text)

abbrev ColumnTypes := List (Text × Text)

inductive PlanItem
  | update (set where_ : RowValues) (setTypes : Option ColumnTypes)
  | delete (where_ : RowValues)
  | insert (values : RowValues) (setTypes : Option ColumnTypes) (insertIndex : Option ℕ)

structure RowResult where
  sql : Text
  rowsAffected : Option ℚ

def valuesJson (values : RowValues) : Json :=
  .obj (values.map fun (column, value) ↦ (column, value.elim .null .str))

def typesJson (types : ColumnTypes) : Json :=
  .obj (types.map fun (column, type) ↦ (column, .str type))

/-- A member of an object literal that is there when it has a value. -/
def member (name : String) (value : Option Json) : List (Text × Json) :=
  value.toList.map fun value ↦ (name.toList, value)

def baseParams (connId : Text) (target : EditTarget) (preview : Bool) : List (Text × Json) :=
  member "connId" (some (.str connId)) ++ member "table" (some (.str target.table)) ++
    member "db" (target.db.map .str) ++
    member "schema" ((target.schema.or target.db).map .str) ++
    member "preview" (if preview then some (.bool true) else none)

def insertParams (connId : Text) (target : EditTarget) (values : RowValues) (preview : Bool)
    (setTypes : Option ColumnTypes) : List (Text × Json) :=
  baseParams connId target preview ++ member "values" (some (valuesJson values)) ++
    member "setTypes" (setTypes.map typesJson)

def updateParams (connId : Text) (target : EditTarget) (set where_ : RowValues) (preview : Bool)
    (setTypes : Option ColumnTypes) : List (Text × Json) :=
  baseParams connId target preview ++ member "set" (some (valuesJson set)) ++
    member "where" (some (valuesJson where_)) ++ member "setTypes" (setTypes.map typesJson)

def deleteParams (connId : Text) (target : EditTarget) (where_ : RowValues) (preview : Bool) :
    List (Text × Json) :=
  baseParams connId target preview ++ member "where" (some (valuesJson where_))

/-- `parseRowResult`: an error response is thrown. -/
def parseRowResult : Response → Except JsError RowResult
  | .error code message data => .error (.query message code data)
  | .success result =>
    let field (name : String) : Option Json :=
      match result with
      | .obj members => Json.getItem members name.toList
      | _ => none
    .ok
      { sql := textOf (field "sql")
        rowsAffected := match field "rowsAffected" with
          | some (.num n) => some n
          | _ => none }

/-- The request `runPlanItem` makes for an item. -/
def planRequest (connId : Text) (target : EditTarget) (preview : Bool) : PlanItem → Request
  | .update set where_ setTypes =>
    ⟨"row.update".toList, updateParams connId target set where_ preview setTypes⟩
  | .delete where_ => ⟨"row.delete".toList, deleteParams connId target where_ preview⟩
  | .insert values setTypes _ =>
    ⟨"row.insert".toList, insertParams connId target values preview setTypes⟩

def runPlanItem (engine connId : Text) (target : EditTarget) (item : PlanItem) (reply : Reply) :
    CallM RowResult := do
  let res ← call engine (planRequest connId target false item) reply
  Async.settled (parseRowResult res)

/-- A request of a transaction method. -/
def txRequest (method : String) (connId : Text) : Request :=
  ⟨method.toList, [("connId".toList, .str connId)]⟩

def txBegin (engine connId : Text) (reply : Reply) : CallM Unit := do
  let _ ← call engine (txRequest "tx.begin" connId) reply

def txCommit (engine connId : Text) (reply : Reply) : CallM Unit := do
  let _ ← call engine (txRequest "tx.commit" connId) reply

def txRollback (engine connId : Text) (reply : Reply) : CallM Unit := do
  let _ ← call engine (txRequest "tx.rollback" connId) reply

/-! ## The plan -/

structure ApplyEffects (ι W : Type) where
  run : ι → Async W JsError RowResult
  commit : Async W JsError Unit
  rollback : Async W JsError Unit
  begin : Async W JsError Unit

inductive ApplyOutcome
  | ok
  | failed (error : JsError) (failedIndex : Option ℕ) (reopened : Bool)

section

variable {ι W : Type} (fx : ApplyEffects ι W)

/-- The loop of `applyPlan` from item `i` on: the item that failed, with its error. -/
def runItems (i : ℕ) : List ι → Async W JsError (Option (ℕ × JsError))
  | [] => return none
  | item :: items => do
    match ← (fx.run item).attempt with
    | .ok _ => runItems (i + 1) items
    | .error error => return some (i, error)

/-- The `catch` of `applyPlan`. -/
def abandon (error : JsError) (failedIndex : Option ℕ) : Async W JsError ApplyOutcome := do
  let _ ← fx.rollback.attempt
  match ← fx.begin.attempt with
  | .ok _ => return .failed error failedIndex true
  | .error _ => return .failed error failedIndex false

def applyPlan (plan : List ι) : Async W JsError ApplyOutcome := do
  match ← runItems fx 0 plan with
  | some (i, error) => abandon fx error (some i)
  | none =>
    match ← fx.commit.attempt with
    | .ok _ => return .ok
    | .error error => abandon fx error none

end

/-- What the calls of a plan meet; those of its items come with the plan. -/
structure PlanReplies where
  commit : Reply
  rollback : Reply
  begin : Reply

/-- `edit.ts` wired to a connection. -/
def planEffects (engine connId : Text) (target : EditTarget) (replies : PlanReplies) :
    ApplyEffects (PlanItem × Reply) (List Sent) where
  run item := runPlanItem engine connId target item.1 item.2
  commit := txCommit engine connId replies.commit
  rollback := txRollback engine connId replies.rollback
  begin := txBegin engine connId replies.begin

end Squaero.Front
