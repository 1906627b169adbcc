import Squaero.Gate.SafeMode
import Squaero.Lib.Async
import Squaero.Lib.Json

/-!
# Calls to the core

`frontend/src/utils/ipc.ts`, `transport.ts` and the policy of `reconnect.ts`: what a request says of
itself, what a response says of the connection, and `call` for a caller that waits for each call. What
one call meets on its way is a `Reply`.
-/

namespace Squaero.Front

open Squaero.Lib Squaero.Gate

/-- The `params` of a request are an object. -/
structure Request where
  method : Text
  params : List (Text × Json)

inductive Response
  | success (result : Json)
  | error (code : ℤ) (message : Text) (data : Option Json)

/-- What is thrown: a `QueryError`, or another error. -/
inductive JsError
  | query (message : Text) (code : ℤ) (data : Option Json)
  | other (message : Text)

/-- `IPC_ERR_CONN`. -/
def ipcErrConn : ℤ := -32000

/-- `SAFE_MODE_BLOCKED`. -/
def safeModeBlocked : ℤ := -32010

def Request.param (request : Request) (name : String) : Option Json :=
  Json.getItem request.params name.toList

/-- `connIdOfParams`. -/
def Request.connId (request : Request) : Option Text :=
  match request.param "connId" with
  | some (.str id) => if id = [] then none else some id
  | _ => none

/-- `{...params, connId}`. -/
def Request.withConnId (request : Request) (id : Text) : Request :=
  { request with params := ("connId".toList, .str id) ::
      request.params.filter fun member ↦ member.1 ≠ "connId".toList }

/-! ## Safe mode -/

inductive SafeMode
  | readOnly
  | confirm
  deriving DecidableEq, Repr

structure SafeModeGuard where
  mode : SafeMode
  engine : Text
  name : Text
  deriving DecidableEq, Repr

/-- The methods that write rows. -/
def rowMethods : List Text := ["row.insert".toList, "row.update".toList, "row.delete".toList]

/-- `value === true`. -/
def isTrue : Option Json → Bool
  | some (.bool true) => true
  | _ => false

def textOf : Option Json → Text
  | some (.str s) => s
  | _ => []

/-- What a request would write, or none when it only reads. -/
def requestWrites (request : Request) (engine : Text) : Option (List Text) :=
  if request.method = "query.run".toList then
    let sql := textOf (request.param "sql")
    if SafeMode.classifySql sql (some engine) = .write then some [sql] else none
  else if request.method ∈ rowMethods then
    if isTrue (request.param "preview") then none
    else some [request.method ++ ' ' :: textOf (request.param "table")]
  else none

/-! ## Lost connections -/

/-- `saysConnectionLost`. -/
def saysConnectionLost (method : Text) : Response → Bool
  | .success _ => false
  | .error code _ _ => method ≠ "conn.open".toList && code = ipcErrConn

structure LostInfo where
  inTx : Bool
  retrySafe : Bool
  deriving DecidableEq, Repr

/-- `lostInfo`. -/
def lostInfo : Option Json → Option LostInfo
  | some (.obj members) =>
    if isTrue (Json.getItem members "connLost".toList) then
      some ⟨isTrue (Json.getItem members "inTx".toList),
        isTrue (Json.getItem members "retrySafe".toList)⟩
    else none
  | _ => none

def mayRetry (info : Option LostInfo) (reconnected retried : Bool) : Bool :=
  reconnected && !retried && info.any LostInfo.retrySafe

/-- `LostOutcome`: what the listener did about a lost connection. -/
structure LostOutcome where
  reconnectedTo : Option Text
  txLost : Bool
  deriving DecidableEq, Repr

/-- `notRetried`. -/
def notRetried (txLost reconnected : Bool) : Text :=
  if txLost then "tx".toList else if reconnected then "unsafe".toList else "down".toList

/-- `{...data, notRetried}`; the core's data is an object where there is any. -/
def withNotRetried (data : Option Json) (why : Text) : Json :=
  match data with
  | some (.obj members) =>
    .obj (members.filter (fun member ↦ member.1 ≠ "notRetried".toList) ++
      [("notRetried".toList, .str why)])
  | _ => .obj [("notRetried".toList, .str why)]

/-- What `call` makes of the answer to a request on a connection: the response, or the session to
send the request to once more. -/
def afterAnswer (request : Request) (retried : Bool) (lost : Option LostOutcome) :
    Response → Response ⊕ Text
  | .success result => .inl (.success result)
  | .error code message data =>
    if request.connId.isSome ∧ saysConnectionLost request.method (.error code message data) then
      let session := lost.bind LostOutcome.reconnectedTo
      let why := notRetried (lost.any LostOutcome.txLost) session.isSome
      match session with
      | some session =>
        if mayRetry (lostInfo data) true retried then .inr session
        else .inl (.error code message (some (withNotRetried data why)))
      | none => .inl (.error code message (some (withNotRetried data why)))
    else .inl (.error code message data)

/-! ## One call after the other -/

/-- One attempt of a call: the guard's message where safe mode refuses a write, how the bridge
settles otherwise, and what the listener does where the connection turns out to be lost. -/
structure Attempt where
  blocked : Option Text
  answer : Except Text Response
  lost : Option LostOutcome

/-- What a call meets: its attempt, and the one after a reconnect. -/
structure Reply where
  first : Attempt
  second : Attempt

/-- A request that was passed to the bridge, and how it was answered. -/
abbrev Sent := Request × Except Text Response

abbrev CallM := Async (List Sent) JsError

/-- Pass a request to the bridge. -/
def rpc (request : Request) (answer : Except Text Response) : CallM Response := do
  Async.step fun sent ↦ ((), sent ++ [(request, answer)])
  Async.settled (answer.mapError .other)

/-- `call` up to the point where it may start over. The engine of the guard decides which requests
write, and only a write is ever refused. -/
def callOnce (engine : Text) (request : Request) (attempt : Attempt) (retried : Bool) :
    CallM (Response ⊕ Text) :=
  match attempt.blocked, requestWrites request engine with
  | some message, some _ => return .inl (.error safeModeBlocked message none)
  | _, _ => do
    let res ← rpc request attempt.answer
    return afterAnswer request retried attempt.lost res

/-- `call`. -/
def call (engine : Text) (request : Request) (reply : Reply) : CallM Response := do
  match ← callOnce engine request reply.first false with
  | .inl res => return res
  | .inr session =>
    match ← callOnce engine (request.withConnId session) reply.second true with
    | .inl res => return res
    | .inr _ => throw (.other [])

end Squaero.Front
