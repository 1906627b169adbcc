import Squaero.Gate.StmtClass
import Squaero.Lib.Log
import Squaero.Lib.StateSpec
import Squaero.Mcp.Connections

/-!
# The MCP server

`tools/quaero-mcp/mcp_server.c`: requests of an MCP client are answered with the help of the core, whose responses
are taken one after another from a sequence. Connections are opened lazily, each in the slot beside its record.
-/

namespace Squaero.Mcp

open Squaero.Lib Squaero.Ipc
open Squaero.Gate.StmtClass (stmtClassify)

/-- `conn_slot`, with the index of its record. -/
structure Slot where
  record : ℕ
  opened : Bool
  connId : Text
  deriving DecidableEq, Repr

/-- A request sent to the core and what it returned, with the request of the client it was sent for. -/
structure Sent where
  request : Text
  method : String
  params : List (Text × Json)
  answer : Option Text

/-- The slots, and the requests sent to the core, the latest last. No function but `callCore` looks at `sent`, to
find the next response, and none at `serving`, the request of the client. -/
structure Server where
  slots : List Slot
  sent : List Sent
  serving : Text

/-- `name` and `version` of `mcp_server`. -/
structure ServerInfo where
  name : Text
  version : Text

abbrev ServerM := StateM Server

/-- `mcp_server_new` -/
def mcpServerNew (conns : List McpConn) : Server :=
  ⟨(List.range conns.length).map fun i ↦ ⟨i, false, []⟩, [], []⟩

/-- `mcp_server_set_info`, into buffers of 64 and 32 bytes. -/
def mcpServerSetInfo (name version : Text) : ServerInfo := ⟨name.take 63, version.take 31⟩

/-! ## Responses -/

def envelope (id : Option Json) (member : Text × Json) : Json :=
  .obj [("jsonrpc".toList, .str "2.0".toList), ("id".toList, id.getD .null), member]

def responseResult (id : Option Json) (result : Json) : Json := envelope id ("result".toList, result)

def responseError (id : Option Json) (code : ℤ) (message : String) : Json :=
  envelope id ("error".toList, .obj [("code".toList, .num code), ("message".toList, .str message.toList)])

def toolText (text : Text) (isError : Bool) : Json :=
  .obj (("content".toList, .arr [.obj [("type".toList, .str "text".toList), ("text".toList, .str text)]]) ::
    if isError then [("isError".toList, .bool true)] else [])

section Tools

variable (cjson : Conn.CJson) (core : ℕ → Option Text) (conns : List McpConn)

def toolJson (payload : Json) : Json := toolText (payload.print cjson.printNumber) false

/-! ## The core -/

/-- The `result` of a response, or an error text cut to its buffer of 256 bytes. -/
def coreResult (answer : Option Text) : Except Text Json :=
  match answer with
  | none => .error "core returned no response".toList
  | some text =>
    match cjson.parse text with
    | none => .error "core response parse error".toList
    | some resp =>
      match field (some resp) "result" with
      | some result => .ok result
      | none => .error (((jsonStr (field (some resp) "error") "message").getD "core error".toList).take 255)

/-- `call_core` -/
def callCore (method : String) (params : List (Text × Json)) : ServerM (Except Text Json) := fun w ↦
  let answer := core w.sent.length
  (coreResult cjson answer, { w with sent := w.sent ++ [⟨w.serving, method, params, answer⟩] })

/-- `ensure_open`; a connId is copied into a buffer of 32 bytes. -/
def ensureOpen (rec : McpConn) (i : ℕ) : ServerM (Except Text Text) := do
  match (← get).slots.zipIdx.find? fun item ↦ item.1.record = i with
  | none => return .error "connection not registered".toList
  | some (slot, k) =>
    if slot.opened then return .ok slot.connId
    else
      match ← callCore cjson core "conn.open" [("driver".toList, .str rec.driver), ("dsn".toList, rec.params)] with
      | .error err => return .error err
      | .ok result =>
        match jsonStr (some result) "connId" with
        | none => return .error "core did not return a connId".toList
        | some cid =>
          let connId := cid.take 31
          modify fun w ↦ { w with slots := w.slots.set k { slot with opened := true, connId } }
          return .ok connId

/-- `resolve_conn`, with the index of the record. -/
def resolveConn (args : Option Json) : Except Text (McpConn × ℕ) :=
  match jsonStr args "connection" with
  | none => .error "argument \"connection\" (string) is required".toList
  | some c =>
    match (mcpConnsFind conns c).bind fun i ↦ (mcpConnsAt conns i).map (·, i) with
    | none => .error "unknown connection (not found or not enabled for MCP)".toList
    | some found => .ok found

def copyOptStr (args : Option Json) (key : String) : List (Text × Json) :=
  match jsonStr args key with
  | some value => [(key.toList, .str value)]
  | none => []

/-! ## Tools -/

def toolListConnections : Json :=
  toolJson cjson (.arr (conns.map fun r ↦ .obj
    ((r.id.toList.map fun id ↦ ("id".toList, .str id)) ++ (r.name.toList.map fun name ↦ ("name".toList, .str name)) ++
      [("driver".toList, .str r.driver), ("readOnly".toList, .bool !r.allowWrite)])))

/-- A tool that sends `method` to the core on the connection named, with the members that `own` makes of the other
arguments. -/
def callTool (method : String) (args : Option Json) (own : McpConn → Except Text (List (Text × Json))) :
    ServerM Json := do
  match resolveConn conns args with
  | .error why => return toolText why true
  | .ok (rec, i) =>
    match own rec with
    | .error why => return toolText why true
    | .ok params =>
      match ← ensureOpen cjson core rec i with
      | .error err => return toolText err true
      | .ok connId =>
        match ← callCore cjson core method (("connId".toList, .str connId) :: params) with
        | .error err => return toolText err true
        | .ok result => return toolJson cjson result

def toolSchemaTree (args : Option Json) : ServerM Json :=
  callTool cjson core conns "schema.tree" args fun _ ↦ .ok (copyOptStr args "db" ++ copyOptStr args "schema")

def toolSchemaDescribe (args : Option Json) : ServerM Json :=
  callTool cjson core conns "schema.describe" args fun _ ↦
    match jsonStr args "table" with
    | none => .error "argument \"table\" (string) is required".toList
    | some table => .ok (("table".toList, .str table) :: (copyOptStr args "schema" ++ copyOptStr args "db"))

/-- `MCP_DEFAULT_LIMIT` -/
def mcpDefaultLimit : ℕ := 200

/-- The arguments of `query_run` behind the gate: on a read-only connection, anything the classifier cannot prove
read-only is refused. -/
def queryArguments (args : Option Json) (rec : McpConn) : Except Text (List (Text × Json)) :=
  match jsonStr args "sql" with
  | none => .error "argument \"sql\" (string) is required".toList
  | some sql =>
    if !rec.allowWrite && stmtClassify sql = .write then
      .error ("refused: connection is read-only for MCP; the statement is not a read (SELECT/WITH.../EXPLAIN/SHOW). " ++
        "Enable \"mcpWrite\" on this connection to allow writes.").toList
    else
      let limit := ((field args "limit").bind (wholeNumber 1)).getD mcpDefaultLimit
      .ok [("sql".toList, .str sql), ("limit".toList, .num limit)]

def toolQueryRun (args : Option Json) : ServerM Json :=
  callTool cjson core conns "query.run" args (queryArguments args)

end Tools

/-! ## The list of tools -/

def strProp (desc : String) : Json :=
  .obj [("type".toList, .str "string".toList), ("description".toList, .str desc.toList)]

def schemaObject (props : List (Text × Json)) (required : List String) : Json :=
  .obj ([("type".toList, .str "object".toList), ("properties".toList, .obj props)] ++
    if required = [] then [] else [("required".toList, .arr (required.map fun name ↦ .str name.toList))])

def addTool (name desc : String) (schema : Json) : Json :=
  .obj [("name".toList, .str name.toList), ("description".toList, .str desc.toList), ("inputSchema".toList, schema)]

def buildToolsList : Json :=
  .arr
    [addTool "list_connections"
      "List the database connections enabled for MCP (id, name, driver, readOnly). No credentials are ever returned."
      (schemaObject [] []),
    addTool "schema_tree" "Browse the object tree (databases/schemas/tables/views) of a connection."
      (schemaObject
        [("connection".toList, strProp "Connection id or name (from list_connections)."),
          ("db".toList, strProp "Optional database to scope to."),
          ("schema".toList, strProp "Optional schema to scope to.")]
        ["connection"]),
    addTool "schema_describe" "Describe a table/view: columns, types, nullability, primary key."
      (schemaObject
        [("connection".toList, strProp "Connection id or name."),
          ("table".toList, strProp "Table or view name to describe."),
          ("schema".toList, strProp "Optional schema/database qualifier.")]
        ["connection", "table"]),
    addTool "query_run"
      ("Run a SQL query and return rows. On read-only connections only SELECT/WITH.../EXPLAIN/SHOW are permitted; " ++
        "writes are refused.")
      (schemaObject
        [("connection".toList, strProp "Connection id or name."),
          ("sql".toList, strProp "SQL to run. Read-only unless the connection allows writes."),
          ("limit".toList, .obj [("type".toList, .str "integer".toList),
            ("description".toList, .str "Max rows to return (default 200).".toList)])]
        ["connection", "sql"])]

/-! ## Methods -/

section Handle

variable (cjson : Conn.CJson) (core : ℕ → Option Text) (conns : List McpConn) (info : ServerInfo)

def handleInitialize : Json :=
  .obj [("protocolVersion".toList, .str "2024-11-05".toList),
    ("capabilities".toList, .obj [("tools".toList, .obj [])]),
    ("serverInfo".toList, .obj [("name".toList, .str info.name), ("version".toList, .str info.version)])]

def handleToolsCall (params : Option Json) : ServerM Json :=
  match jsonStr params "name" with
  | none => return toolText "tools/call requires a tool name".toList true
  | some name =>
    let args := field params "arguments"
    if args.any (!·.isObj) then return toolText "tools/call \"arguments\" must be an object".toList true
    else if name = "list_connections".toList then return toolListConnections cjson conns
    else if name = "schema_tree".toList then toolSchemaTree cjson core conns args
    else if name = "schema_describe".toList then toolSchemaDescribe cjson core conns args
    else if name = "query_run".toList then toolQueryRun cjson core conns args
    else return toolText "unknown tool".toList true

/-- `mcp_server_handle`, up to the printing of the response. -/
def mcpServerHandle (request : Text) : ServerM (Option Json) :=
  match cjson.parse request with
  | none => return some (responseError none (-32700) "parse error")
  | some root =>
    let id := field (some root) "id"
    let params := field (some root) "params"
    match jsonStr (some root) "method" with
    | none => return id.map fun id ↦ responseError (some id) (-32600) "invalid request"
    | some m =>
      if m = "initialize".toList then return some (responseResult id (handleInitialize info))
      else if m = "ping".toList then return some (responseResult id (.obj []))
      else if m = "tools/list".toList then
        return some (responseResult id (.obj [("tools".toList, buildToolsList)]))
      else if m = "tools/call".toList then
        return some (responseResult id (← handleToolsCall cjson core conns params))
      else if "notifications/".toList.isPrefixOf m then return none
      else return id.map fun id ↦ responseError (some id) (-32601) "method not found"

/-- A request handled, and noted as the one being served. -/
def serve (request : Text) : ServerM (Option Json) := do
  modify fun w ↦ { w with serving := request }
  mcpServerHandle cjson core conns info request

/-- Requests one after another, each with its response. -/
def serveAll : List Text → ServerM (List (Text × Option Json))
  | [] => return []
  | request :: requests => do
    let response ← serve cjson core conns info request
    return (request, response) :: (← serveAll requests)

end Handle

end Squaero.Mcp
