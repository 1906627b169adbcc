import Squaero.Conn.Dsn
import Squaero.Conn.SshForward
import Squaero.Conn.Tunnel
import Squaero.Conn.TunnelRuns
import Squaero.Core.Driver
import Squaero.Core.Execution
import Squaero.Core.Frame
import Squaero.Core.Manager
import Squaero.Core.ManagerOwnership
import Squaero.Core.OpRegistry
import Squaero.Core.Ownership
import Squaero.Core.Paging
import Squaero.Core.Query
import Squaero.Core.QueryPages
import Squaero.Core.Slots
import Squaero.Core.TableDriver
import Squaero.Drivers.Dml
import Squaero.Drivers.InformixDatetime
import Squaero.Drivers.InformixText
import Squaero.Drivers.InformixWide
import Squaero.Front.ApplyPlan
import Squaero.Front.CanonicalNumber
import Squaero.Front.Clipboard
import Squaero.Front.ConnectionMerge
import Squaero.Front.Connections
import Squaero.Front.Csv
import Squaero.Front.DataSearch
import Squaero.Front.DataSync
import Squaero.Front.DdlDump
import Squaero.Front.DrainQuery
import Squaero.Front.Edit
import Squaero.Front.EditSession
import Squaero.Front.Exporters
import Squaero.Front.GuardedCalls
import Squaero.Front.Import
import Squaero.Front.LineDiff
import Squaero.Front.LocalHistory
import Squaero.Front.MetaCache
import Squaero.Front.MetaCacheObjects
import Squaero.Front.MongoExplain
import Squaero.Front.MongoPlan
import Squaero.Front.MongoReads
import Squaero.Front.MongoStatements
import Squaero.Front.PasteBatches
import Squaero.Front.Preview
import Squaero.Front.QueryBuilder
import Squaero.Front.ReadsOnly
import Squaero.Front.RelatedData
import Squaero.Front.ResultCompare
import Squaero.Front.RowPaste
import Squaero.Front.RunScope
import Squaero.Front.SchemaCatalog
import Squaero.Front.SchemaDiff
import Squaero.Front.SchemaMigration
import Squaero.Front.ScriptSplit
import Squaero.Front.Scrub
import Squaero.Front.Shortcuts
import Squaero.Front.SqlVariables
import Squaero.Front.TableDesign
import Squaero.Front.Transport
import Squaero.Front.TxCalls
import Squaero.Front.TxMode
import Squaero.Front.UserAdmin
import Squaero.Front.ViewApply
import Squaero.Front.Xlsx
import Squaero.Gate.Agreement
import Squaero.Gate.Engines
import Squaero.Gate.ReadGate
import Squaero.Gate.SafeMode
import Squaero.Gate.StmtClass
import Squaero.Gate.Utf8
import Squaero.Ipc.Cancel
import Squaero.Ipc.Connections
import Squaero.Ipc.Methods
import Squaero.Ipc.Ownership
import Squaero.Ipc.PagedRead
import Squaero.Ipc.Paging
import Squaero.Ipc.Redact
import Squaero.Ipc.Rpc
import Squaero.Ipc.TxFlag
import Squaero.Ipc.Utf8
import Squaero.Lib.Async
import Squaero.Lib.Backtrack
import Squaero.Lib.Binary64
import Squaero.Lib.Calendar
import Squaero.Lib.CommonSubsequence
import Squaero.Lib.DependencyOrder
import Squaero.Lib.Doubles
import Squaero.Lib.Draw
import Squaero.Lib.Eviction
import Squaero.Lib.Grouping
import Squaero.Lib.Holding
import Squaero.Lib.JsArith
import Squaero.Lib.JsNumber
import Squaero.Lib.Json
import Squaero.Lib.JsonPrint
import Squaero.Lib.JsonSplit
import Squaero.Lib.JsonText
import Squaero.Lib.KeyedMatch
import Squaero.Lib.KeyedRows
import Squaero.Lib.Ledger
import Squaero.Lib.Lexer
import Squaero.Lib.Like
import Squaero.Lib.Log
import Squaero.Lib.ModeMachine
import Squaero.Lib.Owners
import Squaero.Lib.Patterns
import Squaero.Lib.PrintfG
import Squaero.Lib.QualifiedName
import Squaero.Lib.Records
import Squaero.Lib.Relay
import Squaero.Lib.SlotTable
import Squaero.Lib.SqlEngines
import Squaero.Lib.SqlLex
import Squaero.Lib.SqlLiterals
import Squaero.Lib.SqlMisread
import Squaero.Lib.SqlScript
import Squaero.Lib.SqlStrings
import Squaero.Lib.StateSpec
import Squaero.Lib.Text
import Squaero.Lib.TextOrder
import Squaero.Lib.Traversal
import Squaero.Lib.Utf8
import Squaero.Lib.Utf8Pieces
import Squaero.Lib.Xml
import Squaero.Mcp.Connections
import Squaero.Mcp.Grants
import Squaero.Mcp.Server
import Squaero.Mongo.Bson
import Squaero.Mongo.CallText
import Squaero.Mongo.ChainText
import Squaero.Mongo.Commands
import Squaero.Mongo.DateText
import Squaero.Mongo.Dml
import Squaero.Mongo.Documents
import Squaero.Mongo.ExtendedJson
import Squaero.Mongo.JsonCheck
import Squaero.Mongo.JsonComplete
import Squaero.Mongo.JsonRelax
import Squaero.Mongo.Pages
import Squaero.Mongo.QueryParse
import Squaero.Mongo.QueryParts
import Squaero.Mongo.ReadGate
import Squaero.Mongo.RelaxStrings
import Squaero.Mongo.ValueFmt
import Squaero.Mongo.WriteBack
import Squaero.Mongo.WrittenCells
