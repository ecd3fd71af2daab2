import Onprest.Lib.Machine
import Onprest.Lib.Except
import Onprest.Lib.Table
import Onprest.Lib.Base64
import Onprest.Lib.Net
import Onprest.Lib.Groups
import Onprest.Lib.Crash
import Onprest.Lib.Fields
import Onprest.Lib.Json
import Onprest.Lib.JsonSame
import Onprest.Lib.JsonSchema
import Onprest.Lib.Utf8
import Onprest.Lib.Utf8Start
import Onprest.Lib.Ranking
import Onprest.Lib.Replace
import Onprest.Lib.Regexp
import Onprest.Lib.Binary64
import Onprest.Lib.Decimal
import Onprest.Lib.NumberText
import Onprest.Lib.Float64
import Onprest.Lib.JsonText
import Onprest.Lib.JsonParse
import Onprest.Lib.JsonSize
import Onprest.Lib.JsonString
import Onprest.Lib.FloatText
import Onprest.Protocol.Frame
import Onprest.Ws.Transfers
import Onprest.Ws.Scheduler
import Onprest.Ws.Scheduler.Lanes
import Onprest.Ws.Scheduler.Answers
import Onprest.Ws.Scheduler.Turns
import Onprest.Ws.Scheduler.Serving
import Onprest.Ws.Goroutines
import Onprest.Ws.Accounting.Basic
import Onprest.Ws.Accounting.Goroutines
import Onprest.Ws.Accounting.Jobs
import Onprest.Ws.Accounting.Run
import Onprest.Ws.Peers
import Onprest.Ws.Local.View
import Onprest.Ws.Local.Step
import Onprest.Ws.Link.Frames
import Onprest.Ws.Link.Rx
import Onprest.Ws.Link.Tx
import Onprest.Ws.Link.Basic
import Onprest.Ws.Link.Project
import Onprest.Ws.Link.Inv
import Onprest.Ws.Honest
import Onprest.Contract.Error
import Onprest.Contract.Number
import Onprest.Contract.JsonInteger
import Onprest.Contract.Value
import Onprest.Contract.Pattern
import Onprest.Contract.Schema
import Onprest.Contract.Validate
import Onprest.Contract.Reading
import Onprest.Contract.Reread
import Onprest.Contract.Compile
import Onprest.Contract.Compiled
import Onprest.Contract.Settled
import Onprest.Contract.Input
import Onprest.Contract.Position
import Onprest.Contract.Complete
import Onprest.Contract.Compare
import Onprest.Contract.Spelling
import Onprest.Contract.Decode
import Onprest.Contract.JsonStrings
import Onprest.Contract.LimitCheck
import Onprest.Contract.Satisfied
import Onprest.Contract.Binding
import Onprest.Contract.CsvOutput
import Onprest.Contract.PublicSchema
import Onprest.Contract.PublicNode
import Onprest.Contract.PublicInput
import Onprest.Gateway.AgentAuth
import Onprest.Gateway.AgentConn
import Onprest.Gateway.RequestView
import Onprest.Gateway.NotStarted
import Onprest.Gateway.Settled
import Onprest.Gateway.Canceled
import Onprest.Gateway.ClientIP
import Onprest.Gateway.Multipart
import Onprest.Artifacts.Store
import Onprest.Artifacts.Deeds
import Onprest.Artifacts.Tables
import Onprest.Artifacts.Quota
import Onprest.Artifacts.Slots
import Onprest.Artifacts.Committed
import Onprest.Agent.Mutation
import Onprest.Agent.Outcome
import Onprest.Agent.Transaction
import Onprest.Agent.CsvParser
import Onprest.Agent.Redaction
import Onprest.Agent.Redacted
import Onprest.Agent.InputCall
import Onprest.Filesystem.Disk
import Onprest.Filesystem.Write
import Onprest.Filesystem.Publish
import Onprest.Filesystem.Select
import Onprest.Filesystem.Selected
import Onprest.Wasm.Diagnostics
import Onprest.Lib.BigEndian
import Onprest.Ws.Framing
import Onprest.Sql.Syntax
import Onprest.Sql.Bind
import Onprest.Sql.Postgres
import Onprest.Sql.Agreement
import Onprest.Sql.Soundness
