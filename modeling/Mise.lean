import Mise.Async.Basic
import Mise.Async.Pool
import Mise.Gateway.IndexState
import Mise.Gateway.Chain
import Mise.Gateway.Partition
import Mise.Gateway.IndexStore
import Mise.Gateway.Reissue
import Mise.Gateway.Durable
import Mise.Gateway.Crash
import Mise.Js.Table
import Mise.Js.Value
import Mise.Server.Record
import Mise.Server.Store
import Mise.Server.FiniteMap
import Mise.Server.Auth
import Mise.Server.Login
import Mise.Server.History
import Mise.Server.Routes
import Mise.Server.Protocol
import Mise.Server.Serve
import Mise.Server.Ownership
import Mise.Server.Deletion
import Mise.Async.Alone
import Mise.Server.Details
import Mise.Server.Refusal
import Mise.Async.Cached
import Mise.Async.CachedRuns
import Mise.Server.StoreFile
import Mise.Server.Badge
import Mise.Server.DomainHistory
import Mise.Server.StaleLookup
import Mise.Server.Revocation
import Mise.Server.Reliability
import Mise.Server.Retention
import Mise.Server.HistoryOwner
import Mise.Js.JsonText
import Mise.Js.JsonLaws
import Mise.Server.Crypto
import Mise.Server.Attested
import Mise.Server.Import
import Mise.Server.ImportPlan
import Mise.Server.ImportAttested
import Mise.Js.Map
import Mise.Server.Publish
import Mise.Server.Allowlist
import Mise.Server.Idempotent
import Mise.Server.UpdateCycle
import Mise.Server.ImportUnique
import Mise.Update.Bytes
import Mise.Update.Zip
import Mise.Update.Archive
import Mise.Update.SelfUpdate
import Mise.Update.Overlay
import Mise.Update.Rollback
import Mise.Gateway.Shop
import Mise.Gateway.ShopRuns
import Mise.Async.Owned
import Mise.Server.Jobs
import Mise.Server.JobRuns
import Mise.Async.Zoom
import Mise.Server.Publication
import Mise.Server.PublicationRuns
import Mise.Server.Agreement
import Mise.Js.Replace
import Mise.Web.Markdown
import Mise.Web.Rounds
import Mise.Web.Termination
import Mise.Web.Markup
import Mise.Web.Safety
import Mise.Server.Credit
import Mise.Net.Buffer
import Mise.Net.Chunked
import Mise.Net.Replies
import Mise.Net.Cuts
import Mise.Gateway.AddressPool
import Mise.Net.Readers
import Mise.Server.NameRuns
import Mise.Server.UniqueNames
import Mise.Gateway.ShopStore
import Mise.Gateway.ShopAtomic
import Mise.Gateway.ShopStart
import Mise.Gateway.ShopSeed
import Mise.Async.Drive
import Mise.Gateway.FailedNext
import Mise.Gateway.SignedRecord
import Mise.Gateway.VerifiedPool
import Mise.Js.KeyOrder
import Mise.Server.SamePayload
import Mise.Server.BlockText
import Mise.Server.RepairedBlock
import Mise.Net.Pairing
import Mise.Js.Newest
import Mise.Server.ImportHistory
import Mise.System.Unified
import Mise.System.Torrc
import Mise.Server.VersionFix
import Mise.Server.ApplySigned
import Mise.Js.Path
import Mise.Server.RollUps
import Mise.System.Substitute
import Mise.System.UnitFiles
import Mise.System.ExecLine
import Mise.System.Reconcile
import Mise.System.Recover
import Mise.System.Survive
import Mise.System.Apply
import Mise.Server.Dns
import Mise.Server.Versions
import Mise.System.Form
import Mise.Web.DevServer
import Mise.Async.Workers
import Mise.Net.Probe
import Mise.Server.Probing
import Mise.Server.Migrate
import Mise.Server.Removal
import Mise.Server.ProductRuns
import Mise.Server.UpdateChecks
import Mise.Server.VersionMark
