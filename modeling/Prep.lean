import Prep.Text.Bytes
import Prep.Text.Utf8
import Prep.Text.Radix
import Prep.Text.Framing
import Prep.Text.Str
import Prep.Text.Lossy
import Prep.Text.Display
import Prep.Text.Lines
import Prep.Data.Keyed
import Prep.Data.SortedMap
import Prep.Data.Traverse
import Prep.Data.Split
import Prep.Data.Except
import Prep.Data.Effect
import Prep.Data.Search
import Prep.Serde.Tree
import Prep.Serde.Codec
import Prep.Serde.Record
import Prep.Serde.Compact
import Prep.Serde.Bounded
import Prep.Serde.Json
import Prep.Serde.Toml
import Prep.Protocol.Frames
import Prep.Protocol.Results
import Prep.Protocol.Wire
import Prep.Io.Reader
import Prep.Io.Lines
import Prep.Io.Writer
import Prep.Fs.Tree
import Prep.Fs.Resolve
import Prep.Fs.FileSystem
import Prep.Fs.Update
import Prep.Fs.Directory
import Prep.Fs.Removal
import Prep.Fs.RealPath
import Prep.Machine.Program
import Prep.Machine.Guard
import Prep.Machine.Hoare
import Prep.Machine.Alone
import Prep.Machine.Phases
import Prep.Machine.Interrupt
import Prep.Machine.Trace
import Prep.Machine.Embed
import Prep.Machine.Waiting
import Prep.Manifest.Types
import Prep.Manifest.Model
import Prep.Manifest.Reorder
import Prep.Manifest.Match
import Prep.Manifest.Codecs
import Prep.Manifest.Canonical
import Prep.Core.ResultId
import Prep.Core.Sha256
import Prep.Core.Identity
import Prep.Core.IdentityEncoding
import Prep.Core.SameBuild
import Prep.Core.Source
import Prep.Core.ArchivePolicy
import Prep.Core.ArchiveInventory
import Prep.Core.ArchiveTar
import Prep.Core.UstarGrammar
import Prep.Core.UstarWalk
import Prep.Core.VerifiedUstar
import Prep.Core.UstarExact
import Prep.Core.UstarEncoding
import Prep.Core.UstarSnapshot
import Prep.Core.ArchiveBytes
import Prep.Core.UstarArrival
import Prep.Core.ArchiveAdmission
import Prep.Core.GitTree
import Prep.Core.GitTreeAncestors
import Prep.Core.GitRef
import Prep.Core.GitCommand
import Prep.Core.SourceExtract
import Prep.Core.ExtractSteps
import Prep.Core.ExtractExact
import Prep.Core.Graph
import Prep.Core.LockCover
import Prep.Store.Error
import Prep.Store.ResultId
import Prep.Store.OutputTree
import Prep.Store.Containment
import Prep.Store.World
import Prep.Store.Calls
import Prep.Store.Operations
import Prep.Store.Contract
import Prep.Store.Effects
import Prep.Store.Discipline
import Prep.Store.Rules
import Prep.Store.CallRules
import Prep.Store.OpRules
import Prep.Store.BeginRules
import Prep.Store.CheckRules
import Prep.Store.DropRules
import Prep.Store.CommitRules
import Prep.Store.RecoveryRules
import Prep.Store.Runs
import Prep.Store.Pairing
import Prep.Store.Recovered
import Prep.Store.CallKinds
import Prep.Store.Asked
import Prep.Store.Locking
import Prep.Store.PublishedContents
import Prep.Store.ResultMap
import Prep.Store.WholeResults
import Prep.Store.Activation
import Prep.Store.Environment
import Prep.Store.SourceFiles
import Prep.Store.SourceStages
import Prep.Store.SourceSteps
import Prep.Store.SourceCache
import Prep.Store.SourceSpool
import Prep.Store.SourceOrder
import Prep.Store.SourceCrash
import Prep.Core.SourceLoad
import Prep.Core.StagedTree
import Prep.Core.Plugin.Types
import Prep.Core.Plugin.Diagnostics
import Prep.Core.Plugin.Lines
import Prep.Core.Plugin.Framing
import Prep.Core.Plugin.Host
import Prep.Core.Plugin.Probe
import Prep.Core.Plugin.Traces
import Prep.Core.Plugin.Panics
import Prep.Core.Plugin.Success
import Prep.Core.Plugin.FailClosed
import Prep.Core.Plugin.Waiting
import Prep.Core.GitRun
import Prep.Core.GitCaptured
import Prep.Core.GitWaiting
import Prep.Core.Plugin.Trailing
import Prep.Core.Plugin.HostPlanning
import Prep.Core.Plugin.Input
