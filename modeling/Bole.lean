import Bole.Acl.Accessor
import Bole.Acl.Bounded
import Bole.Acl.Disk
import Bole.Acl.Explain
import Bole.Acl.Files
import Bole.Acl.Glob
import Bole.Acl.Labels
import Bole.Acl.Lattice
import Bole.Acl.Rules
import Bole.Acl.TwoPoint
import Bole.Basic
import Bole.Cli.Overlays
import Bole.Cli.Prune
import Bole.Cli.Recipients
import Bole.Cli.Rekey
import Bole.Cli.Secrets
import Bole.Cli.Workspace
import Bole.Cli.Worktrees
import Bole.Collab.Discovery
import Bole.Collab.Follow
import Bole.Collab.MultiRelay
import Bole.Collab.Search
import Bole.Collab.Shuffle
import Bole.Collab.Trust
import Bole.Crypto.Envelope
import Bole.Crypto.KeyProvider
import Bole.Crypto.Secret
import Bole.Lib.BinarySearch
import Bole.Lib.Breadth
import Bole.Lib.Bytes
import Bole.Lib.Collect
import Bole.Lib.Command
import Bole.Lib.Delimited
import Bole.Lib.Failure
import Bole.Lib.FileTree
import Bole.Lib.Glob
import Bole.Lib.Interleave
import Bole.Lib.Leb128
import Bole.Lib.Linear
import Bole.Lib.Listing
import Bole.Lib.Meet
import Bole.Lib.Mutex
import Bole.Lib.Posix
import Bole.Lib.PostOrder
import Bole.Lib.Run
import Bole.Lib.Search
import Bole.Lib.Stream
import Bole.Lib.Talk
import Bole.Lib.Traverse
import Bole.Lib.Utf8
import Bole.Lib.Words
import Bole.Object
import Bole.Postcard
import Bole.Reference
import Bole.Refs.Atomicity
import Bole.Refs.Basic
import Bole.Refs.Crash
import Bole.Refs.Disk
import Bole.Refs.Linear
import Bole.Refs.Paths
import Bole.Refs.Recovery
import Bole.Refs.Refine
import Bole.Refs.Store
import Bole.Repo.Access
import Bole.Repo.Advance
import Bole.Repo.Approval
import Bole.Repo.Audited
import Bole.Repo.Authority
import Bole.Repo.Basic
import Bole.Repo.Checkout
import Bole.Repo.CleanMerge
import Bole.Repo.Collab
import Bole.Repo.CollabSystem
import Bole.Repo.Confinement
import Bole.Repo.Copy
import Bole.Repo.DiskWorkspace
import Bole.Repo.Ephemeral
import Bole.Repo.Gc
import Bole.Repo.GitExport
import Bole.Repo.GitImport
import Bole.Repo.GitProjection
import Bole.Repo.GitRoundTrip
import Bole.Repo.GitText
import Bole.Repo.GitTree
import Bole.Repo.Graph
import Bole.Repo.Health
import Bole.Repo.History
import Bole.Repo.ImportSystem
import Bole.Repo.ImportTrees
import Bole.Repo.Materialize
import Bole.Repo.Merge
import Bole.Repo.MergeBase
import Bole.Repo.MergeSystem
import Bole.Repo.Nested
import Bole.Repo.Policy
import Bole.Repo.Proposal
import Bole.Repo.Protection
import Bole.Repo.Publish
import Bole.Repo.RefNames
import Bole.Repo.ThreeWay
import Bole.Repo.TreeRoundTrip
import Bole.Repo.Walk
import Bole.Repo.WorkspaceView
import Bole.Repo.Workspaces
import Bole.Store.FrameSafety
import Bole.Store.Grace
import Bole.Store.Integrity
import Bole.Store.Listing
import Bole.Store.ObjectStore
import Bole.Store.Pack
import Bole.Store.PackIndex
import Bole.Store.PackLookup
import Bole.Store.PackSafety
import Bole.Store.Packed
import Bole.Store.Preservation
import Bole.Store.Sweep
import Bole.Store.Varint
import Bole.Sync.Agreement
import Bole.Sync.Batch
import Bole.Sync.Boards
import Bole.Sync.Collab
import Bole.Sync.CollabPulls
import Bole.Sync.Fetch
import Bole.Sync.Framing
import Bole.Sync.Hub
import Bole.Sync.InProcess
import Bole.Sync.Negotiate
import Bole.Sync.Push
import Bole.Sync.PushSession
import Bole.Sync.PushSystem
import Bole.Sync.Receive
import Bole.Sync.Registries
import Bole.Sync.RelaySearch
import Bole.Sync.Served
import Bole.Sync.Serving
import Bole.Sync.Session
import Bole.Sync.Signatures
