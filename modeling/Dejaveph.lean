import Dejaveph.Lib.Table
import Dejaveph.Lib.Run
import Dejaveph.Lib.Pieces
import Dejaveph.Lib.Text
import Dejaveph.Lib.Cells
import Dejaveph.XetCore
import Dejaveph.PlainCore
import Dejaveph.Server.State
import Dejaveph.Server.Blob
import Dejaveph.Server.Handlers
import Dejaveph.Server.System
import Dejaveph.Server.Steps
import Dejaveph.Server.Alone
import Dejaveph.Agent.Ingest
import Dejaveph.Agent.Progress
import Dejaveph.Agent.Reconstruct
import Dejaveph.Mount.Xetfs
import Dejaveph.Mount.Tree
import Dejaveph.Mount.Steps
import Dejaveph.Mount.Posix
import Dejaveph.Mount.Shelf
import Dejaveph.Proofs.DedupSound
import Dejaveph.Proofs.Unpoisoned
import Dejaveph.Proofs.StoredOffsets
import Dejaveph.Proofs.UsableUploads
import Dejaveph.Proofs.References
import Dejaveph.Proofs.PanicFree
import Dejaveph.Proofs.ScrubExact
import Dejaveph.Proofs.ServedRanges
import Dejaveph.Proofs.RegisteredTerms
import Dejaveph.Proofs.StoredXorbs
import Dejaveph.Proofs.RoundTrip
import Dejaveph.Proofs.MountRefines
import Dejaveph.Proofs.FlushKept
import Dejaveph.Proofs.DedupComplete
import Dejaveph.Proofs.GcExact
import Dejaveph.Proofs.CatalogLast
import Dejaveph.Mount.Paths
import Dejaveph.Mount.Connect
import Dejaveph.Proofs.LookupAgrees
import Dejaveph.Agent.Alone
import Dejaveph.Proofs.FailedIngest
import Dejaveph.Mount.Served
import Dejaveph.Proofs.WriteBack
import Dejaveph.Proofs.KnownContent
import Dejaveph.Server.Http
import Dejaveph.Proofs.Scopes
import Dejaveph.Mount.Apart
import Dejaveph.Mount.Inodes
import Dejaveph.Proofs.InodeTree
import Dejaveph.Proofs.ReaddirPages
import Dejaveph.Proofs.ClosedSaved
import Dejaveph.Proofs.PutOnce
import Dejaveph.Server.Calls
import Dejaveph.Proofs.FileSteps
import Dejaveph.Proofs.TermWalk
import Dejaveph.Proofs.RangeGrammar
import Dejaveph.Proofs.SizeReadable
import Dejaveph.Proofs.DistinctChunks
import Dejaveph.Proofs.Layout
import Dejaveph.Proofs.AtRest
import Dejaveph.Proofs.IngestSucceeds
import Dejaveph.Mount.Folder
import Dejaveph.Mount.Site
import Dejaveph.Agent.Reader
import Dejaveph.Proofs.ConcurrentReads
import Dejaveph.Server.S3
import Dejaveph.Agent.Presigned
import Dejaveph.Proofs.PresignedReads
import Dejaveph.Proofs.Collections
import Dejaveph.Proofs.StoredOnce
import Dejaveph.Proofs.RacingUploads
import Dejaveph.Proofs.Restarts
import Dejaveph.Proofs.FolderView
import Dejaveph.Proofs.QuietServer
import Dejaveph.Proofs.SiteRefines
