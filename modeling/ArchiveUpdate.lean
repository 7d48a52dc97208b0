import ArchiveUpdate.Addition
import ArchiveUpdate.Archive
import ArchiveUpdate.Content
import ArchiveUpdate.Deletions
import ArchiveUpdate.DiskPath
import ArchiveUpdate.DiskPath.Derive
import ArchiveUpdate.Error
import ArchiveUpdate.FileSystem.Access
import ArchiveUpdate.FileSystem.Change
import ArchiveUpdate.FileSystem.Tree
import ArchiveUpdate.FileSystem.Walk
import ArchiveUpdate.Gather
import ArchiveUpdate.Host
import ArchiveUpdate.Index
import ArchiveUpdate.Item
import ArchiveUpdate.Item.Disk
import ArchiveUpdate.ItemPath
import ArchiveUpdate.Layout
import ArchiveUpdate.Listing
import ArchiveUpdate.Options
import ArchiveUpdate.Progress
import ArchiveUpdate.Property
import ArchiveUpdate.Run.Engine
import ArchiveUpdate.Run.Failure
import ArchiveUpdate.Run.Request
import ArchiveUpdate.Run.Session
import ArchiveUpdate.Text.Segments
import ArchiveUpdate.Text.Utf8
import ArchiveUpdate.Timestamp
import ArchiveUpdate.Updater
import ArchiveUpdate.Wildcard
import ArchiveUpdate.Progress.Recording
import ArchiveUpdate.Proofs.OutputNumbering
import ArchiveUpdate.Proofs.RunCourse
import ArchiveUpdate.Proofs.ServedItems
import ArchiveUpdate.Proofs.RunWindow
import ArchiveUpdate.Proofs.Marking
import ArchiveUpdate.Proofs.Calls
import ArchiveUpdate.Proofs.OwnData
import ArchiveUpdate.Proofs.FinishedArchive
import ArchiveUpdate.Proofs.Renaming
import ArchiveUpdate.Proofs.RunHistory
import ArchiveUpdate.Proofs.DataRequests
import ArchiveUpdate.Proofs.Cancellation
import ArchiveUpdate.Proofs.FailedSources
import ArchiveUpdate.Proofs.ChangeOutcome
import ArchiveUpdate.Proofs.ReadContents
import ArchiveUpdate.Proofs.SourceFrames
import ArchiveUpdate.Proofs.Deliveries
import ArchiveUpdate.Proofs.RequestOrder
import ArchiveUpdate.Proofs.EngineRuns
import ArchiveUpdate.Proofs.ItemCounts
import ArchiveUpdate.Proofs.Overwriting
import ArchiveUpdate.Proofs.PositionAnswers
import ArchiveUpdate.Proofs.Collecting
import ArchiveUpdate.Proofs.WalkedEntries
import ArchiveUpdate.Proofs.EntryPaths
import ArchiveUpdate.Proofs.DirectoryListing
import ArchiveUpdate.Proofs.RunLedger
import ArchiveUpdate.Proofs.StatisticsView
import ArchiveUpdate.Proofs.RunResult
import ArchiveUpdate.Proofs.LossyText
import ArchiveUpdate.Proofs.IndexedSources
import ArchiveUpdate.Proofs.StreamSizes
import ArchiveUpdate.Proofs.RecursiveDeletion
import ArchiveUpdate.Proofs.RefusedRequests
import ArchiveUpdate.Proofs.StableAnswers
import ArchiveUpdate.Proofs.WalkedPlaces
import ArchiveUpdate.Proofs.PathsFromNames
import ArchiveUpdate.Proofs.FilteredListing
import ArchiveUpdate.Proofs.DeletionByPath
import ArchiveUpdate.Proofs.DeletionOrder
import ArchiveUpdate.Proofs.TickRounding
import ArchiveUpdate.Proofs.DerivedPaths
import ArchiveUpdate.Proofs.SingleFile
import ArchiveUpdate.Proofs.OneMoreMark
import ArchiveUpdate.Proofs.PathGrammar
import ArchiveUpdate.Proofs.JoiningPaths
import ArchiveUpdate.Proofs.TickArithmetic
import ArchiveUpdate.Proofs.TextsOnDisk
import ArchiveUpdate.Proofs.PathDetours
import ArchiveUpdate.Proofs.LentStreams
import ArchiveUpdate.Proofs.MarkingHistory
import ArchiveUpdate.Proofs.Rerooting
