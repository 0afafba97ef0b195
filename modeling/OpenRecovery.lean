import OpenRecovery.ApplyPatch.SinkSpec
import OpenRecovery.ApplyPatch.FileCall
import OpenRecovery.ApplyPatch.FreeSpace
import OpenRecovery.ApplyPatch.CrashSafety
import OpenRecovery.ApplyPatch.PartitionCall
import OpenRecovery.ApplyPatch.Soundness
import OpenRecovery.ImgDiff.BsDiff
import OpenRecovery.ImgDiff.BsDiffSpec
import OpenRecovery.ImgDiff.BsRoundTrip
import OpenRecovery.ImgDiff.ImageChunk
import OpenRecovery.ImgDiff.RecordSpec
import OpenRecovery.ImgDiff.Tiling
import OpenRecovery.ImgDiff.ImageMode
import OpenRecovery.ImgDiff.Consecutive
import OpenRecovery.ImgDiff.MergeInPlace
import OpenRecovery.ImgDiff.Pairing
import OpenRecovery.ImgDiff.ZipMode
import OpenRecovery.Crash.Trace
import OpenRecovery.Edify.Function
import OpenRecovery.Updater.Install
import OpenRecovery.Updater.Script
import OpenRecovery.Updater.Abort
import OpenRecovery.Updater.Message
import OpenRecovery.Updater.DigestStrings
import OpenRecovery.Updater.PatchValues
import OpenRecovery.Retouch.MaskLaws
import OpenRecovery.Retouch.LibrarySpec
import OpenRecovery.Retouch.Uniform
import OpenRecovery.Minzip.Hash
import OpenRecovery.Minzip.HashSpec
import OpenRecovery.Minzip.HashMap
import OpenRecovery.Recovery.CommandPipe
import OpenRecovery.Interactive.Requests
import OpenRecovery.ApplyPatch.PatchAccess
import OpenRecovery.Recovery.Sideload
import OpenRecovery.ApplyPatch.AccessSpec
import OpenRecovery.Minzip.Extract
import OpenRecovery.Minzip.ExtractSpec
import OpenRecovery.Ui.Console
import OpenRecovery.Ui.InBuffers
import OpenRecovery.Ui.Chunks
import OpenRecovery.ApplyPatch.LoopsSpec
import OpenRecovery.ApplyPatch.PatchReports
import OpenRecovery.ApplyPatch.SourceKept
import OpenRecovery.ApplyPatch.PartitionLoad
import OpenRecovery.ApplyPatch.Check
import OpenRecovery.ApplyPatch.FreeCache
import OpenRecovery.ImgDiff.ReadImage
import OpenRecovery.ImgDiff.ReadZip
import OpenRecovery.Retouch.MaskFrame
import OpenRecovery.Retouch.LibraryCrash
import OpenRecovery.Edify.Lexer
import OpenRecovery.Edify.Parser
import OpenRecovery.Edify.Grammar
import OpenRecovery.Edify.Lexemes
import OpenRecovery.Edify.Spans
import OpenRecovery.Edify.Printer
import OpenRecovery.Updater.Arity
import OpenRecovery.Storage.Pointer
import OpenRecovery.Updater.PropFile
import OpenRecovery.Minzip.Archive
import OpenRecovery.Minzip.Sorting
import OpenRecovery.Minzip.Lookup
import OpenRecovery.Minzip.Directory
import OpenRecovery.Minzip.Untrusted
import OpenRecovery.Minzip.ExtractDir
import OpenRecovery.Minzip.ExtractDirSpec
import OpenRecovery.Minzip.Streaming
import OpenRecovery.Minzip.DirUtil
import OpenRecovery.Minzip.CreateHierarchy
import OpenRecovery.Minzip.UnlinkHierarchy
import OpenRecovery.Ui.CursorShown
import OpenRecovery.Ui.Graphics
import OpenRecovery.Ui.Terminal
import OpenRecovery.Storage.LastLines
import OpenRecovery.Storage.LastWriter
import OpenRecovery.Ui.Overlay
import OpenRecovery.Ui.Log
import OpenRecovery.Ui.MenuShown
import OpenRecovery.Recovery.BootArgs
import OpenRecovery.Recovery.Resume
import OpenRecovery.Recovery.ArgsKept
import OpenRecovery.Storage.BoundedQueue
import OpenRecovery.Ui.KeyQueue
import OpenRecovery.Recovery.MenuSelection
import OpenRecovery.Recovery.ScreenTimer
import OpenRecovery.Recovery.SelectableItems
import OpenRecovery.Recovery.CopyLog
import OpenRecovery.Recovery.CreateMenu
import OpenRecovery.Recovery.MenuLines
import OpenRecovery.Recovery.PromptAndWait
import OpenRecovery.Recovery.MenuStack
import OpenRecovery.Recovery.Browser
import OpenRecovery.Recovery.BrowserSpec
import OpenRecovery.Storage.Words
import OpenRecovery.Recovery.Mounts
import OpenRecovery.Recovery.MountsSpec
import OpenRecovery.Ui.Properties
import OpenRecovery.Ui.PropertyLines
import OpenRecovery.Ui.PropertiesSpec
import OpenRecovery.ApplyPatch.Command
import OpenRecovery.Updater.UpdateScript
import OpenRecovery.ImgDiff.BucketSpec
import OpenRecovery.ImgDiff.ImageFiles
import OpenRecovery.ImgDiff.LongestMatch
import OpenRecovery.ImgDiff.SelfDiff
import OpenRecovery.Sideloader.FdEvent
import OpenRecovery.Sideloader.Packet
import OpenRecovery.Sideloader.SideloadService
