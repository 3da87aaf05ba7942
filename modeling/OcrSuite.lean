import OcrSuite.Transition
import OcrSuite.Ownership
import OcrSuite.ValueQueue
import OcrSuite.Pipeline
import OcrSuite.PipelineProgress
import OcrSuite.PipelineShutdown
import OcrSuite.Runs
import OcrSuite.Main
import OcrSuite.MainProgress
import OcrSuite.Gathering
import OcrSuite.SpeedMeter
import OcrSuite.QueueCompletion
import OcrSuite.QueueWakeup
import OcrSuite.QueueAtomicity
import OcrSuite.Sequence
import OcrSuite.Script
import OcrSuite.Interning
import OcrSuite.Database
import OcrSuite.DatabaseStore
import OcrSuite.Migration
import OcrSuite.MigrationResume
import OcrSuite.Recogniser
import OcrSuite.Checkpoint
import OcrSuite.Rounding
import OcrSuite.Decoder
import OcrSuite.ClosestFrame
import OcrSuite.CheckpointCache
import OcrSuite.Coverage
import OcrSuite.CompleteRun
import OcrSuite.ConcurrentRuns
import OcrSuite.Snapshots
import OcrSuite.StoreAtomicity
import OcrSuite.Tesseract
import OcrSuite.VisionKit
import OcrSuite.Bitmap
import OcrSuite.ByteFormat
import OcrSuite.BitmapFile
import OcrSuite.FrameLayout
import OcrSuite.Heap
import OcrSuite.VisionKitMemory
import OcrSuite.VisionKitBridge
import OcrSuite.Json
import OcrSuite.ResultsJson
import OcrSuite.Grouping
import OcrSuite.ResultTree
import OcrSuite.Search
import OcrSuite.SearchPass
import OcrSuite.Conservation
import OcrSuite.SearchRows
import OcrSuite.Monitor
import OcrSuite.Pool
import OcrSuite.SearchThreads
import OcrSuite.SearchLifetime
import OcrSuite.Balancing
import OcrSuite.CollectFiles
import OcrSuite.RepeatedCollecting
import OcrSuite.Document
import OcrSuite.Navigation
import OcrSuite.FrameOrder
import OcrSuite.ResultPass
import OcrSuite.Retrieval
import OcrSuite.FramePicture
import OcrSuite.Viewer
import OcrSuite.FrameView
import OcrSuite.Runner
import OcrSuite.SingleInstance
import OcrSuite.PathNames
import OcrSuite.DirectoryTree
import OcrSuite.Pattern
import OcrSuite.FileFilter
import OcrSuite.Execution
import OcrSuite.Passes
import OcrSuite.Substitution
import OcrSuite.CallArguments
import OcrSuite.ProgressLine
import OcrSuite.Executor
import OcrSuite.ProgressParsing
import OcrSuite.LineReader
import OcrSuite.Monitoring
import OcrSuite.TaskOutput
import OcrSuite.Supervision
