import FlashLog.Support.Machine
import FlashLog.Support.Handoff
import FlashLog.Sinks.DoubleBuffer
import FlashLog.Sinks.Conservation
import FlashLog.Sinks.SingleProducer
import FlashLog.Sinks.FlushCompleteness
import FlashLog.Mmap.MMapAux
import FlashLog.Mmap.MappedFile
import FlashLog.Mmap.Persistence
import FlashLog.Mmap.MemoryBuffer
import FlashLog.Compress.StoredFrames
import FlashLog.Compress.RoundTrip
import FlashLog.Sinks.FileSink
import FlashLog.Sinks.WriteFailure
import FlashLog.Support.Spool
import FlashLog.Sinks.LockedBuffer
import FlashLog.Sinks.CrashDurability
import FlashLog.Decode.ItemLoop
import FlashLog.Sinks.CrashFraming
import FlashLog.Crypto.AESCrypto
import FlashLog.Sinks.Lifetimes
import FlashLog.Sinks.ChunkKeys
import FlashLog.Scheduler.ThreadPool
import FlashLog.Sinks.FreeFlag
import FlashLog.Sinks.RecoveryOrder
import FlashLog.Scheduler.Workers
import FlashLog.Scheduler.NoLostTask
import FlashLog.Scheduler.Shutdown
import FlashLog.Scheduler.Strand
import FlashLog.Scheduler.TaskExecutor
import FlashLog.Support.Monitor
import FlashLog.Support.Strand
import FlashLog.Sinks.CompressSink
import FlashLog.Mmap.MappedBytes
import FlashLog.Sinks.MMapCallers
import FlashLog.Decode.DecodeFile
import FlashLog.Decode.DecodeSafety
import FlashLog.Sinks.ItemStream
import FlashLog.Sinks.SelfContained
import FlashLog.Decode.WrittenFile
import FlashLog.Sinks.LogFiles
import FlashLog.Sinks.AtomicCalls
import FlashLog.Sinks.FiledOutputs
import FlashLog.Decode.WriterRuns
import FlashLog.Scheduler.Timer
import FlashLog.Scheduler.TimerQueue
import FlashLog.Scheduler.TimerStop
import FlashLog.Scheduler.TimerTasks
import FlashLog.Sinks.Destruction
import FlashLog.Sinks.KeyReuse
import FlashLog.Sinks.CryptoSink
import FlashLog.Sinks.EliminateFiles
import FlashLog.Sinks.Rotation
import FlashLog.Sinks.SparedFiles
import FlashLog.Sinks.RotationBound
import FlashLog.Decode.Layout
import FlashLog.Decode.DecodeReports
import FlashLog.Compress.NumberedFrames
import FlashLog.Compress.MatchFrames
import FlashLog.Sinks.CallSequence
import FlashLog.Sinks.DroppedLog
import FlashLog.Sinks.NumberedLog
import FlashLog.Sinks.MatchedLog
import FlashLog.Decode.DroppedMessages
import FlashLog.Sinks.CallRefinement
import FlashLog.Decode.ChunkGrammar
import FlashLog.Decode.OutputFile
import FlashLog.Mmap.BufferHistory
import FlashLog.Mmap.SizeT
import FlashLog.Mmap.OpenedBounds
import FlashLog.Mmap.FailedMapping
import FlashLog.Sinks.BufferSizes
import FlashLog.Sinks.BufferItems
import FlashLog.Scheduler.PoolProgress
import FlashLog.Scheduler.ThrowingTasks
import FlashLog.Scheduler.TimerPositions
import FlashLog.Scheduler.RepeatedRuns
import FlashLog.Scheduler.Cancellation
import FlashLog.Scheduler.RepeatedCall
import FlashLog.Mmap.BufferGrowth
import FlashLog.Scheduler.ExecutorTags
import FlashLog.Sinks.HeaderBytes
import FlashLog.Decode.Formatter
import FlashLog.Compress.StoredZlib
import FlashLog.Compress.ZlibLoops
import FlashLog.Scheduler.LiveChains
import FlashLog.Support.Wire
import FlashLog.Handler.LogHandle
import FlashLog.Formatter.EffectiveFormatter
import FlashLog.Formatter.WireFormat
import FlashLog.Sinks.StreamedOutputs
import FlashLog.Decode.PrintedText
import FlashLog.Handler.EffectiveLogger
import FlashLog.Decode.LoggedMessages
import FlashLog.Scheduler.Futures
import FlashLog.Sinks.PooledSink
import FlashLog.Sinks.PooledLinks
import FlashLog.Sinks.PooledRefinement
import FlashLog.Sinks.PooledProgress
import FlashLog.Support.Below
import FlashLog.Decode.GrownFile
import FlashLog.Support.Shuffle
import FlashLog.Sinks.LockedCalls
import FlashLog.Handler.SharedHandle
import FlashLog.Handler.SharedRuns
import FlashLog.Handler.SharedLevels
import FlashLog.Handler.SharedFlush
import FlashLog.Support.Potential
import FlashLog.Handler.SharedProgress
import FlashLog.Compress.StoredStream
import FlashLog.Compress.ZlibRoundTrip
import FlashLog.Sinks.PooledGuards
import FlashLog.Support.Delimited
import FlashLog.Formatter.DefaultFormatter
import FlashLog.Sinks.MMapLifetimes
