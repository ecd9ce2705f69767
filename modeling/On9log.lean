import On9log.Encoder
import On9log.Lib.Lock
import On9log.Stream
import On9log.Strings
import On9log.Args
import On9log.FormatScan
import On9log.Packets
import On9log.Sections
import On9log.Isr
import On9log.Sinks
import On9log.System
import On9log.Delivery
import On9log.Progress
import On9log.PayloadLen
import On9log.Lib.Exec
import On9log.Solo
import On9log.Outcome
import On9log.WireOrder
import On9log.SinkTable
import On9log.DropAccounting
import On9log.DropNotice
import On9log.Sending
import On9log.Lib.Reader
import On9log.ArgLimit
import On9log.BufferChunks
import On9log.Measured
import On9log.LogPacket
import On9log.IsrTask
import On9log.Decode
import On9log.PrecisionReads
import On9log.PrecisionScan
import On9log.BufferPairs
import On9log.Lib.UpdateFirst
import On9log.TagFilter
import On9log.FilterMap
import On9log.TagWriters
import On9log.Lib.Reach
import On9log.TagMachine
import On9log.TagInvariant
import On9log.TagHazard
import On9log.TagReaders
import On9log.TagLookup
import On9log.FrameDecode
import On9log.EspVfs
import On9log.BuildId
import On9log.TextFilter
import On9log.TextLine
import On9log.FormatRoute
import On9log.TextIsr
import On9log.BufferSize
import On9log.VfsConsole
import On9log.TransportGuard
import On9log.TransportRecords
import On9log.TextStamp
import On9log.BufferText
import On9log.FrameCheck
import On9log.IsrBuffer
import On9log.ArgChunks
import On9log.ClearTag
import On9log.FormatBounds
import On9log.CppLogger
import On9log.SlideLine
import On9log.Lib.Layers
import On9log.UnixRefines
import On9log.UnixStream
import On9log.EspIsr
import On9log.EspRing
import On9log.EspQueue
import On9log.EspInit
import On9log.Lib.LockFold
import On9log.Lib.Only
import On9log.TextSystem
import On9log.TextLines
import On9log.TextCalls
import On9log.TextPage
import On9log.TextCookie
import On9log.TextInit
import On9log.TextRuns
import On9log.TextDrops
import On9log.ConsoleFrames
import On9log.ConsoleRefines
import On9log.ConsoleStream
