import Clab.Lib.Codec
import Clab.Lib.EventLog
import Clab.Lib.HandOut
import Clab.Lib.Tiling
import Clab.Lib.RangeSet
import Clab.Lib.WordBits
import Clab.Common.Crc32
import Clab.Common.IntArith
import Clab.Blk.Allocator
import Clab.Blk.BitmapAllocator
import Clab.Blk.BitmapLevels
import Clab.Blk.BitmapSafety
import Clab.Blk.BitmapRuns
import Clab.Blk.BlockDevice
import Clab.Btier.Types
import Clab.Btier.KeyMap
import Clab.Btier.JournalRecord
import Clab.Btier.Journal
import Clab.Btier.JournalRing
import Clab.Btier.JournalReplay
import Clab.Btier.ExtentMap
import Clab.Btier.FreeLists
import Clab.Btier.Engine
import Clab.Btier.Recovery
import Clab.Btier.LiveBytes
import Clab.Btier.Slots
import Clab.Btier.SlotRuns
import Clab.Btier.Reopen
import Clab.Btier.MigrationEngine
import Clab.Btier.Relocation
import Clab.Btier.TierMigration
import Clab.Btier.Compaction
import Clab.Btier.RecoveredSpace
import Clab.Blk.AvlAllocator
import Clab.Blk.AvlRefinement
import Clab.Bluestore.BitmapFreelistManager
import Clab.Bluestore.FreelistBits
import Clab.Bluestore.FreelistUpdate
import Clab.Bluestore.FreelistRuns
import Clab.Bluestore.FreelistEnumeration
import Clab.Btier.StoredValues
import Clab.Lib.OrderedMap
import Clab.Kv.KeyValueDB
import Clab.Kv.MemDB
import Clab.Kv.RocksDBStore
import Clab.Btier.MetricsWord
import Clab.Btier.MigrationProtocol
import Clab.Bluefs.Namespace
import Clab.Bluefs.NameRuns
import Clab.Bluefs.FileIo
import Clab.Bluefs.Encoding
import Clab.Bluefs.LogFlush
import Clab.Bluefs.Bookkeeping
import Clab.Bluefs.LogProtocol
import Clab.Bluefs.LogSafety
import Clab.Bluefs.SpaceLedger
import Clab.Bluefs.SpaceRuns
import Clab.Lib.Segments
import Clab.Bluefs.FileData
import Clab.Bluefs.AppendRead
import Clab.Blk.BitmapStats
import Clab.Blk.AvlCompleteness
import Clab.Blk.BitmapClaim
import Clab.Blk.BitmapCoherence
import Clab.Blk.HybridAllocator
import Clab.Blk.HybridAgreement
import Clab.Blk.BitmapSweep
import Clab.Blk.BitmapScan
import Clab.Blk.BitmapBounds
import Clab.Blk.BitmapDrain
import Clab.Kv.PrefixIterator
import Clab.Blk.IntervalSet
import Clab.Bluefs.FnodeIndex
import Clab.Bluefs.FnodeDelta
import Clab.Bluefs.RangeFlush
import Clab.Bluefs.Truncation
import Clab.Bluefs.SequentialRead
import Clab.Bluefs.Mounting
import Clab.Bluefs.Sections
import Clab.Bluefs.SharedRuns
import Clab.Bluefs.RocksDBVolumeSelector
import Clab.Bluefs.Replay
import Clab.Bluefs.VolumeUsage
import Clab.Bluefs.UsageCalls
import Clab.Bluefs.UsageRuns
import Clab.Btier.MapCalls
import Clab.Btier.FreeListRuns
import Clab.Btier.DeferredFree
import Clab.Btier.JournalScan
import Clab.Bluefs.LevelSimulation
import Clab.Bluefs.Overwrite
import Clab.Bluefs.WritableFile
import Clab.Blk.ShortTransfers
import Clab.Common.BufferList
import Clab.Common.CrcAlgebra
import Clab.Common.CrcCache
import Clab.Common.CrcRuns
import Clab.Common.Denc
import Clab.Common.DencLaws
import Clab.Common.DencReading
import Clab.Bluefs.Visitors
import Clab.Btier.RecordLists
import Clab.Blk.BitmapMarks
import Clab.Common.Armor
import Clab.Common.ArmorRoundTrip
import Clab.Common.BufferCompare
import Clab.Common.Varint
import Clab.Common.VarintRoundTrip
import Clab.Common.AtomicReplace
import Clab.Common.TableBounds
import Clab.Btier.ConfigParser
import Clab.Btier.ConfigRoundTrip
import Clab.Common.DencBounds
import Clab.Common.JsonDenotes
import Clab.Btier.JournalRoom
import Clab.Btier.MapRuns
import Clab.Blk.AioAccounting
import Clab.Blk.FlushProtocol
import Clab.Common.BufferBytes
import Clab.Common.BufferRanges
import Clab.Common.BufferRefinement
import Clab.Bluefs.JournalCalls
import Clab.Bluefs.JournalData
import Clab.Bluefs.JournalFlush
import Clab.Bluefs.JournalRuns
import Clab.Bluefs.LogReading
import Clab.Bluefs.DeviceMount
import Clab.Bluefs.SpaceSessions
