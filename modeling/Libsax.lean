import Libsax.Stage.EventQueueRuns
import Libsax.Timer.Placement
import Libsax.Timer.Heap
import Libsax.Timer.ZeroDelay
import Libsax.Net.LinkedBufferCanonical
import Libsax.Net.TransportCloses
import Libsax.Net.TransportSend
import Libsax.Net.TransportStream
import Libsax.Net.ThriftValue
import Libsax.Net2.TaskLink
import Libsax.Memory.BlockPoolRuns
import Libsax.Memory.BlockPoolSize
import Libsax.Memory.Xslab
import Libsax.Memory.SlabRuns
import Libsax.Memory.MixedMap
import Libsax.Container.HashTableInPlace
import Libsax.Container.LruCacheRuns
import Libsax.Container.LinkedListRuns
import Libsax.Sync.SpinRwRuns
import Libsax.Sync.FifoRuns
import Libsax.Logger.LogReconfigured
import Libsax.Logger.LogSerializer
import Libsax.Logger.LogBuf
import Libsax.Logger.LogInteger
import Libsax.Container.ExpiryRuns
import Libsax.Net.BinaryEnsure
import Libsax.Db.HashDbRequests
import Libsax.Db.HashDbInside
import Libsax.Btree.Btreedb
import Libsax.Btree.Range
import Libsax.Btree.Iteration
import Libsax.Btree.Paging
import Libsax.Btree.Edits
import Libsax.Text.StrMatch
import Libsax.Text.StrCopy
import Libsax.Text.FileUrl
import Libsax.Text.Replace
import Libsax.Text.CmdToArgv
import Libsax.Checksum.Adler32
import Libsax.Checksum.Crc32
import Libsax.Checksum.Hash32
import Libsax.Text.Base64RoundTrip
import Libsax.Text.UrlRoundTrip
import Libsax.Sort.ArraySort
import Libsax.Container.BinarySearch
import Libsax.Lib.Numeral
