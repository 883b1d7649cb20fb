import InfinityDB.Ordered.HeightLimit
import InfinityDB.Ordered.Custody
import InfinityDB.Ordered.Headroom
import InfinityDB.Index.Prune
import InfinityDB.Index.KeyCodec
import InfinityDB.Path.Readers
import InfinityDB.Path.Slice
import InfinityDB.Doc.Delta
import InfinityDB.Doc.Digits
import InfinityDB.Doc.Output
import InfinityDB.Table.Alias
import InfinityDB.Store.Map
import InfinityDB.Store.Scan
import InfinityDB.Log.Manifest
import InfinityDB.Log.TornTail
import InfinityDB.Recover.OneLife
import InfinityDB.Tiered.Recheck
import InfinityDB.Replay.Crash
import InfinityDB.Query.AccessCodec
import InfinityDB.Query.Paging
import InfinityDB.Fabric.Protocol
import InfinityDB.Fabric.Fairness
import InfinityDB.Space.Safety
import InfinityDB.Server.Glob
