import Shulcrum.BitcoinD.Cache
import Shulcrum.Controller.Reorg
import Shulcrum.Controller.RpaResync
import Shulcrum.Controller.SynchDsps
import Shulcrum.Controller.SynchNotify
import Shulcrum.Controller.SynchResult
import Shulcrum.Header.PoWMask
import Shulcrum.Json.LongNumber
import Shulcrum.Json.RoundTrip
import Shulcrum.Json.StringDecoding
import Shulcrum.Mempool.FeeHistogram
import Shulcrum.Mempool.OrderIndependence
import Shulcrum.Merkle.Branches
import Shulcrum.Rpa.PackedRows
import Shulcrum.Rpc.BatchReplies
import Shulcrum.Rpc.HttpRun
import Shulcrum.Rpc.Throttle
import Shulcrum.Servers.AddressParam
import Shulcrum.Servers.BatchLimits
import Shulcrum.Servers.HeaderRange
import Shulcrum.Servers.SubsCounters
import Shulcrum.Storage.BalanceAgrees
import Shulcrum.Storage.CheckDB
import Shulcrum.Storage.HeaderStore
import Shulcrum.Storage.RpaHistory
import Shulcrum.Storage.ScriptHashStatus
import Shulcrum.Storage.ShunspentKeys
import Shulcrum.Storage.TxHash2TxNumRun
import Shulcrum.Storage.TxoCodec
import Shulcrum.Storage.UndoWindow
import Shulcrum.SubsMgr.Notifications
import Shulcrum.SubsMgr.Orphans
import Shulcrum.SubsMgr.StatusCache
import Shulcrum.ThreadSafeHashTable.Run
import Shulcrum.Util.Hex
import Shulcrum.WebSocket.Canonical
import Shulcrum.WebSocket.Stream
import Shulcrum.Wire.Block
import Shulcrum.Wire.TxId
