import Dbx1000.Lib.Lts
import Dbx1000.Lib.Scan
import Dbx1000.Lib.DList
import Dbx1000.Lib.Sim
import Dbx1000.Lib.Bytes
import Dbx1000.Lib.Serial
import Dbx1000.Lib.Loop
import Dbx1000.Lib.IStream
import Dbx1000.Global
import Dbx1000.RowMvcc
import Dbx1000.RowCases
import Dbx1000.RowCore
import Dbx1000.RowOps
import Dbx1000.RowBuffer
import Dbx1000.RowLocal
import Dbx1000.RowQueue
import Dbx1000.RowReload
import Dbx1000.RowRun
import Dbx1000.RowInv
import Dbx1000.RowVersions
import Dbx1000.RowReaders
import Dbx1000.RowBytes
import Dbx1000.Txn
import Dbx1000.TxnTrace
import Dbx1000.TxnSerial
import Dbx1000.Ycsb
import Dbx1000.YcsbSim
import Dbx1000.YcsbQuery
import Dbx1000.AbortBuffer
import Dbx1000.NewOrder
import Dbx1000.TpccKeys
import Dbx1000.OccRow
import Dbx1000.OccRowInv
import Dbx1000.OccCentral
import Dbx1000.OccCentralInv
import Dbx1000.MinTs
import Dbx1000.LockTable
import Dbx1000.RwLock
import Dbx1000.PageLock
import Dbx1000.LockRemote
import Dbx1000.PageOwner
import Dbx1000.PagePin
import Dbx1000.Fetch
import Dbx1000.PageAccess
import Dbx1000.Page
import Dbx1000.PageWriters
import Dbx1000.Migration
import Dbx1000.Index
import Dbx1000.IndexFile
import Dbx1000.Schema
import Dbx1000.SchemaFile
import Dbx1000.FieldLookup
import Dbx1000.TableSpace
import Dbx1000.Loader
import Dbx1000.SharedDisk
import Dbx1000.FileStore
import Dbx1000.Lru
import Dbx1000.Buffer
import Dbx1000.BufferInv
import Dbx1000.BufferMap
import Dbx1000.BufferPar
import Dbx1000.BufferCalls
import Dbx1000.BufferCount
import Dbx1000.LruQueue
import Dbx1000.BufferLists
import Dbx1000.WriteBack
import Dbx1000.Cluster
import Dbx1000.ClusterInv
import Dbx1000.ClusterTxn
import Dbx1000.Stamp
import Dbx1000.Lib.Region
import Dbx1000.Arena
import Dbx1000.QueryQueue
import Dbx1000.Startup
import Dbx1000.Lib.Progress
import Dbx1000.TxnProgress
import Dbx1000.RowHandler
import Dbx1000.Instance
import Dbx1000.GenDb
import Dbx1000.GenDbPar
import Dbx1000.PageRun
import Dbx1000.PageProgress
