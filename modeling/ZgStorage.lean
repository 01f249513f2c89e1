import ZgStorage.Framework.Except
import ZgStorage.Framework.Layers
import ZgStorage.Framework.Keccak
import ZgStorage.Framework.Runs
import ZgStorage.Framework.SortedMap
import ZgStorage.Framework.Windows
import ZgStorage.Framework.EnumerableSet
import ZgStorage.Framework.Pow2
import ZgStorage.Framework.SplitTree
import ZgStorage.Framework.PriorityQueue
import ZgStorage.Framework.WhileLoop
import ZgStorage.Framework.AListKeys
import ZgStorage.Framework.LinkedMap
import ZgStorage.Ssz.Basic
import ZgStorage.AppendMerkle.NodeManager
import ZgStorage.AppendMerkle.Hash
import ZgStorage.AppendMerkle.Proof
import ZgStorage.AppendMerkle.Tree
import ZgStorage.AppendMerkle.Recompute
import ZgStorage.AppendMerkle.Append
import ZgStorage.AppendMerkle.Completeness
import ZgStorage.AppendMerkle.History
import ZgStorage.AppendMerkle.Soundness
import ZgStorage.AppendMerkle.Revert
import ZgStorage.AppendMerkle.Growth
import ZgStorage.LogStore.Flow
import ZgStorage.LogStore.FlowStore
import ZgStorage.LogStore.TxStore
import ZgStorage.LogStore.LogManager
import ZgStorage.LogStore.CopyTx
import ZgStorage.LogStore.ChunkData
import ZgStorage.LogStore.ChunkInsert
import ZgStorage.LogStore.ChunkMap
import ZgStorage.LogStore.Seal
import ZgStorage.LogStore.EntryBatch
import ZgStorage.LogStore.SealQueue
import ZgStorage.LogStore.SealedRead
import ZgStorage.LogStore.BatchSsz
import ZgStorage.LogStore.BatchRuns
import ZgStorage.LogStore.Padding
import ZgStorage.Storage.Config
import ZgStorage.LogSync.SyncManager
import ZgStorage.ChunkPool.WriteControl
import ZgStorage.ChunkPool.Cache
import ZgStorage.Sync.SyncStore
import ZgStorage.Sync.Peers
import ZgStorage.Sync.Serial
import ZgStorage.Sync.SerialRuns
import ZgStorage.Sync.Transition
import ZgStorage.MerkleLight.Merkle
import ZgStorage.MerkleLight.Build
import ZgStorage.MerkleLight.GenProof
import ZgStorage.SharedTypes.FileProof
import ZgStorage.Miner.Sealer
import ZgStorage.Miner.Mine
import ZgStorage.FileLocationCache.FileCache
