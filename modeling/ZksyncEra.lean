import ZksyncEra.Lib.Lists
import ZksyncEra.Merkle.CompleteTree
import ZksyncEra.MerkleTree.Utils
import ZksyncEra.MerkleTree.Types
import ZksyncEra.MerkleTree.Nibbles
import ZksyncEra.MerkleTree.Database
import ZksyncEra.MerkleTree.Hasher
import ZksyncEra.MerkleTree.Patch
import ZksyncEra.MerkleTree.Storage
import ZksyncEra.MerkleTree.MerklePath
import ZksyncEra.MerkleTree.Proofs
import ZksyncEra.MerkleTree.Consistency
import ZksyncEra.MerkleTree.Spec.TreeHash
import ZksyncEra.MerkleTree.Spec.StoredTree
import ZksyncEra.MerkleTree.Spec.Reference
import ZksyncEra.MerkleTree.Spec.WorkingTree
import ZksyncEra.MerkleTree.Spec.Finalize
import ZksyncEra.MerkleTree.Spec.Traverse
import ZksyncEra.MerkleTree.Spec.Update
import ZksyncEra.MerkleTree.Spec.Insert
import ZksyncEra.MerkleTree.Spec.LoadAncestors
import ZksyncEra.MerkleTree.Spec.Extend
import ZksyncEra.MerkleTree.Spec.ExtendWithProofs
import ZksyncEra.MerkleTree.Spec.LeafRoot
import ZksyncEra.MerkleTree.Patched
import ZksyncEra.MerkleTree.Spec.Truncate
import ZksyncEra.Lib.BigEndian
import ZksyncEra.BasicTypes
import ZksyncEra.Writes.Compression
import ZksyncEra.Writes.StateDiff
import ZksyncEra.Writes.Spec.Compression
import ZksyncEra.Writes.Spec.StateDiff
import ZksyncEra.Lib.OrdList
import ZksyncEra.Mempool.Types
import ZksyncEra.Mempool.Store
import ZksyncEra.Mempool.Spec.Index
import ZksyncEra.Lib.AssocLists
import ZksyncEra.Mempool.Spec.Invariant
import ZksyncEra.Mempool.Spec.NextTransaction
import ZksyncEra.Mempool.Spec.Gc
import ZksyncEra.Mempool.Spec.Guard
import ZksyncEra.Lib.Binary64
import ZksyncEra.FeeModel.FeeParams
import ZksyncEra.FeeModel.Spec.Scale
import ZksyncEra.Lib.Consecutive
import ZksyncEra.EthWatch.PriorityOps
import ZksyncEra.EthWatch.Spec.PriorityOps
import ZksyncEra.Multivm.Fee
import ZksyncEra.Multivm.Spec.Fee
import ZksyncEra.Lib.Chunks
import ZksyncEra.Multivm.Bytecode
import ZksyncEra.Multivm.Spec.Bytecode
import ZksyncEra.Merkle.Levels
import ZksyncEra.MiniMerkleTree.Tree
import ZksyncEra.MiniMerkleTree.Spec
import ZksyncEra.MerkleTree.Getters
import ZksyncEra.MerkleTree.Spec.Getters
import ZksyncEra.MerkleTree.Spec.Entries
import ZksyncEra.Multivm.HistoryRecorder
import ZksyncEra.Multivm.Spec.HistoryRecorder
import ZksyncEra.Lib.Leb128
import ZksyncEra.MerkleTree.Serialization
import ZksyncEra.MerkleTree.Spec.Serialization
import ZksyncEra.MerkleTree.RangeDigest
import ZksyncEra.MerkleTree.Spec.RangeDigest
import ZksyncEra.MerkleTree.Spec.Utils
import ZksyncEra.MerkleTree.Spec.Nibbles
import ZksyncEra.MerkleTree.Spec.NodeCache
import ZksyncEra.MerkleTree.Spec.ProofPath
import ZksyncEra.MerkleTree.Spec.EntryProofs
import ZksyncEra.Lib.Checked
import ZksyncEra.Lib.UniformChunks
import ZksyncEra.Types.Snapshots
import ZksyncEra.Types.Spec.Snapshots
import ZksyncEra.BasicTypes.Bytecode
import ZksyncEra.BasicTypes.Spec.Bytecode
import ZksyncEra.Multivm.Deduplicator
import ZksyncEra.Multivm.Spec.Deduplicator
import ZksyncEra.Lib.Tally
import ZksyncEra.Multivm.Spec.DeduplicatedWrites
import ZksyncEra.Multivm.Bootloader.Memory
import ZksyncEra.Multivm.Bootloader.State
import ZksyncEra.Multivm.Spec.BootloaderLayout
import ZksyncEra.Multivm.Spec.BootloaderSnapshots
