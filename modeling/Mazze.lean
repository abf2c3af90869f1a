import Mazze.Primitives.BasePrice
import Mazze.Consensus.TimerChain
import Mazze.Codec.Rlp
import Mazze.Primitives.BlockHeader
import Mazze.Storage.Merkle
import Mazze.Storage.TrieProof
import Mazze.Forest.LinkCut
import Mazze.Consensus.WeightTree
import Mazze.Consensus.WeightInvariant
import Mazze.Consensus.WeightRefine
import Mazze.Consensus.EpochSet
import Mazze.Consensus.EpochInvariant
import Mazze.Consensus.EpochRun
import Mazze.Executor.Checkpoints
import Mazze.Executor.Collateral
import Mazze.Tree.Inorder
import Mazze.TreapMap.Node
import Mazze.TreapMap.Shape
import Mazze.TreapMap.Map
import Mazze.TreapMap.Refine
import Mazze.TreapMap.Invariant
import Mazze.TreapMap.Query
import Mazze.PackingPool.Batch
import Mazze.PackingPool.BatchInsert
import Mazze.PackingPool.Pool
import Mazze.Bits.Groups
import Mazze.Addr.Checksum
import Mazze.Addr.Consts
import Mazze.Addr.ConvertBits
import Mazze.Addr.Codec
import Mazze.PackingPool.Truncate
import Mazze.Storage.CompressedPath
import Mazze.Primitives.StorageKey
import Mazze.Arith.Newton
import Mazze.Math.Sqrt
import Mazze.Heap.Array
import Mazze.Heap.Positions
import Mazze.HeapMap.Basic
import Mazze.HeapMap.Refine
import Mazze.Linked.Adjacent
import Mazze.Cache.Lru
import Mazze.Cache.LruRefine
