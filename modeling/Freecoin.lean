import Freecoin.Lib.Memory
import Freecoin.Lib.ByteOrder
import Freecoin.Lib.LittleEndian
import Freecoin.Lib.DoublyLinked
import Freecoin.Lib.PairReduction
import Freecoin.Lib.Run
import Freecoin.Lib.HashLinks
import Freecoin.Lib.HashTree
import Freecoin.Lib.SecureHash
import Freecoin.Lib.Traced
import Freecoin.Lib.Mutex
import Freecoin.Lib.CriticalSection
import Freecoin.Shared
import Freecoin.Util
import Freecoin.Hex
import Freecoin.Crypto
import Freecoin.Sha256
import Freecoin.Transactions
import Freecoin.Blocks
import Freecoin.Body
import Freecoin.Codec
import Freecoin.Merkle
import Freecoin.MerkleRoot
import Freecoin.Mine
import Freecoin.Array
import Freecoin.ArraySet
import Freecoin.ArrayBounds
import Freecoin.Queue
import Freecoin.Fifo
import Freecoin.QueueFields
import Freecoin.QueueInit
import Freecoin.Data.Berkeley
import Freecoin.Data.Mempool
import Freecoin.Data.Deletion
import Freecoin.Miner
import Freecoin.Filling
import Freecoin.Commitment
import Freecoin.Data.Store
import Freecoin.Data.Revert
import Freecoin.Data.Scan
import Freecoin.Data.View
import Freecoin.Data.Walks
import Freecoin.Bignum
import Freecoin.BignumValue
import Freecoin.Blockchain
import Freecoin.Retarget
import Freecoin.Difficulty
import Freecoin.MinerNode
import Freecoin.Data.Limbo
import Freecoin.Data.Laws
import Freecoin.Data.Levels
import Freecoin.Data.Trace
import Freecoin.Data.Order
import Freecoin.Build
import Freecoin.Validation
import Freecoin.Network.Wire
import Freecoin.Network.Handle
import Freecoin.Network.Getdata
import Freecoin.Network.Exchange
import Freecoin.Network.Inventory
import Freecoin.Network.Missing
import Freecoin.Network.Entries
import Freecoin.Network.Connection
import Freecoin.Network.Node
import Freecoin.Network.Ledger
import Freecoin.Network.Sections
import Freecoin.Network.Fatal
import Freecoin.Network.OwnBytes
import Freecoin.Network.Swarm
import Freecoin.Network.Rejected
import Freecoin.Chain.Invariant
import Freecoin.Data.Headers
import Freecoin.Chain.Transactions
import Freecoin.Reorg.PostState
import Freecoin.Reorg.Conservation
import Freecoin.Reorg.Walk
import Freecoin.Reorg.Termination
import Freecoin.Reorg.Atomicity
import Freecoin.Locks.Calls
import Freecoin.Locks.Discipline
import Freecoin.Locks.Peers
