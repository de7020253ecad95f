import Vapory.Block.Difficulty
import Vapory.Block.ReceiptData
import Vapory.Chain.BloomChunks
import Vapory.Chain.BloomRange
import Vapory.Chain.QueueDifficulty
import Vapory.Chain.Sealing
import Vapory.Chain.SizedBlocks
import Vapory.Chain.SyncRoute
import Vapory.Chain.TreeRoute
import Vapory.Client.FilterMatches
import Vapory.Client.GasEstimate
import Vapory.Client.GasPricer
import Vapory.Client.PendingSync
import Vapory.Devcore.HexPrefix
import Vapory.Devcore.OverlayDB
import Vapory.Devcore.RLPSweep
import Vapory.Devcore.RangeMask
import Vapory.Devcore.Worker
import Vapory.Executive.BlockHash
import Vapory.Executive.StaticCall
import Vapory.P2p.Capabilities
import Vapory.P2p.Discovery
import Vapory.P2p.Nearest
import Vapory.P2p.NodeEvents
import Vapory.P2p.PeerSlots
import Vapory.P2p.Routing
import Vapory.P2p.Session
import Vapory.State.CodeSize
import Vapory.State.Persist
import Vapory.Transaction.QueueDrop
import Vapory.Transaction.QueueLimits
import Vapory.Vapcore.KeyManager
import Vapory.Vapcore.Precompiled
import Vapory.Vvm.Arithmetic
import Vapory.Vvm.ConstantPool
