import Cryptonite.Chain.Label
import Cryptonite.View.Signature
import Cryptonite.Chain.Purge
import Cryptonite.Chain.Unrecorded
import Cryptonite.Trie.Coherence
import Cryptonite.Sync.Anchors
import Cryptonite.View.Hygiene
import Cryptonite.View.Counting
import Cryptonite.Chain.StepCalls
import Cryptonite.Chain.Locator
import Cryptonite.Chain.MedianTime
import Cryptonite.Chain.LinkOrphans
import Cryptonite.Core.Signing
import Cryptonite.Pool.Consistency
import Cryptonite.Pool.EffectiveLimit
import Cryptonite.Chain.SizeLimit
import Cryptonite.Net.AddrRun
import Cryptonite.Net.Bloom
import Cryptonite.Net.LimitedMap
import Cryptonite.Net.Receive
import Cryptonite.Net.TimeData
import Cryptonite.Sync.Prune
import Cryptonite.Trie.Memory
import Cryptonite.Pool.Unreadable
import Cryptonite.Core.Reward
import Cryptonite.Core.Compress
import Cryptonite.Core.VarInt
import Cryptonite.Core.Base58
import Cryptonite.Core.MerkleAuthentic
import Cryptonite.Core.MerkleComplete
import Cryptonite.Core.MerkleBranch
import Cryptonite.Wallet.CreateTransaction
