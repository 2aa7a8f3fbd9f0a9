import OrphiqCore.Bits.Byte
import OrphiqCore.Bits.Prefix
import OrphiqCore.Store.Log
import OrphiqCore.Mkvs.Key
import OrphiqCore.Mkvs.KeyBits
import OrphiqCore.Mkvs.KeyMerge
import OrphiqCore.Mkvs.Node
import OrphiqCore.Mkvs.Insert
import OrphiqCore.Mkvs.Remove
import OrphiqCore.Mkvs.Trie
import OrphiqCore.Mkvs.InsertSpec
import OrphiqCore.Mkvs.RemoveSpec
import OrphiqCore.Mkvs.Commit
import OrphiqCore.Mkvs.Codec
import OrphiqCore.Mkvs.Proof
import OrphiqCore.Mkvs.CodecSpec
import OrphiqCore.Mkvs.Pruning
import OrphiqCore.Mkvs.ProofSpec
import OrphiqCore.Mkvs.Lookup
import OrphiqCore.Mkvs.Tree
import OrphiqCore.Mkvs.TreeSpec
import OrphiqCore.Mkvs.History
import OrphiqCore.Mkvs.Cache
import OrphiqCore.Mkvs.CacheTree
import OrphiqCore.Mkvs.CacheSpec
import OrphiqCore.Upgrade.Manager
import OrphiqCore.Upgrade.Node
import OrphiqCore.Upgrade.ManagerSpec
import OrphiqCore.Upgrade.NodeSpec
import OrphiqCore.Shares.ProRata
import OrphiqCore.Staking.Quantity
import OrphiqCore.Staking.SharePool
import OrphiqCore.Staking.SharePoolSpec
import OrphiqCore.Roothash.Committee
import OrphiqCore.Roothash.Pool
import OrphiqCore.Vault.Policy
import OrphiqCore.Roothash.PoolState
import OrphiqCore.Staking.Commission
import OrphiqCore.Staking.CommissionSpec
import OrphiqCore.Staking.WithinBound
import OrphiqCore.Store.Iteration
import OrphiqCore.Staking.Accumulator
import OrphiqCore.Staking.AccumulatorSpec
import OrphiqCore.EnclaveRpc.Sessions
import OrphiqCore.EnclaveRpc.SessionsSpec
import OrphiqCore.Checkpoint.Restorer
import OrphiqCore.Checkpoint.RestorerSpec
import OrphiqCore.Registry.Runtime
import OrphiqCore.Registry.RuntimeSpec
import OrphiqCore.Store.SortedMap
import OrphiqCore.Mkvs.Overlay
import OrphiqCore.Mkvs.OverlaySpec
import OrphiqCore.Bits.Order
import OrphiqCore.Mkvs.Iterator
import OrphiqCore.Mkvs.IteratorSpec
import OrphiqCore.Mkvs.SyncGet
import OrphiqCore.Mkvs.ProofBuild
import OrphiqCore.Mkvs.SyncGetSpec
import OrphiqCore.Crypto.Chain
import OrphiqCore.Crypto.MerkleTree
import OrphiqCore.KeyManager.Kdf
import OrphiqCore.KeyManager.KdfSpec
import OrphiqCore.Runtime.Tree
import OrphiqCore.Runtime.Proof
import OrphiqCore.Runtime.Agreement
import OrphiqCore.Runtime.TendermintMerkle
import OrphiqCore.Store.Vec
import OrphiqCore.Churp.Shareholder
import OrphiqCore.Churp.Switch
import OrphiqCore.Churp.Handoff
import OrphiqCore.Churp.SwitchSpec
import OrphiqCore.Churp.HandoffSpec
