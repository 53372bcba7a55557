import AntsClient.Cache.Admission
import AntsClient.Cache.Aggregation
import AntsClient.Cache.Completion
import AntsClient.Cache.Invalidation
import AntsClient.Cache.Sizing
import AntsClient.Cbor.Refinement
import AntsClient.Cbor.Session
import AntsClient.Chain.ForkChoice
import AntsClient.Chain.Layers
import AntsClient.Chain.Unbiased
import AntsClient.Crdt.Snapshot
import AntsClient.Crdt.Table
import AntsClient.Crdt.Verdict
import AntsClient.Crypto.Vrf
import AntsClient.Daemon.ChainLoop
import AntsClient.Daemon.ChainView
import AntsClient.Dht.Closest
import AntsClient.Dht.Sample
import AntsClient.Dht.Served
import AntsClient.Economy.Bonds
import AntsClient.Economy.LedgerCodec
import AntsClient.Economy.PaymentCodec
import AntsClient.Economy.Unchoke
import AntsClient.Gossip.CatchUp
import AntsClient.Inference.Exchange
import AntsClient.Inference.Scorable
import AntsClient.Reputation.Accuracy
import AntsClient.Reputation.Audit
import AntsClient.Reputation.SummaryCodec
import AntsClient.Reputation.Tenure
import AntsClient.Tee.DerReader
import AntsClient.Tee.Validity
