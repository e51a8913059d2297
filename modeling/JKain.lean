import JKain.Consensus.Locking
import JKain.Consensus.Columns
import JKain.Consensus.Transparency
import JKain.Gossip.Chain
import JKain.Gossip.Timing
import JKain.Consensus.Seats
import JKain.Gossip.Cluster
import JKain.Executor.Replay
import JKain.Executor.Frame
import JKain.Mirror.Resume
import JKain.Mirror.Agreement
import JKain.Consensus.WindowTree
import JKain.Executor.LogProofs
import JKain.Executor.StateBytes
import JKain.Gossip.OwnTimestamps
import JKain.Gossip.ReconnectCodec
