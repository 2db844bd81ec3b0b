import Hotstuff.Lib.Runs
import Hotstuff.Lib.Firsts
import Hotstuff.Lib.Terms
import Hotstuff.Lib.Expiry
import Hotstuff.Lib.Consensus
import Hotstuff.Lib.Rotation
import Hotstuff.Lib.Scale
import Hotstuff.Primitives
import Hotstuff.Message
import Hotstuff.Certificate
import Hotstuff.Aggregator
import Hotstuff.State
import Hotstuff.Worker
import Hotstuff.Node
import Hotstuff.Import
import Hotstuff.Network
import Hotstuff.Symbolic
import Hotstuff.Moves
import Hotstuff.History
import Hotstuff.Signatures
import Hotstuff.Counting
import Hotstuff.TimeoutCertificate
import Hotstuff.Votes
import Hotstuff.Views
import Hotstuff.Evidence
import Hotstuff.HighQc
import Hotstuff.Leader
import Hotstuff.Finality
import Hotstuff.Gossip
import Hotstuff.Acting
import Hotstuff.Monotone
import Hotstuff.Outsiders
import Hotstuff.System
import Hotstuff.Agreement
import Hotstuff.Chains
import Hotstuff.Overflow
import Hotstuff.Selection
import Hotstuff.Recursion
import Hotstuff.Withholding
import Hotstuff.Payloads
import Hotstuff.PendingQueue
import Hotstuff.Process
import Hotstuff.Availability
import Hotstuff.Effects
import Hotstuff.Tallies
import Hotstuff.Wire
import Hotstuff.Traffic
import Hotstuff.Delivery
import Hotstuff.Rounds
import Hotstuff.ViewChange
import Hotstuff.Following
import Hotstuff.Advance
import Hotstuff.Recovery
import Hotstuff.Settling
import Hotstuff.Progress
import Hotstuff.Pallet
import Hotstuff.Authorities
import Hotstuff.Blocks
import Hotstuff.Headers
import Hotstuff.Slots
