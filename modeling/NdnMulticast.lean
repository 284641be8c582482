import NdnMulticast.Nfd.ExpiryTimers
import NdnMulticast.Nfd.MulticastFace
import NdnMulticast.Nfd.SegmentState
import NdnMulticast.Transmission.Transfer
import NdnMulticast.Transmission.FilePusher
import NdnMulticast.Ndn.Face.Nacks
import NdnMulticast.Ndn.Face.Callbacks
import NdnMulticast.Nfd.Durations
import NdnMulticast.Nfd.Loops
import NdnMulticast.Nfd.Scope
import NdnMulticast.Nfd.SelfLearning
import NdnMulticast.Nfd.StrategyTimers
import NdnMulticast.Nfd.Upstreams
import NdnMulticast.Nfd.PitTable
import NdnMulticast.Nfd.StrategyReset
import NdnMulticast.Nfd.CsPriorityFifo
import NdnMulticast.Nfd.CsOrder
import NdnMulticast.Nfd.DeadNonceList
import NdnMulticast.Nfd.LpReassembler
import NdnMulticast.Nfd.StreamTransport
import NdnMulticast.Nfd.RibRegister
import NdnMulticast.Ndn.CommandInterest
import NdnMulticast.Nfd.Readvertise
import NdnMulticast.Nfd.RouteExpiry
import NdnMulticast.Ndn.HierarchicalChecker
import NdnMulticast.Ndn.Dispatcher
import NdnMulticast.Ndn.InMemoryStorage
import NdnMulticast.Ndn.Validator
import NdnMulticast.Ndn.Encoder
