import MtclCollectives.Transport.Buffer
import MtclCollectives.Transport.Proc
import MtclCollectives.Transport.Handle
import MtclCollectives.Network.Step
import MtclCollectives.Network.Run
import MtclCollectives.Network.Team
import MtclCollectives.Network.Feed
import MtclCollectives.Partition
import MtclCollectives.Framing
import MtclCollectives.Lockstep
import MtclCollectives.Reader
import MtclCollectives.Collectives.Broadcast
import MtclCollectives.Collectives.Scatter
import MtclCollectives.Collectives.Gather
import MtclCollectives.Collectives.AllGather
import MtclCollectives.Collectives.Alltoall
import MtclCollectives.Collectives.Streams
import MtclCollectives.Rounds
import MtclCollectives.Returns
import MtclCollectives.Bounds
import MtclCollectives.Delivery
import MtclCollectives.FanInGroup
import MtclCollectives.FanOutGroup
import MtclCollectives.Polling
import MtclCollectives.OpenGroups
