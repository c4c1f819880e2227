import XsServer.Assign.Competition
import XsServer.Bson.Safe
import XsServer.Cluster.Channel
import XsServer.Cluster.Trace
import XsServer.Crypt.DiffieHellman
import XsServer.Crypt.Text
import XsServer.Custom.Code
import XsServer.Custom.Least
import XsServer.Custom.Named
import XsServer.Custom.Random
import XsServer.Custom.Ranking
import XsServer.Custom.Search
import XsServer.Datacenter.Center
import XsServer.Datasheet.RoundTrip
import XsServer.Extend.Arrays
import XsServer.Extend.Compare
import XsServer.Game.Choices
import XsServer.Game.Message
import XsServer.Game.Traversals
import XsServer.Gate.Connections
import XsServer.Gate.Presence
import XsServer.Gateserver.Protocol
import XsServer.GlobalName.Queries
import XsServer.Handle.Names
import XsServer.Handle.Publish
import XsServer.Handle.Table
import XsServer.Http.Chunked
import XsServer.Hundred.Bankers
import XsServer.Hundred.Robots
import XsServer.Hundred.Settlement
import XsServer.Mahjong.Kongs
import XsServer.Multicast.Publish
import XsServer.Poker.Cattle
import XsServer.Remote.Deliver
import XsServer.Remote.Down
import XsServer.Remote.Peer
import XsServer.Sched.Sound
import XsServer.Seri.Parse
import XsServer.Seri.RoundTrip
import XsServer.ServiceGate.Deliver
import XsServer.ServiceGate.Hashid
import XsServer.ServiceMgr.Launch
import XsServer.Sharedata.Config
import XsServer.Skynet.Dns
import XsServer.Skynet.Fair
import XsServer.Skynet.Reply
import XsServer.Skynet.Rwlock
import XsServer.Slots.Lines
import XsServer.Slots.Reels
import XsServer.Socket.Queue
import XsServer.Socket.Stream
import XsServer.SocketServer.Close
import XsServer.SocketServer.Reserve
import XsServer.SocketServer.Whole
import XsServer.Sproto.Header
import XsServer.Sproto.Inside
import XsServer.Sproto.Ints
import XsServer.Sproto.Message
import XsServer.Sproto.Truncated
import XsServer.Sproto.Upvalues
import XsServer.Stm.Newest
import XsServer.Timer.Exact
import XsServer.Websocket.Deliver
import XsServer.Websocket.Limit
