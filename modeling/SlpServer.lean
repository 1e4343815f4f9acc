import SlpServer.Lib.Rust
import SlpServer.Lib.Lru
import SlpServer.Lib.Tiling
import SlpServer.Lib.Pieces
import SlpServer.Lib.Lts
import SlpServer.Lib.Keyed
import SlpServer.Lib.Latest
import SlpServer.Lib.ZeroRun
import SlpServer.Lib.Chan
import SlpServer.Lib.Ascii
import SlpServer.Lib.Broadcast
import SlpServer.Util.FilterSame
import SlpServer.Slp.Packet
import SlpServer.Slp.Frame
import SlpServer.Slp.Grammar
import SlpServer.Slp.FragParser
import SlpServer.Slp.Reassembly
import SlpServer.Slp.Waiting
import SlpServer.Slp.Slots
import SlpServer.Slp.Entries
import SlpServer.Slp.Plugin
import SlpServer.Plugin.Blocker
import SlpServer.Plugin.BlockRule
import SlpServer.Plugin.LdnMitm.LanProtocol
import SlpServer.Plugin.LdnMitm.Compression
import SlpServer.Plugin.LdnMitm.Plugin
import SlpServer.Plugin.LdnMitm.Safety
import SlpServer.Plugin.Flows
import SlpServer.Plugin.LdnMitm.Rooms
import SlpServer.Plugin.LdnMitm.Answer
import SlpServer.Plugin.Fragments
import SlpServer.Plugin.Screening
import SlpServer.Slp.Peer
import SlpServer.Slp.Idle
import SlpServer.Slp.PeerManager
import SlpServer.Slp.Routing
import SlpServer.Slp.Stream
import SlpServer.Slp.Freshness
import SlpServer.Slp.Gapless
import SlpServer.Plugin.Table
import SlpServer.Plugin.Traffic
import SlpServer.Slp.Subscription
import SlpServer.Slp.Server
import SlpServer.Plugin.Counting
import SlpServer.Plugin.Register
import SlpServer.Plugin.Upload
import SlpServer.Lib.Drain
import SlpServer.Slp.Quiescence
import SlpServer.Slp.Completion
import SlpServer.Slp.Intake
import SlpServer.Lib.Switch
import SlpServer.Slp.Switch
import SlpServer.Plugin.Delivered
import SlpServer.Slp.Timeout
import SlpServer.Slp.Online
import SlpServer.Slp.Execution
import SlpServer.Slp.Relay
import SlpServer.Slp.Echo
import SlpServer.Slp.Lifecycle
import SlpServer.Slp.Loss
import SlpServer.Slp.Enforcement
import SlpServer.Main
import SlpServer.Graphql.Stream
import SlpServer.Uptime
import SlpServer.Slp.Backpressure
