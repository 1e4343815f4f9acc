import SlpServer.Slp.Plugin
import SlpServer.Plugin.LdnMitm.LanProtocol
import Mathlib.Data.List.AList

/-!
# The LDN plugin

`plugin/ldn_mitm/plugin.rs`: packets addressed to the server's own address in
the virtual LAN are read as answers to its scan, and each tells of one room.
`in_packet` never refuses a datagram.
-/

namespace SlpServer

open Rust LanProtocol

/-- `Ipv4Addr::to_string`. -/
def Ipv4Addr.toString (ip : Ipv4Addr) : String :=
  ".".intercalate ([ip.a, ip.b, ip.c, ip.d].map fun o => ToString.toString o.toNat)

namespace LdnMitm

def serverAddr : Ipv4Addr := ⟨10, 13, 37, 0⟩
def broadcastAddr : Ipv4Addr := ⟨10, 13, 255, 255⟩

/-- `SCAN_PACKET`. -/
def scanPacket : Packet := [0x00, 0x14, 0x45, 0x11, 0, 0, 0, 0, 0, 0, 0, 0]

/-- `slp_scan_packet`: an `Ipv4` frame.  The crate `smoltcp` writes the headers
for `make_udp`. -/
def slpScanPacket (makeUdp : Packet → Packet) : Packet := 1 :: makeUdp scanPacket

structure NodeInfo where
  ip : String
  nodeId : Int
  isConnected : Bool
  playerName : String
  deriving DecidableEq, Repr

structure RoomInfo where
  ip : String
  contentId : String
  hostPlayerName : String
  sessionId : String
  nodeCountMax : Int
  nodeCount : Int
  nodes : List NodeInfo
  advertiseDataLen : Int
  advertiseData : String
  deriving DecidableEq, Repr

end LdnMitm

structure LdnMitmPlugin where
  fragParser : FragParser
  roomInfo : AList (fun _ : Ipv4Addr => LdnMitm.RoomInfo)

namespace LdnMitmPlugin

def new : LdnMitmPlugin := ⟨FragParser.new, ∅⟩

def nodeInfo (node : LanProtocol.NodeInfo) : Exec LdnMitm.NodeInfo := do
  pure {
    ip := (← node.ip).toString
    nodeId := (← node.nodeId).toNat
    isConnected := ← node.isConnected
    playerName := ← node.playerName }

/-- The room that the description `info` from `srcIp` tells of. -/
def roomOf (C : Crates) (srcIp : Ipv4Addr) (info : NetworkInfo) : Exec LdnMitm.RoomInfo := do
  let nodes ← (← info.nodes).mapM nodeInfo
  pure {
    ip := srcIp.toString
    contentId := C.hexEncode (← info.contentIdBytes)
    hostPlayerName := ← info.hostPlayerName
    sessionId := C.hexEncode (← info.sessionId)
    nodeCountMax := (← info.nodeCountMax).toNat
    nodeCount := (← info.nodeCount).toNat
    nodes
    advertiseDataLen := (← info.advertiseDataLen).toNat
    advertiseData := C.hexEncode (← info.advertiseData) }

/-- The room in a packet for the server, if the packet is an answer to a scan. -/
def readRoom (C : Crates) (srcIp : Ipv4Addr) (packet : Packet) :
    Exec (Option LdnMitm.RoomInfo) := do
  match C.ipv4Packet packet with
  | none => pure none
  | some packet =>
    if packet.nextHeader ≠ .udp then
      pure none
    else
      match C.udpPacket packet.payload with
      | none => pure none
      | some packet =>
        match ← LdnPacket.new packet.payload with
        | .error _ => pure none
        | .ok packet =>
          if packet.typ ≠ 1 then
            pure none
          else
            match NetworkInfo.new packet.payload with
            | .error _ => pure none
            | .ok info => pure (some (← roomOf C srcIp info))

/-- What a packet from `srcIp` to `dstIp` does to the rooms. -/
def learnRoom (C : Crates) (rooms : AList (fun _ : Ipv4Addr => LdnMitm.RoomInfo)) :
    Option (Ipv4Addr × Ipv4Addr × Packet) → Exec (AList (fun _ : Ipv4Addr => LdnMitm.RoomInfo))
  | some (srcIp, dstIp, packet) =>
    if dstIp = LdnMitm.serverAddr then do
      match ← readRoom C srcIp packet with
      | some room => pure (rooms.insert srcIp room)
      | none => pure rooms
    else pure rooms
  | none => pure rooms

/-- `LdnMitmPlugin::in_packet`. -/
def inPacket (C : Crates) (self : LdnMitmPlugin) (packet : InPacket) :
    Exec (Except Unit Unit × LdnMitmPlugin) := do
  let (packet, fragParser) ← lanPacket self.fragParser packet
  let roomInfo ← learnRoom C self.roomInfo packet
  pure (.ok (), ⟨fragParser, roomInfo⟩)

def outPacket (self : LdnMitmPlugin) (_packet : Packet) (_addrs : List SocketAddr) :
    Exec (Except Unit Unit × LdnMitmPlugin) := pure (.ok (), self)

def plugin (C : Crates) : Plugin LdnMitmPlugin := ⟨inPacket C, outPacket⟩

end LdnMitmPlugin

end SlpServer
