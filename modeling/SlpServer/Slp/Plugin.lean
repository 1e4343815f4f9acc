import SlpServer.Slp.FragParser

/-!
# Plugins

The trait of `slp/plugin.rs`, and the start that the two plugins which look
into LAN packets share: both parse the datagram, take an `Ipv4` frame as it is
and put `Ipv4Frag` frames through a `FragParser` of their own.

What the crates `smoltcp` and `hex` compute for them is a parameter, `Crates`.
-/

namespace SlpServer

open Rust

/-- The trait `Plugin` at one type of plugin states: the verdict and the state
after the call. -/
structure Plugin (P : Type) where
  inPacket : P → InPacket → Exec (Except Unit Unit × P)
  outPacket : P → Packet → List SocketAddr → Exec (Except Unit Unit × P)

/-- The protocols the plugins tell apart. -/
inductive IpProtocol
  | tcp
  | udp
  | other (number : UInt8)
  deriving DecidableEq, Repr

/-- What is read of a checked `Ipv4Packet`. -/
structure Ipv4View where
  nextHeader : IpProtocol
  payload : Packet
  deriving DecidableEq, Repr

/-- What is read of a checked `UdpPacket`. -/
structure UdpView where
  dstPort : UInt16
  payload : Packet
  deriving DecidableEq, Repr

/-- The functions of other crates: `new_checked` of three packet types of
`smoltcp`, with `dst_port` for TCP, and `hex::encode`. -/
structure Crates where
  ipv4Packet : Packet → Option Ipv4View
  tcpPacket : Packet → Option UInt16
  udpPacket : Packet → Option UdpView
  hexEncode : Packet → String

/-- The crates on packets laid out as the protocols have them: IPv4 with its
header and total lengths, TCP with its data offset, UDP with its length. -/
def Crates.byLayout : Crates where
  ipv4Packet p :=
    let headerLen := 4 * ((p.getD 0 0).toNat % 16)
    let totalLen := (numAt p 2).toNat
    if 20 ≤ p.length ∧ headerLen ≤ totalLen ∧ totalLen ≤ p.length then
      let nextHeader := match (p.getD 9 0).toNat with
        | 6 => IpProtocol.tcp
        | 17 => .udp
        | _ => .other (p.getD 9 0)
      some ⟨nextHeader, (p.take totalLen).drop headerLen⟩
    else
      none
  tcpPacket p :=
    let headerLen := 4 * ((p.getD 12 0).toNat / 16)
    if 20 ≤ headerLen ∧ headerLen ≤ p.length then some (numAt p 2) else none
  udpPacket p :=
    let len := (numAt p 4).toNat
    if 8 ≤ len ∧ len ≤ p.length then some ⟨numAt p 2, (p.take len).drop 8⟩ else none
  hexEncode p :=
    let digit (n : Nat) : Char := "0123456789abcdef".toList.getD n '0'
    String.ofList (p.flatMap fun b => [digit (b.toNat / 16), digit (b.toNat % 16)])

/-- How `in_packet` starts in both plugins: the IPv4 packet at hand, with the
addresses of the frame that brought it. -/
def lanPacket (fragParser : FragParser) (packet : InPacket) :
    Exec (Option (Ipv4Addr × Ipv4Addr × Packet) × FragParser) := do
  match ← ForwarderFrame.parse packet.data with
  | .ok (.ipv4 ipv4) =>
    let srcIp ← ipv4.srcIp
    let dstIp ← ipv4.dstIp
    pure (some (srcIp, dstIp, ipv4.data), fragParser)
  | .ok (.ipv4Frag frag) =>
    let srcIp ← frag.srcIp
    let dstIp ← frag.dstIp
    let (p, fragParser) ← fragParser.process frag
    pure (p.map fun p => (srcIp, dstIp, p), fragParser)
  | _ => pure (none, fragParser)

theorem lanPacket_ipv4 {s : FragParser} {d : InPacket} {v : Ipv4}
    (h : ForwarderFrame.parse d.data = .ok (.ok (.ipv4 v))) :
    lanPacket s d = .ok (some (addrAt v.payload 12, addrAt v.payload 16, v.payload), s) := by
  simp only [lanPacket, h, ok_bind, v.srcIp_ok, v.dstIp_ok]
  rfl

theorem lanPacket_frag {s : FragParser} {d : InPacket} {f : Ipv4Frag}
    (h : ForwarderFrame.parse d.data = .ok (.ok (.ipv4Frag f))) :
    lanPacket s d = (do
      let (p, s) ← s.process f
      pure (p.map fun p => (f.item.srcIp, f.item.dstIp, p), s)) := by
  simp only [lanPacket, h, ok_bind, f.srcIp_ok, f.dstIp_ok]
  rfl

theorem lanPacket_none {s : FragParser} {d : InPacket}
    (h4 : ∀ v, ForwarderFrame.parse d.data ≠ .ok (.ok (.ipv4 v)))
    (hf : ∀ f, ForwarderFrame.parse d.data ≠ .ok (.ok (.ipv4Frag f))) :
    lanPacket s d = .ok (none, s) := by
  obtain ⟨r, hr, _⟩ := ForwarderFrame.parse_total d.data
  rw [lanPacket, hr, ok_bind]
  cases r with
  | error e => rfl
  | ok g =>
    cases g with
    | ipv4 v => exact absurd hr (h4 v)
    | ipv4Frag f => exact absurd hr (hf f)
    | keepalive | ping | authMe | info => rfl

end SlpServer
