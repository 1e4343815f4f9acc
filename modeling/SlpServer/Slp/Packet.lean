import Mathlib.Data.List.Basic

/-!
# Addresses and packets

The data of `slp/packet.rs` and the events of `slp/mod.rs`.  An address is what
the standard library compares and hashes; a packet is a byte vector.
-/

namespace SlpServer

/-- `std::net::Ipv4Addr`. -/
structure Ipv4Addr where
  a : UInt8
  b : UInt8
  c : UInt8
  d : UInt8
  deriving DecidableEq, Repr

/-- `Ipv4Addr::from([u8; 4])`; the callers copy exactly four bytes. -/
def Ipv4Addr.ofOctets : List UInt8 → Ipv4Addr
  | [a, b, c, d] => ⟨a, b, c, d⟩
  | _ => ⟨0, 0, 0, 0⟩

/-- `std::net::SocketAddr`. -/
inductive SocketAddr
  | v4 (ip : Ipv4Addr) (port : UInt16)
  | v6 (ip : BitVec 128) (port : UInt16) (flowinfo scopeId : UInt32)
  deriving DecidableEq, Repr

/-- `Vec<u8>`. -/
abbrev Packet := List UInt8

/-- The source and the destination of a frame inside the virtual LAN. -/
structure OutAddr where
  srcIp : Ipv4Addr
  dstIp : Ipv4Addr
  deriving DecidableEq, Repr

/-- A datagram and the client address it came from. -/
structure InPacket where
  data : Packet
  addr : SocketAddr
  deriving DecidableEq, Repr

/-- A LAN frame and where it goes. -/
structure OutPacket where
  data : Packet
  addr : OutAddr
  deriving DecidableEq, Repr

/-- What the peer tasks tell the event task. -/
inductive Event
  | close (addr : SocketAddr)
  | sendLAN (src : SocketAddr) (out : OutPacket)
  deriving DecidableEq, Repr

end SlpServer
