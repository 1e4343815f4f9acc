import SlpServer.Slp.Plugin

/-!
# The blocker

`plugin/blocker.rs` but for the text of its rules.  `in_packet` refuses
a datagram when the IPv4 packet it carries, or the one it completes in the
plugin's own `FragParser`, hits one of the rules.
-/

namespace SlpServer

open Rust

inductive Protocol
  | tcp
  | udp
  deriving DecidableEq, Repr

structure Rule where
  protocol : Protocol
  dstPort : UInt16
  deriving DecidableEq, Repr

/-- `Protocol::hit`. -/
def Protocol.hit : Protocol → Ipv4View → Bool
  | .tcp, packet => packet.nextHeader == .tcp
  | .udp, packet => packet.nextHeader == .udp

/-- `Rule::hit`. -/
def Rule.hit (C : Crates) (self : Rule) (packet : Ipv4View) : Bool :=
  if !self.protocol.hit packet then
    false
  else
    let dstPort := match self.protocol with
      | .tcp => C.tcpPacket packet.payload
      | .udp => (C.udpPacket packet.payload).map UdpView.dstPort
    match dstPort with
    | some dstPort => dstPort == self.dstPort
    | none => false

structure BlockerPlugin where
  fragParser : FragParser
  blockRules : List Rule

namespace BlockerPlugin

def new : BlockerPlugin := ⟨FragParser.new, []⟩

def setBlockRules (self : BlockerPlugin) (blockRules : List Rule) : BlockerPlugin :=
  { self with blockRules }

/-- The packet hits one of the rules. -/
def hits (C : Crates) (rules : List Rule) (packet : Packet) : Bool :=
  match C.ipv4Packet packet with
  | some packet => rules.any fun r => r.hit C packet
  | none => false

/-- `BlockerPlugin::in_packet`. -/
def inPacket (C : Crates) (self : BlockerPlugin) (packet : InPacket) :
    Exec (Except Unit Unit × BlockerPlugin) := do
  let (packet, fragParser) ← lanPacket self.fragParser packet
  let self := { self with fragParser }
  match packet with
  | none => pure (.ok (), self)
  | some (_, _, packet) =>
    match C.ipv4Packet packet with
    | none => pure (.ok (), self)
    | some packet =>
      if self.blockRules.any fun r => r.hit C packet then
        pure (.error (), self)
      else
        pure (.ok (), self)

def outPacket (self : BlockerPlugin) (_packet : Packet) (_addrs : List SocketAddr) :
    Exec (Except Unit Unit × BlockerPlugin) := pure (.ok (), self)

def plugin (C : Crates) : Plugin BlockerPlugin := ⟨inPacket C, outPacket⟩

/-! ### The verdict -/

/-- The verdict on the packet a datagram brings. -/
def verdict (C : Crates) (rules : List Rule) (packet : Option Packet) : Except Unit Unit :=
  if packet.any (hits C rules) then .error () else .ok ()

/-- The verdict is the rules' on the packet at hand. -/
theorem inPacket_eq (C : Crates) (b : BlockerPlugin) (d : InPacket) :
    b.inPacket C d = (do
      let (packet, s) ← lanPacket b.fragParser d
      pure (verdict C b.blockRules (packet.map fun p => p.2.2), ⟨s, b.blockRules⟩)) := by
  unfold inPacket
  cases lanPacket b.fragParser d with
  | error e => rfl
  | ok x =>
    obtain ⟨packet, s⟩ := x
    cases packet with
    | none => rfl
    | some p =>
      obtain ⟨_, _, p⟩ := p
      cases hv : C.ipv4Packet p with
      | none => simp [verdict, hits, hv]
      | some v =>
        simp only [ok_bind, hv, verdict, hits, Option.map_some, Option.any_some]
        cases b.blockRules.any fun r => r.hit C v <;> rfl

@[simp] theorem verdict_none (C : Crates) (rules : List Rule) :
    verdict C rules none = .ok () := rfl

theorem verdict_eq_error {C : Crates} {rules : List Rule} {packet : Option Packet} :
    verdict C rules packet = .error () ↔ ∃ p, packet = some p ∧ hits C rules p = true := by
  unfold verdict
  cases packet with
  | none => simp
  | some p => cases h : hits C rules p <;> simp [h]

theorem inPacket_ipv4 {C : Crates} {b : BlockerPlugin} {d : InPacket} {v : Ipv4}
    (h : ForwarderFrame.parse d.data = .ok (.ok (.ipv4 v))) :
    b.inPacket C d = .ok (verdict C b.blockRules (some v.payload), b) := by
  rw [inPacket_eq, lanPacket_ipv4 h]
  rfl

theorem inPacket_frag {C : Crates} {b : BlockerPlugin} {d : InPacket} {f : Ipv4Frag}
    (h : ForwarderFrame.parse d.data = .ok (.ok (.ipv4Frag f))) :
    b.inPacket C d = (do
      let (p, s) ← b.fragParser.process f
      pure (verdict C b.blockRules p, ⟨s, b.blockRules⟩)) := by
  rw [inPacket_eq, lanPacket_frag h]
  cases b.fragParser.process f with
  | error e => rfl
  | ok x =>
    obtain ⟨p, s⟩ := x
    cases p <;> rfl

end BlockerPlugin

end SlpServer
