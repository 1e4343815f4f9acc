import SlpServer.Plugin.Blocker
import SlpServer.Plugin.Counting
import SlpServer.Plugin.LdnMitm.Plugin
import SlpServer.Slp.Server

/-!
# The plugins of the server

`plugin/mod.rs`: the server runs the LDN plugin, the traffic plugin and the
blocker.  Only the blocker refuses datagrams, and none of the three refuses a
LAN packet.  What the two loops of the server do to the traffic plugin is the
call of its own method (`inPackets_eq_ok`, `outPackets_eq_ok`).
-/

namespace SlpServer

open Rust

def TrafficPlugin.plugin (checks : Bool) : Plugin TrafficPlugin.Inner where
  inPacket self packet := do pure (.ok (), ← self.inPacket checks packet)
  outPacket self packet addrs := do pure (.ok (), ← self.outPacket checks packet addrs)

/-- `Box<dyn Plugin>`: one of the plugins of `register_plugins`. -/
inductive BoxPlugin
  | ldnMitm (self : LdnMitmPlugin)
  | traffic (self : TrafficPlugin.Inner)
  | blocker (self : BlockerPlugin)

namespace BoxPlugin

/-- The call goes to the plugin in the box. -/
def plugin (C : Crates) (checks : Bool) : Plugin BoxPlugin where
  inPacket self packet := match self with
    | ldnMitm p => do
      let (v, p) ← (LdnMitmPlugin.plugin C).inPacket p packet
      pure (v, ldnMitm p)
    | traffic p => do
      let (v, p) ← (TrafficPlugin.plugin checks).inPacket p packet
      pure (v, traffic p)
    | blocker p => do
      let (v, p) ← (BlockerPlugin.plugin C).inPacket p packet
      pure (v, blocker p)
  outPacket self packet addrs := match self with
    | ldnMitm p => do
      let (v, p) ← (LdnMitmPlugin.plugin C).outPacket p packet addrs
      pure (v, ldnMitm p)
    | traffic p => do
      let (v, p) ← (TrafficPlugin.plugin checks).outPacket p packet addrs
      pure (v, traffic p)
    | blocker p => do
      let (v, p) ← (BlockerPlugin.plugin C).outPacket p packet addrs
      pure (v, blocker p)

def traffic? : BoxPlugin → Option TrafficPlugin.Inner
  | traffic inner => some inner
  | _ => none

/-- The traffic plugins among some. -/
def trafficOf (ps : List BoxPlugin) : List TrafficPlugin.Inner := ps.filterMap traffic?

theorem trafficOf_append (ps qs : List BoxPlugin) :
    trafficOf (ps ++ qs) = trafficOf ps ++ trafficOf qs := List.filterMap_append

theorem trafficOf_cons (p : BoxPlugin) (ps : List BoxPlugin) :
    trafficOf (p :: ps) = trafficOf [p] ++ trafficOf ps := trafficOf_append [p] ps

/-- The table has no order of its own. -/
theorem trafficOf_perm {order ps : List BoxPlugin} {inner : TrafficPlugin.Inner}
    (h : order.Perm ps) (hps : trafficOf ps = [inner]) : trafficOf order = [inner] := by
  have hperm := h.filterMap traffic?
  rw [← trafficOf, ← trafficOf, hps] at hperm
  exact List.perm_singleton.mp hperm

variable {C : Crates} {checks : Bool} {packet : InPacket} {out : Packet} {addrs : List SocketAddr}

theorem inPacket_traffic {p p' : BoxPlugin} {v : Except Unit Unit}
    (h : (plugin C checks).inPacket p packet = .ok (v, p')) :
    (trafficOf [p]).mapM (fun inner => inner.inPacket checks packet) = .ok (trafficOf [p']) := by
  cases p with
  | ldnMitm p | blocker p =>
    obtain ⟨_, _, ⟨⟩⟩ := bind_eq_ok.mp h
    rfl
  | traffic inner =>
    obtain ⟨_, hin, ⟨⟩⟩ := bind_eq_ok.mp h
    obtain ⟨inner', hinner, ⟨⟩⟩ := bind_eq_ok.mp hin
    show (do pure [← inner.inPacket checks packet]) = _
    rw [hinner]
    rfl

theorem outPacket_traffic {p p' : BoxPlugin} {v : Except Unit Unit}
    (h : (plugin C checks).outPacket p out addrs = .ok (v, p')) :
    v = .ok () ∧ (trafficOf [p]).mapM (fun inner => inner.outPacket checks out addrs) =
      .ok (trafficOf [p']) := by
  cases p with
  | ldnMitm p | blocker p =>
    obtain ⟨_, hout, ⟨⟩⟩ := bind_eq_ok.mp h
    cases hout
    exact ⟨rfl, rfl⟩
  | traffic inner =>
    obtain ⟨_, hout, ⟨⟩⟩ := bind_eq_ok.mp h
    obtain ⟨inner', hinner, ⟨⟩⟩ := bind_eq_ok.mp hout
    refine ⟨rfl, ?_⟩
    show (do pure [← inner.outPacket checks out addrs]) = _
    rw [hinner]
    rfl

/-- The loop of `recv_task` passes the datagram to the traffic plugin. -/
theorem inPackets_eq_ok {ps ps' : List BoxPlugin} {refused : Bool}
    (h : inPackets (plugin C checks) packet ps = .ok (refused, ps')) :
    (trafficOf ps).mapM (fun inner => inner.inPacket checks packet) = .ok (trafficOf ps') := by
  induction ps generalizing refused ps' with
  | nil =>
    cases h
    rfl
  | cons p ps ih =>
    obtain ⟨⟨v, p'⟩, hp, h⟩ := bind_eq_ok.mp h
    obtain ⟨⟨refused, rest⟩, hrest, ⟨⟩⟩ := bind_eq_ok.mp h
    rw [trafficOf_cons, List.mapM_append, inPacket_traffic hp, ok_bind, ih hrest, ok_bind,
      trafficOf_cons p' rest]
    rfl

/-- The loop of `event_task` passes the packet to the traffic plugin, and none
of the plugins refuses it. -/
theorem outPackets_eq_ok {ps ps' : List BoxPlugin} {refused : Bool}
    (h : outPackets (plugin C checks) out addrs ps = .ok (refused, ps')) :
    refused = false ∧ (trafficOf ps).mapM (fun inner => inner.outPacket checks out addrs) =
      .ok (trafficOf ps') := by
  induction ps generalizing refused ps' with
  | nil =>
    cases h
    exact ⟨rfl, rfl⟩
  | cons p ps ih =>
    obtain ⟨⟨v, p'⟩, hp, h⟩ := bind_eq_ok.mp h
    obtain ⟨rfl, htraffic⟩ := outPacket_traffic hp
    obtain ⟨⟨refused, rest⟩, hrest, ⟨⟩⟩ := bind_eq_ok.mp h
    obtain ⟨hrefused, hrest⟩ := ih hrest
    refine ⟨hrefused, ?_⟩
    rw [trafficOf_cons, List.mapM_append, htraffic, ok_bind, hrest, ok_bind, trafficOf_cons p' rest]
    rfl

end BoxPlugin

end SlpServer
