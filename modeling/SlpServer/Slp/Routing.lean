import SlpServer.Lib.Latest
import SlpServer.Plugin.LdnMitm.Plugin
import SlpServer.Slp.PeerManager

/-!
# Where frames go

`get_dest_sockaddr` learns the address of its sender before it looks up the
destination, and nothing but such a call writes a route.  So `map` is the
history of these calls: `lookup_map_after`, the route of an address is the
sender of the latest frame from it.  `getDestSockaddr_history` says what this
makes of the destinations of a frame.

The table takes any address from any client.  A frame *from* the broadcast
address gives that address a route, and the next frame to it goes along the
route instead of to everyone (`broadcast_iff`).
-/

namespace SlpServer

namespace InnerPeerManager

/-! ### The history of the routes -/

/-- The state after some calls on an empty peer manager. -/
def after (ignoreIdle : Bool) (cs : List Call) : InnerPeerManager :=
  cs.foldl Call.apply (new ignoreIdle)

theorem after_concat (ignoreIdle : Bool) (cs : List Call) (c : Call) :
    after ignoreIdle (cs ++ [c]) = c.apply (after ignoreIdle cs) := by
  rw [after, List.foldl_append]
  rfl

theorem ignoreIdle_apply (m : InnerPeerManager) (c : Call) :
    (c.apply m).ignoreIdle = m.ignoreIdle := by
  cases c with
  | peerMut addr new func => rfl
  | remove addr => rfl
  | getDestSockaddr src out => rw [Call.apply, getDestSockaddr_snd]

theorem ignoreIdle_after (ignoreIdle : Bool) (cs : List Call) :
    (after ignoreIdle cs).ignoreIdle = ignoreIdle := by
  induction cs using List.reverseRecOn with
  | nil => rfl
  | append_singleton cs c ih => rw [after_concat, ignoreIdle_apply, ih]

/-- The client that a call shows to be at `ip`. -/
def Call.learns (ip : Ipv4Addr) : Call → Option SocketAddr
  | .getDestSockaddr src out => if out.srcIp = ip then some src else none
  | _ => none

/-- The client the latest frame from `ip` came from. -/
def lastSender (cs : List Call) (ip : Ipv4Addr) : Option SocketAddr := latest (Call.learns ip) cs

theorem Call.learns_eq_some {ip : Ipv4Addr} {c : Call} {a : SocketAddr} :
    c.learns ip = some a ↔ ∃ out : OutAddr, c = .getDestSockaddr a out ∧ out.srcIp = ip := by
  cases c with
  | peerMut addr new func => simp [learns]
  | remove addr => simp [learns]
  | getDestSockaddr src out =>
    rw [learns]
    constructor
    · intro h
      split at h
      · cases h
        exact ⟨out, rfl, by assumption⟩
      · cases h
    · rintro ⟨out', hc, hip⟩
      cases hc
      rw [if_pos hip]

/-- The last sender of an address is that of a frame from it with no other
behind it. -/
theorem lastSender_eq_some_iff {cs : List Call} {ip : Ipv4Addr} {a : SocketAddr} :
    lastSender cs ip = some a ↔ ∃ pre out post, cs = pre ++ .getDestSockaddr a out :: post ∧
      out.srcIp = ip ∧ ∀ c ∈ post, c.learns ip = none := by
  rw [lastSender, latest_eq_some_iff]
  constructor
  · rintro ⟨pre, c, post, hcs, hc, hpost⟩
    obtain ⟨out, rfl, hip⟩ := Call.learns_eq_some.mp hc
    exact ⟨pre, out, post, hcs, hip, hpost⟩
  · rintro ⟨pre, out, post, hcs, hip, hpost⟩
    exact ⟨pre, _, post, hcs, Call.learns_eq_some.mpr ⟨out, rfl, hip⟩, hpost⟩

theorem lookup_map_apply (m : InnerPeerManager) (c : Call) (ip : Ipv4Addr) :
    (c.apply m).map.lookup ip = (c.learns ip).or (m.map.lookup ip) := by
  cases c with
  | peerMut addr new func => rfl
  | remove addr => rfl
  | getDestSockaddr src out =>
    rw [Call.apply, lookup_map_getDestSockaddr, Call.learns]
    by_cases h : ip = out.srcIp
    · rw [if_pos h, if_pos h.symm, Option.some_or]
    · rw [if_neg h, if_neg (Ne.symm h), Option.none_or]

/-- **The routes are the history**: each leads to the client the latest frame
from its address came from. -/
theorem lookup_map_after (ignoreIdle : Bool) (cs : List Call) (ip : Ipv4Addr) :
    (after ignoreIdle cs).map.lookup ip = lastSender cs ip := by
  induction cs using List.reverseRecOn with
  | nil => rfl
  | append_singleton cs c ih =>
    rw [after_concat, lookup_map_apply, ih, lastSender, lastSender, latest_concat]

/-! ### Destinations -/

theorem lookup_map_call (ignoreIdle : Bool) (cs : List Call) (src : SocketAddr) (out : OutAddr)
    (ip : Ipv4Addr) : ((after ignoreIdle cs).getDestSockaddr src out).2.map.lookup ip =
      lastSender (cs ++ [.getDestSockaddr src out]) ip := by
  rw [← lookup_map_after ignoreIdle, after_concat]
  rfl

/-- **Address learning refines the history.**  A frame goes to the client that
the latest frame from its destination came from; where there was none, this one
included, it goes to every client in the cache but its sender, once to each.
The call changes nothing but the route of the frame's source. -/
theorem getDestSockaddr_history (ignoreIdle : Bool) (cs : List Call) (src : SocketAddr)
    (out : OutAddr) :
    let m := after ignoreIdle cs
    let r := m.getDestSockaddr src out
    (match lastSender (cs ++ [.getDestSockaddr src out]) out.dstIp with
      | some a => r.1 = [a]
      | none => r.1.Nodup ∧ ∀ a, a ∈ r.1 ↔ a ≠ src ∧ ∃ p, m.cache.lookup a = some p ∧
          (ignoreIdle = true → p.state.isConnected = true)) ∧
    r.2.cache = m.cache ∧ r.2.ignoreIdle = m.ignoreIdle ∧
    ∀ ip, r.2.map.lookup ip = if ip = out.srcIp then some src else m.map.lookup ip := by
  intro m r
  have hroute : r.2.map.lookup out.dstIp =
      lastSender (cs ++ [.getDestSockaddr src out]) out.dstIp :=
    lookup_map_call ignoreIdle cs src out out.dstIp
  refine ⟨?_, cache_getDestSockaddr m src out, ?_, lookup_map_getDestSockaddr m src out⟩
  · cases hl : lastSender (cs ++ [.getDestSockaddr src out]) out.dstIp with
    | some a => exact getDestSockaddr_of_some (hroute.trans hl)
    | none =>
      refine ⟨nodup_getDestSockaddr m src out, fun a => ?_⟩
      rw [mem_getDestSockaddr_of_none (hroute.trans hl), Floods,
        ignoreIdle_after]
  · exact ignoreIdle_apply m (.getDestSockaddr src out)

/-! ### Broadcast -/

/-- A broadcast of `src` reaches the clients it is for, and no other. -/
def Broadcasts (m : InnerPeerManager) (src : SocketAddr) (srcIp : Ipv4Addr) : Prop :=
  ∀ a, a ∈ (m.getDestSockaddr src ⟨srcIp, LdnMitm.broadcastAddr⟩).1 ↔ m.Floods src a

/-- **When a broadcast reaches everyone**: if no frame so far, this one
included, came *from* the broadcast address; after one that did, only if the
client it came from is all there is to reach. -/
theorem broadcast_iff (ignoreIdle : Bool) (cs : List Call) (src : SocketAddr) (srcIp : Ipv4Addr) :
    let cs' := cs ++ [.getDestSockaddr src ⟨srcIp, LdnMitm.broadcastAddr⟩]
    (after ignoreIdle cs).Broadcasts src srcIp ↔
      (∀ c ∈ cs', c.learns LdnMitm.broadcastAddr = none) ∨
      ∃ b, lastSender cs' LdnMitm.broadcastAddr = some b ∧
        ∀ a, (after ignoreIdle cs).Floods src a ↔ a = b := by
  intro cs'
  have hroute : ((after ignoreIdle cs).getDestSockaddr src
      ⟨srcIp, LdnMitm.broadcastAddr⟩).2.map.lookup LdnMitm.broadcastAddr =
      lastSender cs' LdnMitm.broadcastAddr :=
    lookup_map_call ignoreIdle cs src ⟨srcIp, LdnMitm.broadcastAddr⟩ LdnMitm.broadcastAddr
  rw [← latest_eq_none_iff, ← lastSender, Broadcasts]
  cases hl : lastSender cs' LdnMitm.broadcastAddr with
  | none =>
    exact iff_of_true (mem_getDestSockaddr_of_none (hroute.trans hl)) (.inl rfl)
  | some b =>
    have hone : ((after ignoreIdle cs).getDestSockaddr src ⟨srcIp, LdnMitm.broadcastAddr⟩).1 =
        [b] := getDestSockaddr_of_some (hroute.trans hl)
    rw [hone]
    constructor
    · intro h
      refine .inr ⟨b, rfl, fun a => ?_⟩
      rw [← h a, List.mem_singleton]
    · rintro (h | ⟨b', hb, h⟩)
      · cases h
      · cases hb
        intro a
        rw [h a, List.mem_singleton]

/-- Two clients, and one that uses the broadcast address as its own. -/
def listener : SocketAddr := .v4 ⟨192, 168, 1, 3⟩ 4000
def bystander : SocketAddr := .v4 ⟨192, 168, 1, 4⟩ 4000

def capture : List Call :=
  [.peerMut passerBy (.new 0 0) id, .peerMut listener (.new 1 0) id,
    .peerMut bystander (.new 2 0) id,
    .getDestSockaddr passerBy ⟨LdnMitm.broadcastAddr, ⟨10, 13, 37, 2⟩⟩]

theorem broadcast_captured : ¬ ∀ (ignoreIdle : Bool) (cs : List Call) (src : SocketAddr)
    (srcIp : Ipv4Addr), (after ignoreIdle cs).Broadcasts src srcIp := by
  intro h
  have hall := h false capture listener ⟨10, 13, 37, 3⟩ bystander
  have hflood : (after false capture).Floods listener bystander :=
    ⟨by decide, .new 2 0, rfl, fun _ => rfl⟩
  have hmem := hall.mpr hflood
  have hresult : ((after false capture).getDestSockaddr listener
      ⟨⟨10, 13, 37, 3⟩, LdnMitm.broadcastAddr⟩).1 = [passerBy] := rfl
  rw [hresult, List.mem_singleton] at hmem
  exact absurd hmem (by decide)

end InnerPeerManager

end SlpServer
