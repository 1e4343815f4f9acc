import SlpServer.Lib.Lts
import SlpServer.Slp.Peer
import Mathlib.Data.List.AList

/-!
# The peer manager

`slp/peer_manager.rs`: the clients the server knows (`cache`) and the route from
each LAN address to the client that last used it (`map`).

A call that sees a client's frame writes `map`, and `remove` never does, so a
route may outlive its client.  `routed_iff` says of which runs it does not:
those that remove no client while a LAN address leads to it.
-/

namespace SlpServer

open Rust

/-- `InnerPeerManager`.  The value of `map` is to be a key of `cache`. -/
structure InnerPeerManager where
  cache : AList (fun _ : SocketAddr => Peer)
  map : AList (fun _ : Ipv4Addr => SocketAddr)
  ignoreIdle : Bool

namespace InnerPeerManager

def new (ignoreIdle : Bool) : InnerPeerManager := ⟨∅, ∅, ignoreIdle⟩

/-- `PeerManager::remove`. -/
def remove (self : InnerPeerManager) (addr : SocketAddr) : InnerPeerManager :=
  { self with cache := self.cache.erase addr }

/-- `PeerManager::peer_mut`: `func` at the peer of `addr`, which is `new` where
there is none. -/
def peerMut (self : InnerPeerManager) (addr : SocketAddr) (new : Peer) (func : Peer → Peer) :
    InnerPeerManager :=
  { self with cache := self.cache.insert addr (func ((self.cache.lookup addr).getD new)) }

/-- `PeerManager::get_dest_sockaddr`: the frame's source is routed to the
client it came from before its destination is looked up. -/
def getDestSockaddr (self : InnerPeerManager) (src : SocketAddr) (outAddr : OutAddr) :
    List SocketAddr × InnerPeerManager :=
  let self := { self with map := self.map.insert outAddr.srcIp src }
  match self.map.lookup outAddr.dstIp with
  | some addr => ([addr], self)
  | none =>
    let addrs := self.cache.entries
      |>.filter (fun e => !self.ignoreIdle || e.2.state.isConnected)
      |>.filter (fun e => src ≠ e.1)
      |>.map Sigma.fst
    (addrs, self)

/-- `PeerManager::send_lan`: the datagrams it hands to the socket, and the size it
returns. -/
def sendLan (checks : Bool) (packet : Packet) (addrs : List SocketAddr) :
    Exec (List (Packet × SocketAddr) × Nat) := do
  let size ← mulUsize checks addrs.length packet.length
  pure (addrs.map fun addr => (packet, addr), size)

/-- `PeerManager::send_broadcast`: to every client in the cache. -/
def sendBroadcast (self : InnerPeerManager) (checks : Bool) (packet : Packet) :
    Exec (List (Packet × SocketAddr) × Nat) := sendLan checks packet self.cache.keys

/-! ### What a call changes -/

@[simp] theorem map_remove (m : InnerPeerManager) (a : SocketAddr) : (m.remove a).map = m.map := rfl

@[simp] theorem map_peerMut (m : InnerPeerManager) (a : SocketAddr) (new : Peer)
    (func : Peer → Peer) : (m.peerMut a new func).map = m.map := rfl

theorem getDestSockaddr_snd (m : InnerPeerManager) (src : SocketAddr) (out : OutAddr) :
    (m.getDestSockaddr src out).2 = { m with map := m.map.insert out.srcIp src } := by
  unfold getDestSockaddr
  dsimp only
  split <;> rfl

@[simp] theorem cache_getDestSockaddr (m : InnerPeerManager) (src : SocketAddr) (out : OutAddr) :
    (m.getDestSockaddr src out).2.cache = m.cache := by
  rw [getDestSockaddr_snd]

theorem lookup_cache_remove (m : InnerPeerManager) (a b : SocketAddr) :
    (m.remove a).cache.lookup b = if b = a then none else m.cache.lookup b := by
  split
  · rename_i h
    rw [h]
    exact AList.lookup_erase _ _
  · rename_i h
    exact AList.lookup_erase_ne h

theorem lookup_cache_peerMut (m : InnerPeerManager) (a b : SocketAddr) (new : Peer)
    (func : Peer → Peer) : (m.peerMut a new func).cache.lookup b =
      if b = a then some (func ((m.cache.lookup a).getD new)) else m.cache.lookup b := by
  split
  · rename_i h
    rw [h]
    exact AList.lookup_insert _
  · rename_i h
    exact AList.lookup_insert_ne h

theorem mem_cache_remove {m : InnerPeerManager} {a b : SocketAddr} :
    b ∈ (m.remove a).cache ↔ b ≠ a ∧ b ∈ m.cache := AList.mem_erase

theorem mem_cache_peerMut {m : InnerPeerManager} {a b : SocketAddr} {new : Peer}
    {func : Peer → Peer} : b ∈ (m.peerMut a new func).cache ↔ b = a ∨ b ∈ m.cache :=
  AList.mem_insert _

theorem sendLan_eq_ok {checks : Bool} {packet : Packet} {addrs : List SocketAddr}
    {r : List (Packet × SocketAddr) × Nat} (h : sendLan checks packet addrs = .ok r) :
    r.1 = addrs.map fun addr => (packet, addr) := by
  obtain ⟨size, _, ⟨⟩⟩ := bind_eq_ok.mp h
  rfl

theorem lookup_map_getDestSockaddr (m : InnerPeerManager) (src : SocketAddr) (out : OutAddr)
    (ip : Ipv4Addr) : (m.getDestSockaddr src out).2.map.lookup ip =
      if ip = out.srcIp then some src else m.map.lookup ip := by
  rw [getDestSockaddr_snd]
  split
  · rename_i h
    rw [h, AList.lookup_insert]
  · rename_i h
    rw [AList.lookup_insert_ne h]

/-! ### Where a frame goes -/

/-- A frame of `src` goes to `a` if its destination has no route. -/
def Floods (m : InnerPeerManager) (src a : SocketAddr) : Prop :=
  a ≠ src ∧ ∃ p, m.cache.lookup a = some p ∧ (m.ignoreIdle = true → p.state.isConnected = true)

theorem getDestSockaddr_of_some {m : InnerPeerManager} {src a : SocketAddr} {out : OutAddr}
    (h : (m.getDestSockaddr src out).2.map.lookup out.dstIp = some a) :
    (m.getDestSockaddr src out).1 = [a] := by
  rw [getDestSockaddr_snd] at h
  unfold getDestSockaddr
  dsimp only at h ⊢
  rw [h]

theorem mem_getDestSockaddr_of_none {m : InnerPeerManager} {src : SocketAddr} {out : OutAddr}
    (h : (m.getDestSockaddr src out).2.map.lookup out.dstIp = none) (a : SocketAddr) :
    a ∈ (m.getDestSockaddr src out).1 ↔ m.Floods src a := by
  rw [getDestSockaddr_snd] at h
  unfold getDestSockaddr
  dsimp only at h ⊢
  rw [h]
  simp only [List.mem_map, List.mem_filter, Floods]
  constructor
  · rintro ⟨e, ⟨⟨he, hidle⟩, hne⟩, rfl⟩
    refine ⟨fun hc => by simp [hc] at hne, e.2, AList.mem_lookup_iff.mpr he, ?_⟩
    intro hi
    simpa [hi] using hidle
  · rintro ⟨hne, p, hp, hidle⟩
    refine ⟨⟨a, p⟩, ⟨⟨AList.mem_lookup_iff.mp hp, ?_⟩, by simpa using Ne.symm hne⟩, rfl⟩
    cases hi : m.ignoreIdle with
    | true => simp [hidle hi]
    | false => rfl

/-- Where a frame goes: along the route of its destination, and without one
to clients in the cache other than its sender. -/
theorem mem_getDestSockaddr {m : InnerPeerManager} {src a : SocketAddr} {out : OutAddr}
    (h : a ∈ (m.getDestSockaddr src out).1) :
    (m.getDestSockaddr src out).2.map.lookup out.dstIp = some a ∨ (a ∈ m.cache ∧ a ≠ src) := by
  cases hl : (m.getDestSockaddr src out).2.map.lookup out.dstIp with
  | some b =>
    rw [getDestSockaddr_of_some hl, List.mem_singleton] at h
    rw [h]
    exact .inl rfl
  | none =>
    obtain ⟨hne, p, hp, _⟩ := (mem_getDestSockaddr_of_none hl a).mp h
    have hcached : (m.cache.lookup a).isSome = true := by
      rw [hp]
      rfl
    exact .inr ⟨AList.lookup_isSome.mp hcached, hne⟩

/-- No client gets a frame twice. -/
theorem nodup_getDestSockaddr (m : InnerPeerManager) (src : SocketAddr) (out : OutAddr) :
    (m.getDestSockaddr src out).1.Nodup := by
  unfold getDestSockaddr
  dsimp only
  split
  · exact List.nodup_singleton _
  · refine List.Nodup.sublist ?_ m.cache.keys_nodup
    exact ((List.filter_sublist).trans (List.filter_sublist)).map _

/-! ### Runs of calls -/

/-- The calls on a peer manager; the destinations of a frame are asked for on
behalf of the client it came from. -/
inductive Call
  | peerMut (addr : SocketAddr) (new : Peer) (func : Peer → Peer)
  | remove (addr : SocketAddr)
  | getDestSockaddr (src : SocketAddr) (outAddr : OutAddr)

def Call.apply (m : InnerPeerManager) : Call → InnerPeerManager
  | .peerMut addr new func => m.peerMut addr new func
  | .remove addr => m.remove addr
  | .getDestSockaddr src outAddr => (m.getDestSockaddr src outAddr).2

/-- `get_dest_sockaddr` is only called for a client in the cache. -/
def Call.Allowed (m : InnerPeerManager) : Call → Prop
  | .getDestSockaddr src _ => src ∈ m.cache
  | _ => True

def calls (ignoreIdle : Bool) : Lts InnerPeerManager Call where
  init m := m = new ignoreIdle
  step m c m' := c.Allowed m ∧ m' = c.apply m

/-- Every route leads to a client in the cache. -/
def NoDangling (m : InnerPeerManager) : Prop :=
  ∀ ip a, m.map.lookup ip = some a → a ∈ m.cache

/-- No route dangles, and no frame goes to a client that is not in the cache. -/
def Routed (m : InnerPeerManager) : Prop :=
  m.NoDangling ∧ ∀ src ∈ m.cache, ∀ out, ∀ a ∈ (m.getDestSockaddr src out).1, a ∈ m.cache

theorem noDangling_getDestSockaddr {m : InnerPeerManager} (h : m.NoDangling) {src : SocketAddr}
    (hsrc : src ∈ m.cache) (out : OutAddr) : (m.getDestSockaddr src out).2.NoDangling := by
  intro ip a ha
  rw [lookup_map_getDestSockaddr] at ha
  rw [cache_getDestSockaddr]
  split at ha
  · cases ha
    exact hsrc
  · exact h ip a ha

theorem NoDangling.routed {m : InnerPeerManager} (h : m.NoDangling) : m.Routed := by
  refine ⟨h, ?_⟩
  intro src hsrc out a ha
  rcases mem_getDestSockaddr ha with hr | ⟨ha, _⟩
  · have := noDangling_getDestSockaddr h hsrc out out.dstIp a hr
    rwa [cache_getDestSockaddr] at this
  · exact ha

/-- The call removes no client that a LAN address leads to. -/
def KeepsRouted (m : InnerPeerManager) (c : Call) : Prop :=
  ∀ addr, c = .remove addr → ∀ ip, m.map.lookup ip ≠ some addr

/-- One call leaves no dangling route exactly when it removes no client that
a route leads to. -/
theorem step_routed {ignoreIdle : Bool} {m m' : InnerPeerManager} {c : Call} (hm : m.Routed)
    (h : (calls ignoreIdle).step m c m') : m'.Routed ↔ m.KeepsRouted c := by
  obtain ⟨hallowed, rfl⟩ := h
  cases c with
  | peerMut addr new func =>
    refine ⟨fun _ _ hc => (nomatch hc), fun _ => NoDangling.routed ?_⟩
    intro ip a ha
    exact mem_cache_peerMut.mpr (.inr (hm.1 ip a ha))
  | getDestSockaddr src out =>
    refine ⟨fun _ _ hc => (nomatch hc), fun _ => ?_⟩
    exact (noDangling_getDestSockaddr hm.1 hallowed out).routed
  | remove addr =>
    constructor
    · intro hr b hb ip hip
      cases hb
      exact (mem_cache_remove.mp (hr.1 ip addr hip)).1 rfl
    · intro hk
      refine NoDangling.routed fun ip a ha => mem_cache_remove.mpr ⟨?_, hm.1 ip a ha⟩
      rintro rfl
      exact hk a rfl ip ha

/-- **When the peer table has no dangling route**: as long as no client is
removed while a LAN address leads to it. -/
theorem routed_iff (ignoreIdle : Bool) {r : List (Call × InnerPeerManager)}
    (hr : (calls ignoreIdle).Run (new ignoreIdle) r) :
    Lts.Always Routed (new ignoreIdle) r ↔ Lts.Guarded KeepsRouted (new ignoreIdle) r := by
  have hnew : (new ignoreIdle).Routed := NoDangling.routed fun ip a ha => by cases ha
  exact Lts.always_iff_guarded (fun _ _ _ _ hm h => step_routed hm h) (.init rfl) hnew hr

/-- A client that joins, sends one frame and is removed. -/
def passerBy : SocketAddr := .v4 ⟨192, 168, 1, 2⟩ 4000
def itsFrame : OutAddr := ⟨⟨10, 13, 37, 1⟩, ⟨10, 13, 37, 2⟩⟩
def joined : InnerPeerManager := (new false).peerMut passerBy (.new 0 0) id
def seen : InnerPeerManager := (joined.getDestSockaddr passerBy itsFrame).2

theorem mem_cache_joined : passerBy ∈ joined.cache := mem_cache_peerMut.mpr (.inl rfl)

/-- Another client comes and is removed; no route leads to it. -/
def visitor : SocketAddr := .v4 ⟨192, 168, 1, 3⟩ 4000

def visited : List (Call × InnerPeerManager) :=
  [(.peerMut passerBy (.new 0 0) id, joined), (.getDestSockaddr passerBy itsFrame, seen),
    (.peerMut visitor (.new 1 0) id, seen.peerMut visitor (.new 1 0) id),
    (.remove visitor, (seen.peerMut visitor (.new 1 0) id).remove visitor)]

theorem run_visited : (calls false).Run (new false) visited :=
  ⟨⟨trivial, rfl⟩, ⟨mem_cache_joined, rfl⟩, ⟨trivial, rfl⟩, ⟨trivial, rfl⟩, trivial⟩

theorem routed_seen : Lts.Always Routed (new false) visited := by
  have hother : ∀ ip, seen.map.lookup ip ≠ some visitor := by
    intro ip hip
    rw [seen, lookup_map_getDestSockaddr] at hip
    split at hip
    · exact absurd hip (by decide)
    · cases hip
  refine (routed_iff false run_visited).mpr ⟨fun _ hc => (nomatch hc), fun _ hc => (nomatch hc),
    fun _ hc => (nomatch hc), ?_, trivial⟩
  rintro addr ⟨⟩
  exact hother

theorem dangling_after_remove : ¬ ∀ (ignoreIdle : Bool) (m : InnerPeerManager),
    (calls ignoreIdle).Reachable m → m.NoDangling := by
  intro h
  have hseen : (calls false).Reachable seen :=
    .step (a := .getDestSockaddr passerBy itsFrame)
      (.step (a := .peerMut passerBy (.new 0 0) id) (.init rfl) ⟨trivial, rfl⟩)
      ⟨mem_cache_joined, rfl⟩
  have hremoved : (calls false).Reachable (seen.remove passerBy) :=
    hseen.step (a := .remove passerBy) ⟨trivial, rfl⟩
  have hmem := h false _ hremoved ⟨10, 13, 37, 1⟩ passerBy rfl
  exact (mem_cache_remove.mp hmem).1 rfl

end InnerPeerManager

end SlpServer
