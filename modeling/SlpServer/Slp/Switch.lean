import SlpServer.Lib.Switch
import SlpServer.Slp.Lifecycle

/-!
# The server is a learning switch

`Represents` relates the peer manager to the history of a switch whose ports are
the clients: `peer_mut` brings a port up, `remove` takes it down, and
`get_dest_sockaddr` is a frame.  The log of the server has these calls in their
order (`Recorded`), and what `send_lan` is given for a frame are the ports at
which such a switch forwards it there (`switched`).
-/

namespace SlpServer

open Rust PeerTask

/-- What the peer manager has seen. -/
abbrev History := List (SwitchEvent SocketAddr Ipv4Addr)

namespace InnerPeerManager

/-- The routes and the clients are those of the switch. -/
structure Represents (m : InnerPeerManager) (h : History) : Prop where
  map : ∀ ip, m.map.lookup ip = Switch.portOf h ip
  cache : ∀ a, (m.cache.lookup a).map (fun p => p.state.isConnected) = Switch.status h a

theorem represents_new (ignoreIdle : Bool) : (new ignoreIdle).Represents [] :=
  ⟨fun _ => rfl, fun _ => rfl⟩

variable {m : InnerPeerManager} {h : History}

theorem Represents.peerMut (hm : m.Represents h) (a : SocketAddr) (new : Peer)
    (func : Peer → Peer) : (m.peerMut a new func).Represents
      (h ++ [.up a (func ((m.cache.lookup a).getD new)).state.isConnected]) where
  map ip := by
    rw [map_peerMut, Switch.portOf_concat]
    exact hm.map ip
  cache b := by
    rw [lookup_cache_peerMut, Switch.status_concat, SwitchEvent.turns]
    by_cases hb : b = a
    · rw [if_pos hb, if_pos hb.symm]
      rfl
    · rw [if_neg hb, if_neg (Ne.symm hb)]
      exact hm.cache b

theorem Represents.remove (hm : m.Represents h) (a : SocketAddr) :
    (m.remove a).Represents (h ++ [.down a]) where
  map ip := by
    rw [map_remove, Switch.portOf_concat]
    exact hm.map ip
  cache b := by
    rw [lookup_cache_remove, Switch.status_concat, SwitchEvent.turns]
    by_cases hb : b = a
    · rw [if_pos hb, if_pos hb.symm]
      rfl
    · rw [if_neg hb, if_neg (Ne.symm hb)]
      exact hm.cache b

theorem Represents.getDestSockaddr (hm : m.Represents h) (src : SocketAddr) (out : OutAddr) :
    (m.getDestSockaddr src out).2.Represents (h ++ [.frame src out.srcIp out.dstIp]) where
  map ip := by
    rw [lookup_map_getDestSockaddr, Switch.portOf_concat, SwitchEvent.shows]
    by_cases hip : ip = out.srcIp
    · rw [if_pos hip, if_pos hip.symm, Option.some_or]
    · rw [if_neg hip, if_neg (Ne.symm hip), Option.none_or]
      exact hm.map ip
  cache a := by
    rw [cache_getDestSockaddr, Switch.status_concat]
    exact hm.cache a

theorem Represents.open_iff (hm : m.Represents h) (a : SocketAddr) :
    Switch.Open m.ignoreIdle h a ↔ ∃ p, m.cache.lookup a = some p ∧
      (m.ignoreIdle = true → p.state.isConnected = true) := by
  unfold Switch.Open
  rw [← hm.cache]
  constructor
  · rintro ⟨busy, hbusy, hidle⟩
    obtain ⟨p, hp, rfl⟩ := Option.map_eq_some_iff.mp hbusy
    exact ⟨p, hp, hidle⟩
  · rintro ⟨p, hp, hidle⟩
    exact ⟨p.state.isConnected, by rw [hp]; rfl, hidle⟩

/-- Its destinations are the ports it goes out at, each once. -/
theorem Represents.mem_getDestSockaddr_iff (hm : m.Represents h) (src : SocketAddr) (out : OutAddr)
    (a : SocketAddr) : a ∈ (m.getDestSockaddr src out).1 ↔
      Switch.Forwards m.ignoreIdle h src out.srcIp out.dstIp a := by
  have hroute := (hm.getDestSockaddr src out).map out.dstIp
  cases hport : Switch.portOf (h ++ [.frame src out.srcIp out.dstIp]) out.dstIp with
  | some r =>
    rw [getDestSockaddr_of_some (hroute.trans hport), List.mem_singleton,
      Switch.forwards_of_some hport]
  | none =>
    rw [mem_getDestSockaddr_of_none (hroute.trans hport), Switch.forwards_of_none hport, Floods,
      hm.open_iff]

end InnerPeerManager

/-! ### The history -/

namespace Seen

variable {P : Type}

/-- As a switch sees it. -/
def event : Seen → SwitchEvent SocketAddr Ipv4Addr
  | heard d peer => .up d.packet.addr peer.state.isConnected
  | ended _ addr => .down addr
  | routed _ src out => .frame src out.addr.srcIp out.addr.dstIp

/-- The datagram that was handed to a peer. -/
def handed? : Seen → Option Nat
  | heard d _ => some d.stamp
  | _ => none

/-- The datagram that a routed frame was made of. -/
def frame? : Seen → Option Nat
  | routed e _ _ => e.stamp
  | _ => none

/-- It is a datagram that was received, the end of a task, or the frame in a
datagram of `src`. -/
def Genuine (s : Server P) : Seen → Prop
  | heard d _ => s.received[d.stamp]? = some d.packet
  | ended e addr => e ∈ s.posted ∧ e.event = .close addr
  | routed e src out => e ∈ s.posted ∧ e.event = .sendLAN src out ∧
    doPacket out.data = .ok (.ok (some out)) ∧
    ∃ n, e.stamp = some n ∧ s.received[n]? = some ⟨out.data, src⟩

theorem Genuine.mono {s s' : Server P} {x : Seen} (h : x.Genuine s) {packets : List InPacket}
    (hreceived : s'.received = s.received ++ packets) {more : List Posted}
    (hposted : s'.posted = s.posted ++ more) : x.Genuine s' := by
  cases x with
  | heard d peer =>
    show s'.received[d.stamp]? = some d.packet
    rw [hreceived, getElem?_append_of_some h]
  | ended e addr =>
    refine ⟨?_, h.2⟩
    rw [hposted]
    exact List.mem_append_left _ h.1
  | routed e src out =>
    obtain ⟨he, hev, hout, n, hn, hrec⟩ := h
    refine ⟨?_, hev, hout, n, hn, ?_⟩
    · rw [hposted]
      exact List.mem_append_left _ he
    · rw [hreceived]
      exact getElem?_append_of_some hrec _

end Seen

namespace Server

variable {P : Type}

/-- Where the frame of `e` stands in the history, the switch sends it to `addrs`,
once to each. -/
def Switched (ignoreIdle : Bool) (seen : List Seen) (e : Posted) (addrs : List SocketAddr) :
    Prop :=
  addrs.Nodup ∧ ∃ pre a out post, seen = pre ++ .routed e a out :: post ∧
    e.event = .sendLAN a out ∧ ∀ q, q ∈ addrs ↔
      Switch.Forwards ignoreIdle (pre.map Seen.event) a out.addr.srcIp out.addr.dstIp q

theorem Switched.mono {ignoreIdle : Bool} {seen : List Seen} {e : Posted} {addrs : List SocketAddr}
    (hs : Switched ignoreIdle seen e addrs) (more : List Seen) :
    Switched ignoreIdle (seen ++ more) e addrs := by
  obtain ⟨hnodup, pre, a, out, post, rfl, hrest⟩ := hs
  exact ⟨hnodup, pre, a, out, post ++ more, by rw [List.append_assoc, List.cons_append], hrest⟩

/-- The server is the switch that its history is of. -/
structure Recorded (s : Server P) : Prop where
  /-- The addresses of a frame are those in its datagram. -/
  framed : ∀ e ∈ s.posted, ∀ src out, e.event = .sendLAN src out →
    doPacket out.data = .ok (.ok (some out))
  manager : s.manager.Represents (s.seen.map Seen.event)
  genuine : ∀ x ∈ s.seen, x.Genuine s
  /-- The datagrams handed to peers, in order, -/
  handed : s.seen.filterMap Seen.handed? = s.handed.map Handed.stamp
  /-- and the frames that have been routed, each once. -/
  once : (s.seen.filterMap Seen.frame?).Nodup
  ahead : ∀ j ∈ work s, j.phase = .started → ∀ n, j.posted.stamp = some n →
    n ∉ s.seen.filterMap Seen.frame?
  jobs : ∀ j ∈ s.jobs, ∀ addrs, j.phase = .routed addrs →
    Switched s.manager.ignoreIdle s.seen j.posted addrs
  calls : ∀ c ∈ s.lanCalls, Switched s.manager.ignoreIdle s.seen c.posted c.addrs

/-! ### Steps -/

section
variable {s : Server P}

/-- The frame that a task sends is the one in its datagram. -/
theorem Flow.framed {i : PeerId} {t t' : PeerTask} {now : Instant} {orphan closed : Bool}
    {e : Posted} (hf : Flow s) (ht : s.tasks[i]? = some t)
    (hs : t.Step now orphan closed i (some e) t') {src : SocketAddr} {out : OutPacket}
    (hev : e.event = .sendLAN src out) : doPacket out.data = .ok (.ok (some out)) := by
  obtain rfl | ⟨d, out', hd, rfl, _⟩ := hs.sends_cases
  · cases hev
  · cases hev
    have hdo := (hf.tasks i t ht).sending d out hd
    obtain ⟨r, hr, hdata⟩ := doPacket_total d.packet.data
    rw [hr] at hdo
    cases hdo
    rw [hdata out rfl]
    exact hr

theorem Recorded.posted_of_frame (hr : Recorded s) {n : Nat}
    (hn : n ∈ s.seen.filterMap Seen.frame?) : ∃ e ∈ s.posted, e.stamp = some n := by
  obtain ⟨x, hx, hxn⟩ := List.mem_filterMap.mp hn
  cases x with
  | heard | ended => cases hxn
  | routed e src out => exact ⟨e, (hr.genuine _ hx).1, hxn⟩

/-- The event task goes on, and the switch sees nothing of it. -/
theorem Recorded.of_jobs (hr : Recorded s) {jobs jobs' : List Job} {j : Job}
    (hjobs : s.jobs = jobs ++ j :: jobs') (more : List Job)
    (hmore : ∀ j ∈ more, j.phase ≠ .started ∧ ∀ addrs, j.phase ≠ .routed addrs) :
    (∀ j ∈ s.events.queue.map (Job.mk · .started) ++ (jobs ++ (more ++ jobs')),
      j.phase = .started → ∀ n, j.posted.stamp = some n → n ∉ s.seen.filterMap Seen.frame?) ∧
    ∀ j ∈ jobs ++ (more ++ jobs'), ∀ addrs, j.phase = .routed addrs →
      Switched s.manager.ignoreIdle s.seen j.posted addrs := by
  constructor
  · intro x hx hphase
    rcases mem_work_replace hjobs more hx with hx | hx
    · exact absurd hphase (hmore x hx).1
    · exact hr.ahead x hx hphase
  · intro x hx addrs hphase
    rcases mem_replace hjobs more hx with hx | hx
    · exact absurd hphase ((hmore x hx).2 addrs)
    · exact hr.jobs x hx addrs hphase

theorem Recorded.dispatch (hr : Recorded s) (hf : Flow s) {d : Stamped}
    (hd : s.recv = .deciding d) (peer peer' : Peer) (tasks : List PeerTask)
    (result : Except TrySendError Unit) : Recorded { s with
      recv := .idle
      manager := s.manager.peerMut d.packet.addr peer fun _ => peer'
      tasks
      handed := s.handed ++ [⟨peer.sender, d.stamp, s.now, result⟩]
      seen := s.seen ++ [.heard d peer'] } where
  framed := hr.framed
  manager := by
    rw [List.map_append]
    exact hr.manager.peerMut d.packet.addr peer fun _ => peer'
  genuine x hx := by
    rcases List.mem_append.mp hx with hx | hx
    · exact (hr.genuine x hx).mono (List.append_nil _).symm (List.append_nil _).symm
    · rw [List.mem_singleton.mp hx]
      exact (hf.recv d (by rw [hd]; rfl)).1
  handed := by
    rw [List.filterMap_append, hr.handed, List.map_append]
    rfl
  once := by
    rw [List.filterMap_append]
    exact (List.append_nil _).symm ▸ hr.once
  ahead j hj hphase n hn := by
    rw [List.filterMap_append]
    exact (List.append_nil _).symm ▸ hr.ahead j hj hphase n hn
  jobs j hj addrs hphase := (hr.jobs j hj addrs hphase).mono _
  calls c hc := (hr.calls c hc).mono _

theorem Recorded.close (hr : Recorded s) {jobs jobs' : List Job} {e : Posted} {addr : SocketAddr}
    (hjobs : s.jobs = jobs ++ ⟨e, .started⟩ :: jobs') (he : e.event = .close addr)
    (hposted : e ∈ s.posted) : Recorded { s with
      manager := s.manager.remove addr
      jobs := jobs ++ jobs'
      seen := s.seen ++ [.ended e addr] } where
  framed := hr.framed
  manager := by
    rw [List.map_append]
    exact hr.manager.remove addr
  genuine x hx := by
    rcases List.mem_append.mp hx with hx | hx
    · exact (hr.genuine x hx).mono (List.append_nil _).symm (List.append_nil _).symm
    · rw [List.mem_singleton.mp hx]
      exact ⟨hposted, he⟩
  handed := by
    rw [List.filterMap_append, hr.handed]
    exact List.append_nil _
  once := by
    rw [List.filterMap_append]
    exact (List.append_nil _).symm ▸ hr.once
  ahead j hj hphase n hn := by
    rw [List.filterMap_append]
    exact (List.append_nil _).symm ▸
      (hr.of_jobs hjobs [] fun _ hx => (nomatch hx)).1 j hj hphase n hn
  jobs j hj addrs hphase :=
    ((hr.of_jobs hjobs [] fun _ hx => (nomatch hx)).2 j hj addrs hphase).mono _
  calls c hc := (hr.calls c hc).mono _

theorem Recorded.route (hr : Recorded s) (hd : Delivery s.posted s.sent (work s))
    {jobs jobs' : List Job} {e : Posted} {src : SocketAddr} {out : OutPacket}
    {addrs : List SocketAddr} (hjobs : s.jobs = jobs ++ ⟨e, .started⟩ :: jobs')
    (he : e.event = .sendLAN src out) (hposted : e ∈ s.posted) {n : Nat} (hn : e.stamp = some n)
    (hrec : s.received[n]? = some ⟨out.data, src⟩)
    (haddrs : addrs.Perm (s.manager.getDestSockaddr src out.addr).1) : Recorded { s with
      manager := (s.manager.getDestSockaddr src out.addr).2
      jobs := jobs ++ ⟨e, .routed addrs⟩ :: jobs'
      seen := s.seen ++ [.routed e src out] } := by
  have hidle : (s.manager.getDestSockaddr src out.addr).2.ignoreIdle = s.manager.ignoreIdle := by
    rw [InnerPeerManager.getDestSockaddr_snd]
  have hfresh : n ∉ s.seen.filterMap Seen.frame? := hr.ahead _ (mem_work hjobs) rfl n hn
  have hframe : (Seen.routed e src out).frame? = some n := hn
  have hrouted : (s.seen ++ [Seen.routed e src out]).filterMap Seen.frame? =
      s.seen.filterMap Seen.frame? ++ [n] := by
    rw [List.filterMap_append, List.filterMap_cons_some hframe, List.filterMap_nil]
  refine ⟨hr.framed, ?_, ?_, ?_, ?_, ?_, ?_, ?_⟩
  · rw [List.map_append]
    exact hr.manager.getDestSockaddr src out.addr
  · intro x hx
    rcases List.mem_append.mp hx with hx | hx
    · exact (hr.genuine x hx).mono (List.append_nil _).symm (List.append_nil _).symm
    · rw [List.mem_singleton.mp hx]
      exact ⟨hposted, he, hr.framed e hposted src out he, n, hn, hrec⟩
  · rw [List.filterMap_append, hr.handed]
    exact List.append_nil _
  · rw [hrouted, List.nodup_append]
    refine ⟨hr.once, List.nodup_singleton _, ?_⟩
    rintro k hk m hm rfl
    rw [List.mem_singleton.mp hm] at hk
    exact hfresh hk
  · intro j hj hphase k hk hmem
    rw [hrouted, List.mem_append, List.mem_singleton] at hmem
    rcases hmem with hmem | rfl
    · rcases mem_work_replace hjobs [⟨e, .routed addrs⟩] hj with hj | hj
      · rw [List.mem_singleton.mp hj] at hphase
        cases hphase
      · exact hr.ahead j hj hphase k hk hmem
    · -- no other event is of the same datagram
      rcases List.mem_cons.mp ((work_perm rfl).subset hj) with rfl | hj
      · cases hphase
      · exact (hd.of_perm (work_perm hjobs)).stamp_ne hn j hj hk
  · intro j hj addrs' hphase
    rw [hidle]
    rcases mem_replace hjobs [⟨e, .routed addrs⟩] hj with hj | hj
    · rw [List.mem_singleton.mp hj] at hphase ⊢
      cases hphase
      refine ⟨haddrs.nodup_iff.mpr (InnerPeerManager.nodup_getDestSockaddr _ _ _), s.seen, src, out,
        [], rfl, he, fun q => ?_⟩
      rw [haddrs.mem_iff]
      exact hr.manager.mem_getDestSockaddr_iff src out.addr q
    · exact (hr.jobs j hj addrs' hphase).mono _
  · intro c hc
    rw [hidle]
    exact (hr.calls c hc).mono _

end

/-- Every step is one of the switch, or none. -/
theorem Recorded.step {plugin : Plugin P} {s s' : Server P} {l : Label} (hr : Recorded s)
    (hf : Flow s) (hd : Delivery s.posted s.sent (work s)) (hstep : Step plugin s l s') :
    Recorded s' := by
  have hgenuine : ∀ {s' : Server P} {packets : List InPacket} {more : List Posted},
      s'.received = s.received ++ packets → s'.posted = s.posted ++ more →
        ∀ x ∈ s.seen, x.Genuine s' :=
    fun hreceived hposted x hx => (hr.genuine x hx).mono hreceived hposted
  have hkept := (List.append_nil s.received).symm
  have hsent := (List.append_nil s.posted).symm
  cases hstep with
  | receive packet =>
    exact ⟨hr.framed, hr.manager, hgenuine rfl hsent, hr.handed, hr.once, hr.ahead, hr.jobs,
      hr.calls⟩
  | dispatch hrecv => exact hr.dispatch hf hrecv _ _ _ _
  | @taskSends i t t' e events ht hturn hsend =>
    refine ⟨?_, hr.manager, hgenuine hkept rfl, hr.handed, hr.once, ?_, hr.jobs, hr.calls⟩
    · intro x hx src out hev
      rcases List.mem_append.mp hx with hx | hx
      · exact hr.framed x hx src out hev
      · rw [List.mem_singleton.mp hx] at hev
        exact hf.framed ht hturn hev
    · intro j hj hphase n hn hmem
      simp only [work, (Chan.trySend_eq_ok hsend).2.2, List.map_append] at hj
      rcases List.mem_append.mp hj with hj | hj
      · rcases List.mem_append.mp hj with hj | hj
        · exact hr.ahead j (List.mem_append_left _ hj) hphase n hn hmem
        · rw [List.map_singleton, List.mem_singleton] at hj
          obtain ⟨x, hx, hxn⟩ := hr.posted_of_frame hmem
          rw [hj] at hn
          exact hf.fresh ht hturn hn x hx hxn
      · exact hr.ahead j (List.mem_append_right _ hj) hphase n hn hmem
  | @take e events hrecv hjobs =>
    refine ⟨hr.framed, hr.manager, hgenuine hkept hsent, hr.handed, hr.once, ?_, ?_, hr.calls⟩
    · intro j hj
      refine hr.ahead j ?_
      rw [work, (Chan.recv_eq_some hrecv).1]
      simp only [work, List.mem_append, List.map_cons, List.mem_cons] at hj ⊢
      tauto
    · intro j hj addrs hphase
      rcases List.mem_append.mp hj with hj | hj
      · exact hr.jobs j hj addrs hphase
      · rw [List.mem_singleton.mp hj] at hphase
        cases hphase
  | @close jobs jobs' e addr hjobs he =>
    exact hr.close hjobs he (hd.known _ (mem_work hjobs))
  | @route jobs jobs' e src out addrs hjobs he haddrs =>
    have hposted := hd.known _ (mem_work hjobs)
    obtain ⟨n, hn, hrec⟩ := hf.stamp_of_sendLAN hposted he
    exact hr.route hd hjobs he hposted hn hrec haddrs
  | @sendLan jobs jobs' e src out addrs order plugins hjobs he =>
    obtain ⟨hahead, hroutes⟩ := hr.of_jobs hjobs [⟨e, .sending addrs⟩] (by simp)
    refine ⟨hr.framed, hr.manager, hgenuine hkept hsent, hr.handed, hr.once, hahead, hroutes, ?_⟩
    intro c hc
    rcases List.mem_append.mp hc with hc | hc
    · exact hr.calls c hc
    · rw [List.mem_singleton.mp hc]
      exact hr.jobs ⟨e, .routed addrs⟩ (by rw [hjobs]; simp) addrs rfl
  | @sendTo jobs jobs' e src out addr addrs hjobs he =>
    obtain ⟨hahead, hroutes⟩ := hr.of_jobs hjobs [⟨e, .sending addrs⟩] (by simp)
    exact ⟨hr.framed, hr.manager, hgenuine hkept hsent, hr.handed, hr.once, hahead, hroutes,
      hr.calls⟩
  | drop hjobs | finish hjobs =>
    obtain ⟨hahead, hroutes⟩ := hr.of_jobs hjobs [] (by simp)
    exact ⟨hr.framed, hr.manager, hgenuine hkept hsent, hr.handed, hr.once, hahead, hroutes,
      hr.calls⟩
  | crash =>
    exact ⟨hr.framed, hr.manager, hgenuine hkept hsent, hr.handed, hr.once,
      fun _ hj => absurd hj List.not_mem_nil, fun _ hj => absurd hj List.not_mem_nil, hr.calls⟩
  | tick | configure | recvFails | filter | filterPanics | discard | pong | task =>
    exact ⟨hr.framed, hr.manager, hgenuine hkept hsent, hr.handed, hr.once, hr.ahead, hr.jobs,
      hr.calls⟩

theorem recorded_of_reachable {plugin : Plugin P} {s : Server P} (h : (lts plugin).Reachable s) :
    Recorded s := by
  have hall : (lts plugin).Reachable s ∧ Recorded s := by
    refine Lts.invariant (p := fun s => (lts plugin).Reachable s ∧ Recorded s) ?_ ?_ h
    · rintro _ ⟨ignoreIdle, plugins, rfl⟩
      refine ⟨.init ⟨ignoreIdle, plugins, rfl⟩, ?_, InnerPeerManager.represents_new ignoreIdle,
        ?_, rfl, .nil, ?_, ?_, ?_⟩
      all_goals exact fun _ hx => (nomatch hx)
    · rintro s l s' ⟨hr, hs⟩ hstep
      exact ⟨hr.step hstep,
        hs.step (flow_of_reachable hr) (delivery_of_reachable hr).1 hstep⟩
  exact hall.2

/-- **The server refines a learning switch.**  In every reachable state the peer
manager is the switch after what it has seen: the datagrams handed to peers in
their order, the frames routed, each once, and the ends of tasks.  What `send_lan`
was given for a frame are the ports at which the switch forwards it where it
stands among these. -/
theorem switched {plugin : Plugin P} {s : Server P} (h : (lts plugin).Reachable s) :
    s.manager.Represents (s.seen.map Seen.event) ∧
      (∀ x ∈ s.seen, x.Genuine s) ∧
      s.seen.filterMap Seen.handed? = s.handed.map Handed.stamp ∧
      (s.seen.filterMap Seen.frame?).Nodup ∧
      ∀ c ∈ s.lanCalls, Switched s.manager.ignoreIdle s.seen c.posted c.addrs := by
  have hs := recorded_of_reachable h
  exact ⟨hs.manager, hs.genuine, hs.handed, hs.once, hs.calls⟩

/-- Alice's frame floods: Bob has been heard, and nobody has used its address. -/
theorem switched_relayTurns :
    (outcome noPlugin [] relayTurns).seen.map Seen.event =
      [.up bob true, .up alice true, .frame alice ⟨10, 13, 37, 1⟩ ⟨10, 13, 37, 2⟩] ∧
    ∃ c ∈ (outcome noPlugin [] relayTurns).lanCalls, c.addrs = [bob] ∧
      Switched false (outcome noPlugin [] relayTurns).seen c.posted c.addrs := by
  obtain ⟨_, _, _, _, hcalls⟩ := switched (reachable_outcome noPlugin [] relayTurns)
  exact ⟨rfl, _, List.mem_singleton_self _, rfl, hcalls _ (List.mem_singleton_self _)⟩

end Server

end SlpServer
