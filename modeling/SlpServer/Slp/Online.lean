import SlpServer.Slp.Idle
import SlpServer.Slp.Intake
import SlpServer.Slp.Stream

/-!
# Who is online

What `server_info` tells of the clients.  A peer is in the table from its first
datagram to the handling of its task's `Close`, and its state is the one that the
datagrams handed to it account for (`Timed`).  So `online` is the number of tasks
that run or whose `Close` is not handled, and `idle` the number of those among
them that sent something five minutes after their last LAN frame, and no LAN
frame since.
-/

namespace SlpServer

open Rust PeerTask

namespace Server

variable {P : Type}

/-- What was handed to one peer, as calls of `on_packet`; the channel is of no
account to its state. -/
def callsOf (received : List InPacket) (handed : List Handed) (i : PeerId) : List Peer.Call :=
  (handed.filter fun x => x.peer = i).filterMap fun x =>
    (received[x.stamp]?).map fun d => ⟨.new, d, x.time⟩

/-- The time of the first. -/
def startOf (handed : List Handed) (i : PeerId) : Instant :=
  (((handed.filter fun x => x.peer = i).head?).map Handed.time).getD 0

/-- What was handed to the peers accounts for their states. -/
structure Timed (s : Server P) : Prop where
  ordered : (s.handed.map Handed.time).Pairwise (· ≤ ·)
  past : ∀ x ∈ s.handed, x.time ≤ s.now
  states : ∀ addr p, s.manager.cache.lookup addr = some p →
    (∃ x ∈ s.handed, x.peer = p.sender) ∧
      Peer.Accounts (startOf s.handed p.sender) (callsOf s.received s.handed p.sender) p.state

/-! ### One more datagram -/

section
variable {received : List InPacket} {handed : List Handed} {i : PeerId} {x : Handed}

theorem callsOf_concat_self {d : InPacket} (hi : x.peer = i) (hd : received[x.stamp]? = some d) :
    callsOf received (handed ++ [x]) i = callsOf received handed i ++ [⟨.new, d, x.time⟩] := by
  rw [callsOf, List.filter_append, List.filterMap_append]
  simp [callsOf, hi, hd]

theorem filter_concat_other (hi : x.peer ≠ i) :
    (handed ++ [x]).filter (fun y => y.peer = i) = handed.filter fun y => y.peer = i := by
  rw [List.filter_append]
  simp [hi]

theorem startOf_concat (x : Handed) (hhanded : ∃ y ∈ handed, y.peer = i) :
    startOf (handed ++ [x]) i = startOf handed i := by
  obtain ⟨y, hy, hyi⟩ := hhanded
  have hne : handed.filter (fun y => y.peer = i) ≠ [] :=
    List.ne_nil_of_mem (List.mem_filter.mpr ⟨hy, by simpa using hyi⟩)
  rw [startOf, List.filter_append, List.head?_append_of_ne_nil _ hne]
  rfl

theorem startOf_concat_first (hi : x.peer = i) (hhanded : ∀ y ∈ handed, y.peer ≠ i) :
    startOf (handed ++ [x]) i = x.time := by
  have hnil : handed.filter (fun y => y.peer = i) = [] :=
    List.filter_eq_nil_iff.mpr fun y hy => by simpa using hhanded y hy
  rw [startOf, List.filter_append, hnil]
  simp [hi]

theorem callsOf_append (hhanded : ∀ y ∈ handed, y.stamp < received.length)
    (more : List InPacket) : callsOf (received ++ more) handed i = callsOf received handed i := by
  refine List.filterMap_congr fun y hy => ?_
  rw [List.getElem?_append_left (hhanded y (List.mem_filter.mp hy).1)]

end

/-- A datagram changes the state of its peer as it would in any other call. -/
theorem accounts_onPacket {t₀ now : Instant} {calls : List Peer.Call} {peer peer' : Peer}
    (h : Peer.Accounts t₀ calls peer.state) {d : InPacket}
    (hon : peer.onPacket d.data now = .ok (some peer')) :
    Peer.Accounts t₀ (calls ++ [⟨.new, d, now⟩]) peer'.state := by
  obtain ⟨r, p, rx, hcall, _, hacc⟩ := h.step ⟨.new, d, now⟩
  rw [Peer.onPacketAndSend, hon, ok_bind] at hcall
  dsimp only at hcall
  split at hcall
  · cases hcall
    exact hacc
  · cases hcall
    exact hacc

/-- What was handed to a peer before, known or new, accounts for its state. -/
theorem Timed.entry {s : Server P} (h : Timed s) {n : Nat} (hi : Intake s n) {addr : SocketAddr}
    {peer : Peer} {tasks : List PeerTask} (hentry : s.entry addr = (peer, tasks)) (stamp : Nat)
    (result : Except TrySendError Unit) :
    Peer.Accounts (startOf (s.handed ++ [⟨peer.sender, stamp, s.now, result⟩]) peer.sender)
      (callsOf s.received s.handed peer.sender) peer.state := by
  obtain ⟨hl, rfl⟩ | ⟨_, rfl, rfl⟩ := entry_cases hentry
  · obtain ⟨hhanded, hacc⟩ := h.states _ _ hl
    rw [startOf_concat _ hhanded]
    exact hacc
  · -- nothing was handed to the new task before
    have hnone : ∀ y ∈ s.handed, y.peer ≠ s.tasks.length := by
      intro y hy hlen
      obtain ⟨u, _, hu, _⟩ := hi.peers y hy
      rw [hlen, List.getElem?_eq_none (Nat.le_refl _)] at hu
      cases hu
    have hnil : s.handed.filter (fun y => y.peer = s.tasks.length) = [] :=
      List.filter_eq_nil_iff.mpr fun y hy => by simpa using hnone y hy
    rw [Peer.new, startOf_concat_first rfl hnone, callsOf, hnil]
    exact Peer.accounts_nil s.now

theorem Flow.sender_ne {s : Server P} (hf : Flow s) {addr addr' : SocketAddr} {peer p : Peer}
    {tasks : List PeerTask} {t : PeerTask} (hentry : s.entry addr = (peer, tasks))
    (ht : tasks[peer.sender]? = some t) (hp : s.manager.cache.lookup addr' = some p)
    (hne : addr' ≠ addr) : peer.sender ≠ p.sender := by
  intro heq
  obtain ⟨u, hu, haddr⟩ := hf.cache addr' p hp
  have htasks : tasks[p.sender]? = some u := tasks_of_entry hentry hu
  rw [← heq, ht] at htasks
  cases htasks
  exact hne (haddr.symm.trans (hf.entry hentry ht).2)

theorem Timed.dispatch {plugin : Plugin P} {s : Server P} (hr : (lts plugin).Reachable s)
    (h : Timed s) {d : Stamped} {peer peer' : Peer} {tasks : List PeerTask} {t : PeerTask}
    (hd : s.recv = .deciding d) (hentry : s.entry d.packet.addr = (peer, tasks))
    (hon : peer.onPacket d.packet.data s.now = .ok (some peer'))
    (ht : tasks[peer.sender]? = some t) (result : Except TrySendError Unit) (seen : List Seen) :
    Timed { s with
      recv := .idle
      manager := s.manager.peerMut d.packet.addr peer fun _ => peer'
      tasks := tasks.set peer.sender (trySend t d).1
      handed := s.handed ++ [⟨peer.sender, d.stamp, s.now, result⟩]
      seen } := by
  have hf := flow_of_reachable hr
  obtain ⟨n, hi⟩ := intake_of_reachable hr
  have hrec := (hf.recv d (by rw [hd]; rfl)).1
  refine ⟨?_, ?_, ?_⟩
  · rw [List.map_append, List.pairwise_append]
    refine ⟨h.ordered, List.pairwise_singleton _ _, ?_⟩
    intro a ha b hb
    obtain ⟨x, hx, rfl⟩ := List.mem_map.mp ha
    rw [List.map_singleton, List.mem_singleton] at hb
    rw [hb]
    exact h.past x hx
  · intro x hx
    rcases List.mem_append.mp hx with hx | hx
    · exact h.past x hx
    · rw [List.mem_singleton.mp hx]
  · intro addr p hp
    rw [InnerPeerManager.lookup_cache_peerMut] at hp
    split at hp
    · cases hp
      rw [Peer.sender_onPacket hon, callsOf_concat_self rfl hrec]
      refine ⟨⟨_, List.mem_append_right _ (List.mem_singleton_self _), rfl⟩, ?_⟩
      exact accounts_onPacket (h.entry hi hentry d.stamp result) hon
    · rename_i hne
      obtain ⟨⟨y, hy, hyp⟩, hacc⟩ := h.states addr p hp
      refine ⟨⟨y, List.mem_append_left _ hy, hyp⟩, ?_⟩
      have hother := hf.sender_ne hentry ht hp hne
      rw [startOf, callsOf,
        filter_concat_other (x := ⟨peer.sender, d.stamp, s.now, result⟩) hother]
      exact hacc

theorem Timed.step {plugin : Plugin P} {s s' : Server P} {l : Label}
    (hr : (lts plugin).Reachable s) (h : Timed s) (hstep : Step plugin s l s') : Timed s' := by
  cases hstep with
  | tick elapsed =>
    exact ⟨h.ordered, fun x hx => Nat.le_trans (h.past x hx) (Nat.le_add_right _ _), h.states⟩
  | receive packet =>
    refine ⟨h.ordered, h.past, fun addr p hp => ?_⟩
    obtain ⟨hhanded, hacc⟩ := h.states addr p hp
    refine ⟨hhanded, ?_⟩
    rw [callsOf_append (flow_of_reachable hr).handed_lt]
    exact hacc
  | dispatch hd hparse hping hentry hon ht => exact h.dispatch hr hd hentry hon ht _ _
  | close hjobs he =>
    refine ⟨h.ordered, h.past, fun addr p hp => ?_⟩
    rw [InnerPeerManager.lookup_cache_remove] at hp
    split at hp
    · cases hp
    · exact h.states addr p hp
  | route hjobs he =>
    refine ⟨h.ordered, h.past, fun addr p hp => ?_⟩
    rw [InnerPeerManager.cache_getDestSockaddr] at hp
    exact h.states addr p hp
  | configure | recvFails | filter | filterPanics | discard | pong | task | taskSends | take
  | sendLan | drop | crash | sendTo | finish =>
    exact ⟨h.ordered, h.past, h.states⟩

theorem timed_of_reachable {plugin : Plugin P} {s : Server P} (h : (lts plugin).Reachable s) :
    Timed s := by
  have hall : (lts plugin).Reachable s ∧ Timed s := by
    refine Lts.invariant (p := fun s => (lts plugin).Reachable s ∧ Timed s) ?_ ?_ h
    · rintro _ ⟨ignoreIdle, plugins, rfl⟩
      exact ⟨.init ⟨ignoreIdle, plugins, rfl⟩, .nil, fun _ hx => (nomatch hx),
        fun _ _ hp => (nomatch hp)⟩
    · rintro s l s' ⟨hr, hs⟩ hstep
      exact ⟨hr.step hstep, hs.step hr hstep⟩
  exact hall.2

/-! ### The numbers -/

theorem Flow.eq_of_sender {s : Server P} (hf : Flow s) {e e' : Sigma fun _ : SocketAddr => Peer}
    (he : e ∈ s.manager.cache.entries) (he' : e' ∈ s.manager.cache.entries)
    (h : e.2.sender = e'.2.sender) : e = e' := by
  obtain ⟨t, ht, haddr⟩ := hf.cache e.1 e.2 (AList.mem_lookup_iff.mpr he)
  obtain ⟨t', ht', haddr'⟩ := hf.cache e'.1 e'.2 (AList.mem_lookup_iff.mpr he')
  rw [h, ht'] at ht
  cases ht
  exact s.manager.cache.nodupKeys.eq_of_fst_eq he he' (haddr.symm.trans haddr')

theorem Flow.nodup_senders {s : Server P} (hf : Flow s)
    {entries : List (Sigma fun _ : SocketAddr => Peer)}
    (h : entries.Sublist s.manager.cache.entries) : (entries.map fun e => e.2.sender).Nodup :=
  (s.manager.cache.nodupKeys.nodup.sublist h).map_on fun _ he _ he' heq =>
    hf.eq_of_sender (h.subset he) (h.subset he') heq

/-- **What `server_info` tells is true.**  In every reachable state, as long as
the event task is there, `online` counts the tasks that run or whose `Close` is
not handled, and `idle` those of them that were handed a datagram five minutes
after their last LAN frame and no LAN frame since. -/
theorem server_info_exact {plugin : Plugin P} {s : Server P} (h : (lts plugin).Reachable s)
    (hopen : s.events.closed = false) :
    ∃ online idle : List PeerId, Timed s ∧
      online.Nodup ∧ (∀ i, i ∈ online ↔ ∃ addr, Unsettled s addr i) ∧
      idle.Nodup ∧ (∀ i, i ∈ idle ↔ i ∈ online ∧
        Peer.OverdueSince (startOf s.handed i) (callsOf s.received s.handed i)) ∧
      serverInfoFromPeer s.manager =
        ⟨Int32.ofNat online.length, Int32.ofNat idle.length, "3.0.0"⟩ := by
  have hf := flow_of_reachable h
  have hl := lives_of_reachable h hopen
  have htimed := timed_of_reachable h
  have hstate : ∀ e ∈ s.manager.cache.entries, e.2.state.isIdle = true ↔
      Peer.OverdueSince (startOf s.handed e.2.sender)
        (callsOf s.received s.handed e.2.sender) := by
    intro e he
    obtain ⟨_, hidle, hconnected⟩ := htimed.states e.1 e.2 (AList.mem_lookup_iff.mpr he)
    constructor
    · intro hs
      by_contra hno
      rw [hconnected hno] at hs
      cases hs
    · intro ho
      rw [hidle ho]
      rfl
  refine ⟨s.manager.cache.entries.map fun e => e.2.sender,
    (s.manager.cache.entries.filter fun e => e.2.state.isIdle).map fun e => e.2.sender, htimed,
    hf.nodup_senders (List.Sublist.refl _), ?_, hf.nodup_senders List.filter_sublist, ?_, ?_⟩
  · intro i
    simp only [hl.unsettled_iff hf, List.mem_map]
    constructor
    · rintro ⟨e, he, rfl⟩
      exact ⟨e.1, e.2, AList.mem_lookup_iff.mpr he, rfl⟩
    · rintro ⟨addr, p, hp, rfl⟩
      exact ⟨⟨addr, p⟩, AList.mem_lookup_iff.mp hp, rfl⟩
  · intro i
    simp only [List.mem_map, List.mem_filter]
    constructor
    · rintro ⟨e, ⟨he, hs⟩, rfl⟩
      exact ⟨⟨e, he, rfl⟩, (hstate e he).mp hs⟩
    · rintro ⟨⟨e, he, rfl⟩, ho⟩
      exact ⟨e, ⟨he, (hstate e he).mpr ho⟩, rfl⟩
  · rw [serverInfoFromPeer, InnerPeerManager.serverInfo, List.countP_eq_length_filter,
      List.length_map, List.length_map]

/-- Bob and Alice come, and five minutes later Bob still has no LAN frame. -/
def idleTurns : List Turn :=
  arrive ⟨[0], bob⟩ ++ arrive ⟨lanDatagram, alice⟩ ++ [.tick idleTimeout] ++ arrive ⟨[0], bob⟩

theorem server_info_exact_idleTurns : ∃ online idle : List PeerId,
    (∀ i, i ∈ online ↔ ∃ addr, Unsettled (outcome noPlugin [] idleTurns) addr i) ∧
    (∀ i, i ∈ idle ↔ i ∈ online ∧
      Peer.OverdueSince (startOf (outcome noPlugin [] idleTurns).handed i)
        (callsOf (outcome noPlugin [] idleTurns).received
          (outcome noPlugin [] idleTurns).handed i)) ∧
      serverInfoFromPeer (outcome noPlugin [] idleTurns).manager = ⟨2, 1, "3.0.0"⟩ := by
  obtain ⟨online, idle, _, _, honline, _, hidle, _⟩ :=
    server_info_exact (reachable_outcome noPlugin [] idleTurns) rfl
  exact ⟨online, idle, honline, hidle, by decide⟩

end Server

end SlpServer
