import SlpServer.Slp.Lifecycle

/-!
# The receive loop

One datagram at a time, in the order of arrival: a ping goes back to its sender
as it came, any other frame to the peer of its sender, and what does not parse
nowhere.  `Intake` says so of the datagrams the loop is done with, which are all
that were received but for the one in its hand.

Whether a plugin refused the datagram makes no difference.
-/

namespace SlpServer

open Rust PeerTask

/-- The loop answers such a datagram itself. -/
def InPacket.isPing (d : InPacket) : Bool :=
  match ForwarderFrame.parse d.data with
  | .ok (.ok (.ping _)) => true
  | _ => false

/-- The loop passes such a datagram to a peer. -/
def InPacket.forPeer (d : InPacket) : Bool :=
  match ForwarderFrame.parse d.data with
  | .ok (.ok (.ping _)) => false
  | .ok (.ok _) => true
  | _ => false

/-- A ping is built from the bytes it was parsed from. -/
theorem Ping.build_of_parse {data out : Packet} {ping : Ping}
    (hparse : ForwarderFrame.parse data = .ok (.ok (.ping ping))) (hbuild : ping.build = .ok out) :
    out = data := by
  obtain ⟨r, hr, hread⟩ := ForwarderFrame.parse_total data
  rw [hparse] at hr
  cases hr
  rw [ping.build_ok] at hbuild
  cases hbuild
  exact (hread _ rfl).symm

namespace Server

variable {P : Type}

/-- The numbers of the datagrams for peers among the first `n`. -/
def forPeers (received : List InPacket) (n : Nat) : List Nat :=
  (List.range n).filter fun k => received[k]?.any InPacket.forPeer

/-- The answers to the pings among some datagrams. -/
def answers (packets : List InPacket) : List (SocketAddr × Packet) :=
  (packets.filter InPacket.isPing).map fun d => (d.addr, d.data)

/-- The loop is done with `n` datagrams. -/
def DoneWith (s : Server P) (n : Nat) : Prop :=
  match s.recv with
  | .idle => n = s.received.length
  | .filtering d | .deciding d => n = d.stamp ∧ s.received.length = n + 1
  | .down => n ≤ s.received.length ∧ s.received.length ≤ n + 1

/-- What the loop has done with them. -/
structure Intake (s : Server P) (n : Nat) : Prop where
  done : DoneWith s n
  pongs : s.pongs = answers (s.received.take n)
  handed : s.handed.map Handed.stamp = forPeers s.received n
  /-- The peer is that of the sender. -/
  peers : ∀ h ∈ s.handed, ∃ t d, s.tasks[h.peer]? = some t ∧ s.received[h.stamp]? = some d ∧
    d.addr = t.addr

/-! ### One more datagram -/

theorem DoneWith.le {s : Server P} {n : Nat} (h : DoneWith s n) : n ≤ s.received.length := by
  unfold DoneWith at h
  split at h
  · exact Nat.le_of_eq h
  · omega
  · omega
  · exact h.1

theorem answers_concat (packets : List InPacket) (d : InPacket) :
    answers (packets ++ [d]) = answers packets ++ if d.isPing then [(d.addr, d.data)] else [] := by
  unfold answers
  rw [List.filter_append, List.map_append]
  cases h : d.isPing <;> simp [h]

theorem take_of_some {received : List InPacket} {n : Nat} {d : InPacket}
    (h : received[n]? = some d) : received.take (n + 1) = received.take n ++ [d] := by
  rw [List.take_add_one, h]
  rfl

theorem forPeers_succ {received : List InPacket} {n : Nat} {d : InPacket}
    (h : received[n]? = some d) :
    forPeers received (n + 1) = forPeers received n ++ if d.forPeer then [n] else [] := by
  unfold forPeers
  rw [List.range_succ, List.filter_append]
  cases hd : d.forPeer <;> simp [h, hd]

theorem forPeers_append {received : List InPacket} {n : Nat} (hn : n ≤ received.length)
    (more : List InPacket) : forPeers (received ++ more) n = forPeers received n := by
  refine List.filter_congr fun k hk => ?_
  rw [List.getElem?_append_left (Nat.lt_of_lt_of_le (List.mem_range.mp hk) hn)]

theorem Intake.conclude {s : Server P} (hf : Flow s) {n : Nat} (h : Intake s n) {d : Stamped}
    (hd : s.recv = .deciding d) : n = d.stamp ∧ s.received.length = n + 1 ∧
      answers (s.received.take (n + 1)) =
        s.pongs ++ (if d.packet.isPing then [(d.packet.addr, d.packet.data)] else []) ∧
      forPeers s.received (n + 1) =
        s.handed.map Handed.stamp ++ (if d.packet.forPeer then [n] else []) := by
  have hdone := h.done
  simp only [DoneWith, hd] at hdone
  obtain ⟨rfl, hlen⟩ := hdone
  have hrec := (hf.recv d (by rw [hd]; rfl)).1
  refine ⟨rfl, hlen, ?_, ?_⟩
  · rw [take_of_some hrec, answers_concat, h.pongs]
  · rw [forPeers_succ hrec, h.handed]

theorem Intake.dispatch {s : Server P} (hf : Flow s) {n : Nat} (hi : Intake s n) {d : Stamped}
    {frame : ForwarderFrame} {peer : Peer} {tasks : List PeerTask} {t : PeerTask}
    (h : s.recv = .deciding d) (hparse : ForwarderFrame.parse d.packet.data = .ok (.ok frame))
    (hping : ∀ ping, frame ≠ .ping ping) (hentry : s.entry d.packet.addr = (peer, tasks))
    (ht : tasks[peer.sender]? = some t) (manager : InnerPeerManager) (seen : List Seen) :
    Intake { s with
      recv := .idle
      manager
      tasks := tasks.set peer.sender (trySend t d).1
      handed := s.handed ++ [⟨peer.sender, d.stamp, s.now, (trySend t d).2⟩]
      seen } (n + 1) := by
  obtain ⟨hn, hlen, hpongs, hhanded⟩ := hi.conclude hf h
  have hkind : d.packet.isPing = false ∧ d.packet.forPeer = true := by
    unfold InPacket.isPing InPacket.forPeer
    rw [hparse]
    cases frame with
    | ping ping => exact absurd rfl (hping ping)
    | keepalive | ipv4 | ipv4Frag | authMe | info => exact ⟨rfl, rfl⟩
  refine ⟨hlen.symm, ?_, ?_, ?_⟩
  · rw [hpongs, hkind.1]
    exact (List.append_nil _).symm
  · rw [hhanded, hkind.2, List.map_append, hn]
    rfl
  · have hsame : SameAddrs s.tasks (tasks.set peer.sender (trySend t d).1) := by
      intro i u hu
      have hold : ∃ u', tasks[i]? = some u' ∧ u'.addr = u.addr :=
        ⟨u, tasks_of_entry hentry hu, rfl⟩
      exact (sameAddrs_set ht (addr_trySend t d)).task_of hold
    intro x hx
    rcases List.mem_append.mp hx with hx | hx
    · obtain ⟨u, d', hu, hd', haddr⟩ := hi.peers x hx
      obtain ⟨u', hu', haddr'⟩ := hsame _ u hu
      exact ⟨u', d', hu', hd', haddr.trans haddr'.symm⟩
    · rw [List.mem_singleton.mp hx]
      refine ⟨_, d.packet, getElem?_set_of_some ht _, (hf.recv d (by rw [h]; rfl)).1, ?_⟩
      rw [addr_trySend]
      exact (hf.entry hentry ht).2.symm

theorem Intake.step {plugin : Plugin P} {s s' : Server P} {l : Label} (hf : Flow s) {n : Nat}
    (hi : Intake s n) (h : Step plugin s l s') : ∃ n', Intake s' n' := by
  have hle := hi.done.le
  cases h with
  | receive packet h =>
    have hn : n = s.received.length := by
      have hdone := hi.done
      simp only [DoneWith, h] at hdone
      exact hdone
    refine ⟨n, ⟨hn, by rw [List.length_append, hn]; rfl⟩, ?_, ?_, ?_⟩
    · rw [List.take_append_of_le_length hle]
      exact hi.pongs
    · rw [forPeers_append hle]
      exact hi.handed
    · intro x hx
      obtain ⟨t, d, ht, hd, haddr⟩ := hi.peers x hx
      exact ⟨t, d, ht, getElem?_append_of_some hd _, haddr⟩
  | recvFails h =>
    refine ⟨n, ?_, hi.pongs, hi.handed, hi.peers⟩
    have hdone := hi.done
    simp only [DoneWith, h] at hdone
    exact ⟨hle, hdone ▸ Nat.le_succ _⟩
  | filter h =>
    refine ⟨n, ?_, hi.pongs, hi.handed, hi.peers⟩
    have hdone := hi.done
    simp only [DoneWith, h] at hdone
    exact hdone
  | filterPanics _ h =>
    refine ⟨n, ?_, hi.pongs, hi.handed, hi.peers⟩
    have hdone := hi.done
    simp only [DoneWith, h] at hdone
    exact ⟨hle, Nat.le_of_eq hdone.2⟩
  | @discard d e h hparse =>
    obtain ⟨_, hlen, hpongs, hhanded⟩ := hi.conclude hf h
    refine ⟨n + 1, hlen.symm, ?_, ?_, hi.peers⟩
    · rw [hpongs]
      simp [InPacket.isPing, hparse]
    · rw [hhanded]
      simp [InPacket.forPeer, hparse]
  | @pong d ping data h hparse hbuild =>
    obtain ⟨_, hlen, hpongs, hhanded⟩ := hi.conclude hf h
    refine ⟨n + 1, hlen.symm, ?_, ?_, hi.peers⟩
    · rw [hpongs, Ping.build_of_parse hparse hbuild]
      simp [InPacket.isPing, hparse]
    · rw [hhanded]
      simp [InPacket.forPeer, hparse]
  | dispatch h hparse hping hentry hon ht =>
    exact ⟨n + 1, hi.dispatch hf h hparse hping hentry ht _ _⟩
  | task ht hstep | taskSends ht hstep =>
    refine ⟨n, hi.done, hi.pongs, hi.handed, ?_⟩
    intro x hx
    obtain ⟨u, d, hu, hd, haddr⟩ := hi.peers x hx
    obtain ⟨u', hu', haddr'⟩ := sameAddrs_set ht hstep.addr x.peer u hu
    exact ⟨u', d, hu', hd, haddr.trans haddr'.symm⟩
  | tick | configure | take | close | route | sendLan | drop | crash | sendTo | finish =>
    exact ⟨n, hi.done, hi.pongs, hi.handed, hi.peers⟩

theorem intake_of_reachable {plugin : Plugin P} {s : Server P} (h : (lts plugin).Reachable s) :
    ∃ n, Intake s n := by
  have hall : Flow s ∧ ∃ n, Intake s n := by
    refine Lts.invariant (p := fun s => Flow s ∧ ∃ n, Intake s n) ?_ ?_ h
    · rintro _ ⟨ignoreIdle, plugins, rfl⟩
      exact ⟨flow_new ignoreIdle plugins, 0, rfl, rfl, rfl, fun _ hx => (nomatch hx)⟩
    · rintro s l s' ⟨hf, n, hi⟩ hstep
      exact ⟨hf.step hstep, hi.step hf hstep⟩
  exact hall.2

/-- **The receive loop deals with each datagram once, in order.**  In every
reachable state it is done with all it has received but for the one in its hand,
or the one in whose plugins it panicked: it has sent back the pings among them
and handed the other frames to the peers of their senders, and nothing else. -/
theorem intake {plugin : Plugin P} {s : Server P} (h : (lts plugin).Reachable s) :
    ∃ n, DoneWith s n ∧ s.pongs = answers (s.received.take n) ∧
      s.handed.map Handed.stamp = forPeers s.received n ∧
      ∀ x ∈ s.handed, ∃ t d, s.tasks[x.peer]? = some t ∧ s.received[x.stamp]? = some d ∧
        d.addr = t.addr := by
  obtain ⟨n, hi⟩ := intake_of_reachable h
  exact ⟨n, hi.done, hi.pongs, hi.handed, hi.peers⟩

/-- Alice asks for a pong and sends a frame. -/
def pingTurns : List Turn :=
  arrive ⟨[2, 1, 2, 3, 4], alice⟩ ++ arrive ⟨[9], bob⟩ ++ arrive ⟨lanDatagram, alice⟩

theorem intake_pingTurns : (∃ n, DoneWith (outcome noPlugin [] pingTurns) n ∧
    (outcome noPlugin [] pingTurns).pongs =
      answers ((outcome noPlugin [] pingTurns).received.take n)) ∧
    (outcome noPlugin [] pingTurns).pongs = [(alice, [2, 1, 2, 3, 4])] ∧
    (outcome noPlugin [] pingTurns).handed.map Handed.stamp = [2] := by
  obtain ⟨n, hdone, hpongs, _⟩ := intake (reachable_outcome noPlugin [] pingTurns)
  exact ⟨⟨n, hdone, hpongs⟩, by decide, by decide⟩

end Server

end SlpServer
