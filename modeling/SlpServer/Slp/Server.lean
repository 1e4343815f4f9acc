import SlpServer.Slp.PeerManager
import SlpServer.Slp.Plugin

/-!
# The server

The tasks of `slp/server.rs` and how they take turns: the receive loop, one
task per peer, and the event task with up to four events at work.  `Step` is one
turn of one of them, and what one turn does is what the task does between two
waits.

The state has a log beside the data of the program: what was received, what some
plugin refused, what was handed to a peer and when, the events sent, the calls of
`send_lan` and the copies that went out, and what the peer manager has seen of all
this, in its order.  No step reads it.

What ends a task is modelled as well: an error of the socket or a panic in a
plugin ends the receive loop, a panic in `out_packet` the event task, and with
it the event channel.
-/

namespace SlpServer

open Rust

variable {P : Type}

/-! ### Plugins in the loops -/

/-- Some plugin says `Err`. -/
def isErr : Except Unit Unit → Bool
  | .error _ => true
  | .ok _ => false

/-- The loop over the plugins in `recv_task`, with whether some plugin refused
the datagram.  Its `continue` is about the next plugin: the receive loop does
not learn of it. -/
def inPackets (plugin : Plugin P) (packet : InPacket) : List P → Exec (Bool × List P)
  | [] => pure (false, [])
  | p :: rest => do
    let (v, p) ← plugin.inPacket p packet
    let (refused, rest) ← inPackets plugin packet rest
    pure (isErr v || refused, p :: rest)

/-- The loop over the plugins in `event_task`, which ends at the first `Err`,
with whether there was one. -/
def outPackets (plugin : Plugin P) (packet : Packet) (addrs : List SocketAddr) :
    List P → Exec (Bool × List P)
  | [] => pure (false, [])
  | p :: rest => do
    let (v, p) ← plugin.outPacket p packet addrs
    if isErr v then
      pure (true, p :: rest)
    else
      let (refused, rest) ← outPackets plugin packet addrs rest
      pure (refused, p :: rest)

/-! ### The state -/

/-- Where the receive loop is. -/
inductive RecvPhase
  /-- In `recv_from`. -/
  | idle
  /-- Before the loop over the plugins. -/
  | filtering (d : Stamped)
  /-- After it. -/
  | deciding (d : Stamped)
  | down
  deriving DecidableEq, Repr

/-- Where the event task is with one event. -/
inductive JobPhase
  | started
  | routed (addrs : List SocketAddr)
  /-- In `send_lan`, with the addresses still to come. -/
  | sending (addrs : List SocketAddr)
  deriving DecidableEq, Repr

structure Job where
  posted : Posted
  phase : JobPhase
  deriving DecidableEq, Repr

/-- A datagram passed to `Peer::on_packet`, when, and what `try_send` said. -/
structure Handed where
  peer : PeerId
  stamp : Nat
  time : Instant
  result : Except TrySendError Unit

/-- A call of `send_lan`. -/
structure LanCall where
  posted : Posted
  packet : Packet
  addrs : List SocketAddr
  deriving DecidableEq, Repr

/-- One `send_to` of such a call. -/
structure Sent where
  posted : Posted
  packet : Packet
  addr : SocketAddr
  deriving DecidableEq, Repr

/-- A call of the peer manager that changes it. -/
inductive Seen
  /-- `peer_mut` with a datagram, and the peer after it. -/
  | heard (d : Stamped) (peer : Peer)
  /-- `remove` for a `Close`. -/
  | ended (e : Posted) (addr : SocketAddr)
  /-- `get_dest_sockaddr` for a frame. -/
  | routed (e : Posted) (src : SocketAddr) (out : OutPacket)

structure Server (P : Type) where
  now : Instant
  manager : InnerPeerManager
  plugins : List P
  tasks : List PeerTask
  events : Chan Posted 100
  jobs : List Job
  recv : RecvPhase
  received : List InPacket
  refused : List Nat
  handed : List Handed
  posted : List Posted
  lanCalls : List LanCall
  sent : List Sent
  pongs : List (SocketAddr × Packet)
  seen : List Seen

namespace Server

/-- The server before its first datagram. -/
def new (ignoreIdle : Bool) (plugins : List P) : Server P where
  now := 0
  manager := .new ignoreIdle
  plugins
  tasks := []
  events := .new
  jobs := []
  recv := .idle
  received := []
  refused := []
  handed := []
  posted := []
  lanCalls := []
  sent := []
  pongs := []
  seen := []

/-- The peer of `addr` and the tasks, with a new task where there is no peer. -/
def entry (s : Server P) (addr : SocketAddr) : Peer × List PeerTask :=
  match s.manager.cache.lookup addr with
  | some peer => (peer, s.tasks)
  | none => (.new s.tasks.length s.now, s.tasks ++ [.spawn addr])

/-- `try_send` at the channel of a task. -/
def trySend (t : PeerTask) (d : Stamped) : PeerTask × Except TrySendError Unit :=
  match t.rx.trySend d with
  | .ok rx => ({ t with rx }, .ok ())
  | .error e => (t, .error e)

/-- No peer has the sending end of this task's channel. -/
def orphan (s : Server P) (i : PeerId) : Bool :=
  s.manager.cache.entries.all fun e => e.2.sender != i

/-! ### The steps -/

/-- Who takes a turn. -/
inductive Label
  | tick
  | configure
  | receive
  | filter
  | decide
  | task (i : PeerId)
  | take
  | job

/-- One turn of one task. -/
inductive Step (plugin : Plugin P) : Server P → Label → Server P → Prop
  /-- Time passes. -/
  | tick {s : Server P} (elapsed : Nat) :
    Step plugin s .tick { s with now := s.now + elapsed }
  /-- `add_plugin` and `get_plugin`. -/
  | configure {s : Server P} (plugins : List P) : Step plugin s .configure { s with plugins }
  | receive {s : Server P} (packet : InPacket) (h : s.recv = .idle) :
    Step plugin s .receive { s with
      recv := .filtering ⟨s.received.length, packet⟩
      received := s.received ++ [packet] }
  | recvFails {s : Server P} (h : s.recv = .idle) : Step plugin s .receive { s with recv := .down }
  | filter {s : Server P} {d : Stamped} {order plugins : List P} {refused : Bool}
      (h : s.recv = .filtering d) (horder : order.Perm s.plugins)
      (hin : inPackets plugin d.packet order = .ok (refused, plugins)) :
    Step plugin s .filter { s with
      recv := .deciding d
      plugins
      refused := if refused then s.refused ++ [d.stamp] else s.refused }
  | filterPanics {s : Server P} {d : Stamped} {order : List P} {e : Panic} (plugins : List P)
      (h : s.recv = .filtering d) (horder : order.Perm s.plugins)
      (hin : inPackets plugin d.packet order = .error e) :
    Step plugin s .filter { s with recv := .down, plugins }
  | discard {s : Server P} {d : Stamped} {e : ParseError} (h : s.recv = .deciding d)
      (hparse : ForwarderFrame.parse d.packet.data = .ok (.error e)) :
    Step plugin s .decide { s with recv := .idle }
  | pong {s : Server P} {d : Stamped} {ping : Ping} {data : Packet} (h : s.recv = .deciding d)
      (hparse : ForwarderFrame.parse d.packet.data = .ok (.ok (.ping ping)))
      (hbuild : ping.build = .ok data) :
    Step plugin s .decide { s with recv := .idle, pongs := s.pongs ++ [(d.packet.addr, data)] }
  /-- `peer_mut` and `on_packet`. -/
  | dispatch {s : Server P} {d : Stamped} {frame : ForwarderFrame} {peer peer' : Peer}
      {tasks : List PeerTask} {t : PeerTask} (h : s.recv = .deciding d)
      (hparse : ForwarderFrame.parse d.packet.data = .ok (.ok frame))
      (hping : ∀ ping, frame ≠ .ping ping) (hentry : s.entry d.packet.addr = (peer, tasks))
      (hon : peer.onPacket d.packet.data s.now = .ok (some peer'))
      (ht : tasks[peer.sender]? = some t) :
    Step plugin s .decide { s with
      recv := .idle
      manager := s.manager.peerMut d.packet.addr peer fun _ => peer'
      tasks := tasks.set peer.sender (trySend t d).1
      handed := s.handed ++ [⟨peer.sender, d.stamp, s.now, (trySend t d).2⟩]
      seen := s.seen ++ [.heard d peer'] }
  | task {s : Server P} {i : PeerId} {t t' : PeerTask} (ht : s.tasks[i]? = some t)
      (hstep : t.Step s.now (s.orphan i) s.events.closed i none t') :
    Step plugin s (.task i) { s with tasks := s.tasks.set i t' }
  /-- A task that sends an event. -/
  | taskSends {s : Server P} {i : PeerId} {t t' : PeerTask} {e : Posted} {events : Chan Posted 100}
      (ht : s.tasks[i]? = some t) (hstep : t.Step s.now (s.orphan i) s.events.closed i (some e) t')
      (hsend : s.events.trySend e = .ok events) :
    Step plugin s (.task i) { s with
      tasks := s.tasks.set i t'
      events
      posted := s.posted ++ [e] }
  /-- The event task starts on an event. -/
  | take {s : Server P} {e : Posted} {events : Chan Posted 100}
      (hrecv : s.events.recv = some (e, events)) (hjobs : s.jobs.length < 4) :
    Step plugin s .take { s with events, jobs := s.jobs ++ [⟨e, .started⟩] }
  | close {s : Server P} {jobs jobs' : List Job} {e : Posted} {addr : SocketAddr}
      (hjobs : s.jobs = jobs ++ ⟨e, .started⟩ :: jobs') (he : e.event = .close addr) :
    Step plugin s .job { s with
      manager := s.manager.remove addr
      jobs := jobs ++ jobs'
      seen := s.seen ++ [.ended e addr] }
  /-- `get_dest_sockaddr`; the order of the table is not known. -/
  | route {s : Server P} {jobs jobs' : List Job} {e : Posted} {src : SocketAddr} {out : OutPacket}
      {addrs : List SocketAddr} (hjobs : s.jobs = jobs ++ ⟨e, .started⟩ :: jobs')
      (he : e.event = .sendLAN src out)
      (haddrs : addrs.Perm (s.manager.getDestSockaddr src out.addr).1) :
    Step plugin s .job { s with
      manager := (s.manager.getDestSockaddr src out.addr).2
      jobs := jobs ++ ⟨e, .routed addrs⟩ :: jobs'
      seen := s.seen ++ [.routed e src out] }
  | sendLan {s : Server P} {jobs jobs' : List Job} {e : Posted} {src : SocketAddr} {out : OutPacket}
      {addrs : List SocketAddr} {order plugins : List P}
      (hjobs : s.jobs = jobs ++ ⟨e, .routed addrs⟩ :: jobs') (he : e.event = .sendLAN src out)
      (horder : order.Perm s.plugins)
      (hout : outPackets plugin out.data addrs order = .ok (false, plugins)) :
    Step plugin s .job { s with
      plugins
      jobs := jobs ++ ⟨e, .sending addrs⟩ :: jobs'
      lanCalls := s.lanCalls ++ [⟨e, out.data, addrs⟩] }
  | drop {s : Server P} {jobs jobs' : List Job} {e : Posted} {src : SocketAddr} {out : OutPacket}
      {addrs : List SocketAddr} {order plugins : List P}
      (hjobs : s.jobs = jobs ++ ⟨e, .routed addrs⟩ :: jobs') (he : e.event = .sendLAN src out)
      (horder : order.Perm s.plugins)
      (hout : outPackets plugin out.data addrs order = .ok (true, plugins)) :
    Step plugin s .job { s with plugins, jobs := jobs ++ jobs' }
  | crash {s : Server P} {jobs jobs' : List Job} {e : Posted} {src : SocketAddr} {out : OutPacket}
      {addrs : List SocketAddr} {order : List P} {p : Panic} (plugins : List P)
      (hjobs : s.jobs = jobs ++ ⟨e, .routed addrs⟩ :: jobs') (he : e.event = .sendLAN src out)
      (horder : order.Perm s.plugins)
      (hout : outPackets plugin out.data addrs order = .error p) :
    Step plugin s .job { s with plugins, events := s.events.close, jobs := [] }
  | sendTo {s : Server P} {jobs jobs' : List Job} {e : Posted} {src : SocketAddr} {out : OutPacket}
      {addr : SocketAddr} {addrs : List SocketAddr}
      (hjobs : s.jobs = jobs ++ ⟨e, .sending (addr :: addrs)⟩ :: jobs')
      (he : e.event = .sendLAN src out) :
    Step plugin s .job { s with
      jobs := jobs ++ ⟨e, .sending addrs⟩ :: jobs'
      sent := s.sent ++ [⟨e, out.data, addr⟩] }
  | finish {s : Server P} {jobs jobs' : List Job} {e : Posted} {src : SocketAddr} {out : OutPacket}
      (hjobs : s.jobs = jobs ++ ⟨e, .sending []⟩ :: jobs') (he : e.event = .sendLAN src out) :
    Step plugin s .job { s with jobs := jobs ++ jobs' }

/-- The server with any plugins, from its start on. -/
def lts (plugin : Plugin P) : Lts (Server P) Label where
  init s := ∃ ignoreIdle plugins, s = new ignoreIdle plugins
  step := Step plugin

end Server

end SlpServer
