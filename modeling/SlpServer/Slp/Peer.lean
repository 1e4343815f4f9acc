import SlpServer.Lib.Chan
import SlpServer.Slp.Frame

/-!
# Peers

The two sides of `slp/peer.rs`: `Peer`, which the receive loop has in its table,
and the task that `Peer::new` spawns, here one step of `do_packet` at a time.
They share a channel, and a peer knows its task by number.

Times are milliseconds since the server started.  Datagrams are numbered in the
order in which they were received, and an event carries the number of the
datagram it was made of and of the task that sent it; the program has neither
number, they only say which is which.
-/

namespace SlpServer

open Rust

/-- `std::time::Instant`. -/
abbrev Instant := Nat

/-- `IDLE_TIMEOUT`: five minutes. -/
def idleTimeout : Nat := 5 * 60 * 1000

inductive PeerState
  | connected (lastTime : Instant)
  | idle
  deriving DecidableEq, Repr

def PeerState.isConnected : PeerState → Bool
  | .connected _ => true
  | .idle => false

def PeerState.isIdle : PeerState → Bool
  | .connected _ => false
  | .idle => true

/-- The number of a peer task, in the order the tasks are spawned. -/
abbrev PeerId := Nat

structure Peer where
  sender : PeerId
  state : PeerState
  deriving DecidableEq, Repr

namespace Peer

/-- `Peer::new`; the task is spawned by the caller. -/
def new (task : PeerId) (now : Instant) : Peer := ⟨task, .connected now⟩

/-- The state after a frame, if the frame changes it. -/
def stateAfter (state : PeerState) (frame : ForwarderFrame) (now : Instant) : Option PeerState :=
  match frame, state with
  | .ipv4 _, _ => some (.connected now)
  | .ipv4Frag _, _ => some (.connected now)
  | _, .connected lastTime => if now - lastTime < idleTimeout then none else some .idle
  | _, _ => none

/-- `Peer::on_packet` but for the `try_send` at its end: `none` when the data
does not parse. -/
def onPacket (self : Peer) (data : Packet) (now : Instant) : Exec (Option Peer) := do
  match ← ForwarderFrame.parse data with
  | .error _ => pure none
  | .ok frame =>
    match stateAfter self.state frame now with
    | some state => pure (some { self with state })
    | none => pure (some self)

theorem sender_onPacket {p p' : Peer} {data : Packet} {now : Instant}
    (h : p.onPacket data now = .ok (some p')) : p'.sender = p.sender := by
  obtain ⟨r, _, h⟩ := bind_eq_ok.mp h
  cases r with
  | error e => cases h
  | ok frame =>
    dsimp only at h
    split at h
    · cases h
      rfl
    · cases h
      rfl

end Peer

/-! ### The task of a peer -/

/-- A datagram and its number. -/
structure Stamped where
  stamp : Nat
  packet : InPacket
  deriving DecidableEq, Repr

/-- An event, the task that sent it and the datagram it was made of. -/
structure Posted where
  peer : PeerId
  stamp : Option Nat
  event : Event
  deriving DecidableEq, Repr

/-- Where a peer task is. -/
inductive Phase
  /-- At the top of the loop. -/
  | top
  /-- In `timeout(30 s, rx.recv())`. -/
  | waiting (deadline : Instant)
  /-- With a datagram it has received. -/
  | handling (d : Stamped)
  /-- In `event_send.send` with the frame made of the datagram. -/
  | sending (d : Stamped) (out : OutPacket)
  /-- Out of the loop, the receiver still there. -/
  | leaving
  /-- In `exit_send.send`. -/
  | closing
  | done

structure PeerTask where
  addr : SocketAddr
  rx : Chan Stamped 10
  phase : Phase

namespace PeerTask

def spawn (addr : SocketAddr) : PeerTask := ⟨addr, .new, .top⟩

/-- What the loop of `do_packet` sends for one datagram. -/
def doPacket (packet : Packet) : Exec (Except ParseError (Option OutPacket)) := do
  match ← ForwarderFrame.parse packet with
  | .error e => pure (.error e)
  | .ok .keepalive => pure (.ok none)
  | .ok (.ipv4 ipv4) =>
    let addr ← ipv4.outAddr
    pure (.ok (some ⟨packet, addr⟩))
  | .ok (.ipv4Frag frag) =>
    let addr ← frag.outAddr
    pure (.ok (some ⟨packet, addr⟩))
  | .ok _ => pure (.ok none)

/-- Where the task goes with what `doPacket` gave: an error ends the loop. -/
def phaseAfter (d : Stamped) : Except ParseError (Option OutPacket) → Phase
  | .error _ => .leaving
  | .ok none => .top
  | .ok (some out) => .sending d out

/-- `recv` gives its task a datagram from the channel; with `timeout` the wait
ends on an empty channel. -/
inductive Step (now : Instant) (orphan eventsClosed : Bool) (i : PeerId) :
    PeerTask → Option Posted → PeerTask → Prop
  | arm {t : PeerTask} (h : t.phase = .top) :
    Step now orphan eventsClosed i t none { t with phase := .waiting (now + 30 * 1000) }
  | recv {t : PeerTask} {deadline : Instant} {d : Stamped} {rx : Chan Stamped 10}
      (h : t.phase = .waiting deadline) (hrx : t.rx.recv = some (d, rx)) :
    Step now orphan eventsClosed i t none { t with rx, phase := .handling d }
  | recvNone {t : PeerTask} {deadline : Instant} (h : t.phase = .waiting deadline)
      (hrx : t.rx.recv = none) (horphan : orphan = true) :
    Step now orphan eventsClosed i t none { t with phase := .leaving }
  | timeout {t : PeerTask} {deadline : Instant} (h : t.phase = .waiting deadline)
      (hrx : t.rx.recv = none) (hdeadline : deadline ≤ now) :
    Step now orphan eventsClosed i t none { t with phase := .leaving }
  | handle {t : PeerTask} {d : Stamped} {r : Except ParseError (Option OutPacket)}
      (h : t.phase = .handling d) (hr : doPacket d.packet.data = .ok r) :
    Step now orphan eventsClosed i t none { t with phase := phaseAfter d r }
  | send {t : PeerTask} {d : Stamped} {out : OutPacket} (h : t.phase = .sending d out) :
    Step now orphan eventsClosed i t (some ⟨i, some d.stamp, .sendLAN t.addr out⟩)
      { t with phase := .top }
  | sendFails {t : PeerTask} {d : Stamped} {out : OutPacket} (h : t.phase = .sending d out)
      (hclosed : eventsClosed = true) :
    Step now orphan eventsClosed i t none { t with phase := .leaving }
  | dropRx {t : PeerTask} (h : t.phase = .leaving) :
    Step now orphan eventsClosed i t none { t with rx := t.rx.close, phase := .closing }
  | sendClose {t : PeerTask} (h : t.phase = .closing) :
    Step now orphan eventsClosed i t (some ⟨i, none, .close t.addr⟩) { t with phase := .done }
  | sendCloseFails {t : PeerTask} (h : t.phase = .closing) (hclosed : eventsClosed = true) :
    Step now orphan eventsClosed i t none { t with phase := .done }

end PeerTask

end SlpServer
