import SlpServer.Lib.Broadcast
import SlpServer.Slp.PeerManager
import SlpServer.Util.FilterSame

/-!
# Streams of information

`spawn_stream` of `slp/stream.rs` samples a value every second and sends it to
a broadcast channel, and `server_info_stream` and `traffic_info_stream` are the
same stream over such a channel: a snapshot first, then what the channel has.
Both sides drop repeated items, each with a memory of its own.

`Feed.Step` puts the sampler, one subscriber and any number of others together.
The sending end is never dropped, so the channel does not close.
-/

namespace SlpServer

/-- The task of `spawn_stream`, between two ticks, and its channel. -/
structure Sampler (α : Type) where
  state : Option α
  chan : Broadcast α 1

/-- What a subscriber polls: a snapshot until it is taken, then the channel up
to its first error, and `filter_same` over both. -/
structure InfoStream (α : Type) where
  first : Option α
  rx : Nat
  /-- `take_while(is_ok)` goes on. -/
  live : Bool
  state : Option α

variable {α : Type} [DecidableEq α]

namespace Sampler

/-- `spawn_stream`, before its first tick. -/
def spawn : Sampler α := ⟨none, .new⟩

/-- One tick, with the value that `func` gives. -/
def tick (self : Sampler α) (x : α) : Sampler α :=
  match filterSame self.state x with
  | (some item, state) =>
    -- ignore the only error: no active receivers
    ⟨state, (self.chan.send item).getD self.chan⟩
  | (none, state) => { self with state }

end Sampler

/-- A new stream over a channel, and the channel with its receiver. -/
def infoStream (chan : Broadcast α 1) (snapshot : α) : InfoStream α × Broadcast α 1 :=
  let (rx, chan) := chan.subscribe
  (⟨some snapshot, rx, true, none⟩, chan)

/-- The next item of the streams under `filter_same` goes through it: what is
passed on, if it is.  `none` when there is no item, for now or for ever. -/
def InfoStream.poll (self : InfoStream α) (chan : Broadcast α 1) :
    Option (Option α × InfoStream α) :=
  match self.first with
  | some x =>
    let (out, state) := filterSame self.state x
    some (out, { self with first := none, state })
  | none =>
    if self.live then
      match chan.recv self.rx with
      | .value x rx =>
        let (out, state) := filterSame self.state x
        some (out, { self with rx, state })
      | .lagged _ rx => some (none, { self with rx, live := false })
      | .empty => none
    else
      none

namespace InfoStream

variable {s : InfoStream α} {chan : Broadcast α 1} {x : α} {rx : Nat}

theorem poll_first (h : s.first = some x) : s.poll chan =
    some ((filterSame s.state x).1, { s with first := none, state := some x }) := by
  rw [poll, h]
  show some ((filterSame s.state x).1, InfoStream.mk none s.rx s.live (filterSame s.state x).2) = _
  rw [filterSame_snd]

theorem poll_value (h : s.first = none) (hlive : s.live = true)
    (hrecv : chan.recv s.rx = .value x rx) :
    s.poll chan = some ((filterSame s.state x).1, { s with rx, state := some x }) := by
  rw [poll, h, if_pos hlive, hrecv]
  show some ((filterSame s.state x).1, InfoStream.mk none rx s.live (filterSame s.state x).2) = _
  rw [filterSame_snd]

theorem poll_lagged {missed : Nat} (h : s.first = none) (hlive : s.live = true)
    (hrecv : chan.recv s.rx = .lagged missed rx) :
    s.poll chan = some (none, { s with rx, live := false }) := by
  rw [poll, h, if_pos hlive, hrecv]

theorem poll_empty (h : s.first = none) (hlive : s.live = true)
    (hrecv : chan.recv s.rx = .empty) : s.poll chan = none := by
  rw [poll, h, if_pos hlive, hrecv]

theorem poll_ended (h : s.first = none) (hlive : s.live = false) : s.poll chan = none := by
  rw [poll, h, if_neg (by rw [hlive]; exact Bool.false_ne_true)]

end InfoStream

/-! ### The server's information -/

/-- `PeerManagerInfo`. -/
structure PeerManagerInfo where
  online : Int32
  idle : Int32
  deriving DecidableEq, Repr

/-- `PeerManager::server_info`. -/
def InnerPeerManager.serverInfo (self : InnerPeerManager) : PeerManagerInfo where
  online := Int32.ofNat self.cache.entries.length
  idle := Int32.ofNat (self.cache.entries.countP fun e => e.2.state.isIdle)

structure ServerInfo where
  online : Int32
  idle : Int32
  version : String
  deriving DecidableEq, Repr

/-- `server_info_from_peer`. -/
def serverInfoFromPeer (manager : InnerPeerManager) : ServerInfo :=
  let info := manager.serverInfo
  ⟨info.online, info.idle, "3.0.0"⟩

/-- `UDPServer::server_info_stream`. -/
def serverInfoStream (infoSender : Broadcast ServerInfo 1) (manager : InnerPeerManager) :
    InfoStream ServerInfo × Broadcast ServerInfo 1 :=
  infoStream infoSender (serverInfoFromPeer manager)

/-! ### A sampler and its subscribers -/

/-- A subscriber, with the snapshot it took, the number of samples there were
when it did, and the items it has received. -/
structure Client (α : Type) where
  stream : InfoStream α
  snapshot : α
  joined : Nat
  received : List α

/-- One subscriber among others, and the samples so far. -/
structure Feed (α : Type) where
  sampler : Sampler α
  samples : List α
  others : Nat
  client : Option (Client α)

namespace Feed

/-- Before the first tick. -/
def start : Feed α := ⟨.spawn, [], 0, none⟩

inductive Label (α : Type)
  | tick (x : α)
  | join
  | leave
  | subscribe (snapshot : α)
  | poll

inductive Step : Feed α → Label α → Feed α → Prop
  | tick {f : Feed α} (x : α) :
    Step f (.tick x) { f with sampler := f.sampler.tick x, samples := f.samples ++ [x] }
  /-- Another subscriber. -/
  | join {f : Feed α} : Step f .join { f with
      sampler := { f.sampler with chan := f.sampler.chan.subscribe.2 }
      others := f.others + 1 }
  | leave {f : Feed α} (h : 0 < f.others) : Step f .leave { f with
      sampler := { f.sampler with chan := f.sampler.chan.unsubscribe }
      others := f.others - 1 }
  | subscribe {f : Feed α} {stream : InfoStream α} {chan : Broadcast α 1} (snapshot : α)
      (h : f.client = none) (hs : infoStream f.sampler.chan snapshot = (stream, chan)) :
    Step f (.subscribe snapshot) { f with
      sampler := { f.sampler with chan }
      client := some ⟨stream, snapshot, f.samples.length, []⟩ }
  | poll {f : Feed α} {c : Client α} {out : Option α} {stream : InfoStream α}
      (h : f.client = some c) (hp : c.stream.poll f.sampler.chan = some (out, stream)) :
    Step f .poll { f with
      client := some { c with stream, received := c.received ++ out.toList } }

/-- The subscriber has polled all there is for now. -/
def Drained (f : Feed α) : Prop :=
  ∀ c, f.client = some c → c.stream.poll f.sampler.chan = none

/-- The feed once a client has a stream, with the snapshot that came first. -/
def withClient (f : Feed α) (snapshot : α) (r : InfoStream α × Broadcast α 1) : Feed α :=
  { f with
    sampler := { f.sampler with chan := r.2 }
    client := some ⟨r.1, snapshot, f.samples.length, []⟩ }

/-- A call of `server_info_stream` subscribes with what the server knows. -/
theorem step_serverInfoStream {f : Feed ServerInfo} (h : f.client = none)
    (manager : InnerPeerManager) : Step f (.subscribe (serverInfoFromPeer manager))
      (f.withClient (serverInfoFromPeer manager) (serverInfoStream f.sampler.chan manager)) :=
  .subscribe _ h rfl

end Feed

end SlpServer
