import SlpServer.Slp.Server

/-!
# Executing the server

`turn` takes one step of the server, with a choice where `Step` leaves one: the
plugins in the order of the list, the oldest event at work first, and a task
that can receive does not time out.  `turn_sound` says that it is a step, so
that what `play` computes for a list of turns is a run.
-/

namespace SlpServer

open Rust

/-- One step of a task. -/
def PeerTask.turn (t : PeerTask) (now : Instant) (orphan eventsClosed : Bool) (i : PeerId) :
    Option (Option Posted × PeerTask) :=
  match t.phase with
  | .top => some (none, { t with phase := .waiting (now + 30 * 1000) })
  | .waiting deadline =>
    match t.rx.recv with
    | some (d, rx) => some (none, { t with rx, phase := .handling d })
    | none =>
      if deadline ≤ now ∨ orphan = true then some (none, { t with phase := .leaving }) else none
  | .handling d =>
    match doPacket d.packet.data with
    | .ok r => some (none, { t with phase := phaseAfter d r })
    | .error _ => none
  | .sending d out =>
    if eventsClosed then
      some (none, { t with phase := .leaving })
    else
      some (some ⟨i, some d.stamp, .sendLAN t.addr out⟩, { t with phase := .top })
  | .leaving => some (none, { t with rx := t.rx.close, phase := .closing })
  | .closing =>
    if eventsClosed then
      some (none, { t with phase := .done })
    else
      some (some ⟨i, none, .close t.addr⟩, { t with phase := .done })
  | .done => none

theorem PeerTask.turn_sound {t t' : PeerTask} {now : Instant} {orphan closed : Bool} {i : PeerId}
    {e : Option Posted} (h : t.turn now orphan closed i = some (e, t')) :
    t.Step now orphan closed i e t' := by
  rw [turn] at h
  split at h
  · rename_i hp
    cases h
    exact .arm hp
  · rename_i hp
    split at h
    · rename_i hrx
      cases h
      exact .recv hp hrx
    · rename_i hrx
      split at h
      · rename_i hd
        cases h
        rcases hd with hd | hd
        · exact .timeout hp hrx hd
        · exact .recvNone hp hrx hd
      · cases h
  · rename_i hp
    split at h
    · rename_i hr
      cases h
      exact .handle hp hr
    · cases h
  · rename_i hp
    split at h
    · rename_i hc
      cases h
      exact .sendFails hp hc
    · cases h
      exact .send hp
  · rename_i hp
    cases h
    exact .dropRx hp
  · rename_i hp
    split at h
    · rename_i hc
      cases h
      exact .sendCloseFails hp hc
    · cases h
      exact .sendClose hp
  · cases h

namespace Server

variable {P : Type}

/-- Who takes the next turn, and with what. -/
inductive Turn
  | tick (elapsed : Nat)
  | receive (packet : InPacket)
  | filter
  | decide
  | task (i : PeerId)
  | take
  | job

def Turn.label : Turn → Label
  | .tick _ => .tick
  | .receive _ => .receive
  | .filter => .filter
  | .decide => .decide
  | .task i => .task i
  | .take => .take
  | .job => .job

def filterTurn (plugin : Plugin P) (s : Server P) : Option (Server P) :=
  match s.recv with
  | .filtering d =>
    match inPackets plugin d.packet s.plugins with
    | .ok (refused, plugins) => some { s with
        recv := .deciding d
        plugins
        refused := if refused then s.refused ++ [d.stamp] else s.refused }
    | .error _ => some { s with recv := .down }
  | _ => none

def decideTurn (s : Server P) : Option (Server P) :=
  match s.recv with
  | .deciding d =>
    match ForwarderFrame.parse d.packet.data with
    | .ok (.error _) => some { s with recv := .idle }
    | .ok (.ok (.ping ping)) =>
      match ping.build with
      | .ok data => some { s with recv := .idle, pongs := s.pongs ++ [(d.packet.addr, data)] }
      | .error _ => none
    | .ok (.ok _) =>
      let (peer, tasks) := s.entry d.packet.addr
      match peer.onPacket d.packet.data s.now, tasks[peer.sender]? with
      | .ok (some peer'), some t => some { s with
          recv := .idle
          manager := s.manager.peerMut d.packet.addr peer fun _ => peer'
          tasks := tasks.set peer.sender (trySend t d).1
          handed := s.handed ++ [⟨peer.sender, d.stamp, s.now, (trySend t d).2⟩]
          seen := s.seen ++ [.heard d peer'] }
      | _, _ => none
    | .error _ => none
  | _ => none

def taskTurn (s : Server P) (i : PeerId) : Option (Server P) := do
  let t ← s.tasks[i]?
  match ← t.turn s.now (s.orphan i) s.events.closed i with
  | (none, t') => some { s with tasks := s.tasks.set i t' }
  | (some e, t') =>
    match s.events.trySend e with
    | .ok events => some { s with tasks := s.tasks.set i t', events, posted := s.posted ++ [e] }
    | .error _ => none

def takeTurn (s : Server P) : Option (Server P) := do
  let (e, events) ← s.events.recv
  if s.jobs.length < 4 then some { s with events, jobs := s.jobs ++ [⟨e, .started⟩] } else none

/-- The oldest event at work goes on. -/
def jobTurn (plugin : Plugin P) (s : Server P) : Option (Server P) :=
  match s.jobs with
  | ⟨e, phase⟩ :: jobs =>
    match phase, e.event with
    | .started, .close addr => some { s with
        manager := s.manager.remove addr
        jobs
        seen := s.seen ++ [.ended e addr] }
    | .started, .sendLAN src out =>
      let (addrs, manager) := s.manager.getDestSockaddr src out.addr
      some { s with
        manager
        jobs := ⟨e, .routed addrs⟩ :: jobs
        seen := s.seen ++ [.routed e src out] }
    | .routed addrs, .sendLAN _ out =>
      match outPackets plugin out.data addrs s.plugins with
      | .ok (false, plugins) => some { s with
          plugins
          jobs := ⟨e, .sending addrs⟩ :: jobs
          lanCalls := s.lanCalls ++ [⟨e, out.data, addrs⟩] }
      | .ok (true, plugins) => some { s with plugins, jobs }
      | .error _ => some { s with events := s.events.close, jobs := [] }
    | .sending (addr :: addrs), .sendLAN _ out => some { s with
        jobs := ⟨e, .sending addrs⟩ :: jobs
        sent := s.sent ++ [⟨e, out.data, addr⟩] }
    | .sending [], .sendLAN _ _ => some { s with jobs }
    | _, _ => none
  | [] => none

def turn (plugin : Plugin P) (s : Server P) : Turn → Option (Server P)
  | .tick elapsed => some { s with now := s.now + elapsed }
  | .receive packet =>
    match s.recv with
    | .idle => some { s with
        recv := .filtering ⟨s.received.length, packet⟩
        received := s.received ++ [packet] }
    | _ => none
  | .filter => s.filterTurn plugin
  | .decide => s.decideTurn
  | .task i => s.taskTurn i
  | .take => s.takeTurn
  | .job => s.jobTurn plugin

theorem filterTurn_sound {plugin : Plugin P} {s s' : Server P} (h : s.filterTurn plugin = some s') :
    Step plugin s .filter s' := by
  rw [filterTurn] at h
  split at h
  · rename_i hd
    split at h
    · rename_i hin
      cases h
      exact .filter hd (List.Perm.refl _) hin
    · rename_i hin
      cases h
      exact .filterPanics s.plugins hd (List.Perm.refl _) hin
  · cases h

theorem decideTurn_sound {plugin : Plugin P} {s s' : Server P} (h : s.decideTurn = some s') :
    Step plugin s .decide s' := by
  rw [decideTurn] at h
  split at h
  · rename_i hd
    split at h
    · rename_i hparse
      cases h
      exact .discard hd hparse
    · rename_i hparse
      split at h
      · rename_i hbuild
        cases h
        exact .pong hd hparse hbuild
      · cases h
    · rename_i hping hparse
      dsimp only at h
      split at h
      · rename_i hon ht
        cases h
        exact .dispatch hd hparse hping rfl hon ht
      · cases h
    · cases h
  · cases h

theorem taskTurn_sound {plugin : Plugin P} {s s' : Server P} {i : PeerId}
    (h : s.taskTurn i = some s') : Step plugin s (.task i) s' := by
  obtain ⟨t, ht, h⟩ := Option.bind_eq_some_iff.mp h
  obtain ⟨⟨e, t'⟩, hturn, h⟩ := Option.bind_eq_some_iff.mp h
  have hstep := PeerTask.turn_sound hturn
  cases e with
  | none =>
    cases h
    exact .task ht hstep
  | some e =>
    dsimp only at h
    split at h
    · rename_i hsend
      cases h
      exact .taskSends ht hstep hsend
    · cases h

theorem takeTurn_sound {plugin : Plugin P} {s s' : Server P} (h : s.takeTurn = some s') :
    Step plugin s .take s' := by
  obtain ⟨⟨e, events⟩, hrecv, h⟩ := Option.bind_eq_some_iff.mp h
  dsimp only at h
  split at h
  · rename_i hjobs
    cases h
    exact .take hrecv hjobs
  · cases h

theorem jobTurn_sound {plugin : Plugin P} {s s' : Server P} (h : s.jobTurn plugin = some s') :
    Step plugin s .job s' := by
  rw [jobTurn] at h
  split at h
  · rename_i e phase jobs hhead
    have hjobs : s.jobs = [] ++ ⟨e, phase⟩ :: jobs := hhead
    split at h
    · rename_i he
      cases h
      exact .close hjobs he
    · rename_i he
      cases h
      exact .route hjobs he (List.Perm.refl _)
    · rename_i he
      split at h
      · rename_i hout
        cases h
        exact .sendLan hjobs he (List.Perm.refl _) hout
      · rename_i hout
        cases h
        exact .drop hjobs he (List.Perm.refl _) hout
      · rename_i hout
        cases h
        exact .crash s.plugins hjobs he (List.Perm.refl _) hout
    · rename_i he
      cases h
      exact .sendTo hjobs he
    · rename_i he
      cases h
      exact .finish hjobs he
    · cases h
  · cases h

/-- A turn is a step. -/
theorem turn_sound {plugin : Plugin P} {s s' : Server P} {a : Turn}
    (h : s.turn plugin a = some s') : Step plugin s a.label s' := by
  cases a with
  | tick elapsed =>
    cases h
    exact .tick elapsed
  | receive packet =>
    rw [turn] at h
    split at h
    · rename_i hidle
      cases h
      exact .receive packet hidle
    · cases h
  | filter => exact filterTurn_sound h
  | decide => exact decideTurn_sound h
  | task i => exact taskTurn_sound h
  | take => exact takeTurn_sound h
  | job => exact jobTurn_sound h

/-- The steps of some turns, as a run. -/
def play (plugin : Plugin P) : Server P → List Turn → Option (List (Label × Server P))
  | _, [] => some []
  | s, a :: rest => do
    let s' ← s.turn plugin a
    let r ← play plugin s' rest
    some ((a.label, s') :: r)

theorem run_of_play {plugin : Plugin P} {s : Server P} {turns : List Turn}
    {r : List (Label × Server P)} (h : s.play plugin turns = some r) : (lts plugin).Run s r := by
  induction turns generalizing s r with
  | nil =>
    cases h
    trivial
  | cons a rest ih =>
    obtain ⟨s', hs', h⟩ := Option.bind_eq_some_iff.mp h
    obtain ⟨r', hr', h⟩ := Option.bind_eq_some_iff.mp h
    cases h
    exact ⟨turn_sound hs', ih hr'⟩

/-- The run of some turns, from the start with some plugins. -/
def trace (plugin : Plugin P) (plugins : List P) (turns : List Turn) : List (Label × Server P) :=
  ((new false plugins).play plugin turns).getD []

/-- Where it leads. -/
def outcome (plugin : Plugin P) (plugins : List P) (turns : List Turn) : Server P :=
  Lts.last (new false plugins) (trace plugin plugins turns)

theorem run_trace (plugin : Plugin P) (plugins : List P) (turns : List Turn) :
    (lts plugin).Run (new false plugins) (trace plugin plugins turns) := by
  unfold trace
  cases h : (new false plugins).play plugin turns with
  | some r => exact run_of_play h
  | none => trivial

theorem reachable_outcome (plugin : Plugin P) (plugins : List P) (turns : List Turn) :
    (lts plugin).Reachable (outcome plugin plugins turns) := by
  have hnew : (lts plugin).Reachable (new false plugins) := .init ⟨false, plugins, rfl⟩
  exact hnew.last (run_trace plugin plugins turns)

/-! ### Turns of a small server -/

def alice : SocketAddr := .v4 ⟨192, 168, 1, 2⟩ 4000
def bob : SocketAddr := .v4 ⟨192, 168, 1, 3⟩ 4000

/-- For a server without plugins. -/
def noPlugin : Plugin Empty := ⟨nofun, nofun⟩

/-- A frame from 10.13.37.1 to 10.13.37.2 with nothing but an IP header. -/
def lanDatagram : Packet :=
  [1, 0x45, 0, 0, 20, 0, 0, 0, 0, 64, 17, 0, 0, 10, 13, 37, 1, 10, 13, 37, 2]

/-- A datagram goes through the receive loop. -/
def arrive (packet : InPacket) : List Turn := [.receive packet, .filter, .decide]

/-- A task takes a frame from its channel and sends it on. -/
def serve (i : PeerId) : List Turn := [.task i, .task i, .task i, .task i]

/-- Bob is known when Alice's frame comes, and gets it. -/
def relayTurns : List Turn :=
  arrive ⟨[0], bob⟩ ++ arrive ⟨lanDatagram, alice⟩ ++ serve 1 ++ [.take, .job, .job, .job, .job]

/-- A task that is at the top of its loop, and gets nothing, drops its receiver. -/
def goQuiet (i : PeerId) : List Turn := [.task i, .tick 30000, .task i, .task i]

end Server

end SlpServer
