import SlpServer.Plugin.Register

/-!
# Upload figures and datagrams

Two routes lead into `send_lan`: the event task takes it for an event, after the
plugins have counted the packet, and the scanner of the LDN plugin for its
broadcast, which no plugin sees.  `Lan` is the part of the server between these
operations and the socket, with a log of what the traffic plugin was called for
and of the datagrams handed to the socket.

An event adds the bytes of all its copies to `upload` and 1 to `upload_packet`,
so the figures are those of the datagrams exactly along runs where each event
has one destination and no scan finds a client (`matches_iff`).
-/

namespace SlpServer

open Rust TrafficPlugin BoxPlugin

structure Lan where
  manager : InnerPeerManager
  plugins : List BoxPlugin
  ops : List Op
  snapshots : List TrafficInfo
  sent : List (Packet × SocketAddr)

namespace Lan

/-- The operations; an event comes with the destinations found for it. -/
inductive Label
  | sendLAN (packet : Packet) (addrs : List SocketAddr)
  | sendBroadcast
  | inPacket (packet : InPacket)
  | clearTraffic
  | call (c : InnerPeerManager.Call)

inductive Step (C : Crates) (makeUdp : Packet → Packet) (checks : Bool) : Lan → Label → Lan → Prop
  /-- The event task, past `get_dest_sockaddr`.  No plugin refuses the packet
  (`outPackets_eq_ok`). -/
  | sendLAN {s : Lan} {packet : Packet} {addrs : List SocketAddr} {order plugins : List BoxPlugin}
      {datagrams : List (Packet × SocketAddr)} {size : Nat} (horder : order.Perm s.plugins)
      (hout : outPackets (plugin C checks) packet addrs order = .ok (false, plugins))
      (hsend : InnerPeerManager.sendLan checks packet addrs = .ok (datagrams, size)) :
    Step C makeUdp checks s (.sendLAN packet addrs) { s with
      plugins
      ops := s.ops ++ [.outPacket packet addrs]
      sent := s.sent ++ datagrams }
  /-- The scanner; the order of the table of clients is not known. -/
  | sendBroadcast {s : Lan} {order datagrams : List (Packet × SocketAddr)} {size : Nat}
      (hsend : s.manager.sendBroadcast checks (LdnMitm.slpScanPacket makeUdp) =
        .ok (datagrams, size))
      (horder : order.Perm datagrams) :
    Step C makeUdp checks s .sendBroadcast { s with sent := s.sent ++ order }
  /-- The loop over the plugins in `recv_task`. -/
  | inPacket {s : Lan} {packet : InPacket} {order plugins : List BoxPlugin} {refused : Bool}
      (horder : order.Perm s.plugins)
      (hin : inPackets (plugin C checks) packet order = .ok (refused, plugins)) :
    Step C makeUdp checks s (.inPacket packet) { s with
      plugins
      ops := s.ops ++ [.inPacket packet] }
  /-- The sampler of the traffic plugin. -/
  | clearTraffic {s : Lan} {inner : Inner} {before after : List BoxPlugin}
      (h : s.plugins = before ++ .traffic inner :: after) :
    Step C makeUdp checks s .clearTraffic { s with
      plugins := before ++ .traffic inner.clearTraffic.2 :: after
      ops := s.ops ++ [.clearTraffic]
      snapshots := s.snapshots ++ [inner.clearTraffic.1] }
  | call {s : Lan} (c : InnerPeerManager.Call) :
    Step C makeUdp checks s (.call c) { s with manager := c.apply s.manager }

/-- From a server with one traffic plugin, which has counted nothing yet. -/
def lts (C : Crates) (makeUdp : Packet → Packet) (checks : Bool) : Lts Lan Label where
  init s := ∃ ignoreIdle plugins, trafficOf plugins = [.new] ∧
    s = ⟨.new ignoreIdle, plugins, [], [], []⟩
  step := Step C makeUdp checks

variable {C : Crates} {makeUdp : Packet → Packet} {checks : Bool} {s₀ s s' : Lan} {l : Label}

/-! ### What the traffic plugin has counted -/

/-- The plugin and its snapshots are what the logged operations lead to. -/
def Counted (checks : Bool) (s : Lan) : Prop :=
  ∃ inner, trafficOf s.plugins = [inner] ∧ Inner.new.run checks s.ops = .ok (s.snapshots, inner)

theorem run_apply {ops : List Op} {op : Op} {snapshots more : List TrafficInfo}
    {inner inner' : Inner} (hrun : Inner.new.run checks ops = .ok (snapshots, inner))
    (happly : inner.apply checks op = .ok (more, inner')) :
    Inner.new.run checks (ops ++ [op]) = .ok (snapshots ++ more, inner') := by
  rw [run_concat, hrun, ok_bind, happly]
  rfl

theorem mapM_singleton {f : Inner → Exec Inner} {inner : Inner} {inners : List Inner}
    (h : [inner].mapM f = .ok inners) : ∃ inner', f inner = .ok inner' ∧ inners = [inner'] := by
  rw [List.mapM_cons] at h
  obtain ⟨inner', hf, h⟩ := bind_eq_ok.mp h
  exact ⟨inner', hf, (Except.ok.inj h).symm⟩

theorem counted_packet {ops : List Op} {op : Op} {snapshots : List TrafficInfo} {inner : Inner}
    {f : Inner → Exec Inner} {plugins : List BoxPlugin}
    (hop : ∀ inner : Inner, inner.apply checks op = do pure ([], ← f inner))
    (hrun : Inner.new.run checks ops = .ok (snapshots, inner))
    (hmap : [inner].mapM f = .ok (trafficOf plugins)) :
    ∃ inner', trafficOf plugins = [inner'] ∧
      Inner.new.run checks (ops ++ [op]) = .ok (snapshots, inner') := by
  obtain ⟨inner', hf, hplugins⟩ := mapM_singleton hmap
  have happly : inner.apply checks op = .ok ([], inner') := by
    rw [hop, hf]
    rfl
  have hnext := run_apply hrun happly
  rw [List.append_nil] at hnext
  exact ⟨inner', hplugins, hnext⟩

/-- A step is counted as the operation it logs. -/
theorem Counted.step (h : Counted checks s) (hstep : Step C makeUdp checks s l s') :
    Counted checks s' := by
  obtain ⟨inner, hinner, hrun⟩ := h
  cases hstep with
  | sendLAN horder hout hsend =>
    have hmap := (outPackets_eq_ok hout).2
    rw [trafficOf_perm horder hinner] at hmap
    exact counted_packet (fun _ => rfl) hrun hmap
  | inPacket horder hin =>
    have hmap := inPackets_eq_ok hin
    rw [trafficOf_perm horder hinner] at hmap
    exact counted_packet (fun _ => rfl) hrun hmap
  | @clearTraffic inner₁ before after hplugins =>
    rw [hplugins, trafficOf_append, trafficOf_cons] at hinner
    obtain ⟨hbefore, hone⟩ | ⟨_, hnone⟩ := List.append_eq_singleton_iff.mp hinner
    · obtain ⟨rfl, hafter⟩ := List.cons.inj hone
      refine ⟨inner₁.clearTraffic.2, ?_, run_apply hrun rfl⟩
      show trafficOf (before ++ .traffic inner₁.clearTraffic.2 :: after) = _
      rw [trafficOf_append, hbefore]
      exact congrArg (inner₁.clearTraffic.2 :: ·) hafter
    · cases hnone
  | sendBroadcast hsend horder => exact ⟨inner, hinner, hrun⟩
  | call c => exact ⟨inner, hinner, hrun⟩

theorem counted_of_reachable (h : (lts C makeUdp checks).Reachable s) : Counted checks s := by
  refine Lts.invariant ?_ (fun _ _ _ hs hstep => hs.step hstep) h
  rintro _ ⟨ignoreIdle, plugins, hplugins, rfl⟩
  exact ⟨.new, hplugins, rfl⟩

/-! ### The figures -/

/-- One counter: all snapshots, and the running second of the traffic plugin. -/
def figure (c : Counter) (s : Lan) : Int :=
  sumOf c (s.snapshots, (trafficOf s.plugins).headD .new)

def bytes (datagrams : List (Packet × SocketAddr)) : Nat := (datagrams.map fun d => d.1.length).sum

/-- Since `s₀`, the upload figures have grown by what the socket was handed. -/
structure Matches (s₀ s : Lan) : Prop where
  upload : s.figure .upload - s₀.figure .upload = bytes s.sent - bytes s₀.sent
  uploadPacket :
    s.figure .uploadPacket - s₀.figure .uploadPacket = s.sent.length - s₀.sent.length

theorem Matches.refl (s : Lan) : Matches s s := ⟨by omega, by omega⟩

/-- Where the figures are right, they stay so by growing as the datagrams do. -/
theorem Matches.after_iff (h : Matches s₀ s) : Matches s₀ s' ↔
    s'.figure .upload - s.figure .upload = bytes s'.sent - bytes s.sent ∧
      s'.figure .uploadPacket - s.figure .uploadPacket = s'.sent.length - s.sent.length := by
  have hupload := h.upload
  have hpackets := h.uploadPacket
  constructor
  · intro h'
    have hupload' := h'.upload
    have hpackets' := h'.uploadPacket
    omega
  · rintro ⟨hbytes, hlength⟩
    constructor <;> omega

/-- Without overflow the figures are the totals of the operations. -/
theorem Counted.figure_eq (h : Counted checks s) (hfit : AllFit s.ops) (c : Counter) :
    s.figure c = total c s.ops := by
  obtain ⟨inner, hinner, hrun⟩ := h
  rw [figure, hinner]
  show sumOf c (s.snapshots, inner) = _
  rw [run_eq_counted hrun]
  exact (conserved_of_allFit hfit).sum c

/-- Each event goes to one address, and a scan finds no client. -/
def OneCopy (s : Lan) : Label → Prop
  | .sendLAN _ addrs => addrs.length = 1
  | .sendBroadcast => s.manager.cache.keys = []
  | _ => True

theorem allFit_of_step (h : Step C makeUdp checks s l s') (hfit : AllFit s'.ops) :
    AllFit s.ops := by
  cases h with
  | sendLAN | inPacket | clearTraffic => exact hfit.of_concat
  | sendBroadcast | call => exact hfit

theorem bytes_append (ds es : List (Packet × SocketAddr)) :
    bytes (ds ++ es) = bytes ds + bytes es := by
  rw [bytes, List.map_append, List.sum_append]
  rfl

theorem bytes_perm {ds es : List (Packet × SocketAddr)} (h : ds.Perm es) : bytes ds = bytes es :=
  List.Perm.sum_nat (h.map fun d : Packet × SocketAddr => d.1.length)

theorem bytes_copies (packet : Packet) (addrs : List SocketAddr) :
    bytes (addrs.map fun addr => (packet, addr)) = packet.length * addrs.length := by
  rw [bytes, List.map_map]
  show (addrs.map fun _ => packet.length).sum = _
  rw [List.map_const', List.sum_replicate_nat, Nat.mul_comm]

/-- One step keeps the figures right exactly when it makes one copy of an event
and none of a scan. -/
theorem step_matches (hs : (lts C makeUdp checks).Reachable s) (hm : Matches s₀ s)
    (hfit : AllFit s'.ops) (h : Step C makeUdp checks s l s') :
    Matches s₀ s' ↔ OneCopy s l := by
  have hcounted := counted_of_reachable hs
  have hfig := hcounted.figure_eq (allFit_of_step h hfit)
  have hfig' := (hcounted.step h).figure_eq hfit
  rw [hm.after_iff, hfig, hfig, hfig', hfig']
  cases h with
  | @sendLAN packet addrs _ _ datagrams _ horder hout hsend =>
    obtain rfl : datagrams = _ := InnerPeerManager.sendLan_eq_ok hsend
    have hbytes := bytes_append s.sent (addrs.map fun addr => (packet, addr))
    rw [bytes_copies] at hbytes
    dsimp only [OneCopy]
    rw [hbytes, List.length_append, List.length_map, total_concat, total_concat]
    dsimp only [Op.amount]
    omega
  | @sendBroadcast order datagrams _ hsend horder =>
    obtain rfl : datagrams = _ := InnerPeerManager.sendLan_eq_ok hsend
    have hbytes := bytes_append s.sent order
    have hlength := horder.length_eq
    rw [bytes_perm horder, bytes_copies] at hbytes
    rw [List.length_map] at hlength
    dsimp only [OneCopy]
    rw [hbytes, List.length_append, hlength, ← List.length_eq_zero_iff]
    constructor
    · intro h
      omega
    · intro h
      rw [h]
      omega
  | inPacket | clearTraffic =>
    rw [total_concat, total_concat]
    simp [Op.amount, OneCopy]
  | call => simp [OneCopy]

/-- **When the upload figures are those of the datagrams**, along every run without
overflow: as long as each event goes to one address and no scan finds a client. -/
theorem matches_iff (h₀ : (lts C makeUdp checks).Reachable s₀) {r : List (Label × Lan)}
    (hr : (lts C makeUdp checks).Run s₀ r) (hfit : AllFit (Lts.last s₀ r).ops) :
    Lts.Always (Matches s₀) s₀ r ↔ Lts.Guarded OneCopy s₀ r := by
  have hfits : Lts.Always (fun s => AllFit s.ops) s₀ r :=
    .of_last (fun _ _ _ hstep hfit => allFit_of_step hstep hfit) hr hfit
  exact Lts.always_iff_guarded_within (fun _ _ _ hs hm hfit h => step_matches hs hm hfit h) h₀
    (.refl s₀) hr hfits

/-- A server with the traffic plugin alone. -/
def start : Lan := ⟨.new false, [.traffic .new], [], [], []⟩

theorem reachable_start : (lts C makeUdp checks).Reachable start :=
  .init ⟨false, [.traffic .new], rfl, rfl⟩

def firstClient : SocketAddr := .v4 ⟨192, 168, 1, 2⟩ 4000
def secondClient : SocketAddr := .v4 ⟨192, 168, 1, 3⟩ 4000

/-- An event with a packet of one byte. -/
def handled (addrs : List SocketAddr) (running : TrafficInfo) : Lan where
  manager := .new false
  plugins := [.traffic (running, .new)]
  ops := [.outPacket [1] addrs]
  snapshots := []
  sent := addrs.map fun addr => ([1], addr)

theorem allFit_handled {addrs : List SocketAddr} {running : TrafficInfo}
    (h : addrs.length ≤ 2 ^ 31 - 1) : AllFit (handled addrs running).ops := by
  refine allFit_iff.mpr ⟨fun w hw => (nomatch hw), fun c => ?_⟩
  show total c [.outPacket [1] addrs] ≤ 2 ^ 31 - 1
  cases c with
  | upload =>
    show 1 * addrs.length + 0 ≤ 2 ^ 31 - 1
    rw [Nat.one_mul]
    exact h
  | uploadPacket =>
    show 1 + 0 ≤ 2 ^ 31 - 1
    decide
  | download | downloadPacket => exact Nat.zero_le _

theorem run_oneCopy : (lts .byLayout id true).Run start
    [(.sendLAN [1] [firstClient], handled [firstClient] ⟨1, 0, 1, 0⟩)] :=
  ⟨Step.sendLAN (.refl _) rfl rfl, trivial⟩

theorem matches_oneCopy :
    Lts.Always (Matches start) start
      [(Label.sendLAN [1] [firstClient], handled [firstClient] ⟨1, 0, 1, 0⟩)] :=
  (matches_iff reachable_start run_oneCopy (allFit_handled (by decide))).mpr ⟨rfl, trivial⟩

/-- One packet for two clients. -/
theorem not_matches_twoCopies : ¬ ∀ (C : Crates) (makeUdp : Packet → Packet) (checks : Bool)
    (s₀ : Lan) (r : List (Label × Lan)), (lts C makeUdp checks).Reachable s₀ →
      (lts C makeUdp checks).Run s₀ r → AllFit (Lts.last s₀ r).ops →
        Matches s₀ (Lts.last s₀ r) := by
  intro h
  have hrun : (lts .byLayout id true).Run start
      [(.sendLAN [1] [firstClient, secondClient],
        handled [firstClient, secondClient] ⟨2, 0, 1, 0⟩)] :=
    ⟨Step.sendLAN (.refl _) rfl rfl, trivial⟩
  have hmatches := h .byLayout id true start _ reachable_start hrun (allFit_handled (by decide))
  exact absurd hmatches.uploadPacket (by decide)

/-! ### The server -/

/-- The server with one traffic plugin, as long as its tasks are up and it keeps
its plugins. -/
def serving (C : Crates) (checks : Bool) : Lts (Server BoxPlugin) Server.Label where
  init s := ∃ ignoreIdle plugins, trafficOf plugins = [.new] ∧ s = .new ignoreIdle plugins
  step s a s' := Server.Step (plugin C checks) s a s' ∧ a ≠ .configure ∧ s'.recv ≠ .down ∧
    s'.events.closed = false

/-- What the calls of `send_lan` hand to the socket. -/
def datagrams (calls : List LanCall) : List (Packet × SocketAddr) :=
  calls.flatMap fun call => call.addrs.map fun addr => (call.packet, addr)

theorem datagrams_concat (calls : List LanCall) (call : LanCall) :
    datagrams (calls ++ [call]) =
      datagrams calls ++ call.addrs.map fun addr => (call.packet, addr) := by
  rw [datagrams, List.flatMap_append]
  simp [datagrams]

/-- The server as a `Lan` without scans; each call of `send_lan` is counted once. -/
structure Refines (s : Server BoxPlugin) (l : Lan) : Prop where
  manager : l.manager = s.manager
  plugins : l.plugins = s.plugins
  sent : l.sent = datagrams s.lanCalls
  upload : total .upload l.ops = bytes l.sent
  uploadPacket : total .uploadPacket l.ops = s.lanCalls.length

/-- What is counted can be sent. -/
theorem sendLan_of_outPacket {packet : Packet} {addrs : List SocketAddr} {inner inner' : Inner}
    (h : inner.outPacket checks packet addrs = .ok inner') :
    ∃ size, InnerPeerManager.sendLan checks packet addrs =
      .ok (addrs.map fun addr => (packet, addr), size) := by
  obtain ⟨size, hsize, _⟩ := bind_eq_ok.mp h
  refine ⟨size, ?_⟩
  rw [InnerPeerManager.sendLan, mulUsize_comm, hsize]
  rfl

theorem Refines.call {s t : Server BoxPlugin} {l : Lan} (hl : (lts C makeUdp checks).Reachable l)
    (h : Refines s l) (c : InnerPeerManager.Call) (hmanager : t.manager = c.apply s.manager)
    (hplugins : t.plugins = s.plugins) (hcalls : t.lanCalls = s.lanCalls) :
    ∃ l', (lts C makeUdp checks).Reachable l' ∧ Refines t l' := by
  refine ⟨{ l with manager := c.apply l.manager }, hl.step (a := .call c) (.call c), ?_⟩
  constructor
  case manager => rw [hmanager, h.manager]
  case plugins => rw [hplugins, h.plugins]
  case sent => rw [hcalls, h.sent]
  case upload => exact h.upload
  case uploadPacket => rw [hcalls, h.uploadPacket]

theorem Refines.step {s s' : Server BoxPlugin} {a : Server.Label} {l : Lan}
    (hl : (lts C makeUdp checks).Reachable l) (h : Refines s l)
    (hstep : (serving C checks).step s a s') :
    ∃ l', (lts C makeUdp checks).Reachable l' ∧ Refines s' l' := by
  obtain ⟨hstep, ha, hrecv, hevents⟩ := hstep
  cases hstep with
  | configure => exact absurd rfl ha
  | recvFails | filterPanics => exact absurd rfl hrecv
  | crash => cases hevents
  | drop hjobs he horder hout => cases (outPackets_eq_ok hout).1
  | @filter d order plugins refused hphase horder hin =>
    rw [← h.plugins] at horder
    refine ⟨_, hl.step (a := .inPacket d.packet) (.inPacket horder hin), ?_⟩
    constructor
    case manager => exact h.manager
    case plugins => rfl
    case sent => exact h.sent
    case upload => exact (total_concat ..).trans h.upload
    case uploadPacket => exact (total_concat ..).trans h.uploadPacket
  | @dispatch d frame peer peer' =>
    exact h.call hl (.peerMut d.packet.addr peer fun _ => peer') rfl rfl rfl
  | @close _ _ _ addr => exact h.call hl (.remove addr) rfl rfl rfl
  | @route _ _ _ src out => exact h.call hl (.getDestSockaddr src out.addr) rfl rfl rfl
  | @sendLan _ _ e src out addrs order plugins hjobs he horder hout =>
    rw [← h.plugins] at horder
    obtain ⟨inner, hinner, _⟩ := counted_of_reachable hl
    have hmap := (outPackets_eq_ok hout).2
    rw [trafficOf_perm horder hinner] at hmap
    obtain ⟨inner', hinner', _⟩ := mapM_singleton hmap
    obtain ⟨size, hsend⟩ := sendLan_of_outPacket hinner'
    refine ⟨_, hl.step (a := .sendLAN out.data addrs) (.sendLAN horder hout hsend), ?_⟩
    constructor
    case manager => exact h.manager
    case plugins => rfl
    case sent =>
      dsimp only
      rw [datagrams_concat, h.sent]
    case upload =>
      dsimp only
      rw [total_concat, h.upload, bytes_append, bytes_copies]
      rfl
    case uploadPacket =>
      dsimp only
      rw [total_concat, h.uploadPacket, List.length_append]
      rfl
  | tick | receive | discard | pong | task | taskSends | take | sendTo | finish =>
    exact ⟨l, hl, h.manager, h.plugins, h.sent, h.upload, h.uploadPacket⟩

/-- **What the server counts** without scans and overflow: all bytes it hands to
the socket, and its calls of `send_lan`. -/
theorem server_figures {s : Server BoxPlugin} (hs : (serving C checks).Reachable s) :
    ∃ l, (lts C makeUdp checks).Reachable l ∧ Refines s l ∧ (AllFit l.ops →
      l.figure .upload = bytes (datagrams s.lanCalls) ∧
        l.figure .uploadPacket = s.lanCalls.length) := by
  have hrefines : ∃ l, (lts C makeUdp checks).Reachable l ∧ Refines s l := by
    induction hs with
    | init hinit =>
      obtain ⟨ignoreIdle, plugins, hplugins, rfl⟩ := hinit
      exact ⟨_, .init ⟨ignoreIdle, plugins, hplugins, rfl⟩, ⟨rfl, rfl, rfl, rfl, rfl⟩⟩
    | step _ hstep ih =>
      obtain ⟨_, hl, h⟩ := ih
      exact h.step hl hstep
  obtain ⟨l, hl, h⟩ := hrefines
  refine ⟨l, hl, h, fun hfit => ?_⟩
  have hfig := (counted_of_reachable hl).figure_eq hfit
  rw [hfig, hfig, h.upload, h.uploadPacket, h.sent]
  exact ⟨rfl, rfl⟩

end Lan

end SlpServer
