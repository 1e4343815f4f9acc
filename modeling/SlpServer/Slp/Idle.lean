import SlpServer.Lib.Latest
import SlpServer.Slp.Peer

/-!
# Idle peers

What the state of a peer says about the datagrams it was given.  `Connected`
holds the time of the last LAN frame.  `Idle` says that another frame came when
that was five minutes ago or more: time alone makes no peer idle.

The channel to the peer's task is whatever a call finds it to be, so that
`try_send` may fail at any call.
-/

namespace SlpServer

open Rust

/-- The frames that carry LAN traffic. -/
def ForwarderFrame.isLan : ForwarderFrame → Bool
  | .ipv4 _ | .ipv4Frag _ => true
  | _ => false

namespace Peer

/-- What `on_packet` boxes as its error. -/
inductive OnPacketError
  | parse (e : ParseError)
  | trySend (e : TrySendError)
  deriving DecidableEq, Repr

/-- `Peer::on_packet` to its end, `rx` being the channel to the peer's task: the
state is written before `try_send`. -/
def onPacketAndSend (self : Peer) (rx : Chan InPacket 10) (data : InPacket) (now : Instant) :
    Exec (Except OnPacketError Unit × Peer × Chan InPacket 10) := do
  match ← self.onPacket data.data now with
  | none => pure (.error (.parse .notParseable), self, rx)
  | some self =>
    match rx.trySend data with
    | .ok rx => pure (.ok (), self, rx)
    | .error e => pure (.error (.trySend e), self, rx)

/-- A call of `on_packet`. -/
structure Call where
  rx : Chan InPacket 10
  data : InPacket
  now : Instant

/-- The peer after some calls. -/
def afterCalls (self : Peer) (calls : List Call) : Exec Peer :=
  calls.foldlM (fun peer c => do
    let (_, peer, _) ← peer.onPacketAndSend c.rx c.data c.now
    pure peer) self

/-! ### One call -/

/-- The time of a call with a LAN frame. -/
def Call.lanTime (c : Call) : Option Instant :=
  match ForwarderFrame.parse c.data.data with
  | .ok (.ok frame) => if frame.isLan then some c.now else none
  | _ => none

/-- The call has another frame, five minutes after `t` or later. -/
def Call.Overdue (t : Instant) (c : Call) : Prop :=
  ∃ frame, ForwarderFrame.parse c.data.data = .ok (.ok frame) ∧ frame.isLan = false ∧
    t + idleTimeout ≤ c.now

theorem stateAfter_lan {frame : ForwarderFrame} (h : frame.isLan = true) (s : PeerState)
    (now : Instant) : stateAfter s frame now = some (.connected now) := by
  cases frame with
  | ipv4 v | ipv4Frag v => rfl
  | keepalive | ping | authMe | info => cases h

theorem stateAfter_connected {frame : ForwarderFrame} (h : frame.isLan = false) (t now : Instant) :
    stateAfter (.connected t) frame now = if t + idleTimeout ≤ now then some .idle else none := by
  have hsub : ∀ a b c : Nat, 0 < c → (a - b < c ↔ ¬ b + c ≤ a) := by
    intro a b c hc
    omega
  have hiff := hsub now t idleTimeout (by decide)
  have hother : stateAfter (.connected t) frame now =
      if now - t < idleTimeout then none else some .idle := by
    cases frame with
    | ipv4 v | ipv4Frag v => cases h
    | keepalive | ping | authMe | info => rfl
  rw [hother, ← ite_not]
  simp only [hiff, not_not]

theorem stateAfter_idle {frame : ForwarderFrame} (h : frame.isLan = false) (now : Instant) :
    stateAfter .idle frame now = none := by
  cases frame with
  | ipv4 v | ipv4Frag v => cases h
  | keepalive | ping | authMe | info => rfl

/-- A call with a frame changes the state as the frame does, whatever
becomes of the datagram. -/
theorem onPacketAndSend_frame {data : InPacket} {frame : ForwarderFrame}
    (h : ForwarderFrame.parse data.data = .ok (.ok frame)) (p : Peer) (rx : Chan InPacket 10)
    (now : Instant) : ∃ r rx', p.onPacketAndSend rx data now =
      .ok (r, { p with state := (stateAfter p.state frame now).getD p.state }, rx') := by
  have hon : p.onPacket data.data now =
      .ok (some { p with state := (stateAfter p.state frame now).getD p.state }) := by
    rw [onPacket, h, ok_bind]
    dsimp only
    cases stateAfter p.state frame now <;> rfl
  rw [onPacketAndSend, hon, ok_bind]
  dsimp only
  cases rx.trySend data with
  | ok rx' => exact ⟨_, _, rfl⟩
  | error e => exact ⟨_, _, rfl⟩

theorem onPacketAndSend_error {data : InPacket} {e : ParseError}
    (h : ForwarderFrame.parse data.data = .ok (.error e)) (p : Peer) (rx : Chan InPacket 10)
    (now : Instant) :
    p.onPacketAndSend rx data now = .ok (.error (.parse .notParseable), p, rx) := by
  rw [onPacketAndSend, onPacket, h]
  rfl

/-! ### All calls -/

/-- The time of the last call with a LAN frame, and without one that of
`Peer::new`. -/
def lastLan (t₀ : Instant) (calls : List Call) : Instant := (latest Call.lanTime calls).getD t₀

/-- An overdue frame has come since the last LAN frame. -/
def OverdueSince (t₀ : Instant) (calls : List Call) : Prop :=
  ∃ c ∈ since Call.lanTime calls, c.Overdue (lastLan t₀ calls)

/-- The state that the calls so far account for. -/
def Accounts (t₀ : Instant) (calls : List Call) (s : PeerState) : Prop :=
  (OverdueSince t₀ calls → s = .idle) ∧
    (¬ OverdueSince t₀ calls → s = .connected (lastLan t₀ calls))

theorem accounts_nil (t₀ : Instant) : Accounts t₀ [] (.connected t₀) :=
  ⟨fun ⟨_, hc, _⟩ => (nomatch hc), fun _ => rfl⟩

theorem lastLan_concat_some {c : Call} {t : Instant} (h : c.lanTime = some t) (t₀ : Instant)
    (calls : List Call) : lastLan t₀ (calls ++ [c]) = t := by
  rw [lastLan, latest_concat, h]
  rfl

theorem lastLan_concat_none {c : Call} (h : c.lanTime = none) (t₀ : Instant)
    (calls : List Call) : lastLan t₀ (calls ++ [c]) = lastLan t₀ calls := by
  rw [lastLan, latest_concat, h]
  rfl

/-- A call without a LAN frame may only add to the overdue ones. -/
theorem overdueSince_concat {c : Call} (h : c.lanTime = none) (t₀ : Instant) (calls : List Call) :
    OverdueSince t₀ (calls ++ [c]) ↔ OverdueSince t₀ calls ∨ c.Overdue (lastLan t₀ calls) := by
  rw [OverdueSince, lastLan_concat_none h, since_concat_none calls h]
  simp only [List.mem_append, List.mem_singleton, or_and_right, exists_or, exists_eq_left]
  rfl

theorem accounts_lan {c : Call} {t : Instant} (h : c.lanTime = some t) (t₀ : Instant)
    (calls : List Call) : Accounts t₀ (calls ++ [c]) (.connected t) := by
  have hnone : ¬ OverdueSince t₀ (calls ++ [c]) := by
    rintro ⟨_, hc, _⟩
    rw [since_concat_some calls h] at hc
    cases hc
  refine ⟨fun ho => absurd ho hnone, fun _ => ?_⟩
  rw [lastLan_concat_some h]

/-- Another frame makes the peer idle when it is overdue. -/
theorem Accounts.other {t₀ : Instant} {calls : List Call} {s : PeerState}
    (h : Accounts t₀ calls s) {c : Call} {frame : ForwarderFrame}
    (hc : ForwarderFrame.parse c.data.data = .ok (.ok frame)) (hlan : frame.isLan = false) :
    Accounts t₀ (calls ++ [c]) ((stateAfter s frame c.now).getD s) := by
  have hnone : c.lanTime = none := by
    rw [Call.lanTime, hc]
    exact if_neg (by rw [hlan]; exact Bool.false_ne_true)
  have hoverdue : c.Overdue (lastLan t₀ calls) ↔ lastLan t₀ calls + idleTimeout ≤ c.now := by
    constructor
    · rintro ⟨_, _, _, hle⟩
      exact hle
    · intro hle
      exact ⟨frame, hc, hlan, hle⟩
  rw [Accounts, overdueSince_concat hnone, lastLan_concat_none hnone, hoverdue]
  by_cases hbefore : OverdueSince t₀ calls
  · rw [h.1 hbefore, stateAfter_idle hlan]
    exact ⟨fun _ => rfl, fun hn => absurd (.inl hbefore) hn⟩
  · rw [h.2 hbefore, stateAfter_connected hlan]
    by_cases hle : lastLan t₀ calls + idleTimeout ≤ c.now
    · rw [if_pos hle]
      exact ⟨fun _ => rfl, fun hn => absurd (.inr hle) hn⟩
    · rw [if_neg hle]
      exact ⟨fun ho => absurd ho (by simp [hbefore, hle]), fun _ => rfl⟩

theorem Accounts.error {t₀ : Instant} {calls : List Call} {s : PeerState}
    (h : Accounts t₀ calls s) {c : Call} {e : ParseError}
    (hc : ForwarderFrame.parse c.data.data = .ok (.error e)) : Accounts t₀ (calls ++ [c]) s := by
  have hnone : c.lanTime = none := by
    rw [Call.lanTime, hc]
  have hoverdue : ¬ c.Overdue (lastLan t₀ calls) := by
    rintro ⟨frame, hframe, _⟩
    rw [hc] at hframe
    cases hframe
  rw [Accounts, overdueSince_concat hnone, lastLan_concat_none hnone, or_iff_left hoverdue]
  exact h

/-- One call keeps the state accounted for. -/
theorem Accounts.step {t₀ : Instant} {calls : List Call} {p : Peer}
    (h : Accounts t₀ calls p.state) (c : Call) :
    ∃ r p' rx', p.onPacketAndSend c.rx c.data c.now = .ok (r, p', rx') ∧
      p'.sender = p.sender ∧ Accounts t₀ (calls ++ [c]) p'.state := by
  obtain ⟨r, hr, _⟩ := ForwarderFrame.parse_total c.data.data
  cases r with
  | error e => exact ⟨_, p, c.rx, onPacketAndSend_error hr p c.rx c.now, rfl, h.error hr⟩
  | ok frame =>
    obtain ⟨r, rx', hon⟩ := onPacketAndSend_frame hr p c.rx c.now
    refine ⟨r, _, rx', hon, rfl, ?_⟩
    cases hlan : frame.isLan with
    | false => exact h.other hr hlan
    | true =>
      have hsome : c.lanTime = some c.now := by
        rw [Call.lanTime, hr]
        exact if_pos hlan
      dsimp only
      rw [stateAfter_lan hlan]
      exact accounts_lan hsome t₀ calls

theorem accounts_of_calls (task : PeerId) (t₀ : Instant) (calls : List Call) :
    ∃ p, (Peer.new task t₀).afterCalls calls = .ok p ∧ p.sender = task ∧
      Accounts t₀ calls p.state := by
  induction calls using List.reverseRecOn with
  | nil => exact ⟨_, rfl, rfl, accounts_nil t₀⟩
  | append_singleton calls c ih =>
    obtain ⟨p, hp, hsender, hacc⟩ := ih
    obtain ⟨r, p', rx', hon, hsender', hacc'⟩ := hacc.step c
    refine ⟨p', ?_, hsender'.trans hsender, hacc'⟩
    rw [afterCalls] at hp ⊢
    rw [List.foldlM_append, hp, ok_bind, List.foldlM_cons, hon]
    rfl

/-- **Idleness follows the packets**: after any calls the peer is `Idle` exactly
when an overdue frame has come since the last LAN frame, it is `Connected` with
the time of that frame otherwise, and data that do not parse change nothing. -/
theorem idle_iff_overdue (task : PeerId) (t₀ : Instant) (calls : List Call) :
    ∃ p, (Peer.new task t₀).afterCalls calls = .ok p ∧ p.sender = task ∧
      (p.state = .idle ↔ OverdueSince t₀ calls) ∧
      (¬ OverdueSince t₀ calls → p.state = .connected (lastLan t₀ calls)) ∧
      ∀ (rx : Chan InPacket 10) (data : InPacket) (now : Instant) (e : ParseError),
        ForwarderFrame.parse data.data = .ok (.error e) →
        p.onPacketAndSend rx data now = .ok (.error (.parse .notParseable), p, rx) := by
  obtain ⟨p, hp, hsender, hidle, hconnected⟩ := accounts_of_calls task t₀ calls
  refine ⟨p, hp, hsender, ⟨?_, hidle⟩, hconnected, ?_⟩
  · intro hstate
    by_contra hnone
    rw [hconnected hnone] at hstate
    cases hstate
  · intro rx data now e he
    exact onPacketAndSend_error he p rx now

end Peer

end SlpServer
