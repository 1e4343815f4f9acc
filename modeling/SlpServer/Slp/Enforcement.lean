import SlpServer.Slp.Relay
import SlpServer.Plugin.Fragments

/-!
# The verdicts of the plugins

`recv_task` asks every plugin about a datagram, and goes on as if all had said
`Ok`: its `continue` is in the loop over the plugins.  The same loop in
`event_task` returns.

A refused datagram is still not handed to a peer when it is none that is handed
to peers, because it does not parse or is a ping.  `enforced_iff` says that
these are all: the verdicts are enforced exactly in the runs in which no plugin
refuses another datagram.
-/

namespace SlpServer

open Rust

namespace Server

variable {P : Type}

/-- No datagram that some plugin refused was handed to a peer, or sent on. -/
def Enforced (s : Server P) : Prop :=
  ∀ n ∈ s.refused, (∀ x ∈ s.handed, x.stamp ≠ n) ∧ ∀ e ∈ s.posted, e.stamp ≠ some n

/-- The receive loop hands such a datagram to its peer. -/
def Handable (packet : Packet) : Prop :=
  ∃ frame, ForwarderFrame.parse packet = .ok (.ok frame) ∧ ∀ ping, frame ≠ .ping ping

/-- The receive loop has a datagram for a peer: no plugin has refused it. -/
def Decided (s : Server P) : Prop :=
  ∀ d, s.recv = .deciding d → Handable d.packet.data → d.stamp ∉ s.refused

/-! ### The loop over the plugins -/

/-- What the loop comes to, whatever the order: it ends where no plugin
panics, and some plugin has refused the datagram if one of them does. -/
theorem inPackets_ok {plugin : Plugin P} {d : InPacket} {order plugins : List P} {refused : Bool}
    (h : inPackets plugin d order = .ok (refused, plugins)) :
    (∀ p ∈ order, ∃ x, plugin.inPacket p d = .ok x) ∧
      (refused = true ↔ ∃ p ∈ order, ∃ p', plugin.inPacket p d = .ok (.error (), p')) := by
  induction order generalizing refused plugins with
  | nil =>
    cases h
    simp
  | cons p rest ih =>
    rw [inPackets, bind_eq_ok] at h
    obtain ⟨⟨v, p'⟩, hv, h⟩ := h
    obtain ⟨⟨refused', rest'⟩, hrest, h⟩ := bind_eq_ok.mp h
    cases h
    obtain ⟨hall, hiff⟩ := ih hrest
    constructor
    · intro q hq
      rcases List.mem_cons.mp hq with rfl | hq
      · exact ⟨_, hv⟩
      · exact hall q hq
    · rw [Bool.or_eq_true, hiff]
      constructor
      · rintro (h | ⟨q, hq, h⟩)
        · cases v with
          | ok u => cases h
          | error u => exact ⟨p, by simp, p', hv⟩
        · exact ⟨q, by simp [hq], h⟩
      · rintro ⟨q, hq, q', hq'⟩
        rcases List.mem_cons.mp hq with rfl | hq
        · rw [hv] at hq'
          cases hq'
          exact .inl rfl
        · exact .inr ⟨q, hq, q', hq'⟩

theorem inPackets_error {plugin : Plugin P} {d : InPacket} {order : List P} {e : Panic}
    (h : inPackets plugin d order = .error e) : ∃ p ∈ order, plugin.inPacket p d = .error e := by
  induction order with
  | nil => cases h
  | cons p rest ih =>
    rw [inPackets, bind_eq_error] at h
    rcases h with h | ⟨x, _, h⟩
    · exact ⟨p, by simp, h⟩
    · rcases bind_eq_error.mp h with h | ⟨y, _, h⟩
      · obtain ⟨q, hq, h⟩ := ih h
        exact ⟨q, by simp [hq], h⟩
      · cases h

theorem mem_refused {ns : List Nat} {refused : Bool} {stamp n : Nat} :
    n ∈ (if refused then ns ++ [stamp] else ns) ↔ n ∈ ns ∨ (refused = true ∧ n = stamp) := by
  cases refused <;> simp

/-- The plugins let a datagram for a peer pass, or one of them panics. -/
def VerdictGuard (plugin : Plugin P) (s : Server P) (l : Label) : Prop :=
  l = .filter → ∀ d, s.recv = .filtering d → Handable d.packet.data →
    (∀ p ∈ s.plugins, ∃ x, plugin.inPacket p d.packet = .ok x) →
      ∀ p ∈ s.plugins, ∀ p', plugin.inPacket p d.packet ≠ .ok (.error (), p')

theorem verdictGuard_of_ne {plugin : Plugin P} {s : Server P} {l : Label} (h : l ≠ .filter) :
    VerdictGuard plugin s l := fun hc => absurd hc h

/-! ### One step -/

/-- The refused datagrams have come, and before the one that is asked about. -/
structure Numbered (s : Server P) : Prop where
  refused : ∀ n ∈ s.refused, n < s.received.length
  filtering : ∀ d, s.recv = .filtering d → ∀ n ∈ s.refused, n < d.stamp

theorem Numbered.step {plugin : Plugin P} {s s' : Server P} {l : Label} (hf : Flow s)
    (hn : Numbered s) (h : Step plugin s l s') : Numbered s' := by
  cases h with
  | receive packet h =>
    constructor
    · intro n hr
      rw [List.length_append]
      exact Nat.lt_add_right _ (hn.refused n hr)
    · intro d hd n hr
      cases hd
      exact hn.refused n hr
  | @filter d order plugins refused h horder hin =>
    have hlt : d.stamp < s.received.length :=
      (List.getElem?_eq_some_iff.mp (hf.recv d (by rw [h]; rfl)).1).1
    refine ⟨?_, fun d' hd' => (nomatch hd')⟩
    intro n hr
    rcases mem_refused.mp hr with hr | ⟨_, rfl⟩
    · exact hn.refused n hr
    · exact hlt
  | recvFails | filterPanics | discard | pong | dispatch =>
    exact ⟨hn.refused, fun d hd => (nomatch hd)⟩
  | tick | configure | task | taskSends | take | close | route | sendLan | drop | crash | sendTo
  | finish => exact ⟨hn.refused, hn.filtering⟩

theorem numbered_of_reachable {plugin : Plugin P} {s : Server P} (h : (lts plugin).Reachable s) :
    Numbered s := by
  have hall : Flow s ∧ Numbered s := by
    refine Lts.invariant (p := fun s => Flow s ∧ Numbered s) ?_
      (fun s l s' hs hstep => ⟨hs.1.step hstep, hs.2.step hs.1 hstep⟩) h
    rintro _ ⟨ignoreIdle, plugins, rfl⟩
    exact ⟨flow_new ignoreIdle plugins, fun n hn => (nomatch hn), fun d hd => (nomatch hd)⟩
  exact hall.2

theorem Flow.handed_of_posted {s : Server P} (hf : Flow s) {e : Posted} (he : e ∈ s.posted)
    {n : Nat} (hn : e.stamp = some n) : ∃ x ∈ s.handed, x.stamp = n := by
  obtain ⟨_, _, ⟨m, _, hm, _, ⟨x, hx, _, hxm, _⟩, _⟩ | ⟨hnone, _⟩⟩ := hf.posted e he
  · rw [hn] at hm
    cases hm
    exact ⟨x, hx, hxm⟩
  · rw [hn] at hnone
    cases hnone

/-- Refused datagrams that are not handed over are not sent on either. -/
theorem enforced_of_handed {s : Server P} (hf : Flow s)
    (h : ∀ n ∈ s.refused, ∀ x ∈ s.handed, x.stamp ≠ n) : Enforced s := by
  refine fun n hn => ⟨h n hn, ?_⟩
  intro e he hen
  obtain ⟨x, hx, hxn⟩ := hf.handed_of_posted he hen
  exact h n hn x hx hxn

/-- One step keeps to the verdicts exactly when the guard holds of it. -/
theorem enforced_step {plugin : Plugin P} {s s' : Server P} {l : Label}
    (hr : (lts plugin).Reachable s) (hs : Enforced s ∧ Decided s) (h : Step plugin s l s') :
    Enforced s' ∧ Decided s' ↔ VerdictGuard plugin s l := by
  have hf := flow_of_reachable hr
  have hf' := hf.step h
  have hn := numbered_of_reachable hr
  obtain ⟨he, hd⟩ := hs
  have hquiet : l ≠ .filter → Enforced s' ∧ Decided s' →
      (Enforced s' ∧ Decided s' ↔ VerdictGuard plugin s l) :=
    fun hl hs' => ⟨fun _ => verdictGuard_of_ne hl, fun _ => hs'⟩
  cases h with
  | @filter d order plugins refused h horder hin =>
    obtain ⟨hall, hrefused⟩ := inPackets_ok hin
    have hlt := (hf.recv d (by rw [h]; rfl)).2
    have henf : Enforced { s with
        recv := .deciding d
        plugins
        refused := if refused then s.refused ++ [d.stamp] else s.refused } := by
      apply enforced_of_handed hf'
      intro n hn x hx
      rcases mem_refused.mp hn with hn | ⟨_, rfl⟩
      · exact (he n hn).1 x hx
      · exact Nat.ne_of_lt (hlt x hx)
    constructor
    · rintro ⟨_, hdec⟩ _ d' hd' hhand _ p hp p' hp'
      rw [h] at hd'
      cases hd'
      have hyes := hrefused.mpr ⟨p, horder.mem_iff.mpr hp, p', hp'⟩
      exact hdec d rfl hhand (mem_refused.mpr (.inr ⟨hyes, rfl⟩))
    · intro hg
      refine ⟨henf, ?_⟩
      intro d' hd' hhand
      cases hd'
      intro hc
      rcases mem_refused.mp hc with hc | ⟨hyes, _⟩
      · exact absurd (hn.filtering d h _ hc) (Nat.lt_irrefl _)
      · obtain ⟨p, hp, p', hp'⟩ := hrefused.mp hyes
        exact hg rfl d h hhand (fun q hq => hall q (horder.mem_iff.mpr hq)) p
          (horder.mem_iff.mp hp) p' hp'
  | filterPanics plugins h horder hin =>
    refine ⟨?_, fun _ => ⟨he, fun d hd => (nomatch hd)⟩⟩
    intro _ _ d hd _ hall
    rw [h] at hd
    cases hd
    obtain ⟨p, hp, hpanic⟩ := inPackets_error hin
    obtain ⟨x, hx⟩ := hall p (horder.mem_iff.mp hp)
    rw [hpanic] at hx
    cases hx
  | @dispatch d frame peer peer' tasks t h hparse hping hentry hon ht =>
    refine hquiet (by simp) ⟨?_, fun d hd => (nomatch hd)⟩
    apply enforced_of_handed hf'
    intro n hn x hx
    rcases List.mem_append.mp hx with hx | hx
    · exact (he n hn).1 x hx
    · rw [List.mem_singleton.mp hx]
      rintro rfl
      exact hd d h ⟨frame, hparse, hping⟩ hn
  | taskSends ht hstep hsend =>
    exact hquiet (by simp) ⟨enforced_of_handed hf' fun n hn => (he n hn).1, hd⟩
  | receive | recvFails | discard | pong =>
    exact hquiet (by simp) ⟨he, fun d hd => (nomatch hd)⟩
  | tick | configure | task | take | close | route | sendLan | drop | crash | sendTo | finish =>
    exact hquiet (by simp) ⟨he, hd⟩

/-! ### Runs -/

/-- A refused datagram that the receive loop has for a peer stays there until it
is handed over. -/
theorem undecided_step {plugin : Plugin P} {s s' : Server P} {l : Label}
    (hs : ¬ Decided s) (h : Step plugin s l s') : ¬ Enforced s' ∨ ¬ Decided s' := by
  simp only [Decided, not_forall, not_not] at hs
  obtain ⟨d, hd, hhand, hn⟩ := hs
  have hstay : s'.recv = s.recv → s'.refused = s.refused → ¬ Enforced s' ∨ ¬ Decided s' :=
    fun hrecv hrefused => .inr fun hc => hc d (hrecv.trans hd) hhand (hrefused ▸ hn)
  have hgone : ∀ {q : RecvPhase}, s.recv = q → q ≠ .deciding d → ¬ Enforced s' ∨ ¬ Decided s' :=
    fun hq hne => absurd (hq.symm.trans hd) hne
  obtain ⟨frame, hframe, hnoping⟩ := hhand
  cases h with
  | @dispatch d' frame' peer peer' tasks t h hparse hping hentry hon ht =>
    rw [hd] at h
    cases h
    left
    intro hc
    exact (hc d.stamp hn).1 _ (List.mem_append_right _ (List.mem_singleton_self _)) rfl
  | @discard d' e h hparse =>
    rw [hd] at h
    cases h
    rw [hframe] at hparse
    cases hparse
  | @pong d' ping data h hparse hbuild =>
    rw [hd] at h
    cases h
    rw [hframe] at hparse
    cases hparse
    exact absurd rfl (hnoping ping)
  | receive packet h | recvFails h | filter h | filterPanics plugins h => exact hgone h (by simp)
  | tick | configure | task | taskSends | take | close | route | sendLan | drop | crash | sendTo
  | finish => exact hstay rfl rfl

/-- Once refused, it is handed over by the end of a run that does not stop
before. -/
theorem decided_of_enforced {plugin : Plugin P} {s : Server P} {r : List (Label × Server P)}
    (hr : (lts plugin).Run s r) (hlast : ∀ d, (Lts.last s r).recv ≠ .deciding d)
    (h : Lts.Always Enforced s r) : Lts.Always (fun s => Enforced s ∧ Decided s) s r := by
  induction r generalizing s with
  | nil => exact ⟨h, fun d hd => absurd hd (hlast d)⟩
  | cons x r ih =>
    obtain ⟨hx, hr⟩ := hr
    have htail := ih hr hlast h.2
    refine ⟨⟨h.1, ?_⟩, htail⟩
    by_contra hc
    rcases undecided_step hc hx with hn | hn
    · exact hn htail.head.1
    · exact hn htail.head.2

/-- **When the verdicts of the plugins are enforced**: in every run in which no
plugin refuses a datagram that is for a peer, and in no other run that does not
stop between a verdict and what follows from it. -/
theorem enforced_iff (plugin : Plugin P) (ignoreIdle : Bool) (plugins : List P)
    {r : List (Label × Server P)} (hr : (lts plugin).Run (new ignoreIdle plugins) r) :
    (Lts.Guarded (VerdictGuard plugin) (new ignoreIdle plugins) r →
      Lts.Always Enforced (new ignoreIdle plugins) r) ∧
    ((∀ d, (Lts.last (new ignoreIdle plugins) r).recv ≠ .deciding d) →
      (Lts.Always Enforced (new ignoreIdle plugins) r ↔
        Lts.Guarded (VerdictGuard plugin) (new ignoreIdle plugins) r)) := by
  have hiff : Lts.Always (fun s => Enforced s ∧ Decided s) (new ignoreIdle plugins) r ↔
      Lts.Guarded (VerdictGuard plugin) (new ignoreIdle plugins) r :=
    Lts.always_iff_guarded (fun _ _ _ hreach hs h => enforced_step hreach hs h)
      (.init ⟨ignoreIdle, plugins, rfl⟩) ⟨fun n hn => (nomatch hn), fun d hd => (nomatch hd)⟩ hr
  have hgood : Lts.Guarded (VerdictGuard plugin) (new ignoreIdle plugins) r →
      Lts.Always Enforced (new ignoreIdle plugins) r :=
    fun hg => (hiff.mpr hg).imp fun _ hs => hs.1
  exact ⟨hgood, fun hlast => ⟨fun h => hiff.mp (decided_of_enforced hr hlast h), hgood⟩⟩

/-- Alice sends a packet that the blocker refuses, and it goes through. -/
def refusedTurns : List Turn := arrive ⟨ForwarderType.ipv4 :: udpToPort5000, alice⟩ ++ serve 0

def blocker : BlockerPlugin := BlockerPlugin.new.setBlockRules [⟨.udp, 5000⟩]

theorem not_enforced_refusedTurns :
    ¬ Enforced (outcome (BlockerPlugin.plugin .byLayout) [blocker] refusedTurns) := by
  intro h
  obtain ⟨_, hposted⟩ := h 0 (List.mem_of_getElem? (i := 0) rfl)
  exact hposted _ (List.mem_of_getElem? (i := 0) rfl) rfl

theorem not_verdictGuard_refusedTurns :
    ¬ Lts.Guarded (VerdictGuard (BlockerPlugin.plugin .byLayout)) (new false [blocker])
      (trace (BlockerPlugin.plugin .byLayout) [blocker] refusedTurns) := fun h =>
  not_enforced_refusedTurns
    ((enforced_iff (BlockerPlugin.plugin .byLayout) false [blocker]
      (run_trace _ [blocker] refusedTurns)).1 h).last

theorem refused_datagram_is_relayed : ¬ ∀ s : Server BlockerPlugin,
    (lts (BlockerPlugin.plugin .byLayout)).Reachable s → Enforced s :=
  fun h => not_enforced_refusedTurns (h _ (reachable_outcome _ [blocker] refusedTurns))

end Server

end SlpServer
