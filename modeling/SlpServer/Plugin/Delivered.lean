import SlpServer.Plugin.Register
import SlpServer.Slp.Completion
import SlpServer.Slp.Intake
import SlpServer.Slp.Loss
import SlpServer.Slp.Switch

/-!
# From the socket to the socket

The server with its own plugins, from `recv_from` to the last `send_to`.  A frame
passes the receive loop (`Intake`), its task (`NoLoss`), the event task
(`Complete`) and the peer manager (`Recorded`); `delivered` is about all four of
them.  The plugins of the server refuse nothing that goes out, and so nothing is
lost after the event channel.
-/

namespace SlpServer

open Rust PeerTask

namespace Server

variable {P : Type}

theorem passing_boxPlugin (C : Crates) (checks : Bool) : Passing (BoxPlugin.plugin C checks) :=
  fun _ _ _ _ _ h => (BoxPlugin.outPackets_eq_ok h).1

theorem Parked.pipeline {s : Server P} {i : PeerId} {t : PeerTask} (h : Parked s i t) :
    t.pipeline = [] := by
  obtain ⟨hq, hp | ⟨deadline, hp, _⟩⟩ := h
  · simp [PeerTask.pipeline, inHand, hp, hq]
  · simp [PeerTask.pipeline, inHand, hp, hq]

theorem forPeer_of_relayable {d : InPacket} (h : Relayable d.data) : d.forPeer = true := by
  unfold InPacket.forPeer
  obtain ⟨v, hv⟩ | ⟨v, hv⟩ := h
  · rw [hv]
  · rw [hv]

/-- The receive loop has handed over every LAN frame when it is idle. -/
theorem Intake.handed_of_relayable {s : Server P} {k : Nat} (h : Intake s k)
    (hidle : s.recv = .idle) {n : Nat} {d : InPacket} (hd : s.received[n]? = some d)
    (hrel : Relayable d.data) : ∃ x ∈ s.handed, x.stamp = n := by
  have hdone := h.done
  simp only [DoneWith, hidle] at hdone
  have hmem : n ∈ s.handed.map Handed.stamp := by
    rw [h.handed, hdone]
    refine List.mem_filter.mpr ⟨List.mem_range.mpr (List.getElem?_eq_some_iff.mp hd).1, ?_⟩
    rw [hd, Option.any_some]
    exact forPeer_of_relayable hrel
  exact List.mem_map.mp hmem

/-- **A frame that was sent on has gone out** when the event task has nothing to
do: in one call, to all its addresses. -/
theorem Complete.gone {s : Server P} (h : Complete s.posted s.lanCalls s.sent (work s))
    (hwork : work s = []) {e : Posted} (he : e ∈ s.posted) {src : SocketAddr} {out : OutPacket}
    (hev : e.event = .sendLAN src out) : ∃ c ∈ s.lanCalls, c.posted = e ∧
      (∀ c' ∈ s.lanCalls, c'.posted = e → c' = c) ∧ copiesOf s.sent e = c.addrs := by
  rcases h.served e he src out hev with ⟨j, hj, _⟩ | ⟨c, hc, rfl⟩
  · rw [hwork] at hj
    cases hj
  · refine ⟨c, hc, rfl, fun c' hc' hce => List.inj_on_of_nodup_map h.once hc' hc hce, ?_⟩
    obtain ⟨rest, hrest, haddrs⟩ := h.copies c hc
    rw [hwork] at hrest
    rcases hrest with hmem | ⟨rfl, _⟩
    · cases hmem
    · rw [List.append_nil] at haddrs
      exact haddrs

theorem Served.eq_of_stamp {s : Server P} (h : Served s) {e e' : Posted} (he : e ∈ s.posted)
    (he' : e' ∈ s.posted) {n : Nat} (hn : e.stamp = some n) (hn' : e'.stamp = some n) : e = e' := by
  by_contra hne
  have hpairs := List.pairwise_filterMap.mp h.unique
  have : Std.Symm fun a b : Posted =>
      ∀ x, a.stamp = some x → ∀ y, b.stamp = some y → x ≠ y :=
    ⟨fun _ _ hab x hx y hy => Ne.symm (hab y hy x hx)⟩
  exact hpairs.forall he he' hne n hn n hn' rfl

/-- The datagram has gone out as it came, in one call of `send_lan` and one copy to
each client to which the switch forwards its frame where it stands in the
history. -/
def Delivered (s : Server P) (n : Nat) (d : InPacket) : Prop :=
  ∃ c ∈ s.lanCalls, c.posted.stamp = some n ∧ c.packet = d.data ∧
    (∀ c' ∈ s.lanCalls, c'.posted.stamp = some n → c' = c) ∧
    copiesOf s.sent c.posted = c.addrs ∧ c.addrs.Nodup ∧
    ∃ pre out post, s.seen = pre ++ .routed c.posted d.addr out :: post ∧
      doPacket d.data = .ok (.ok (some out)) ∧ ∀ q, q ∈ c.addrs ↔
        Switch.Forwards s.manager.ignoreIdle (pre.map Seen.event) d.addr out.addr.srcIp
          out.addr.dstIp q

theorem Recorded.delivered_of_call {s : Server P} (hr : Recorded s) {c : LanCall}
    (hc : c ∈ s.lanCalls) {n : Nat} {d : InPacket} (hd : s.received[n]? = some d)
    (hn : c.posted.stamp = some n)
    (hpacket : c.packet = d.data) (honly : ∀ c' ∈ s.lanCalls, c'.posted.stamp = some n → c' = c)
    (hcopies : copiesOf s.sent c.posted = c.addrs) : Delivered s n d := by
  obtain ⟨hnodup, pre, a, out, post, hseen, hev, hforwards⟩ := hr.calls c hc
  obtain ⟨_, _, hout, m, hm, hrec⟩ := hr.genuine (.routed c.posted a out) (by rw [hseen]; simp)
  rw [hn] at hm
  cases hm
  rw [hd] at hrec
  cases hrec
  exact ⟨c, hc, hn, hpacket, honly, hcopies, hnodup, pre, out, post, hseen, hout, hforwards⟩

/-- **Every LAN frame is delivered.**  In a run of the server with its plugins
whose steps hand nothing to a closed channel and drop nothing with one, and which
has come to rest with its loops running, each LAN frame that was received found
the channel of its client full, or went out: in one call of `send_lan`, as it
came, one copy to each client to which a learning switch forwards it. -/
theorem delivered (C : Crates) (checks ignoreIdle : Bool) (plugins : List BoxPlugin)
    {r : List (Label × Server BoxPlugin)}
    (hr : (lts (BoxPlugin.plugin C checks)).Run (new ignoreIdle plugins) r)
    (hguard : Lts.Guarded LossGuard (new ignoreIdle plugins) r)
    (hrest : AtRest (Lts.last (new ignoreIdle plugins) r))
    (hidle : (Lts.last (new ignoreIdle plugins) r).recv = .idle)
    (hopen : (Lts.last (new ignoreIdle plugins) r).events.closed = false) :
    let s := Lts.last (new ignoreIdle plugins) r
    ∀ n d, s.received[n]? = some d → Relayable d.data →
      (∃ x ∈ s.handed, x.stamp = n ∧ x.result = .error .full) ∨ Delivered s n d := by
  intro s n d hd hrel
  have hnew : (lts (BoxPlugin.plugin C checks)).Reachable (new ignoreIdle plugins) :=
    .init ⟨ignoreIdle, plugins, rfl⟩
  have hreach : (lts (BoxPlugin.plugin C checks)).Reachable s := hnew.last hr
  have hnoloss : NoLoss s := by
    refine ((Lts.always_iff_guarded (p := NoLoss) (g := LossGuard) ?_ hnew ?_ hr).mpr hguard).last
    · exact fun _ _ _ hreach hs h => noLoss_step hreach hs h
    · exact fun _ hx => (nomatch hx)
  have hf := flow_of_reachable hreach
  have hv := (delivery_of_reachable hreach).2
  have hcomplete := complete_of_reachable (passing_boxPlugin C checks) hreach hopen
  obtain ⟨k, hintake⟩ := intake_of_reachable hreach
  have hwork : work s = [] := by
    rw [work, hrest.events, hrest.jobs]
    rfl
  obtain ⟨x, hx, rfl⟩ := hintake.handed_of_relayable hidle hd hrel
  rcases hnoloss x hx d hd hrel with hfull | ⟨_, ⟨t, ht, hpipe⟩ | hcount⟩
  · exact .inl ⟨x, hx, rfl, hfull⟩
  · rw [(hrest.tasks _ t ht).pipeline] at hpipe
    cases hpipe
  · obtain ⟨e, he, hstamp⟩ := (Flow.count_posted hreach x.stamp).mp hcount
    obtain ⟨t, _, ⟨n, out, hn, hev, _, hrec⟩ | ⟨hnone, _⟩⟩ := hf.posted e he
    · rw [hstamp] at hn
      cases hn
      obtain ⟨c, hc, rfl, honly, hcopies⟩ := hcomplete.gone hwork he hev
      refine .inr ((recorded_of_reachable hreach).delivered_of_call hc hd hstamp ?_ ?_ hcopies)
      · obtain ⟨_, src, out', hev', hpacket⟩ := hv.calls c hc
        rw [hev] at hev'
        cases hev'
        rw [hd] at hrec
        cases hrec
        exact hpacket
      · intro c' hc' hstamp'
        exact honly c' hc' (hv.eq_of_stamp (hv.calls c' hc').1 he hstamp' hstamp)
    · rw [hstamp] at hnone
      cases hnone

/-- The channel of the task is open, and stays so in its next step. -/
def calm (t : PeerTask) : Bool :=
  match t.phase with
  | .leaving => false
  | _ => !t.rx.closed

/-- All channels are open and stay so. -/
def Calm (s : Server P) (_ : Label) : Prop :=
  s.tasks.all calm = true ∧ s.events.closed = false

instance (s : Server P) (l : Label) : Decidable (Calm s l) :=
  inferInstanceAs (Decidable (_ ∧ _))

theorem lossGuard_of_calm {s : Server P} {l : Label} (h : Calm s l) : LossGuard s l := by
  obtain ⟨htasks, hopen⟩ := h
  have hcalm : ∀ {i : PeerId} {t : PeerTask}, s.tasks[i]? = some t →
      t.rx.closed = false ∧ t.phase ≠ .leaving := by
    intro i t ht
    have hc := List.all_eq_true.mp htasks t (List.mem_of_getElem? ht)
    unfold calm at hc
    split at hc
    · cases hc
    · rename_i hne
      exact ⟨by simpa using hc, hne⟩
  refine ⟨?_, ?_, ?_⟩
  · intro _ d p t _ _ _ ht
    exact (hcalm ht).1
  · intro i t _ ht hleaving
    exact absurd hleaving (hcalm ht).2
  · intro _ _ _ _ _ _ _
    exact hopen

/-- Alice's frame goes to Bob, and both tasks wait again. -/
def settledTurns : List Turn := relayTurns ++ [.task 1] ++ serve 0

/-- The server with its plugins, but for the table of them. -/
def settled : Server BoxPlugin :=
  outcome (BoxPlugin.plugin .byLayout true) [] settledTurns

theorem atRest_settled : AtRest settled := by
  refine ⟨.inl rfl, rfl, rfl, ?_⟩
  intro i t ht
  match i, ht with
  | 0, ht | 1, ht =>
    cases ht
    exact ⟨rfl, .inr ⟨30000, rfl, by decide, rfl⟩⟩
  | _ + 2, ht => cases ht

/-- Bob is sent the frame, which was the second datagram. -/
theorem delivered_settledTurns :
    Delivered settled 1 ⟨lanDatagram, alice⟩ ∧ settled.sent.map (fun x => x.addr) = [bob] := by
  have hcalm : Lts.Guarded Calm (new false [])
      (trace (BoxPlugin.plugin .byLayout true) [] settledTurns) := by decide
  have hrel : Relayable lanDatagram := .inl ⟨⟨lanDatagram.tail, by decide⟩, rfl⟩
  have hnotfull : ∀ x ∈ settled.handed, x.stamp = 1 → x.result = .ok () := by
    intro x hx hstamp
    rcases List.mem_pair.mp (show x ∈ [_, _] from hx) with rfl | rfl
    · cases hstamp
    · rfl
  refine ⟨?_, rfl⟩
  rcases delivered .byLayout true false [] (run_trace _ [] settledTurns)
    (hcalm.imp fun _ _ => lossGuard_of_calm) atRest_settled rfl rfl 1 ⟨lanDatagram, alice⟩ rfl
    hrel with ⟨x, hx, hstamp, hfull⟩ | hdelivered
  · rw [hnotfull x hx hstamp] at hfull
    cases hfull
  · exact hdelivered

end Server

end SlpServer
