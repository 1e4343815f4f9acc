import SlpServer.Lib.Lts
import SlpServer.Plugin.Traffic

/-!
# Slow subscribers

One stream of `server_info_stream` or `traffic_info_stream`, and any values sent
to its channel between its polls.

`take_while(is_ok)` is there for the end of the channel, but the one error that a
broadcast channel has is that its receiver has fallen behind, and the channel
would go on after it with the oldest value it retains.  The stream does not: it
ends when it is polled two or more values behind, although the sender is alive
(`notCutOff_iff`).
-/

namespace SlpServer

variable {α : Type} [DecidableEq α]

/-- The stream of a subscriber, the items it has received, and the values sent
since it came. -/
structure Subscription (α : Type) where
  chan : Broadcast α 1
  stream : InfoStream α
  received : List α
  sent : List α

/-- The stream yields its end from now on. -/
def InfoStream.Ended (self : InfoStream α) : Prop := self.first = none ∧ self.live = false

instance (s : InfoStream α) : Decidable s.Ended := inferInstanceAs (Decidable (_ ∧ _))

namespace Subscription

/-- A new stream and the channel with its receiver. -/
def start (r : InfoStream α × Broadcast α 1) : Subscription α := ⟨r.2, r.1, [], []⟩

inductive Label (α : Type)
  | send (v : α)
  | join
  | leave
  | poll

/-- The sender is alive throughout.  Other receivers come and go. -/
inductive Step : Subscription α → Label α → Subscription α → Prop
  | send {s : Subscription α} (v : α) : Step s (.send v) { s with
      chan := (s.chan.send v).getD s.chan
      sent := s.sent ++ [v] }
  | join {s : Subscription α} : Step s .join { s with chan := s.chan.subscribe.2 }
  | leave {s : Subscription α} (h : 1 < s.chan.receivers) :
    Step s .leave { s with chan := s.chan.unsubscribe }
  | poll {s : Subscription α} {out : Option α} {stream : InfoStream α}
      (hp : s.stream.poll s.chan = some (out, stream)) :
    Step s .poll { s with stream, received := s.received ++ out.toList }

/-- A subscriber of any channel, from its subscription on. -/
def lts (α : Type) [DecidableEq α] : Lts (Subscription α) (Label α) where
  init s := ∃ chan snapshot, s = start (infoStream chan snapshot)
  step := Step

/-- Both streams of the server are such subscriptions. -/
theorem init_serverInfoStream (chan : Broadcast ServerInfo 1) (manager : InnerPeerManager) :
    (lts ServerInfo).init (start (serverInfoStream chan manager)) := ⟨_, _, rfl⟩

theorem init_trafficInfoStream (chan : Broadcast TrafficInfo 1) (inner : TrafficPlugin.Inner) :
    (lts TrafficInfo).init (start (TrafficPlugin.trafficInfoStream chan inner)) := ⟨_, _, rfl⟩

/-- The stream goes on, and with nothing left to poll the last item received is
the last value sent. -/
def NotCutOff (s : Subscription α) : Prop :=
  ¬ s.stream.Ended ∧
    (s.stream.poll s.chan = none → s.sent ≠ [] → s.received.getLast? = s.sent.getLast?)

/-- A subscriber that polls its channel is at most one value behind. -/
def AtMostOneBehind (s : Subscription α) : Label α → Prop
  | .poll => s.stream.first = none → s.chan.tail ≤ s.stream.rx + 1
  | _ => True

instance (s : Subscription α) : (l : Label α) → Decidable (AtMostOneBehind s l)
  | .poll => inferInstanceAs (Decidable (s.stream.first = none → s.chan.tail ≤ s.stream.rx + 1))
  | .send _ | .join | .leave => inferInstanceAs (Decidable True)

/-! ### What the subscriber has seen -/

/-- Where a subscriber is among the values sent since it came. -/
structure Tracked (s : Subscription α) : Prop where
  receivers : 0 < s.chan.receivers
  state : s.stream.state = s.received.getLast?
  rx_le : s.stream.rx ≤ s.chan.tail
  le_rx : s.chan.tail ≤ s.stream.rx + s.sent.length
  last : s.sent ≠ [] → s.chan.buffer.getLast? = s.sent.getLast?
  live : s.stream.first ≠ none → s.stream.live = true
  unpolled : s.stream.first ≠ none → s.stream.rx + s.sent.length ≤ s.chan.tail
  seen : s.stream.first = none → s.stream.live = true → s.stream.rx = s.chan.tail →
    s.sent ≠ [] → s.received.getLast? = s.sent.getLast?

omit [DecidableEq α] in
theorem tracked_start (chan : Broadcast α 1) (snapshot : α) :
    Tracked (start (infoStream chan snapshot)) where
  receivers := Nat.succ_pos _
  state := rfl
  rx_le := Nat.le_refl _
  le_rx := Nat.le_refl _
  last h := absurd rfl h
  live _ := rfl
  unpolled _ := Nat.le_refl _
  seen h := nomatch h

omit [DecidableEq α] in
theorem Tracked.send {s : Subscription α} (h : s.Tracked) (v : α) :
    Tracked { s with chan := s.chan.push v, sent := s.sent ++ [v] } where
  receivers := h.receivers
  state := h.state
  rx_le := Nat.le_succ_of_le h.rx_le
  le_rx := by
    have hle := h.le_rx
    show s.chan.tail + 1 ≤ s.stream.rx + (s.sent ++ [v]).length
    rw [List.length_append, List.length_singleton]
    omega
  last _ := by
    show (s.chan.push v).buffer.getLast? = (s.sent ++ [v]).getLast?
    rw [Broadcast.getLast?_push Nat.one_pos, List.getLast?_concat]
  live := h.live
  unpolled hfirst := by
    have hle := h.unpolled hfirst
    show s.stream.rx + (s.sent ++ [v]).length ≤ s.chan.tail + 1
    rw [List.length_append, List.length_singleton]
    omega
  seen _ _ hrx := by
    have hle := h.rx_le
    have hrx' : s.stream.rx = s.chan.tail + 1 := hrx
    omega

omit [DecidableEq α] in
theorem Tracked.others {s : Subscription α} (h : s.Tracked) {chan : Broadcast α 1}
    (htail : chan.tail = s.chan.tail) (hbuffer : chan.buffer = s.chan.buffer)
    (hpos : 0 < chan.receivers) : Tracked { s with chan } where
  receivers := hpos
  state := h.state
  rx_le := htail ▸ h.rx_le
  le_rx := htail ▸ h.le_rx
  last := hbuffer ▸ h.last
  live := h.live
  unpolled := htail ▸ h.unpolled
  seen := htail ▸ h.seen

omit [DecidableEq α] in
/-- The last value sent is there for a subscriber that is behind. -/
theorem Tracked.exists_last {s : Subscription α} (h : s.Tracked) (hrx : s.stream.rx < s.chan.tail) :
    ∃ v, s.sent.getLast? = some v ∧ s.chan.buffer.getLast? = some v := by
  have hle := h.le_rx
  have hne : s.sent ≠ [] := List.ne_nil_of_length_pos (by omega)
  obtain ⟨v, hv⟩ := Option.isSome_iff_exists.mp (List.getLast?_isSome.mpr hne)
  exact ⟨v, hv, (h.last hne).trans hv⟩

/-- What a poll gives: the snapshot, the last value, or the end, which comes
two or more values behind. -/
theorem poll_cases {s : Subscription α} (h : s.Tracked) {out : Option α} {stream : InfoStream α}
    (hp : s.stream.poll s.chan = some (out, stream)) :
    (∃ x, s.stream.first = some x ∧ out = (filterSame s.stream.state x).1 ∧
      stream = { s.stream with first := none, state := some x }) ∨
    (∃ v, s.stream.first = none ∧ s.stream.live = true ∧ s.stream.rx + 1 = s.chan.tail ∧
      s.sent.getLast? = some v ∧ out = (filterSame s.stream.state v).1 ∧
      stream = { s.stream with rx := s.chan.tail, state := some v }) ∨
    (s.stream.first = none ∧ s.stream.rx + 1 < s.chan.tail ∧ out = none ∧
      stream = { s.stream with rx := s.chan.tail - 1, live := false }) := by
  have hle := h.rx_le
  cases hfirst : s.stream.first with
  | some x =>
    rw [InfoStream.poll_first hfirst] at hp
    cases hp
    exact .inl ⟨x, rfl, rfl, rfl⟩
  | none =>
    cases hlive : s.stream.live with
    | false =>
      rw [InfoStream.poll_ended hfirst hlive] at hp
      cases hp
    | true =>
      rcases Nat.lt_trichotomy (s.stream.rx + 1) s.chan.tail with hlt | heq | hgt
      · rw [InfoStream.poll_lagged hfirst hlive (Broadcast.recv_lagged hlt)] at hp
        cases hp
        exact .inr (.inr ⟨rfl, hlt, rfl, rfl⟩)
      · obtain ⟨v, hsent, hlast⟩ := h.exists_last (by omega)
        rw [InfoStream.poll_value hfirst hlive (Broadcast.recv_last heq hlast)] at hp
        cases hp
        exact .inr (.inl ⟨v, rfl, rfl, heq, hsent, rfl, rfl⟩)
      · have hrx : s.stream.rx = s.chan.tail := by omega
        rw [InfoStream.poll_empty hfirst hlive (hrx ▸ Broadcast.recv_tail s.chan)] at hp
        cases hp

theorem Tracked.poll {s : Subscription α} (h : s.Tracked) {out : Option α} {stream : InfoStream α}
    (hp : s.stream.poll s.chan = some (out, stream)) :
    Tracked { s with stream, received := s.received ++ out.toList } := by
  have hle := h.rx_le
  have hle' := h.le_rx
  have hreceived (x : α) :
      (s.received ++ (filterSame s.stream.state x).1.toList).getLast? = some x := by
    rw [h.state]
    exact getLast?_received x
  obtain ⟨x, hfirst, rfl, rfl⟩ | ⟨v, hfirst, hlive, hrx, hsent, rfl, rfl⟩ |
    ⟨hfirst, hrx, rfl, rfl⟩ := poll_cases h hp
  · have hsome : s.stream.first ≠ none := by
      rw [hfirst]
      exact Option.some_ne_none x
    refine ⟨h.receivers, (hreceived x).symm, hle, hle', h.last, fun hc => absurd rfl hc,
      fun hc => absurd rfl hc, ?_⟩
    intro _ _ hrx hne
    have hpos : 0 < s.sent.length := List.length_pos_of_ne_nil hne
    have hunpolled := h.unpolled hsome
    have hrx' : s.stream.rx = s.chan.tail := hrx
    omega
  · refine ⟨h.receivers, (hreceived v).symm, Nat.le_refl _, Nat.le_add_right _ _, h.last,
      fun hc => absurd hfirst hc, fun hc => absurd hfirst hc, ?_⟩
    intro _ _ _ _
    rw [hsent]
    exact hreceived v
  · refine ⟨h.receivers, ?_, Nat.sub_le _ _, ?_, h.last, fun hc => absurd hfirst hc,
      fun hc => absurd hfirst hc, fun _ hlive => nomatch hlive⟩
    · show s.stream.state = (s.received ++ []).getLast?
      rw [List.append_nil, h.state]
    · show s.chan.tail ≤ s.chan.tail - 1 + s.sent.length
      omega

theorem Tracked.step {s s' : Subscription α} {l : Label α} (h : s.Tracked)
    (hs : (lts α).step s l s') : s'.Tracked := by
  cases hs with
  | send v =>
    rw [Broadcast.send_of_receivers h.receivers]
    exact h.send v
  | join => exact h.others rfl rfl (Nat.succ_pos _)
  | leave hreceivers => exact h.others rfl rfl (Nat.sub_pos_of_lt hreceivers)
  | poll hp => exact h.poll hp

theorem tracked_of_reachable {s : Subscription α} (h : (lts α).Reachable s) : s.Tracked := by
  refine Lts.invariant ?_ (fun s l s' hs hstep => hs.step hstep) h
  rintro s ⟨chan, snapshot, rfl⟩
  exact tracked_start chan snapshot

/-! ### Being cut off -/

/-- A subscriber whose stream goes on misses no last value. -/
theorem Tracked.iff_not_ended {s : Subscription α} (h : s.Tracked) :
    s.NotCutOff ↔ ¬ s.stream.Ended := by
  refine ⟨And.left, fun hgoes => ⟨hgoes, fun hpoll hne => ?_⟩⟩
  cases hfirst : s.stream.first with
  | some x =>
    rw [InfoStream.poll_first hfirst] at hpoll
    cases hpoll
  | none =>
    have hlive : s.stream.live = true := by
      by_contra hlive
      exact hgoes ⟨hfirst, Bool.eq_false_iff.mpr hlive⟩
    have hle := h.rx_le
    rcases Nat.lt_trichotomy (s.stream.rx + 1) s.chan.tail with hlt | heq | hgt
    · rw [InfoStream.poll_lagged hfirst hlive (Broadcast.recv_lagged hlt)] at hpoll
      cases hpoll
    · obtain ⟨v, _, hlast⟩ := h.exists_last (by omega)
      rw [InfoStream.poll_value hfirst hlive (Broadcast.recv_last heq hlast)] at hpoll
      cases hpoll
    · exact h.seen hfirst hlive (by omega) hne

/-- One step cuts a subscriber off exactly when it polls two or more values
behind. -/
theorem notCutOff_step {s s' : Subscription α} {l : Label α} (h : s.Tracked) (hgood : s.NotCutOff)
    (hs : (lts α).step s l s') : s'.NotCutOff ↔ s.AtMostOneBehind l := by
  rw [(h.step hs).iff_not_ended]
  cases hs with
  | send v => exact iff_of_true hgood.1 trivial
  | join => exact iff_of_true hgood.1 trivial
  | leave hreceivers => exact iff_of_true hgood.1 trivial
  | poll hp =>
    obtain ⟨x, hfirst, rfl, rfl⟩ | ⟨v, hfirst, hlive, hrx, hsent, rfl, rfl⟩ |
      ⟨hfirst, hrx, rfl, rfl⟩ := poll_cases h hp
    · have hsome : s.stream.first ≠ none := by
        rw [hfirst]
        exact Option.some_ne_none x
      refine iff_of_true ?_ fun hnone => absurd hnone hsome
      rintro ⟨_, hlive⟩
      exact absurd ((h.live hsome).symm.trans hlive) (by decide)
    · refine iff_of_true ?_ fun _ => Nat.le_of_eq hrx.symm
      rintro ⟨_, hdead⟩
      exact absurd (hlive.symm.trans hdead) (by decide)
    · refine iff_of_false (fun hc => hc ⟨hfirst, rfl⟩) fun hbehind => ?_
      have hle := hbehind hfirst
      omega

/-- **When a subscriber is never cut off**: exactly in the runs in which it never
polls its channel two or more values behind. -/
theorem notCutOff_iff (chan : Broadcast α 1) (snapshot : α)
    {r : List (Label α × Subscription α)}
    (hr : (lts α).Run (start (infoStream chan snapshot)) r) :
    Lts.Always NotCutOff (start (infoStream chan snapshot)) r ↔
      Lts.Guarded AtMostOneBehind (start (infoStream chan snapshot)) r := by
  have hinit : (lts α).init (start (infoStream chan snapshot)) := ⟨chan, snapshot, rfl⟩
  have hstart : NotCutOff (start (infoStream chan snapshot)) :=
    (tracked_start chan snapshot).iff_not_ended.mpr fun hended => nomatch hended.1
  exact Lts.always_iff_guarded
    (fun _ _ _ hreach hgood hs => notCutOff_step (tracked_of_reachable hreach) hgood hs)
    (.init hinit) hstart hr

/-- A subscriber that polls its snapshot, and the values 1 and 2. -/
def joined : Subscription Nat := start (infoStream .new 7)

def hasSnapshot : Subscription Nat :=
  { joined with stream := ⟨none, 0, true, some 7⟩, received := [7] }

def sentOne : Subscription Nat :=
  { hasSnapshot with chan := hasSnapshot.chan.push 1, sent := [1] }

def sentTwo : Subscription Nat := { sentOne with chan := sentOne.chan.push 2, sent := [1, 2] }

/-- Polled after each value. -/
def hasOne : Subscription Nat :=
  { sentOne with stream := ⟨none, 1, true, some 1⟩, received := [7, 1] }

/-- Polled after both. -/
def cutOff : Subscription Nat := { sentTwo with stream := ⟨none, 1, false, some 7⟩ }

theorem step_hasSnapshot : Step joined .poll hasSnapshot :=
  @Step.poll Nat _ joined (some 7) ⟨none, 0, true, some 7⟩ rfl

theorem run_hasOne : (lts Nat).Run joined
    [(.poll, hasSnapshot), (.send 1, sentOne), (.poll, hasOne)] :=
  ⟨step_hasSnapshot, .send 1, @Step.poll Nat _ sentOne (some 1) ⟨none, 1, true, some 1⟩ rfl,
    trivial⟩

theorem run_cutOff : (lts Nat).Run joined
    [(.poll, hasSnapshot), (.send 1, sentOne), (.send 2, sentTwo), (.poll, cutOff)] :=
  ⟨step_hasSnapshot, .send 1, .send 2, @Step.poll Nat _ sentTwo none ⟨none, 1, false, some 7⟩ rfl,
    trivial⟩

theorem notCutOff_hasOne : NotCutOff hasOne :=
  ((notCutOff_iff .new 7 run_hasOne).mpr (by decide)).last

theorem ended_cutOff : ¬ ∀ s : Subscription Nat, (lts Nat).Reachable s → s.NotCutOff := by
  intro h
  have hinit : (lts Nat).Reachable joined := .init ⟨_, _, rfl⟩
  have hgood := h cutOff (hinit.last run_cutOff)
  exact hgood.1 ⟨rfl, rfl⟩

end Subscription

end SlpServer
