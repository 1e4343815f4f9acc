import SlpServer.Slp.Freshness

/-!
# What a subscriber receives

A sampler sends the changes of its samples, and its channel keeps the last one
only.  A subscriber that is slow does not skip any of them for that, its stream
ends.  So however ticks, polls and other subscribers interleave, what it has
received is its snapshot and then the first changes since it came, each once and
in order, and all of them when it has drained a stream that goes on
(`received_gapless`).

`Follows` counts the changes the subscriber has polled.
-/

namespace SlpServer

variable {α : Type} [DecidableEq α]

theorem filterSameAll_concat (xs : List α) (x : α) : filterSameAll (xs ++ [x]) =
    filterSameAll xs ++ (filterSame (filterSameAll xs).getLast? x).1.toList := by
  rw [getLast?_filterSameAll, filterSameAll, filterSameFrom_append, Option.or_none,
    filterSameFrom_cons, filterSameFrom_nil, List.append_nil]
  rfl

namespace Feed

/-- Any run of a sampler and its subscribers. -/
def lts (α : Type) [DecidableEq α] : Lts (Feed α) (Label α) where
  init f := f = start
  step := Step

/-- The samples since the subscriber came that differ from the one before. -/
def changes (f : Feed α) (c : Client α) : List α :=
  filterSameFrom (f.samples.take c.joined).getLast? (f.samples.drop c.joined)

/-- The subscriber has polled its snapshot and the first `k` changes. -/
structure Follows (f : Feed α) (c : Client α) (k : Nat) : Prop where
  joined : c.joined ≤ f.samples.length
  le : k ≤ (f.changes c).length
  state : c.stream.state = c.received.getLast?
  rx : c.stream.live = true → c.stream.rx + ((f.changes c).length - k) = f.sampler.chan.tail
  last : f.changes c ≠ [] → f.sampler.chan.buffer.getLast? = (f.changes c).getLast?
  first : ∀ x, c.stream.first = some x →
    x = c.snapshot ∧ c.stream.live = true ∧ k = 0 ∧ c.received = []
  received : c.stream.first = none →
    c.received = filterSameAll (c.snapshot :: (f.changes c).take k)

/-- The sampler remembers its last sample, and the receivers are the subscribers. -/
structure Followed (f : Feed α) : Prop where
  memory : f.sampler.state = f.samples.getLast?
  receivers : f.sampler.chan.receivers = f.others + f.client.toList.length
  client : ∀ c, f.client = some c → ∃ k, f.Follows c k

section
variable {f f' : Feed α} {c : Client α} {k : Nat} {x : α}

/-- A sample is a change exactly when it differs from the last one. -/
theorem changes_tick (hjoined : c.joined ≤ f.samples.length) (sampler : Sampler α) :
    changes { f with sampler, samples := f.samples ++ [x] } c =
      f.changes c ++ (filterSame f.samples.getLast? x).1.toList := by
  have hlast : (f.samples.drop c.joined).getLast?.or (f.samples.take c.joined).getLast? =
      f.samples.getLast? := by
    rw [← List.getLast?_append, List.take_append_drop]
  simp only [changes, List.take_append_of_le_length hjoined, List.drop_append_of_le_length hjoined,
    filterSameFrom_append, hlast, filterSameFrom_cons, filterSameFrom_nil, List.append_nil]

theorem Follows.tick_same (h : f.Follows c k) (hx : f.samples.getLast? = some x) :
    Follows { f with samples := f.samples ++ [x] } c k := by
  have hchanges : changes { f with samples := f.samples ++ [x] } c = f.changes c := by
    have htick := changes_tick (x := x) h.joined f.sampler
    rw [hx, filterSame_same] at htick
    exact htick.trans (List.append_nil _)
  refine ⟨?_, ?_, h.state, ?_, ?_, h.first, ?_⟩
  · have hle := h.joined
    rw [List.length_append]
    omega
  · rw [hchanges]
    exact h.le
  · rw [hchanges]
    exact h.rx
  · rw [hchanges]
    exact h.last
  · rw [hchanges]
    exact h.received

theorem Follows.tick_other (h : f.Follows c k) (hx : f.samples.getLast? ≠ some x) :
    Follows { f with
      sampler := ⟨some x, f.sampler.chan.push x⟩
      samples := f.samples ++ [x] } c k := by
  have hchanges : changes { f with
      sampler := ⟨some x, f.sampler.chan.push x⟩
      samples := f.samples ++ [x] } c = f.changes c ++ [x] := by
    rw [changes_tick h.joined, filterSame_other hx]
    rfl
  have hle := h.le
  refine ⟨?_, ?_, h.state, ?_, ?_, h.first, ?_⟩
  · have hjoined := h.joined
    rw [List.length_append]
    omega
  · rw [hchanges, List.length_append]
    omega
  · intro hlive
    have hrx := h.rx hlive
    rw [hchanges, List.length_append, List.length_singleton, Broadcast.tail_push]
    omega
  · intro _
    rw [hchanges, Broadcast.getLast?_push Nat.one_pos, List.getLast?_concat]
  · intro hfirst
    rw [hchanges, List.take_append_of_le_length hle]
    exact h.received hfirst

/-- The last change is there for a subscriber that has not polled all. -/
theorem Follows.exists_last (h : f.Follows c k) (hlt : k < (f.changes c).length) :
    ∃ v, f.changes c = (f.changes c).take ((f.changes c).length - 1) ++ [v] ∧
      f.sampler.chan.buffer.getLast? = some v := by
  obtain ⟨v, hv⟩ := exists_getLast? hlt
  have hne : f.changes c ≠ [] := List.ne_nil_of_length_pos (by omega)
  refine ⟨v, ?_, (h.last hne).trans hv⟩
  rw [← List.dropLast_eq_take]
  exact (List.dropLast_append_getLast? v hv).symm

theorem Follows.poll_first (h : f.Follows c k) (hfirst : c.stream.first = some x) :
    c.stream.poll f.sampler.chan =
        some (some x, { c.stream with first := none, state := some x }) ∧
      f.Follows { c with
        stream := { c.stream with first := none, state := some x }
        received := c.received ++ [x] } 0 := by
  obtain ⟨rfl, hlive, rfl, hreceived⟩ := h.first x hfirst
  constructor
  · rw [InfoStream.poll_first hfirst, h.state, hreceived]
    rfl
  · refine ⟨h.joined, h.le, ?_, h.rx, h.last, ?_, ?_⟩
    · show some c.snapshot = (c.received ++ [c.snapshot]).getLast?
      rw [List.getLast?_concat]
    · intro x hx
      cases hx
    · intro _
      show c.received ++ [c.snapshot] = filterSameAll (c.snapshot :: [])
      rw [hreceived]
      rfl

theorem Follows.lagged (h : f.Follows c k) (hfirst : c.stream.first = none) (rx : Nat) :
    f.Follows { c with stream := { c.stream with rx, live := false } } k where
  joined := h.joined
  le := h.le
  state := h.state
  rx hlive := by cases hlive
  last := h.last
  first x hx := by
    rw [show c.stream.first = some x from hx] at hfirst
    cases hfirst
  received _ := h.received hfirst

theorem Follows.value (h : f.Follows c k) (hfirst : c.stream.first = none)
    (hlast : k + 1 = (f.changes c).length) {v : α}
    (hchanges : f.changes c = (f.changes c).take k ++ [v]) :
    f.Follows { c with
      stream := { c.stream with rx := f.sampler.chan.tail, state := some v }
      received := c.received ++ (filterSame c.received.getLast? v).1.toList } (k + 1) := by
  refine ⟨h.joined, hlast.le, (getLast?_received v).symm, ?_, h.last, ?_, ?_⟩
  · intro _
    show f.sampler.chan.tail + ((f.changes c).length - (k + 1)) = _
    omega
  · intro x hx
    rw [show c.stream.first = some x from hx] at hfirst
    cases hfirst
  · intro _
    show c.received ++ _ = filterSameAll (c.snapshot :: (f.changes c).take (k + 1))
    rw [hlast, List.take_length, hchanges, ← List.cons_append, filterSameAll_concat,
      ← h.received hfirst]

/-- A poll gives the snapshot, the next change, or the end of the stream. -/
theorem Follows.poll (h : f.Follows c k) {out : Option α} {stream : InfoStream α}
    (hp : c.stream.poll f.sampler.chan = some (out, stream)) :
    ∃ k', f.Follows { c with stream, received := c.received ++ out.toList } k' := by
  cases hfirst : c.stream.first with
  | some x =>
    obtain ⟨hpoll, hfollows⟩ := h.poll_first hfirst
    rw [hpoll] at hp
    cases hp
    exact ⟨0, hfollows⟩
  | none =>
    cases hlive : c.stream.live with
    | false =>
      rw [InfoStream.poll_ended hfirst hlive] at hp
      cases hp
    | true =>
      have hrx := h.rx hlive
      rcases Nat.lt_trichotomy (k + 1) (f.changes c).length with hlt | heq | hgt
      · rw [InfoStream.poll_lagged hfirst hlive (Broadcast.recv_lagged (by omega))] at hp
        cases hp
        rw [Option.toList_none, List.append_nil]
        exact ⟨k, h.lagged hfirst _⟩
      · obtain ⟨v, hchanges, hlast⟩ := h.exists_last (by omega)
        rw [InfoStream.poll_value hfirst hlive (Broadcast.recv_last (by omega) hlast), h.state]
          at hp
        cases hp
        rw [show (f.changes c).length - 1 = k by omega] at hchanges
        exact ⟨k + 1, h.value hfirst heq hchanges⟩
      · have hle := h.le
        have htail : c.stream.rx = f.sampler.chan.tail := by omega
        rw [InfoStream.poll_empty hfirst hlive (htail ▸ Broadcast.recv_tail _)] at hp
        cases hp

theorem Follows.others (h : f.Follows c k) {chan : Broadcast α 1} {others : Nat}
    (htail : chan.tail = f.sampler.chan.tail) (hbuffer : chan.buffer = f.sampler.chan.buffer) :
    Follows { f with sampler := { f.sampler with chan }, others } c k :=
  { h with
    rx := fun hlive => (h.rx hlive).trans htail.symm
    last := fun hne => (congrArg List.getLast? hbuffer).trans (h.last hne) }

theorem follows_subscribe (f : Feed α) (snapshot : α) :
    (f.withClient snapshot (infoStream f.sampler.chan snapshot)).Follows
      ⟨⟨some snapshot, f.sampler.chan.tail, true, none⟩, snapshot, f.samples.length, []⟩ 0 := by
  have hchanges : (f.withClient snapshot (infoStream f.sampler.chan snapshot)).changes
      ⟨⟨some snapshot, f.sampler.chan.tail, true, none⟩, snapshot, f.samples.length, []⟩ = [] := by
    show filterSameFrom _ (f.samples.drop f.samples.length) = []
    rw [List.drop_length]
    rfl
  refine ⟨Nat.le_refl _, Nat.zero_le _, rfl, ?_, fun hne => absurd hchanges hne, ?_, ?_⟩
  · intro _
    rw [hchanges]
    rfl
  · rintro _ ⟨⟩
    exact ⟨rfl, rfl, rfl, rfl⟩
  · intro hfirst
    cases hfirst

/-- The subscriber's own share of a step. -/
theorem Followed.with_client (h : f.Followed) (hsome : f.client = some c) {c' : Client α}
    (hfollows : f.Follows c' k) : Followed { f with client := some c' } := by
  refine ⟨h.memory, ?_, ?_⟩
  · have hr := h.receivers
    rwa [hsome] at hr
  · rintro _ ⟨⟩
    exact ⟨k, { hfollows with }⟩

theorem Followed.tick (h : f.Followed) (x : α) :
    Followed { f with sampler := f.sampler.tick x, samples := f.samples ++ [x] } := by
  refine ⟨?_, ?_, fun c hc => ?_⟩
  · rw [Sampler.state_tick, List.getLast?_concat]
  · rw [Sampler.receivers_tick]
    exact h.receivers
  · obtain ⟨k, hfollows⟩ := h.client c hc
    by_cases hx : f.sampler.state = some x
    · rw [Sampler.tick_same hx]
      exact ⟨k, hfollows.tick_same (h.memory ▸ hx)⟩
    · have hpos : 0 < f.sampler.chan.receivers := by
        rw [h.receivers, show f.client = some c from hc]
        exact Nat.succ_pos _
      rw [Sampler.tick_other hx hpos]
      exact ⟨k, hfollows.tick_other (h.memory ▸ hx)⟩

theorem Followed.step {l : Label α} (h : f.Followed) (hs : Step f l f') : f'.Followed := by
  have hr := h.receivers
  cases hs with
  | tick x => exact h.tick x
  | join =>
    refine ⟨h.memory, ?_, fun c hc => ?_⟩
    · show f.sampler.chan.receivers + 1 = f.others + 1 + f.client.toList.length
      omega
    · obtain ⟨k, hfollows⟩ := h.client c hc
      exact ⟨k, hfollows.others rfl rfl⟩
  | leave hpos =>
    refine ⟨h.memory, ?_, fun c hc => ?_⟩
    · show f.sampler.chan.receivers - 1 = f.others - 1 + f.client.toList.length
      omega
    · obtain ⟨k, hfollows⟩ := h.client c hc
      exact ⟨k, hfollows.others rfl rfl⟩
  | subscribe snapshot hnone hsub =>
    cases hsub
    refine ⟨h.memory, ?_, ?_⟩
    · rw [hnone] at hr
      show f.sampler.chan.receivers + 1 = _
      rw [hr]
      rfl
    · rintro _ ⟨⟩
      exact ⟨0, follows_subscribe f snapshot⟩
  | poll hc hp =>
    obtain ⟨k, hfollows⟩ := h.client _ hc
    obtain ⟨k', hfollows'⟩ := hfollows.poll hp
    exact h.with_client hc hfollows'

theorem followed_of_reachable (h : (lts α).Reachable f) : f.Followed := by
  refine Lts.invariant ?_ (fun f l f' hf hs => hf.step hs) h
  rintro f rfl
  refine ⟨rfl, rfl, fun c hc => ?_⟩
  cases hc

theorem Followed.received (h : f.Followed) (hc : f.client = some c) :
    (c.stream.first = some c.snapshot ∧ c.received = []) ∨
      (c.stream.first = none ∧ ∃ k ≤ (f.changes c).length,
        c.received = filterSameAll (c.snapshot :: (f.changes c).take k) ∧
        (f.Drained → c.stream.live = true → k = (f.changes c).length)) := by
  obtain ⟨k, hfollows⟩ := h.client c hc
  cases hfirst : c.stream.first with
  | some x =>
    obtain ⟨rfl, _, _, hreceived⟩ := hfollows.first x hfirst
    exact .inl ⟨rfl, hreceived⟩
  | none =>
    refine .inr ⟨rfl, k, hfollows.le, hfollows.received hfirst, fun hd hlive => ?_⟩
    by_contra hne
    have hlt : k < (f.changes c).length := Nat.lt_of_le_of_ne hfollows.le hne
    obtain ⟨v, -, hlast⟩ := hfollows.exists_last hlt
    have hrx := hfollows.rx hlive
    have hpoll := hd c hc
    rcases Nat.lt_or_ge (c.stream.rx + 1) f.sampler.chan.tail with hbehind | hnext
    · rw [InfoStream.poll_lagged hfirst hlive (Broadcast.recv_lagged hbehind)] at hpoll
      cases hpoll
    · have hnext : c.stream.rx + 1 = f.sampler.chan.tail := by omega
      rw [InfoStream.poll_value hfirst hlive (Broadcast.recv_last hnext hlast)] at hpoll
      cases hpoll

/-- **A stream skips nothing.**  A subscriber has not polled its snapshot and has
received nothing, or it has received the snapshot and then the first changes since
it came, each once and in order, but for a first change like the snapshot.  It has
them all when it has polled all there is and its stream goes on. -/
theorem received_gapless (h : (lts α).Reachable f) (hc : f.client = some c) :
    (c.stream.first = some c.snapshot ∧ c.received = []) ∨
      (c.stream.first = none ∧ ∃ k ≤ (f.changes c).length,
        c.received = filterSameAll (c.snapshot :: (f.changes c).take k) ∧
        (f.Drained → c.stream.live = true → k = (f.changes c).length)) :=
  (followed_of_reachable h).received hc

end

/-- A second sample, for a subscriber that has polled its snapshot, and the poll
that gives it. -/
def sampledNext : Feed Nat :=
  { polled 1 with sampler := (polled 1).sampler.tick 2, samples := [1, 2] }

def receivedNext : Client Nat := ⟨⟨none, 1, true, some 2⟩, 1, 1, [1, 2]⟩

theorem reachable_receivedNext :
    (lts Nat).Reachable { sampledNext with client := some receivedNext } := by
  have hstart : (lts Nat).Reachable start := .init rfl
  have hpoll : Step sampledNext .poll { sampledNext with client := some receivedNext } :=
    @Step.poll Nat _ sampledNext ⟨⟨none, 0, true, some 1⟩, 1, 1, [1]⟩ (some 2)
      ⟨none, 1, true, some 2⟩ rfl rfl
  exact hstart.last (r := [(.tick 1, sampledOnce), (.subscribe 1, subscribed 1),
    (.poll, polled 1), (.tick 2, sampledNext),
    (.poll, { sampledNext with client := some receivedNext })])
    ⟨.tick 1, .subscribe 1 rfl rfl, step_polled 1, .tick 2, hpoll, trivial⟩

theorem received_gapless_next : ∃ f : Feed Nat, f.changes receivedNext = [2] ∧ f.Drained ∧
    ∃ k, receivedNext.received = filterSameAll (1 :: (f.changes receivedNext).take k) ∧
      k = 1 := by
  have hdrained : Feed.Drained { sampledNext with client := some receivedNext } := by
    rintro _ ⟨⟩
    rfl
  refine ⟨_, rfl, hdrained, ?_⟩
  obtain ⟨hfirst, _⟩ | ⟨_, k, _, hreceived, hall⟩ := received_gapless reachable_receivedNext rfl
  · cases hfirst
  · exact ⟨k, hreceived, hall hdrained rfl⟩

end Feed

end SlpServer
