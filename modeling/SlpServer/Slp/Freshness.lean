import SlpServer.Lib.Lts
import SlpServer.Slp.Stream

/-!
# Subscribers with a stale value

A subscriber that drains its stream between ticks has, after each tick, the
value of the last sample, with one exception.  The sampler does not send a
sample that equals the one before it, and a snapshot taken between the two may
differ from both.  `fresh_iff`: this is the only way to be left with a stale
value.

`Place` follows the subscriber: it has not polled its snapshot, or it has seen
all that was sent, or it is one value behind.
-/

namespace SlpServer

variable {α : Type} [DecidableEq α]

theorem exists_getLast? {α : Type} {xs : List α} {n : Nat} (h : n < xs.length) :
    ∃ x, xs.getLast? = some x :=
  Option.isSome_iff_exists.mp (List.getLast?_isSome.mpr (List.ne_nil_of_length_pos (by omega)))

namespace Sampler

/-- A sample that is not passed on changes nothing. -/
theorem tick_same {s : Sampler α} {x : α} (h : s.state = some x) : s.tick x = s := by
  obtain ⟨state, chan⟩ := s
  cases h
  rw [tick, filterSame_same]

/-- Another sample goes to the receivers, if there are any. -/
theorem tick_other {s : Sampler α} {x : α} (h : s.state ≠ some x) (hr : 0 < s.chan.receivers) :
    s.tick x = ⟨some x, s.chan.push x⟩ := by
  rw [tick, filterSame_other h]
  simp only [Broadcast.send_of_receivers hr, Option.getD_some]

theorem state_tick (s : Sampler α) (x : α) : (s.tick x).state = some x := by
  have h := filterSame_snd s.state x
  unfold tick
  split
  · rename_i item state hf
    rw [hf] at h
    exact h
  · rename_i state hf
    rw [hf] at h
    exact h

theorem receivers_tick (s : Sampler α) (x : α) :
    (s.tick x).chan.receivers = s.chan.receivers := by
  by_cases h : s.state = some x
  · rw [tick_same h]
  · by_cases hr : 0 < s.chan.receivers
    · rw [tick_other h hr, Broadcast.receivers_push]
    · rw [tick, filterSame_other h]
      simp only [Broadcast.send, if_pos (Nat.eq_zero_of_not_pos hr), Option.getD_none]

end Sampler

namespace Feed

/-! ### Where the subscriber is -/

/-- What a subscriber has seen of the channel. -/
inductive Place (f : Feed α) (c : Client α) : Prop
  /-- It has not polled its snapshot. -/
  | fresh (hfirst : c.stream.first = some c.snapshot) (hrx : c.stream.rx = f.sampler.chan.tail)
      (hjoined : c.joined = f.samples.length) (hreceived : c.received = [])
  /-- It has seen everything. -/
  | caughtUp (hfirst : c.stream.first = none) (hrx : c.stream.rx = f.sampler.chan.tail)
      (hsnapshot : c.joined = f.samples.length → c.received = [c.snapshot])
  /-- All but the last sample. -/
  | behind (hfirst : c.stream.first = none) (hrx : c.stream.rx + 1 = f.sampler.chan.tail)
      (hlast : f.sampler.chan.buffer.getLast? = f.samples.getLast?)
      (hjoined : c.joined < f.samples.length)

/-- What holds while the subscriber drains its stream between ticks. -/
structure Served (f : Feed α) : Prop where
  memory : f.sampler.state = f.samples.getLast?
  receivers : f.sampler.chan.receivers = f.others + f.client.toList.length
  live : ∀ c, f.client = some c → c.stream.live = true
  joined : ∀ c, f.client = some c → c.joined ≤ f.samples.length
  state : ∀ c, f.client = some c → c.stream.state = c.received.getLast?
  place : ∀ c, f.client = some c → Place f c

omit [DecidableEq α] in
theorem served_start : (start : Feed α).Served :=
  ⟨rfl, rfl, nofun, nofun, nofun, nofun⟩

omit [DecidableEq α] in
theorem Served.receivers_pos {f : Feed α} (h : f.Served) {c : Client α} (hc : f.client = some c) :
    0 < f.sampler.chan.receivers := by
  rw [h.receivers, hc]
  exact Nat.succ_pos _

/-- A subscriber that has seen everything is the only one that has polled all. -/
theorem Place.drained_iff {f : Feed α} {c : Client α} (h : Place f c) (hc : f.client = some c)
    (hlive : c.stream.live = true) :
    f.Drained ↔ c.stream.first = none ∧ c.stream.rx = f.sampler.chan.tail := by
  have hdrained : f.Drained ↔ c.stream.poll f.sampler.chan = none := by
    rw [Drained, hc]
    simp
  rw [hdrained]
  cases h with
  | fresh hfirst =>
    rw [InfoStream.poll_first hfirst, hfirst]
    exact iff_of_false (Option.some_ne_none _) fun hnone => Option.some_ne_none _ hnone.1
  | caughtUp hfirst hrx =>
    rw [InfoStream.poll_empty hfirst hlive (hrx ▸ Broadcast.recv_tail _)]
    exact iff_of_true rfl ⟨hfirst, hrx⟩
  | behind hfirst hrx hlast hjoined =>
    obtain ⟨x, hx⟩ := exists_getLast? hjoined
    rw [hx] at hlast
    rw [InfoStream.poll_value hfirst hlive (Broadcast.recv_last hrx hlast)]
    exact iff_of_false (Option.some_ne_none _) (by omega)

omit [DecidableEq α] in
/-- A subscriber that has seen everything since before the first tick after it
came has its snapshot. -/
theorem Place.received {f : Feed α} {c : Client α} (h : Place f c) (hfirst : c.stream.first = none)
    (hrx : c.stream.rx = f.sampler.chan.tail) (hjoined : c.joined = f.samples.length) :
    c.received = [c.snapshot] := by
  cases h with
  | fresh hfirst' =>
    rw [hfirst] at hfirst'
    cases hfirst'
  | caughtUp _ _ hsnapshot => exact hsnapshot hjoined
  | behind _ hrx' => omega

/-! ### Steps -/

/-- The steps of a feed whose subscriber has drained its stream before each
tick. -/
def draining (α : Type) [DecidableEq α] : Lts (Feed α) (Label α) where
  init f := f = start
  step f l f' := Step f l f' ∧ ∀ x, l = .tick x → f.Drained

/-- A tick leaves a drained subscriber where it is, or one value behind. -/
theorem Served.tick {f : Feed α} (h : f.Served) (hd : f.Drained) (x : α) :
    Served { f with sampler := f.sampler.tick x, samples := f.samples ++ [x] } where
  memory := by
    dsimp only
    rw [Sampler.state_tick, List.getLast?_concat]
  receivers := by
    dsimp only
    rw [Sampler.receivers_tick]
    exact h.receivers
  live := h.live
  joined c hc := by
    have hle := h.joined c hc
    rw [List.length_append]
    exact Nat.le_add_right_of_le hle
  state := h.state
  place c hc := by
    have hpos := h.receivers_pos hc
    obtain ⟨hfirst, hrx⟩ := ((h.place c hc).drained_iff hc (h.live c hc)).mp hd
    have hlt : c.joined < (f.samples ++ [x]).length := by
      have := h.joined c hc
      rw [List.length_append, List.length_singleton]
      omega
    by_cases hx : f.sampler.state = some x
    · refine .caughtUp hfirst ?_ fun he => ?_
      · dsimp only
        rw [Sampler.tick_same hx, hrx]
      · dsimp only at he
        omega
    · refine .behind hfirst ?_ ?_ hlt
      · dsimp only
        rw [Sampler.tick_other hx hpos, Broadcast.tail_push, hrx]
      · dsimp only
        rw [Sampler.tick_other hx hpos, Broadcast.getLast?_push Nat.one_pos, List.getLast?_concat]

omit [DecidableEq α] in
theorem Served.client {f : Feed α} (h : f.Served) {c c' : Client α} (hc : f.client = some c)
    (hjoined : c'.joined = c.joined) (hlive : c'.stream.live = true)
    (hstate : c'.stream.state = c'.received.getLast?)
    (hplace : Place { f with client := some c' } c') : Served { f with client := some c' } where
  memory := h.memory
  receivers := by
    have hr := h.receivers
    rwa [hc] at hr
  live := by
    rintro _ ⟨⟩
    exact hlive
  joined := by
    rintro _ ⟨⟩
    rw [hjoined]
    exact h.joined c hc
  state := by
    rintro _ ⟨⟩
    exact hstate
  place := by
    rintro _ ⟨⟩
    exact hplace

theorem Served.poll {f : Feed α} (h : f.Served) {c : Client α} (hc : f.client = some c)
    {out : Option α} {stream : InfoStream α}
    (hp : c.stream.poll f.sampler.chan = some (out, stream)) :
    let c' := { c with stream, received := c.received ++ out.toList }
    Served { f with client := some c' } ∧
      (c.joined < f.samples.length → c'.received.getLast? = f.samples.getLast?) := by
  intro c'
  have hstate := h.state c hc
  have hlive := h.live c hc
  cases h.place c hc with
  | fresh hfirst hrx hjoined hreceived =>
    rw [InfoStream.poll_first hfirst, hstate, hreceived] at hp
    cases hp
    have hreceived' : c'.received = [c.snapshot] := by
      show c.received ++ [c.snapshot] = _
      rw [hreceived, List.nil_append]
    have hlast : some c.snapshot = c'.received.getLast? := by
      rw [hreceived']
      rfl
    exact ⟨h.client hc rfl hlive hlast (.caughtUp rfl hrx fun _ => hreceived'),
      fun hlt => absurd hjoined (Nat.ne_of_lt hlt)⟩
  | caughtUp hfirst hrx =>
    rw [InfoStream.poll_empty hfirst hlive (hrx ▸ Broadcast.recv_tail _)] at hp
    cases hp
  | behind hfirst hrx hlast hjoined =>
    obtain ⟨x, hx⟩ := exists_getLast? hjoined
    rw [hx] at hlast
    rw [InfoStream.poll_value hfirst hlive (Broadcast.recv_last hrx hlast), hstate] at hp
    cases hp
    have hreceived : c'.received.getLast? = some x := getLast?_received x
    refine ⟨h.client hc rfl hlive hreceived.symm ?_, fun _ => ?_⟩
    · exact .caughtUp hfirst rfl fun he => absurd he (Nat.ne_of_lt hjoined)
    · rw [hx]
      exact hreceived

omit [DecidableEq α] in
theorem Served.others {f : Feed α} (h : f.Served) {chan : Broadcast α 1} {others : Nat}
    (htail : chan.tail = f.sampler.chan.tail) (hbuffer : chan.buffer = f.sampler.chan.buffer)
    (hreceivers : chan.receivers = others + f.client.toList.length) :
    Served { f with sampler := { f.sampler with chan }, others } where
  memory := h.memory
  receivers := hreceivers
  live := h.live
  joined := h.joined
  state := h.state
  place c hc := by
    cases h.place c hc with
    | fresh hfirst hrx hjoined hreceived =>
      exact .fresh hfirst (hrx.trans htail.symm) hjoined hreceived
    | caughtUp hfirst hrx hsnapshot => exact .caughtUp hfirst (hrx.trans htail.symm) hsnapshot
    | behind hfirst hrx hlast hjoined =>
      refine .behind hfirst (hrx.trans htail.symm) ?_ hjoined
      dsimp only
      rw [hbuffer]
      exact hlast

theorem Served.step {f f' : Feed α} {l : Label α} (h : f.Served)
    (hs : (draining α).step f l f') : f'.Served := by
  obtain ⟨hs, hd⟩ := hs
  have hr := h.receivers
  cases hs with
  | tick x => exact h.tick (hd x rfl) x
  | join =>
    refine h.others rfl rfl ?_
    show f.sampler.chan.receivers + 1 = _
    omega
  | leave hpos =>
    refine h.others rfl rfl ?_
    show f.sampler.chan.receivers - 1 = _
    omega
  | subscribe snapshot hnone hsub =>
    cases hsub
    rw [hnone] at hr
    refine ⟨h.memory, ?_, ?_, ?_, ?_, ?_⟩
    · show f.sampler.chan.receivers + 1 = _
      rw [hr]
      rfl
    all_goals rintro _ ⟨⟩
    · rfl
    · exact Nat.le_refl _
    · rfl
    · exact .fresh rfl rfl rfl rfl
  | poll hc hp => exact (h.poll hc hp).1

theorem served_of_reachable {f : Feed α} (h : (draining α).Reachable f) : f.Served := by
  refine Lts.invariant ?_ (fun f l f' hf hs => hf.step hs) h
  rintro f rfl
  exact served_start

/-! ### The last item received -/

/-- After a tick since it came, a drained subscriber has the last sample. -/
def Fresh (f : Feed α) : Prop :=
  ∀ c, f.client = some c → f.Drained → c.joined < f.samples.length →
    c.received.getLast? = f.samples.getLast?

theorem fresh_of_client {f : Feed α} {c : Client α} (hc : f.client = some c) : f.Fresh ↔
    (f.Drained → c.joined < f.samples.length → c.received.getLast? = f.samples.getLast?) := by
  rw [Fresh, hc]
  simp

/-- The first sample after the subscriber came, if it is like the one before
it, is also like the snapshot. -/
def SnapshotGuard (f : Feed α) : Label α → Prop
  | .tick x => ∀ c ∈ f.client, c.joined = f.samples.length →
      f.samples.getLast? = some x → x = c.snapshot
  | _ => True

instance (f : Feed α) : (l : Label α) → Decidable (SnapshotGuard f l)
  | .tick x => inferInstanceAs (Decidable (∀ c ∈ f.client, c.joined = f.samples.length →
      f.samples.getLast? = some x → x = c.snapshot))
  | .join | .leave | .subscribe _ | .poll => inferInstanceAs (Decidable True)

theorem drained_tick_iff {f : Feed α} (h : f.Served) (hd : f.Drained) {c : Client α}
    (hc : f.client = some c) (x : α) :
    Drained { f with sampler := f.sampler.tick x, samples := f.samples ++ [x] } ↔
      f.samples.getLast? = some x := by
  have hlive := h.live c hc
  have hreceivers := h.receivers_pos hc
  obtain ⟨hfirst, hrx⟩ := ((h.place c hc).drained_iff hc hlive).mp hd
  rw [((h.tick hd x).place c hc).drained_iff hc hlive, ← h.memory, and_iff_right hfirst, hrx]
  by_cases hx : f.sampler.state = some x
  · exact iff_of_true (congrArg (fun s => s.chan.tail) (Sampler.tick_same hx).symm) hx
  · refine iff_of_false ?_ hx
    rw [Sampler.tick_other hx hreceivers, Broadcast.tail_push]
    omega

theorem fresh_tick {f : Feed α} (h : f.Served) (hf : f.Fresh) (hd : f.Drained) (x : α) :
    Fresh { f with sampler := f.sampler.tick x, samples := f.samples ++ [x] } ↔
      SnapshotGuard f (.tick x) := by
  by_cases hnone : f.client = none
  · refine iff_of_true ?_ ?_
    · intro c hc
      rw [show f.client = some c from hc] at hnone
      cases hnone
    · intro c hc
      rw [hnone] at hc
      cases hc
  · obtain ⟨c, hc⟩ := Option.ne_none_iff_exists'.mp hnone
    have hle := h.joined c hc
    have hfresh : Fresh { f with sampler := f.sampler.tick x, samples := f.samples ++ [x] } ↔
        (f.samples.getLast? = some x → c.received.getLast? = some x) := by
      have hiff := fresh_of_client (f := { f with
        sampler := f.sampler.tick x, samples := f.samples ++ [x] }) hc
      rw [hiff, drained_tick_iff h hd hc]
      simp only [List.getLast?_concat, List.length_append, List.length_singleton,
        Nat.lt_succ_of_le hle, true_imp_iff]
    have hguard : SnapshotGuard f (.tick x) ↔
        (c.joined = f.samples.length → f.samples.getLast? = some x → x = c.snapshot) := by
      rw [SnapshotGuard, hc]
      simp
    rw [hfresh, hguard]
    by_cases hjoined : c.joined = f.samples.length
    · -- it has nothing but its snapshot
      obtain ⟨hfirst, hrx⟩ := ((h.place c hc).drained_iff hc (h.live c hc)).mp hd
      rw [(h.place c hc).received hfirst hrx hjoined, List.getLast?_singleton, Option.some.injEq,
        eq_comm (a := c.snapshot)]
      simp [hjoined]
    · refine iff_of_true ?_ fun he => absurd he hjoined
      rw [hf c hc hd (by omega)]
      exact id

theorem Fresh.others {f : Feed α} (h : f.Served) (hf : f.Fresh) {chan : Broadcast α 1}
    {others : Nat} (hserved : Served { f with sampler := { f.sampler with chan }, others })
    (htail : chan.tail = f.sampler.chan.tail) :
    Fresh { f with sampler := { f.sampler with chan }, others } := by
  intro c hc hd
  have hlive := h.live c hc
  apply hf c hc
  rw [(h.place c hc).drained_iff hc hlive, ← htail]
  exact ((hserved.place c hc).drained_iff hc hlive).mp hd

/-- One step leaves a stale value exactly when the guard fails of it. -/
theorem fresh_step {f f' : Feed α} {l : Label α} (h : f.Served) (hf : f.Fresh)
    (hs : (draining α).step f l f') : f'.Fresh ↔ f.SnapshotGuard l := by
  have hserved := h.step hs
  obtain ⟨hs, hd⟩ := hs
  cases hs with
  | tick x => exact fresh_tick h hf (hd x rfl) x
  | join => exact iff_of_true (hf.others h hserved rfl) trivial
  | leave hpos => exact iff_of_true (hf.others h hserved rfl) trivial
  | subscribe snapshot hnone hsub =>
    refine iff_of_true ?_ trivial
    rintro _ ⟨⟩ _ hlt
    exact absurd hlt (Nat.lt_irrefl _)
  | poll hc hp =>
    refine iff_of_true ?_ trivial
    rintro _ ⟨⟩ _ hlt
    exact (h.poll hc hp).2 hlt

/-- **When a subscriber is never left with a stale value**: exactly in the runs
in which the first sample after it came differs from the sample before it, or
is its snapshot. -/
theorem fresh_iff {r : List (Label α × Feed α)} (hr : (draining α).Run start r) :
    Lts.Always Fresh start r ↔ Lts.Guarded SnapshotGuard start r :=
  Lts.always_iff_guarded (fun _ _ _ hreach hf hs => fresh_step (served_of_reachable hreach) hf hs)
    (.init rfl) nofun hr

/-- Two ticks with the sample 1, and between them a subscriber that takes
`snapshot` and polls it. -/
def sampledOnce : Feed Nat := { start with sampler := Sampler.spawn.tick 1, samples := [1] }

def subscribed (snapshot : Nat) : Feed Nat :=
  let (stream, chan) := infoStream sampledOnce.sampler.chan snapshot
  { sampledOnce with
    sampler := { sampledOnce.sampler with chan }
    client := some ⟨stream, snapshot, 1, []⟩ }

def polled (snapshot : Nat) : Feed Nat :=
  { subscribed snapshot with
    client := some ⟨⟨none, 0, true, some snapshot⟩, snapshot, 1, [snapshot]⟩ }

def sampledTwice (snapshot : Nat) : Feed Nat :=
  { polled snapshot with sampler := (polled snapshot).sampler.tick 1, samples := [1, 1] }

theorem step_polled (snapshot : Nat) : Step (subscribed snapshot) .poll (polled snapshot) :=
  @Step.poll Nat _ (subscribed snapshot) ⟨⟨some snapshot, 0, true, none⟩, snapshot, 1, []⟩
    (some snapshot) ⟨none, 0, true, some snapshot⟩ rfl rfl

theorem run_sampledTwice (snapshot : Nat) : (draining Nat).Run start
    [(.tick 1, sampledOnce), (.subscribe snapshot, subscribed snapshot),
      (.poll, polled snapshot), (.tick 1, sampledTwice snapshot)] :=
  ⟨⟨.tick 1, nofun⟩, ⟨.subscribe snapshot rfl rfl, nofun⟩, ⟨step_polled snapshot, nofun⟩,
    ⟨.tick 1, fun _ _ c hc => by cases hc; rfl⟩, trivial⟩

theorem fresh_sampledTwice : Fresh (sampledTwice 1) :=
  ((fresh_iff (run_sampledTwice 1)).mpr (by decide)).last

theorem stale_sampledTwice : ¬ ∀ f : Feed Nat, (draining Nat).Reachable f → f.Fresh := by
  intro h
  have hstart : (draining Nat).Reachable start := .init rfl
  have hfresh := h (sampledTwice 2) (hstart.last (run_sampledTwice 2))
  have hlast := hfresh _ rfl (fun c hc => by cases hc; rfl) (by decide)
  cases hlast

end Feed

end SlpServer
