import SlpServer.Slp.Relay

/-!
# Lost datagrams

`on_packet` ignores that a channel is full.  It also ignores that a channel is
closed, and a closed channel stays in the table from the moment its task leaves
the loop to the handling of the `Close` event.  What arrives in between is lost,
and so is what arrives after the timeout and before the receiver is dropped.

`noLoss_iff` says of which runs nothing is lost but for a full channel: those
that hand no LAN frame to a closed channel, drop no receiver with one in it, and
let no task send to a closed event channel.
-/

namespace SlpServer

open Rust PeerTask

namespace Server

variable {P : Type}

/-- The datagram is with its task, or was sent on once, or was refused by a full
channel. -/
def Accounted (s : Server P) (x : Handed) : Prop :=
  x.result = .error .full ∨
  (x.result = .ok () ∧
    ((∃ t, s.tasks[x.peer]? = some t ∧ x.stamp ∈ t.pipeline.map Stamped.stamp) ∨
      (s.posted.filterMap Posted.stamp).count x.stamp = 1))

/-- So is every LAN frame handed to a peer. -/
def NoLoss (s : Server P) : Prop :=
  ∀ x ∈ s.handed, ∀ d, s.received[x.stamp]? = some d → Relayable d.data → Accounted s x

/-- Nothing is sent on twice, so to be sent on is to be sent on once. -/
theorem Flow.count_posted {plugin : Plugin P} {s : Server P} (h : (lts plugin).Reachable s)
    (n : Nat) :
    (s.posted.filterMap Posted.stamp).count n = 1 ↔ ∃ e ∈ s.posted, e.stamp = some n := by
  have hnodup := (delivery_of_reachable h).2.unique
  rw [← List.mem_filterMap]
  constructor
  · intro hc
    exact List.count_pos_iff.mp (by omega)
  · intro hm
    exact List.count_eq_one_of_mem hnodup hm

/-! ### Steps of a task -/

/-- What a step may lose of what its task has: all but what the task keeps or
sends on. -/
def Keeps (t t' : PeerTask) (e : Option Posted) : Prop :=
  ∀ d ∈ t.pipeline, Relayable d.packet.data →
    d ∈ t'.pipeline ∨ ∃ x ∈ e.toList, x.stamp = some d.stamp

theorem noLoss_task {plugin : Plugin P} {s s' : Server P} {l : Label}
    (hr : (lts plugin).Reachable s) (hstep : Step plugin s l s') {i : PeerId} {t t' : PeerTask}
    {e : Option Posted} (ht : s.tasks[i]? = some t)
    (h : t.Step s.now (s.orphan i) s.events.closed i e t') (htasks : s'.tasks = s.tasks.set i t')
    (hposted : s'.posted = s.posted ++ e.toList) (hhanded : s'.handed = s.handed)
    (hreceived : s'.received = s.received) (hs : NoLoss s) : NoLoss s' ↔ Keeps t t' e := by
  have hf := flow_of_reachable hr
  have hself : s'.tasks[i]? = some t' := by
    rw [htasks]
    exact getElem?_set_of_some ht t'
  constructor
  · intro hn d hd hrel
    obtain ⟨⟨x, hx, rfl, hstamp, hok⟩, hrec, _⟩ := (hf.tasks i t ht).held d hd
    have hacc := hn x (hhanded ▸ hx) d.packet (by rw [hreceived, hstamp]; exact hrec) hrel
    rcases hacc with hfull | ⟨_, ⟨u, hu, hmem⟩ | hcount⟩
    · rw [hok] at hfull
      cases hfull
    · rw [hself] at hu
      cases hu
      obtain ⟨d', hd', hn'⟩ := List.mem_map.mp hmem
      have hrec' := ((hf.tasks _ t ht).held d' (h.sublist.subset hd')).2.1
      have hsame : d' = d := by
        rw [hn', hstamp, hrec, Option.some.injEq] at hrec'
        cases d
        cases d'
        simp only [Stamped.mk.injEq]
        exact ⟨hn'.trans hstamp, hrec'.symm⟩
      exact .inl (hsame ▸ hd')
    · obtain ⟨y, hy, hyn⟩ := (Flow.count_posted (hr.step hstep) _).mp hcount
      rw [hposted] at hy
      rcases List.mem_append.mp hy with hy | hy
      · exact absurd (hyn.trans (by rw [hstamp])) (hf.not_posted ht hd y hy)
      · exact .inr ⟨y, hy, hyn.trans (by rw [hstamp])⟩
  · intro hk x hx d hd hrel
    rw [hreceived] at hd
    rw [hhanded] at hx
    rcases hs x hx d hd hrel with hfull | ⟨hok, ⟨u, hu, hmem⟩ | hcount⟩
    · exact .inl hfull
    · refine .inr ⟨hok, ?_⟩
      by_cases hi : i = x.peer
      · subst hi
        rw [ht] at hu
        cases hu
        obtain ⟨d', hd', hn'⟩ := List.mem_map.mp hmem
        have hrec' := ((hf.tasks _ t ht).held d' hd').2.1
        rw [hn', hd, Option.some.injEq] at hrec'
        rcases hk d' hd' (hrec' ▸ hrel) with h | ⟨y, hy, hyn⟩
        · exact .inl ⟨t', hself, hn' ▸ List.mem_map_of_mem h⟩
        · refine .inr ((Flow.count_posted (hr.step hstep) _).mpr ⟨y, ?_, hyn.trans (by rw [hn'])⟩)
          rw [hposted]
          exact List.mem_append_right _ hy
      · refine .inl ⟨u, ?_, hmem⟩
        rw [htasks, List.getElem?_set_ne hi]
        exact hu
    · obtain ⟨y, hy, hyn⟩ := (Flow.count_posted hr _).mp hcount
      refine .inr ⟨hok, .inr ((Flow.count_posted (hr.step hstep) _).mpr ⟨y, ?_, hyn⟩)⟩
      rw [hposted]
      exact List.mem_append_left _ hy

/-- No LAN frame goes to a closed channel, with the receiver, or to a closed
event channel. -/
structure LossGuard (s : Server P) (l : Label) : Prop where
  /-- The receive loop hands a LAN frame to a peer in the table: its channel is
  open. -/
  handing : l = .decide → ∀ d p t, s.recv = .deciding d → Relayable d.packet.data →
    s.manager.cache.lookup d.packet.addr = some p → s.tasks[p.sender]? = some t →
      t.rx.closed = false
  /-- A task drops its receiver: no LAN frame is in the channel. -/
  dropping : ∀ i t, l = .task i → s.tasks[i]? = some t → t.phase = .leaving →
    ∀ d ∈ t.rx.queue, ¬ Relayable d.packet.data
  /-- A task has a LAN frame to send: the event channel is open. -/
  sending : ∀ i t d out, l = .task i → s.tasks[i]? = some t → t.phase = .sending d out →
    s.events.closed = false

theorem lossGuard_of_ne {s : Server P} {l : Label} (hd : l ≠ .decide) (ht : ∀ i, l ≠ .task i) :
    LossGuard s l :=
  ⟨fun h => absurd h hd, fun i _ h => absurd h (ht i), fun i _ _ _ h => absurd h (ht i)⟩

/-- For the receive loop the guard is about the channel of a peer in the table. -/
theorem lossGuard_decide {s : Server P} : LossGuard s .decide ↔
    ∀ d p t, s.recv = .deciding d → Relayable d.packet.data →
      s.manager.cache.lookup d.packet.addr = some p → s.tasks[p.sender]? = some t →
        t.rx.closed = false := by
  constructor
  · intro h
    exact h.handing rfl
  · intro h
    refine ⟨fun _ => h, ?_, ?_⟩
    · intro i t hl
      cases hl
    · intro i t d out hl
      cases hl

/-- For a task it is about its own channel and the event channel. -/
theorem lossGuard_task {s : Server P} {i : PeerId} {t : PeerTask} (ht : s.tasks[i]? = some t) :
    LossGuard s (.task i) ↔
      (t.phase = .leaving → ∀ d ∈ t.rx.queue, ¬ Relayable d.packet.data) ∧
      (∀ d out, t.phase = .sending d out → s.events.closed = false) := by
  constructor
  · intro h
    exact ⟨h.dropping i t rfl ht, fun d out => h.sending i t d out rfl ht⟩
  · rintro ⟨hdrop, hsending⟩
    refine ⟨?_, ?_, ?_⟩
    · intro hl
      cases hl
    · intro j u hl hu
      cases hl
      rw [ht] at hu
      cases hu
      exact hdrop
    · intro j u d out hl hu
      cases hl
      rw [ht] at hu
      cases hu
      exact hsending d out

theorem keeps_iff {s : Server P} (hf : Flow s) {i : PeerId} {t t' : PeerTask} {e : Option Posted}
    (ht : s.tasks[i]? = some t) (h : t.Step s.now (s.orphan i) s.events.closed i e t')
    (hsend : e ≠ none → s.events.closed = false) : Keeps t t' e ↔ LossGuard s (.task i) := by
  rw [lossGuard_task ht]
  obtain ⟨_, hp, hleave, hsending⟩ | ⟨d, hphase, hnot, _, hp⟩ | ⟨d, out, hphase, rfl, hp⟩ |
    ⟨d, out, hphase, hclosed, rfl, hp⟩ | ⟨hphase, rfl, hp, hp'⟩ := h.pipeline_cases
  · refine ⟨fun _ => ⟨fun hc => absurd hc hleave, fun d out hc => absurd hc (hsending d out)⟩,
      fun _ d hd _ => .inl (by rw [hp]; exact hd)⟩
  · refine ⟨fun _ => ⟨?_, ?_⟩, ?_⟩
    · intro hc
      rw [hphase] at hc
      cases hc
    · intro d out hc
      rw [hphase] at hc
      cases hc
    · intro _ x hx hrel
      rw [hp] at hx
      rcases List.mem_cons.mp hx with rfl | hx
      · exact absurd hrel hnot
      · exact .inl hx
  · refine ⟨fun _ => ⟨?_, fun _ _ _ => hsend (by simp)⟩, ?_⟩
    · intro hc
      rw [hphase] at hc
      cases hc
    · intro _ x hx hrel
      rw [hp] at hx
      rcases List.mem_cons.mp hx with rfl | hx
      · exact .inr ⟨_, List.mem_singleton_self _, rfl⟩
      · exact .inl hx
  · -- the frame in hand is lost
    constructor
    · intro hk
      have hd : d ∈ t.pipeline := by rw [hp]; simp
      have hrel := (relayable_iff _).mpr ⟨out, (hf.tasks i t ht).sending d out hphase⟩
      have hord := (List.pairwise_append.mp (hf.tasks i t ht).ordered).2.1
      rw [hp, List.map_cons, List.pairwise_cons] at hord
      rcases hk d hd hrel with hc | ⟨x, hx, _⟩
      · exact absurd (hord.1 _ (List.mem_map_of_mem hc)) (Nat.lt_irrefl _)
      · cases hx
    · rintro ⟨_, hc⟩
      rw [hc d out hphase] at hclosed
      cases hclosed
  · constructor
    · intro hk
      constructor
      · intro _ d hd hrel
        rcases hk d (by rw [hp]; exact hd) hrel with hc | ⟨x, hx, _⟩
        · rw [hp'] at hc
          cases hc
        · cases hx
      · intro d out hc
        rw [hphase] at hc
        cases hc
    · rintro ⟨hdrop, _⟩ d hd hrel
      rw [hp] at hd
      exact absurd hrel (hdrop hphase d hd)

/-! ### Handing over -/

theorem subset_pipeline_trySend (t : PeerTask) (d : Stamped) :
    t.pipeline ⊆ (trySend t d).1.pipeline := by
  obtain ⟨_, _, _, hp⟩ | ⟨_, _, hsame⟩ | ⟨_, _, hsame⟩ := trySend_cases t d
  · rw [hp]
    exact List.subset_append_left _ _
  · rw [hsame]
    exact List.Subset.refl _
  · rw [hsame]
    exact List.Subset.refl _

/-- The guard speaks of the channel the datagram goes to, the one of a new
peer included. -/
theorem lossGuard_entry {s : Server P} {d : Stamped} {peer : Peer} {tasks : List PeerTask}
    {t : PeerTask} (h : s.recv = .deciding d) (hentry : s.entry d.packet.addr = (peer, tasks))
    (ht : tasks[peer.sender]? = some t) :
    LossGuard s .decide ↔ (Relayable d.packet.data → t.rx.closed = false) := by
  rw [lossGuard_decide]
  constructor
  · intro hg hrel
    obtain ⟨hlook, rfl⟩ | ⟨_, hpeer, rfl⟩ := entry_cases hentry
    · exact hg d peer t h hrel hlook ht
    · rw [hpeer, Peer.new, List.getElem?_concat_length, Option.some.injEq] at ht
      rw [← ht]
      rfl
  · intro hopen d' p u hd hrel hlook hu
    rw [h] at hd
    cases hd
    obtain ⟨hlook', rfl⟩ | ⟨hlook', _, _⟩ := entry_cases hentry
    · rw [hlook] at hlook'
      cases hlook'
      rw [ht] at hu
      cases hu
      exact hopen hrel
    · rw [hlook] at hlook'
      cases hlook'

theorem noLoss_dispatch {s : Server P} (hf : Flow s) (hs : NoLoss s) {d : Stamped}
    {peer peer' : Peer} {tasks : List PeerTask} {t : PeerTask} (h : s.recv = .deciding d)
    (hentry : s.entry d.packet.addr = (peer, tasks)) (ht : tasks[peer.sender]? = some t) :
    NoLoss { s with
      recv := .idle
      manager := s.manager.peerMut d.packet.addr peer fun _ => peer'
      tasks := tasks.set peer.sender (trySend t d).1
      handed := s.handed ++ [⟨peer.sender, d.stamp, s.now, (trySend t d).2⟩]
      seen := s.seen ++ [.heard d peer'] } ↔
    LossGuard s .decide := by
  have hrec := (hf.recv d (by rw [h]; rfl)).1
  have hself : (tasks.set peer.sender (trySend t d).1)[peer.sender]? = some (trySend t d).1 :=
    getElem?_set_of_some ht _
  rw [lossGuard_entry h hentry ht]
  constructor
  · intro hn hrel
    by_contra hc
    have hacc := hn ⟨peer.sender, d.stamp, s.now, (trySend t d).2⟩
      (List.mem_append_right _ (List.mem_singleton_self _)) d.packet hrec hrel
    obtain ⟨_, ho, _⟩ | ⟨_, ho, _⟩ | ⟨hres, _, _⟩ := trySend_cases t d
    · exact hc ho
    · exact hc ho
    · rcases hacc with hacc | ⟨hacc, _⟩
      · rw [hres] at hacc
        cases hacc
      · rw [hres] at hacc
        cases hacc
  · intro hopen x hx y hy hrel
    rcases List.mem_append.mp hx with hx | hx
    · rcases hs x hx y hy hrel with hfull | ⟨hok, ⟨u, hu, hmem⟩ | hcount⟩
      · exact .inl hfull
      · refine .inr ⟨hok, .inl ?_⟩
        have hu' := tasks_of_entry hentry hu
        by_cases hi : peer.sender = x.peer
        · rw [← hi, ht, Option.some.injEq] at hu'
          refine ⟨(trySend t d).1, ?_, ?_⟩
          · rw [← hi]
            exact hself
          rw [← hu'] at hmem
          exact List.map_subset _ (subset_pipeline_trySend t d) hmem
        · exact ⟨u, by rw [List.getElem?_set_ne hi]; exact hu', hmem⟩
      · exact .inr ⟨hok, .inr hcount⟩
    · rw [List.mem_singleton.mp hx] at hy ⊢
      change s.received[d.stamp]? = some y at hy
      rw [hrec, Option.some.injEq] at hy
      obtain ⟨hres, _, _, hp⟩ | ⟨hres, _⟩ | ⟨_, hclosed, _⟩ := trySend_cases t d
      · exact .inr ⟨hres, .inl ⟨_, hself, by rw [hp]; simp⟩⟩
      · exact .inl hres
      · rw [hopen (hy ▸ hrel)] at hclosed
        cases hclosed

/-! ### Runs -/

/-- One step loses no LAN frame but to a full channel exactly when the guard
holds of it. -/
theorem noLoss_step {plugin : Plugin P} {s s' : Server P} {l : Label}
    (hr : (lts plugin).Reachable s) (hs : NoLoss s) (h : Step plugin s l s') :
    NoLoss s' ↔ LossGuard s l := by
  have hf := flow_of_reachable hr
  have hquiet : l ≠ .decide → (∀ i, l ≠ .task i) → NoLoss s' → (NoLoss s' ↔ LossGuard s l) :=
    fun hd ht hn => ⟨fun _ => lossGuard_of_ne hd ht, fun _ => hn⟩
  -- what is not for a peer is no LAN frame
  have hdecide : ∀ d, s.recv = .deciding d → ¬ Relayable d.packet.data → LossGuard s .decide := by
    intro d hd hnot
    rw [lossGuard_decide]
    intro d' p t hd' hrel
    rw [hd] at hd'
    cases hd'
    exact absurd hrel hnot
  have hstep := h
  cases h with
  | dispatch h hparse hping hentry hon ht => exact noLoss_dispatch hf hs h hentry ht
  | task ht hturn =>
    rw [← keeps_iff hf ht hturn (fun hc => absurd rfl hc)]
    exact noLoss_task hr hstep ht hturn rfl (List.append_nil _).symm rfl rfl hs
  | taskSends ht hturn hsend =>
    rw [← keeps_iff hf ht hturn (fun _ => (Chan.trySend_eq_ok hsend).1)]
    exact noLoss_task hr hstep ht hturn rfl rfl rfl rfl hs
  | discard h hparse | pong h hparse =>
    refine ⟨fun _ => hdecide _ h ?_, fun _ => hs⟩
    rintro (⟨v, hv⟩ | ⟨v, hv⟩)
    · rw [hparse] at hv
      cases hv
    · rw [hparse] at hv
      cases hv
  | receive packet h =>
    apply hquiet (by simp) (by simp)
    intro x hx d hd
    rw [List.getElem?_append_left (hf.handed_lt x hx)] at hd
    exact hs x hx d hd
  | tick | configure | recvFails | filter | filterPanics | take | close | route | sendLan | drop
  | crash | sendTo | finish => exact hquiet (by simp) (by simp) hs

/-- **When a LAN frame is lost only because a channel is full**: exactly in the
runs whose steps all meet the guard. -/
theorem noLoss_iff (plugin : Plugin P) (ignoreIdle : Bool) (plugins : List P)
    {r : List (Label × Server P)} (hr : (lts plugin).Run (new ignoreIdle plugins) r) :
    Lts.Always NoLoss (new ignoreIdle plugins) r ↔
      Lts.Guarded LossGuard (new ignoreIdle plugins) r :=
  Lts.always_iff_guarded (fun _ _ _ hreach hs h => noLoss_step hreach hs h)
    (.init ⟨ignoreIdle, plugins, rfl⟩) (fun _ hx => (nomatch hx)) hr

/-- Alice is heard once, goes quiet, and sends a frame to the channel her task
has left. -/
def lateTurns : List Turn :=
  arrive ⟨[0], alice⟩ ++ [.task 0, .task 0, .task 0] ++ goQuiet 0 ++ arrive ⟨lanDatagram, alice⟩

theorem not_noLoss_lateTurns : ¬ NoLoss (outcome noPlugin [] lateTurns) := by
  intro h
  have hhanded : ⟨0, 1, 30000, .error .closed⟩ ∈ (outcome noPlugin [] lateTurns).handed :=
    List.mem_of_getElem? (i := 1) rfl
  have hrel : Relayable lanDatagram := .inl ⟨⟨lanDatagram.tail, by decide⟩, rfl⟩
  rcases h _ hhanded ⟨lanDatagram, alice⟩ rfl hrel with hfull | ⟨hok, _⟩
  · cases hfull
  · cases hok

theorem not_lossGuard_lateTurns :
    ¬ Lts.Guarded LossGuard (new false []) (trace noPlugin [] lateTurns) := fun h =>
  not_noLoss_lateTurns
    ((noLoss_iff noPlugin false [] (run_trace noPlugin [] lateTurns)).mpr h).last

theorem loses_late_frame :
    ¬ ∀ s : Server Empty, (lts noPlugin).Reachable s → NoLoss s :=
  fun h => not_noLoss_lateTurns (h _ (reachable_outcome noPlugin [] lateTurns))

end Server

end SlpServer
