import SlpServer.Slp.Intake
import SlpServer.Slp.Quiescence

/-!
# How long a client stays

A task waits for thirty seconds and then leaves.  Nothing else makes it leave as
long as the event channel is open: its sender is in the table, and what is in
its channel parses.  So a client whose datagram was accepted stays for thirty
seconds at least (`client_kept`), and one whose wait has run out is gone once the
server has come to rest (`quiet_client_removed`).
-/

namespace SlpServer

open Rust PeerTask

/-- What a client has to send something in. -/
def recvTimeout : Nat := 30 * 1000

namespace PeerTask

/-- The task is in its loop, and is not to leave it within thirty seconds of `t₀`. -/
def Attended (t₀ : Instant) (t : PeerTask) : Prop :=
  match t.phase with
  | .top | .handling _ | .sending _ _ => True
  | .waiting deadline => t.rx.queue ≠ [] ∨ t₀ + recvTimeout ≤ deadline
  | .leaving | .closing | .done => False

/-- Its time is up, or it has left. -/
def Fading (now : Instant) (t : PeerTask) : Prop :=
  match t.phase with
  | .waiting deadline => t.rx.queue = [] ∧ deadline ≤ now
  | .leaving | .closing | .done => True
  | .top | .handling _ | .sending _ _ => False

/-- What parses does not end the loop. -/
theorem doPacket_of_parse {packet : Packet} {frame : ForwarderFrame}
    (h : ForwarderFrame.parse packet = .ok (.ok frame)) {e : ParseError} :
    doPacket packet ≠ .ok (.error e) := by
  rw [doPacket, h, ok_bind]
  cases frame with
  | ipv4 v => simp [v.outAddr_ok]
  | ipv4Frag v => simp [v.outAddr_ok]
  | keepalive | ping | authMe | info => simp

section
variable {now t₀ : Instant} {i : PeerId} {t t' : PeerTask} {e : Option Posted}

/-- A task stays in its loop for thirty seconds. -/
theorem Attended.step (h : t.Attended t₀) (hs : t.Step now false false i e t')
    (hge : t₀ ≤ now) (hlt : now < t₀ + recvTimeout)
    (hparse : ∀ d, t.phase = .handling d →
      ∃ frame, ForwarderFrame.parse d.packet.data = .ok (.ok frame)) : t'.Attended t₀ := by
  cases hs with
  | arm hp => exact .inr (Nat.add_le_add_right hge _)
  | recv hp hrx => trivial
  | recvNone hp hrx horphan => cases horphan
  | timeout hp hrx hdeadline =>
    simp only [Attended, hp] at h
    rcases h with h | h
    · exact absurd (Chan.recv_eq_none.mp hrx) h
    · exact absurd (Nat.le_trans h hdeadline) (Nat.not_le.mpr hlt)
  | @handle d r hp hr =>
    obtain ⟨frame, hframe⟩ := hparse d hp
    match r, hr with
    | .ok (some out), _ | .ok none, _ => trivial
    | .error _, hr => exact absurd hr (doPacket_of_parse hframe)
  | send hp => trivial
  | sendFails hp hclosed => cases hclosed
  | dropRx hp | sendClose hp =>
    simp only [Attended, hp] at h
  | sendCloseFails hp hclosed => cases hclosed

theorem queue_trySend_ne_nil (h : t.rx.queue ≠ []) (d : Stamped) :
    (Server.trySend t d).1.rx.queue ≠ [] := by
  unfold Server.trySend
  split
  · rename_i rx hrx
    rw [(Chan.trySend_eq_ok hrx).2.2]
    exact List.append_ne_nil_of_left_ne_nil h _
  · exact h

theorem Attended.trySend (h : t.Attended t₀) (d : Stamped) :
    (Server.trySend t d).1.Attended t₀ := by
  unfold Attended at h ⊢
  rw [Server.phase_trySend]
  cases hp : t.phase with
  | waiting deadline =>
    rw [hp] at h
    exact h.imp_left fun hq => queue_trySend_ne_nil hq d
  | top | handling | sending => trivial
  | leaving | closing | done =>
    rw [hp] at h
    exact h

/-- **A task whose time is up leaves**, with no time passing and nothing coming. -/
theorem Fading.step {orphan closed : Bool} (h : t.Fading now)
    (hs : t.Step now orphan closed i e t') : t'.Fading now := by
  cases hs with
  | recv hp hrx =>
    simp only [Fading, hp] at h
    rw [(Chan.recv_eq_some hrx).1] at h
    cases h.1
  | arm hp | handle hp | send hp | sendFails hp =>
    simp only [Fading, hp] at h
  | recvNone | timeout | dropRx | sendClose | sendCloseFails => trivial

end

end PeerTask

namespace Server

variable {P : Type}

/-! ### A client that is heard -/

/-- The datagrams that are with a task parse. -/
theorem parse_of_pipeline {plugin : Plugin P} {s : Server P} (h : (lts plugin).Reachable s)
    {i : PeerId} {t : PeerTask} (ht : s.tasks[i]? = some t) {d : Stamped} (hd : d ∈ t.pipeline) :
    ∃ frame, ForwarderFrame.parse d.packet.data = .ok (.ok frame) := by
  obtain ⟨⟨x, hx, _, hstamp, _⟩, hrec, _⟩ := ((flow_of_reachable h).tasks i t ht).held d hd
  obtain ⟨n, hi⟩ := intake_of_reachable h
  have hmem : d.stamp ∈ forPeers s.received n := by
    rw [← hi.handed, ← hstamp]
    exact List.mem_map_of_mem hx
  have hfor := (List.mem_filter.mp hmem).2
  rw [hrec, Option.any_some, InPacket.forPeer] at hfor
  split at hfor
  · cases hfor
  · exact ⟨_, by assumption⟩
  · cases hfor

theorem Cached.orphan_eq_false {s : Server P} {addr : SocketAddr} {i : PeerId}
    (h : Cached s addr i) : s.orphan i = false := by
  obtain ⟨p, hp, hsender⟩ := h
  rw [orphan, List.all_eq_false]
  exact ⟨⟨addr, p⟩, AList.mem_lookup_iff.mp hp, by simp [hsender]⟩

/-- Task `i` of `addr` is in its loop, and is not to leave it within thirty
seconds of `t₀`. -/
def Stays (t₀ : Instant) (addr : SocketAddr) (i : PeerId) (s : Server P) : Prop :=
  t₀ ≤ s.now ∧ ∃ t, s.tasks[i]? = some t ∧ t.addr = addr ∧ t.Attended t₀

theorem attended_running {t₀ : Instant} {t : PeerTask} (h : t.Attended t₀) : t.ended = false := by
  unfold Attended at h
  unfold ended
  split
  · rename_i hp
    rw [hp] at h
    cases h
  · rfl

/-- What a task is, it still is when another one is set, or when it is what is set. -/
theorem exists_task_set {tasks : List PeerTask} {i j : PeerId} {t u : PeerTask}
    (q : PeerTask → Prop) (ht : tasks[i]? = some t) (hq : q t) (hself : j = i → q u) :
    ∃ v, (tasks.set j u)[i]? = some v ∧ q v := by
  by_cases hj : j = i
  · subst hj
    exact ⟨u, getElem?_set_of_some ht u, hself rfl⟩
  · exact ⟨t, by rw [List.getElem?_set_ne hj]; exact ht, hq⟩

/-- A step of the server within thirty seconds keeps the task in its loop. -/
theorem Stays.step {plugin : Plugin P} {t₀ : Instant} {addr : SocketAddr} {i : PeerId}
    {s s' : Server P} {l : Label} (h : Stays t₀ addr i s) (hr : (lts plugin).Reachable s)
    (hlt : s.now < t₀ + recvTimeout) (hopen : s.events.closed = false)
    (hstep : Step plugin s l s') : Stays t₀ addr i s' := by
  obtain ⟨hge, t, ht, haddr, hatt⟩ := h
  have horphan : s.orphan i = false := by
    have hc := (lives_of_reachable hr hopen i t ht).cached_iff.mpr (.inl (attended_running hatt))
    exact hc.orphan_eq_false
  have hparse : ∀ d, t.phase = .handling d →
      ∃ frame, ForwarderFrame.parse d.packet.data = .ok (.ok frame) := by
    intro d hd
    exact parse_of_pipeline hr ht (by simp [PeerTask.pipeline, inHand, hd])
  have hturn : ∀ {j : PeerId} {u u' : PeerTask} {e : Option Posted}, s.tasks[j]? = some u →
      u.Step s.now (s.orphan j) s.events.closed j e u' →
      ∃ v, (s.tasks.set j u')[i]? = some v ∧ v.addr = addr ∧ v.Attended t₀ := by
    intro j u u' e hu hs
    refine exists_task_set (fun v => v.addr = addr ∧ v.Attended t₀) ht ⟨haddr, hatt⟩ ?_
    rintro rfl
    rw [ht] at hu
    cases hu
    rw [horphan, hopen] at hs
    exact ⟨hs.addr.trans haddr, hatt.step hs hge hlt hparse⟩
  cases hstep with
  | tick elapsed => exact ⟨Nat.le_trans hge (Nat.le_add_right _ _), t, ht, haddr, hatt⟩
  | @dispatch d frame peer peer' tasks u hrecv hparse' hping hentry hon hu =>
    refine ⟨hge, ?_⟩
    have htasks : tasks[i]? = some t := tasks_of_entry hentry ht
    refine exists_task_set (fun v => v.addr = addr ∧ v.Attended t₀) htasks ⟨haddr, hatt⟩ ?_
    rintro rfl
    rw [htasks] at hu
    cases hu
    exact ⟨(addr_trySend t d).trans haddr, hatt.trySend d⟩
  | task hu hs | taskSends hu hs => exact ⟨hge, hturn hu hs⟩
  | configure | receive | recvFails | filter | filterPanics | discard | pong | take | close | route
  | sendLan | drop | crash | sendTo | finish => exact ⟨hge, t, ht, haddr, hatt⟩

/-- A task with a datagram is in its loop, unless it is about to drop it. -/
theorem attended_of_pipeline {plugin : Plugin P} {s : Server P} (h : (lts plugin).Reachable s)
    {i : PeerId} {t : PeerTask} (ht : s.tasks[i]? = some t) (hp : t.pipeline ≠ [])
    (hleaving : t.phase ≠ .leaving) : t.Attended s.now := by
  have hshut := (sound_of_reachable h).tasks t (List.mem_of_getElem? ht)
  unfold Attended
  unfold PeerTask.pipeline at hp
  cases hphase : t.phase with
  | top | handling | sending => trivial
  | waiting deadline =>
    rw [hphase] at hp
    exact .inl hp
  | leaving => exact absurd hphase hleaving
  | closing =>
    rw [hphase, (hshut (.inl hphase)).1] at hp
    exact absurd rfl hp
  | done =>
    rw [hphase, (hshut (.inr hphase)).1] at hp
    exact absurd rfl hp

/-- **A client that is heard stays.**  Where its task has a datagram and is not
leaving, the client stays in the table for thirty seconds, with the same task in
its loop, in every run in which the event task is there. -/
theorem client_kept {plugin : Plugin P} {s : Server P} (h : (lts plugin).Reachable s)
    {i : PeerId} {t : PeerTask} (ht : s.tasks[i]? = some t) (hp : t.pipeline ≠ [])
    (hleaving : t.phase ≠ .leaving) {r : List (Label × Server P)} (hr : (lts plugin).Run s r)
    (hwindow : Lts.Always (fun s' => s'.now < s.now + recvTimeout ∧ s'.events.closed = false) s r) :
    Lts.Always (fun s' => Cached s' t.addr i ∧
      ∃ t', s'.tasks[i]? = some t' ∧ t'.addr = t.addr ∧ t'.Attended s.now) s r := by
  have hstart : (lts plugin).Reachable s ∧ Stays s.now t.addr i s ∧ s.events.closed = false :=
    ⟨h, ⟨Nat.le_refl _, t, ht, rfl, attended_of_pipeline h ht hp hleaving⟩, hwindow.head.2⟩
  have hall := Lts.Always.of_always
    (p := fun s' => (lts plugin).Reachable s' ∧ Stays s.now t.addr i s' ∧ s'.events.closed = false)
    (fun _ _ _ hs hq hq' hstep =>
      ⟨hs.1.step hstep, hs.2.1.step hs.1 hq.1 hq.2 hstep, hq'.2⟩) hstart hr hwindow
  refine hall.imp fun s' hs' => ?_
  obtain ⟨hreach, ⟨_, t', ht', haddr, hatt⟩, hopen⟩ := hs'
  refine ⟨?_, t', ht', haddr, hatt⟩
  have hlife := lives_of_reachable hreach hopen i t' ht'
  exact haddr ▸ hlife.cached_iff.mpr (.inl (attended_running hatt))

/-- Bob has sent a keepalive, and his task has it. -/
def heardFrom : Server Empty := outcome noPlugin [] (arrive ⟨[0], bob⟩)

/-- The task deals with it and waits. -/
def waitTurns : List Turn := List.replicate 4 (.task 0) ++ [.tick 29999]

def waits : List (Label × Server Empty) := (heardFrom.play noPlugin waitTurns).getD []

theorem run_waits : (lts noPlugin).Run heardFrom waits := by
  have hplay : heardFrom.play noPlugin waitTurns = some waits := rfl
  exact run_of_play hplay

theorem client_kept_waits : Lts.Always (fun s' => Cached s' bob 0 ∧
    ∃ t', s'.tasks[0]? = some t' ∧ t'.addr = bob ∧ t'.Attended heardFrom.now) heardFrom waits :=
  client_kept (t := ⟨bob, ⟨[⟨0, ⟨[0], bob⟩⟩], false, by decide⟩, .top⟩)
    (reachable_outcome noPlugin [] (arrive ⟨[0], bob⟩)) rfl nofun nofun run_waits (by decide)

/-! ### A client that is not -/

/-- Task `i` is to leave, with no time passing and no datagram of its client at
hand, and `addr` is in the table for no other task. -/
structure Goes (now : Instant) (i : PeerId) (addr : SocketAddr) (s : Server P) : Prop where
  still : s.now = now
  hand : ∀ d, s.recv.held = some d → d.packet.addr ≠ addr
  alone : ∀ p, s.manager.cache.lookup addr = some p → p.sender = i
  fading : ∃ t, s.tasks[i]? = some t ∧ t.addr = addr ∧ t.Fading now

theorem Goes.set {now : Instant} {i j : PeerId} {addr : SocketAddr} {s : Server P}
    (h : Goes now i addr s) {u u' : PeerTask} {e : Option Posted} (hu : s.tasks[j]? = some u)
    (hs : u.Step s.now (s.orphan j) s.events.closed j e u') :
    ∃ v, (s.tasks.set j u')[i]? = some v ∧ v.addr = addr ∧ v.Fading now := by
  obtain ⟨t, ht, haddr, hfade⟩ := h.fading
  refine exists_task_set (fun v => v.addr = addr ∧ v.Fading now) ht ⟨haddr, hfade⟩ ?_
  rintro rfl
  rw [ht] at hu
  cases hu
  rw [h.still] at hs
  exact ⟨hs.addr.trans haddr, hfade.step hs⟩

theorem Goes.dispatch {now : Instant} {i : PeerId} {addr : SocketAddr} {s : Server P}
    (h : Goes now i addr s) (hf : Flow s) {d : Stamped} {peer peer' : Peer}
    {tasks : List PeerTask} {u : PeerTask} (hother : d.packet.addr ≠ addr)
    (hentry : s.entry d.packet.addr = (peer, tasks)) (hu : tasks[peer.sender]? = some u)
    (handed : List Handed) (seen : List Seen) :
    Goes now i addr { s with
      recv := .idle
      manager := s.manager.peerMut d.packet.addr peer fun _ => peer'
      tasks := tasks.set peer.sender (trySend u d).1
      handed
      seen } := by
  obtain ⟨t, ht, haddr, hfade⟩ := h.fading
  have htasks : tasks[i]? = some t := tasks_of_entry hentry ht
  have hi : peer.sender ≠ i := by
    rintro rfl
    rw [htasks] at hu
    cases hu
    exact hother ((hf.entry hentry htasks).2.symm.trans haddr)
  refine ⟨h.still, fun d hd => (nomatch hd), fun p hp => ?_, t, ?_, haddr, hfade⟩
  · rw [InnerPeerManager.lookup_cache_peerMut, if_neg (Ne.symm hother)] at hp
    exact h.alone p hp
  · rw [List.getElem?_set_ne hi]
    exact htasks

/-- **Nothing the server does by itself** keeps such a task. -/
theorem Goes.step {plugin : Plugin P} {now : Instant} {i : PeerId} {addr : SocketAddr}
    {s s' : Server P} {l : Label} (h : Goes now i addr s) (hf : Flow s) (hown : l.Own)
    (hstep : Step plugin s l s') : Goes now i addr s' := by
  have ⟨hnow, hhand, halone, hfading⟩ := h
  cases hstep with
  | tick | configure | receive | recvFails => cases hown
  | filter hd =>
    refine ⟨hnow, fun d' hd' => ?_, halone, hfading⟩
    cases hd'
    exact hhand _ (by rw [hd]; rfl)
  | filterPanics | discard | pong => exact ⟨hnow, fun d hd => (nomatch hd), halone, hfading⟩
  | dispatch hd hparse hping hentry hon hu =>
    have hother := hhand _ (by rw [hd]; rfl)
    exact h.dispatch hf hother hentry hu _ _
  | task hu hs | taskSends hu hs => exact ⟨hnow, hhand, halone, h.set hu hs⟩
  | close hjobs he =>
    refine ⟨hnow, hhand, fun p hp => ?_, hfading⟩
    rw [InnerPeerManager.lookup_cache_remove] at hp
    split at hp
    · cases hp
    · exact halone p hp
  | route hjobs he haddrs =>
    refine ⟨hnow, hhand, fun p hp => halone p ?_, hfading⟩
    rwa [InnerPeerManager.cache_getDestSockaddr] at hp
  | take | sendLan | drop | crash | sendTo | finish => exact ⟨hnow, hhand, halone, hfading⟩

/-- At rest it has left, and its `Close` is handled. -/
theorem Goes.gone {plugin : Plugin P} {now : Instant} {i : PeerId} {addr : SocketAddr}
    {s : Server P} (h : Goes now i addr s) (hreach : (lts plugin).Reachable s) (hrest : AtRest s)
    (hopen : s.events.closed = false) :
    (∃ t, s.tasks[i]? = some t ∧ t.phase = .done) ∧ ∀ a, ¬ Cached s a i := by
  obtain ⟨t, ht, _, hfade⟩ := h.fading
  have hdone : t.phase = .done := by
    obtain ⟨_, hdone | ⟨deadline, hwait, hlt, _⟩⟩ := hrest.tasks i t ht
    · exact hdone
    · simp only [Fading, hwait] at hfade
      rw [h.still] at hlt
      exact absurd hfade.2 (Nat.not_le.mpr hlt)
  have hpending : pending s i = 0 := by
    rw [pending, work, hrest.events, hrest.jobs]
    rfl
  refine ⟨⟨t, ht, hdone⟩, ?_⟩
  rintro a ⟨p, hlookup, rfl⟩
  obtain ⟨u, hu, haddr⟩ := (flow_of_reachable hreach).cache a p hlookup
  rw [ht] at hu
  cases hu
  have hlife := lives_of_reachable hreach hopen p.sender t ht
  rcases hlife.cached_iff.mp ⟨p, haddr ▸ hlookup, rfl⟩ with he | hpos
  · simp [ended, hdone] at he
  · omega

/-- **A client that is not heard is gone.**  Once the wait of its task has run
out, with no datagram of the client in the channel or with the receive loop, its
address is out of the table, the task ended and its `Close` handled, as soon as
the server has come to rest, unless the event task is gone. -/
theorem quiet_client_removed {plugin : Plugin P} {s : Server P} (h : (lts plugin).Reachable s)
    {i : PeerId} {t : PeerTask} (ht : s.tasks[i]? = some t) {deadline : Instant}
    (hp : t.phase = .waiting deadline) (hq : t.rx.queue = []) (hdeadline : deadline ≤ s.now)
    (hhand : ∀ d, s.recv.held = some d → d.packet.addr ≠ t.addr)
    {r : List (Label × Server P)} (hr : (lts plugin).Run s r) (hown : Lts.Labelled Label.Own r)
    (hrest : AtRest (Lts.last s r)) (hopen : (Lts.last s r).events.closed = false) :
    (Lts.last s r).manager.cache.lookup t.addr = none ∧
      (∀ addr, ¬ Cached (Lts.last s r) addr i) ∧
      ∃ t', (Lts.last s r).tasks[i]? = some t' ∧ t'.phase = .done := by
  have hbefore : s.events.closed = false := (open_of_last hr hopen).head
  have hcached : Cached s t.addr i :=
    (lives_of_reachable h hbefore i t ht).cached_iff.mpr (.inl (by simp [ended, hp]))
  have hstart : (lts plugin).Reachable s ∧ Goes s.now i t.addr s := by
    refine ⟨h, rfl, hhand, fun p hlookup => ?_, t, ht, rfl, ?_⟩
    · exact Cached.unique ⟨p, hlookup, rfl⟩ hcached
    · simp only [Fading, hp]
      exact ⟨hq, hdeadline⟩
  have hall := Lts.Labelled.always
    (p := fun s' => (lts plugin).Reachable s' ∧ Goes s.now i t.addr s')
    (fun _ _ _ hg ho hs => ⟨hg.1.step hs, hg.2.step (flow_of_reachable hg.1) ho hs⟩) hstart hr hown
  obtain ⟨hreach, hgoes⟩ := hall.last
  obtain ⟨hdone, hgone⟩ := hgoes.gone hreach hrest hopen
  refine ⟨?_, hgone, hdone⟩
  cases hlookup : (Lts.last s r).manager.cache.lookup t.addr with
  | none => rfl
  | some p => exact absurd ⟨p, hlookup, hgoes.alone p hlookup⟩ (hgone t.addr)

/-- Bob's task has waited for thirty seconds, and Alice has sent something. -/
def overdue : Server Empty := outcome noPlugin [] (arrive ⟨[0], bob⟩ ++
  List.replicate 4 (.task 0) ++ [.tick 30000, .receive ⟨[0], alice⟩])

/-- It leaves, and its `Close` is handled. -/
def leaveTurns : List Turn :=
  [.filter, .decide] ++ List.replicate 4 (.task 1) ++ List.replicate 3 (.task 0) ++ [.take, .job]

def leaves : List (Label × Server Empty) := (overdue.play noPlugin leaveTurns).getD []

theorem run_leaves : (lts noPlugin).Run overdue leaves := by
  have hplay : overdue.play noPlugin leaveTurns = some leaves := rfl
  exact run_of_play hplay

theorem atRest_leaves : AtRest (Lts.last overdue leaves) := by
  refine ⟨.inl rfl, rfl, rfl, ?_⟩
  intro i t ht
  match i, ht with
  | 0, ht =>
    cases ht
    exact ⟨rfl, .inl rfl⟩
  | 1, ht =>
    cases ht
    exact ⟨rfl, .inr ⟨60000, rfl, by decide, rfl⟩⟩
  | _ + 2, ht => cases ht

theorem quiet_client_removed_leaves : (Lts.last overdue leaves).manager.cache.lookup bob = none ∧
    ∃ t, (Lts.last overdue leaves).tasks[0]? = some t ∧ t.phase = .done := by
  have hhand : ∀ d, overdue.recv.held = some d → d.packet.addr ≠ bob := by
    intro d hd
    cases hd
    decide
  have h := quiet_client_removed (i := 0) (t := ⟨bob, .new, .waiting 30000⟩)
    (reachable_outcome noPlugin [] _) rfl rfl rfl (by decide) hhand run_leaves (by decide)
    atRest_leaves rfl
  exact ⟨h.1, h.2.2⟩

end Server

end SlpServer
