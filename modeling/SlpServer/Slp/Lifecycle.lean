import SlpServer.Slp.Relay

/-!
# The life of a peer

A `Close` event names an address, not the task that sent it, and the client may
be back by the time it is handled.  That the right entry of the table is removed
rests on `Life`: a task is in the table as long as it runs, and from then on as
long as its one `Close` is not handled.  A client that comes back before that
finds the old entry, one that comes later gets a new task.
-/

namespace SlpServer

open Rust PeerTask

/-- The task has sent its `Close`, or tried to. -/
def PeerTask.ended (t : PeerTask) : Bool :=
  match t.phase with
  | .done => true
  | _ => false

namespace Server

variable {P : Type}

/-- The event is the `Close` of task `i`. -/
def closeOf (i : PeerId) (j : Job) : Bool :=
  j.posted.peer == i && match j.posted.event with
    | .close _ => true
    | .sendLAN _ _ => false

/-- The `Close` events of task `i` that are not handled. -/
def pending (s : Server P) (i : PeerId) : Nat := (work s).countP (closeOf i)

/-- The entry of the table under `addr` is task `i`. -/
def Cached (s : Server P) (addr : SocketAddr) (i : PeerId) : Prop :=
  ∃ p, s.manager.cache.lookup addr = some p ∧ p.sender = i

theorem Cached.unique {s : Server P} {addr : SocketAddr} {i j : PeerId} (hi : Cached s addr i)
    (hj : Cached s addr j) : i = j := by
  obtain ⟨p, hp, rfl⟩ := hi
  obtain ⟨q, hq, rfl⟩ := hj
  rw [hp] at hq
  cases hq
  rfl

/-- Where task `i` is in its life: it runs and is in the table, it has ended and
is there until its `Close` is handled, or it is gone. -/
def Life (s : Server P) (i : PeerId) (t : PeerTask) : Prop :=
  (t.ended = false ∧ Cached s t.addr i ∧ pending s i = 0) ∨
  (t.ended = true ∧ Cached s t.addr i ∧ pending s i = 1) ∨
  (t.ended = true ∧ ¬ Cached s t.addr i ∧ pending s i = 0)

/-- Every task is in one of the three. -/
def Lives (s : Server P) : Prop := ∀ i t, s.tasks[i]? = some t → Life s i t

/-- A task without events that is not in the table, or that runs there. -/
theorem Life.cached_iff {s : Server P} {i : PeerId} {t : PeerTask} (h : Life s i t) :
    Cached s t.addr i ↔ t.ended = false ∨ 0 < pending s i := by
  rcases h with ⟨he, hc, hp⟩ | ⟨he, hc, hp⟩ | ⟨he, hc, hp⟩
  · exact ⟨fun _ => .inl he, fun _ => hc⟩
  · exact ⟨fun _ => .inr (by omega), fun _ => hc⟩
  · refine ⟨fun h => absurd h hc, ?_⟩
    intro h
    rcases h with h | h
    · rw [he] at h
      cases h
    · omega

/-! ### What the steps do to the `Close` events -/

theorem genuine_of_mem_work {plugin : Plugin P} {s : Server P} (h : (lts plugin).Reachable s)
    {j : Job} (hj : j ∈ work s) : Genuine s.received s.handed s.tasks j.posted :=
  (flow_of_reachable h).posted _ ((delivery_of_reachable h).1.known j hj)

theorem pending_eq_zero {plugin : Plugin P} {s : Server P} (h : (lts plugin).Reachable s)
    {i : PeerId} (hi : s.tasks[i]? = none) : pending s i = 0 := by
  rw [pending, List.countP_eq_zero]
  intro j hj hc
  obtain ⟨t, ht, _⟩ := genuine_of_mem_work h hj
  have hpeer : j.posted.peer = i := by
    rw [closeOf, Bool.and_eq_true] at hc
    exact beq_iff_eq.mp hc.1
  rw [hpeer, hi] at ht
  cases ht

theorem closeOf_sendLAN {i : PeerId} {e : Posted} {src : SocketAddr} {out : OutPacket}
    (he : e.event = .sendLAN src out) (phase : JobPhase) : closeOf i ⟨e, phase⟩ = false := by
  unfold closeOf
  simp [he]

theorem pending_eq {s : Server P} {jobs jobs' : List Job} {j : Job}
    (hjobs : s.jobs = jobs ++ j :: jobs') (i : PeerId) : pending s i =
      (s.events.queue.map (Job.mk · .started) ++ (jobs ++ jobs')).countP (closeOf i) +
        if closeOf i j then 1 else 0 := by
  rw [pending, (work_perm hjobs).countP_eq, List.countP_cons]

theorem pending_of_done {s : Server P} {jobs jobs' : List Job} {e : Posted} {phase : JobPhase}
    {src : SocketAddr} {out : OutPacket} (hjobs : s.jobs = jobs ++ ⟨e, phase⟩ :: jobs')
    (he : e.event = .sendLAN src out) (i : PeerId) :
    (s.events.queue.map (Job.mk · .started) ++ (jobs ++ jobs')).countP (closeOf i) =
      pending s i := by
  rw [pending_eq hjobs, closeOf_sendLAN he]
  rfl

theorem pending_of_going {s : Server P} {jobs jobs' : List Job} {e : Posted} {phase : JobPhase}
    {src : SocketAddr} {out : OutPacket} (hjobs : s.jobs = jobs ++ ⟨e, phase⟩ :: jobs')
    (he : e.event = .sendLAN src out) (phase' : JobPhase) (i : PeerId) :
    (s.events.queue.map (Job.mk · .started) ++ (jobs ++ ⟨e, phase'⟩ :: jobs')).countP
      (closeOf i) = pending s i := by
  rw [pending_eq hjobs, closeOf_sendLAN he, ← List.append_assoc, List.perm_middle.countP_eq,
    List.countP_cons, closeOf_sendLAN he, List.append_assoc]

theorem pending_of_send {s : Server P} {e : Posted} {events : Chan Posted 100}
    (hsend : s.events.trySend e = .ok events) (tasks : List PeerTask) (posted : List Posted)
    (i : PeerId) : pending { s with tasks, events, posted } i =
      pending s i + if closeOf i ⟨e, .started⟩ then 1 else 0 := by
  have hq := (Chan.trySend_eq_ok hsend).2.2
  simp only [pending, work, hq, List.map_append, List.map_singleton, List.append_assoc,
    List.countP_append, List.countP_singleton]
  omega

/-! ### What the steps do to a life -/

theorem Life.of_same {s s' : Server P} {i : PeerId} {t t' : PeerTask} (h : Life s i t)
    (hended : t'.ended = t.ended) (hcached : Cached s' t'.addr i ↔ Cached s t.addr i)
    (hpending : pending s' i = pending s i) : Life s' i t' := by
  rw [Life, hended, hcached, hpending]
  exact h

section
variable {now : Instant} {orphan closed : Bool} {i : PeerId} {t t' : PeerTask} {e : Option Posted}

/-- A task ends with its `Close`, as long as the event channel is open. -/
theorem ended_of_step (h : t.Step now orphan closed i e t') (hopen : closed = false) :
    t.ended = false ∧ (t'.ended = true ↔ e = some ⟨i, none, .close t.addr⟩) := by
  cases h with
  | arm h | recv h | recvNone h | timeout h | send h | dropRx h | sendClose h => simp [ended, h]
  | @handle d r h hr =>
    rcases r with _ | (_ | _)
    · simp [ended, h, phaseAfter]
    · simp [ended, h, phaseAfter]
    · simp [ended, h, phaseAfter]
  | sendFails h hclosed | sendCloseFails h hclosed =>
    rw [hopen] at hclosed
    cases hclosed

end

theorem closeOf_of_ne {i : PeerId} {j : Job} (h : j.posted.peer ≠ i) : closeOf i j = false := by
  unfold closeOf
  simp [h]

theorem Lives.task {s : Server P} (hl : Lives s) {i : PeerId} {t t' : PeerTask}
    (ht : s.tasks[i]? = some t)
    (hstep : t.Step s.now (s.orphan i) s.events.closed i none t')
    (hopen : s.events.closed = false) : Lives { s with tasks := s.tasks.set i t' } := by
  obtain ⟨he, he'⟩ := ended_of_step hstep hopen
  have hended : t'.ended = t.ended := by
    rw [he]
    by_contra hc
    rw [Bool.not_eq_false, he'] at hc
    cases hc
  intro j u hu
  obtain ⟨rfl, rfl⟩ | ⟨_, hu⟩ := getElem?_set_cases ht hu
  · exact (hl i t ht).of_same hended (by rw [hstep.addr]; rfl) rfl
  · exact (hl j u hu).of_same rfl Iff.rfl rfl

theorem Lives.taskSends {s : Server P} (hl : Lives s) (hf : Flow s) {i : PeerId} {t t' : PeerTask}
    {e : Posted} {events : Chan Posted 100} (ht : s.tasks[i]? = some t)
    (hstep : t.Step s.now (s.orphan i) s.events.closed i (some e) t')
    (hsend : s.events.trySend e = .ok events) :
    Lives { s with tasks := s.tasks.set i t', events, posted := s.posted ++ [e] } := by
  obtain ⟨he, he'⟩ := ended_of_step hstep (Chan.trySend_eq_ok hsend).1
  have hpeer := ((hf.tasks i t ht).genuine ht hstep).1
  intro j u hu
  have hpend := pending_of_send hsend (s.tasks.set i t') (s.posted ++ [e]) j
  obtain ⟨rfl, rfl⟩ | ⟨hj, hu⟩ := getElem?_set_cases ht hu
  · obtain ⟨_, hc, hp⟩ | ⟨h, _, _⟩ | ⟨h, _, _⟩ := hl i t ht
    · obtain rfl | ⟨d, out, _, rfl, _⟩ := hstep.sends_cases
      · -- the task ends, and its `Close` is on the way
        have hone : closeOf i ⟨⟨i, none, .close t.addr⟩, .started⟩ = true := by simp [closeOf]
        rw [hp, hone] at hpend
        refine .inr (.inl ⟨he'.mpr rfl, ?_, hpend⟩)
        rw [hstep.addr]
        exact hc
      · rw [hp, closeOf_sendLAN rfl] at hpend
        refine .inl ⟨?_, ?_, hpend⟩
        · by_contra hc
          rw [Bool.not_eq_false, he'] at hc
          cases hc
        · rw [hstep.addr]
          exact hc
    · rw [he] at h
      cases h
    · rw [he] at h
      cases h
  · rw [closeOf_of_ne (by rw [hpeer]; exact hj)] at hpend
    exact (hl j u hu).of_same rfl Iff.rfl hpend

/-- Handling a `Close` removes the task that sent it. -/
theorem Lives.closes {s : Server P} (hl : Lives s) {j : Job} (hj : j ∈ work s)
    (hg : Genuine s.received s.handed s.tasks j.posted) {addr : SocketAddr}
    (he : j.posted.event = .close addr) :
    ∃ t, s.tasks[j.posted.peer]? = some t ∧ t.addr = addr ∧ t.ended = true ∧
      Cached s addr j.posted.peer ∧ pending s j.posted.peer = 1 := by
  obtain ⟨t, ht, ⟨_, _, _, h, _⟩ | ⟨_, h⟩⟩ := hg
  · rw [he] at h
    cases h
  · rw [he] at h
    cases h
    have hpos : 0 < pending s j.posted.peer :=
      List.countP_pos_iff.mpr ⟨j, hj, by simp [closeOf, he]⟩
    rcases hl _ t ht with ⟨_, _, hp⟩ | ⟨hend, hc, hp⟩ | ⟨_, _, hp⟩
    · omega
    · exact ⟨t, ht, rfl, hend, hc, hp⟩
    · omega

theorem Lives.close {s : Server P} (hl : Lives s) {jobs jobs' : List Job} {e : Posted}
    {addr : SocketAddr} (hjobs : s.jobs = jobs ++ ⟨e, .started⟩ :: jobs')
    (hg : Genuine s.received s.handed s.tasks e) (he : e.event = .close addr) :
    Lives { s with
      manager := s.manager.remove addr
      jobs := jobs ++ jobs'
      seen := s.seen ++ [.ended e addr] } := by
  have hmem := mem_work hjobs
  obtain ⟨t, ht, haddr, hend, hc, hp⟩ := hl.closes hmem hg he
  have hcached : ∀ a i, Cached { s with
      manager := s.manager.remove addr
      jobs := jobs ++ jobs'
      seen := s.seen ++ [.ended e addr] } a i ↔ a ≠ addr ∧ Cached s a i := by
    intro a i
    simp only [Cached, InnerPeerManager.lookup_cache_remove]
    by_cases ha : a = addr <;> simp [ha]
  intro i u hu
  have hpend : pending s i = pending { s with
      manager := s.manager.remove addr
      jobs := jobs ++ jobs'
      seen := s.seen ++ [.ended e addr] } i +
        if closeOf i ⟨e, .started⟩ then 1 else 0 := pending_eq hjobs i
  by_cases hi : e.peer = i
  · subst hi
    have hone : closeOf e.peer ⟨e, .started⟩ = true := by simp [closeOf, he]
    rw [hone, if_pos rfl] at hpend
    change s.tasks[e.peer]? = some u at hu
    rw [ht] at hu
    cases hu
    exact .inr (.inr ⟨hend, fun h => ((hcached _ _).mp h).1 haddr, by rw [hp] at hpend; omega⟩)
  · rw [closeOf_of_ne hi] at hpend
    refine (hl i u hu).of_same rfl ?_ hpend.symm
    rw [hcached]
    refine ⟨fun h => h.2, fun h => ⟨?_, h⟩⟩
    intro ha
    rw [ha] at h
    exact hi (hc.unique h)

/-- A datagram for a known peer, or the first of a new one. -/
theorem Lives.dispatch {plugin : Plugin P} {s : Server P} (hr : (lts plugin).Reachable s)
    (hl : Lives s) {d : Stamped} {peer peer' : Peer} {tasks : List PeerTask} {t : PeerTask}
    (hentry : s.entry d.packet.addr = (peer, tasks)) (hsender : peer'.sender = peer.sender)
    (ht : tasks[peer.sender]? = some t) (handed : List Handed) (seen : List Seen) :
    Lives { s with
      recv := .idle
      manager := s.manager.peerMut d.packet.addr peer fun _ => peer'
      tasks := tasks.set peer.sender (trySend t d).1
      handed
      seen } := by
  have haddr := ((flow_of_reachable hr).entry hentry ht).2
  have hcached : ∀ a i, Cached { s with
      recv := .idle
      manager := s.manager.peerMut d.packet.addr peer fun _ => peer'
      tasks := tasks.set peer.sender (trySend t d).1
      handed
      seen } a i ↔ if a = d.packet.addr then peer.sender = i else Cached s a i := by
    intro a i
    simp only [Cached, InnerPeerManager.lookup_cache_peerMut]
    by_cases ha : a = d.packet.addr <;> simp [ha, hsender]
  have hended : (trySend t d).1.ended = t.ended := by rw [ended, phase_trySend]; rfl
  intro i u hu
  change (tasks.set peer.sender (trySend t d).1)[i]? = some u at hu
  obtain ⟨hlook, rfl⟩ | ⟨hlook, hpeer, rfl⟩ := entry_cases hentry
  · have hknown : Cached s d.packet.addr peer.sender := ⟨peer, hlook, rfl⟩
    have hsame : ∀ a j, Cached { s with
        recv := .idle
        manager := s.manager.peerMut d.packet.addr peer fun _ => peer'
        tasks := s.tasks.set peer.sender (trySend t d).1
        handed
        seen } a j ↔ Cached s a j := by
      intro a j
      rw [hcached]
      split
      · rename_i ha
        rw [ha]
        exact ⟨fun h => h ▸ hknown, fun h => hknown.unique h⟩
      · rfl
    obtain ⟨rfl, rfl⟩ | ⟨_, hu⟩ := getElem?_set_cases ht hu
    · exact (hl _ t ht).of_same hended (by rw [addr_trySend, hsame]) rfl
    · exact (hl i u hu).of_same rfl (hsame _ _) rfl
  · have hnone : ∀ j, ¬ Cached s d.packet.addr j := by
      rintro j ⟨p, hp, _⟩
      rw [hlook] at hp
      cases hp
    have hlen : peer.sender = s.tasks.length := by rw [hpeer]; rfl
    obtain ⟨rfl, rfl⟩ | ⟨hi, hu⟩ := getElem?_set_cases ht hu
    · -- the new task is in the table and has sent nothing
      rw [hlen, List.getElem?_concat_length] at ht
      cases ht
      refine .inl ⟨hended, ?_, ?_⟩
      · rw [addr_trySend, hcached, if_pos haddr]
      · rw [hlen]
        exact pending_eq_zero hr (List.getElem?_eq_none (Nat.le_refl _))
    · have hu' : s.tasks[i]? = some u := by
        obtain hu | ⟨rfl, _⟩ := getElem?_concat_cases hu
        · exact hu
        · exact absurd hlen hi
      refine (hl i u hu').of_same rfl ?_ rfl
      rw [hcached]
      split
      · rename_i ha
        rw [ha]
        exact ⟨fun h => absurd h hi, fun h => absurd h (hnone i)⟩
      · rfl

theorem open_of_step {plugin : Plugin P} {s s' : Server P} {l : Label} (h : Step plugin s l s')
    (hopen : s'.events.closed = false) : s.events.closed = false := by
  cases h with
  | taskSends ht hstep hsend => exact (Chan.trySend_eq_ok hsend).1
  | take hrecv hjobs => exact (Chan.recv_eq_some hrecv).2 ▸ hopen
  | crash => cases hopen
  | tick | configure | receive | recvFails | filter | filterPanics | discard | pong | dispatch
  | task | close | route | sendLan | drop | sendTo | finish => exact hopen

theorem open_of_last {plugin : Plugin P} {s : Server P} {r : List (Label × Server P)}
    (hr : (lts plugin).Run s r) (hopen : (Lts.last s r).events.closed = false) :
    Lts.Always (fun s' => s'.events.closed = false) s r :=
  .of_last (p := fun s : Server P => s.events.closed = false) (fun _ _ _ => open_of_step) hr hopen

/-- Every step keeps the lives, as long as the event task is there. -/
theorem Lives.step {plugin : Plugin P} {s s' : Server P} {l : Label}
    (hr : (lts plugin).Reachable s) (hl : s.events.closed = false → Lives s)
    (h : Step plugin s l s') : s'.events.closed = false → Lives s' := by
  have hf := flow_of_reachable hr
  intro hopen
  cases h with
  | dispatch h hparse hping hentry hon ht =>
    exact (hl hopen).dispatch hr hentry (Peer.sender_onPacket hon) ht _ _
  | task ht hstep => exact (hl hopen).task ht hstep hopen
  | taskSends ht hstep hsend =>
    exact (hl (Chan.trySend_eq_ok hsend).1).taskSends hf ht hstep hsend
  | @take e events hrecv hjobs =>
    have hq := Chan.recv_eq_some hrecv
    have hl := hl (hq.2 ▸ hopen)
    intro i t ht
    refine (hl i t ht).of_same rfl Iff.rfl ?_
    simp only [pending, work, hq.1, List.map_cons, List.countP_append, List.countP_cons,
      List.countP_nil]
    omega
  | @close jobs jobs' e addr hjobs he =>
    have hmem := mem_work hjobs
    exact (hl hopen).close hjobs (genuine_of_mem_work hr hmem) he
  | route hjobs he haddrs =>
    intro i t ht
    refine (hl hopen i t ht).of_same rfl ?_ (pending_of_going hjobs he _ i)
    simp only [Cached, InnerPeerManager.cache_getDestSockaddr]
  | sendLan hjobs he | sendTo hjobs he =>
    intro i t ht
    exact (hl hopen i t ht).of_same rfl Iff.rfl (pending_of_going hjobs he _ i)
  | drop hjobs he | finish hjobs he =>
    intro i t ht
    exact (hl hopen i t ht).of_same rfl Iff.rfl (pending_of_done hjobs he i)
  | crash => cases hopen
  | tick | configure | receive | recvFails | filter | filterPanics | discard | pong =>
    exact hl hopen

theorem lives_of_reachable {plugin : Plugin P} {s : Server P} (h : (lts plugin).Reachable s)
    (hopen : s.events.closed = false) : Lives s := by
  have hall : (lts plugin).Reachable s ∧ (s.events.closed = false → Lives s) := by
    refine Lts.invariant
      (p := fun s => (lts plugin).Reachable s ∧ (s.events.closed = false → Lives s)) ?_
      (fun s l s' hs hstep => ⟨hs.1.step hstep, Lives.step hs.1 hs.2 hstep⟩) h
    rintro s ⟨ignoreIdle, plugins, rfl⟩
    exact ⟨.init ⟨ignoreIdle, plugins, rfl⟩, fun _ i t ht => (nomatch ht)⟩
  exact hall.2 hopen

/-! ### One instance -/

/-- Task `i` is an instance of `addr` that runs, or whose `Close` is not handled. -/
def Unsettled (s : Server P) (addr : SocketAddr) (i : PeerId) : Prop :=
  ∃ t, s.tasks[i]? = some t ∧ t.addr = addr ∧ (t.ended = false ∨ 0 < pending s i)

/-- The table and the tasks agree. -/
structure OneInstance (s : Server P) : Prop where
  /-- An address in the table has one instance, the one in the table. -/
  cached : ∀ addr p, s.manager.cache.lookup addr = some p →
    Unsettled s addr p.sender ∧ ∀ i, Unsettled s addr i → i = p.sender
  /-- An address that is not there has none. -/
  absent : ∀ addr, addr ∉ s.manager.cache → ∀ i, ¬ Unsettled s addr i
  /-- A task has at most one `Close` that is not handled, -/
  single : ∀ i, pending s i ≤ 1
  /-- and none as long as it runs. -/
  running : ∀ i t, s.tasks[i]? = some t → t.ended = false → pending s i = 0
  /-- The entry a `Close` removes is the one of the task that sent it. -/
  closes : ∀ j ∈ work s, ∀ addr, j.posted.event = .close addr →
    ∃ p, s.manager.cache.lookup addr = some p ∧ p.sender = j.posted.peer

theorem Lives.unsettled_iff {s : Server P} (hl : Lives s) (hf : Flow s) (addr : SocketAddr)
    (i : PeerId) : Unsettled s addr i ↔ Cached s addr i := by
  constructor
  · rintro ⟨t, ht, rfl, h⟩
    exact (hl i t ht).cached_iff.mpr h
  · intro hc
    obtain ⟨p, hp, rfl⟩ := hc
    obtain ⟨t, ht, haddr⟩ := hf.cache addr p hp
    exact ⟨t, ht, haddr, (hl _ t ht).cached_iff.mp ⟨p, haddr ▸ hp, rfl⟩⟩

/-- **A `Close` never removes a live peer.**  In every reachable state, as long
as the event task is there, an address in the table has exactly one instance
that runs or whose `Close` is not handled, the one in the table, and an address
that is not there has none. -/
theorem one_instance {plugin : Plugin P} {s : Server P} (h : (lts plugin).Reachable s)
    (hopen : s.events.closed = false) : OneInstance s := by
  have hf := flow_of_reachable h
  have hl := lives_of_reachable h hopen
  refine ⟨?_, ?_, ?_, ?_, ?_⟩
  · intro addr p hp
    have hc : Cached s addr p.sender := ⟨p, hp, rfl⟩
    refine ⟨(hl.unsettled_iff hf _ _).mpr hc, ?_⟩
    intro i hi
    exact ((hl.unsettled_iff hf _ _).mp hi).unique hc
  · intro addr ha i hi
    obtain ⟨p, hp, _⟩ := (hl.unsettled_iff hf _ _).mp hi
    exact ha (AList.lookup_isSome.mp (by rw [hp]; rfl))
  · intro i
    cases ht : s.tasks[i]? with
    | some t =>
      rcases hl i t ht with ⟨_, _, hp⟩ | ⟨_, _, hp⟩ | ⟨_, _, hp⟩
      all_goals omega
    | none =>
      rw [pending_eq_zero h ht]
      omega
  · intro i t ht he
    rcases hl i t ht with ⟨_, _, hp⟩ | ⟨hend, _, _⟩ | ⟨hend, _, _⟩
    · exact hp
    · rw [he] at hend
      cases hend
    · rw [he] at hend
      cases hend
  · intro j hj addr he
    obtain ⟨t, _, _, _, hc, _⟩ := hl.closes hj (genuine_of_mem_work h hj) he
    exact hc

/-- Bob goes quiet, his task ends, and he is back before its `Close` is handled. -/
def returnTurns : List Turn :=
  arrive ⟨[0], bob⟩ ++ [.task 0, .task 0, .task 0] ++ goQuiet 0 ++ [.task 0] ++ arrive ⟨[0], bob⟩

theorem one_instance_returnTurns : OneInstance (outcome noPlugin [] returnTurns) ∧
    pending (outcome noPlugin [] returnTurns) 0 = 1 :=
  ⟨one_instance (reachable_outcome noPlugin [] returnTurns) (by decide), by decide⟩

end Server

end SlpServer
